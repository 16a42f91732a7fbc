import Mathlib.Data.Nat.Find
import Mathlib.Logic.Function.Iterate
import Mathlib.Order.Monotone.Basic
import BooleanSearch.Proofs.Node.Descent

/-!
# Reading on where a reading stopped

Tokens that make no tree are read up to the one that is refused, and can be read on behind it.

* `Cursor.read_of_ok`, `Cursor.read_of_error`, `Cursor.read_at_end`: where a reading stops.
* `Cursor.read_fresh`: a reading gives what it gives with the tokens ahead on their own.
* `Cursor.after`: the cursor after some readings.
* `Cursor.Progress`, `Cursor.progress`: reading on again and again moves forward and comes to an end.
-/

namespace BooleanSearch
set_option autoImplicit false

/-- A row is finished only when the tokens end. -/
theorem Builder.rest_of_run {limit : Nat} {b : Builder} {ts rest : List Token} {parts : List Node}
    (h : b.run limit ts = (.ok parts, rest)) : rest = [] := by
  induction ts generalizing b with
  | nil => exact (Prod.mk.inj h).2.symm
  | cons t ts ih =>
    rw [Builder.run] at h
    cases hstep : b.step limit t with
    | ok b' =>
      rw [hstep] at h
      exact ih h
    | error fault =>
      rw [hstep] at h
      cases (Prod.mk.inj h).1

theorem Node.rest_of_readTokens {limit : Nat} {ts rest : List Token} {tree : Node}
    (h : readTokens limit ts = (.ok tree, rest)) : rest = [] := by
  obtain ⟨hresult, hrest⟩ := Prod.mk.inj h
  cases hrun : Builder.start.run limit ts with
  | mk parts left =>
    rw [hrun] at hresult hrest
    cases parts with
    | ok parts => exact hrest ▸ Builder.rest_of_run hrun
    | error fault => cases hresult

namespace Cursor

/-! ## One reading -/

theorem ahead_eq_nil_iff {c : Cursor} : c.ahead = [] ↔ c.tokens.length ≤ c.position :=
  List.drop_eq_nil_iff

theorem forward_behind (c : Cursor) : c.Forward c.read.2 := (forward_next c).trans (forward_read c)

theorem read_at_end {c : Cursor} (hend : c.tokens.length ≤ c.position) :
    c.read.1 = .ok (.root []) := by
  have hread := read_eq c
  rw [ahead_eq_nil_iff.mpr hend] at hread
  exact (Prod.mk.inj hread).1.symm

theorem read_of_ok {c : Cursor} {tree : Node} (hok : c.read.1 = .ok tree) :
    c.tokens.length ≤ c.read.2.position := by
  have hread := read_eq c
  rw [hok] at hread
  have hend := ahead_eq_nil_iff.mp (Node.rest_of_readTokens hread)
  rwa [(forward_behind c).tokens] at hend

/-- Nothing is open before the first token, so that no reading fails before it has taken one. -/
theorem read_of_error {c : Cursor} {fault : Fault} (herror : c.read.1 = .error fault) :
    c.position < c.read.2.position := by
  have hlt : c.position < c.tokens.length := by
    by_contra hend
    rw [read_at_end (Nat.not_lt.mp hend)] at herror
    cases herror
  have hmoved := (forward_read c).position_le
  rw [next, if_pos hlt] at hmoved
  exact hmoved

theorem length_ahead (c : Cursor) : c.ahead.length = c.left := List.length_drop

theorem Forward.eq_mk {p q : Cursor} (h : Forward p q) : q = ⟨p.limit, p.tokens, q.position⟩ := by
  rw [← h.limit, ← h.tokens]

/-- How far a cursor has moved, by how many tokens it has left. -/
theorem Forward.position_sub {p q : Cursor} (h : Forward p q)
    (hwithin : p.position ≤ p.tokens.length) : q.position - p.position = p.left - q.left := by
  have hend := h.within hwithin
  have hle := h.position_le
  rw [left, left, h.tokens]
  omega

/-- A cursor over the tokens ahead alone stops with the same result, as many tokens further on. -/
theorem read_fresh {c : Cursor} (hwithin : c.position ≤ c.tokens.length) :
    (start c.limit c.ahead).read =
      (c.read.1, ⟨c.limit, c.ahead, c.read.2.position - c.position⟩) := by
  have hread := (read_eq (start c.limit c.ahead)).symm.trans (read_eq c)
  obtain ⟨hresult, hahead⟩ := Prod.mk.inj hread
  have hfresh := forward_behind (start c.limit c.ahead)
  have hleft : (start c.limit c.ahead).read.2.left = c.read.2.left := by
    rw [← length_ahead, hahead, length_ahead]
  have hposition : (start c.limit c.ahead).read.2.position = c.read.2.position - c.position := by
    rw [(forward_behind c).position_sub hwithin, ← hleft, ← length_ahead c]
    exact hfresh.position_sub (Nat.zero_le _)
  have hcursor := hfresh.eq_mk
  rw [hposition] at hcursor
  exact Prod.ext hresult hcursor

/-! ## Reading on -/

variable (limit : Nat) (tokens : List Token)

/-- The cursor over some tokens after `times` readings. -/
def after (times : Nat) : Cursor := (fun c => c.read.2)^[times] (start limit tokens)

theorem after_succ (times : Nat) :
    after limit tokens (times + 1) = (after limit tokens times).read.2 :=
  Function.iterate_succ_apply' _ _ _

theorem forward_after (times : Nat) : (start limit tokens).Forward (after limit tokens times) := by
  induction times with
  | zero => exact .refl _
  | succ times ih =>
    rw [after_succ]
    exact ih.trans (forward_behind _)

@[simp] theorem limit_after (times : Nat) : (after limit tokens times).limit = limit :=
  (forward_after limit tokens times).limit

@[simp] theorem tokens_after (times : Nat) : (after limit tokens times).tokens = tokens :=
  (forward_after limit tokens times).tokens

theorem after_eq (times : Nat) :
    after limit tokens times = ⟨limit, tokens, (after limit tokens times).position⟩ :=
  (forward_after limit tokens times).eq_mk

theorem after_within (times : Nat) : (after limit tokens times).position ≤ tokens.length :=
  (forward_after limit tokens times).within (Nat.zero_le _)

theorem ahead_after (times : Nat) :
    (after limit tokens times).ahead = tokens.drop (after limit tokens times).position := by
  rw [ahead, tokens_after]

theorem monotone_position_after : Monotone fun times => (after limit tokens times).position := by
  refine monotone_nat_of_le_succ fun times => ?_
  rw [after_succ]
  exact (forward_behind _).position_le

theorem after_succ_of_ok {times : Nat} {tree : Node}
    (hok : (after limit tokens times).read.1 = .ok tree) :
    (after limit tokens (times + 1)).position = tokens.length := by
  have hend := read_of_ok hok
  rw [tokens_after, ← after_succ] at hend
  exact (after_within limit tokens _).antisymm hend

theorem after_succ_of_error {times : Nat} {fault : Fault}
    (herror : (after limit tokens times).read.1 = .error fault) :
    (after limit tokens times).position < (after limit tokens (times + 1)).position := by
  rw [after_succ]
  exact read_of_error herror

theorem readTimes_eq (times : Nat) (c : Cursor) :
    readTimes times c = (List.range times).map fun k => ((fun c => c.read.2)^[k] c).read.1 := by
  induction times generalizing c with
  | zero => rfl
  | succ times ih =>
    rw [readTimes, List.range_succ_eq_map, List.map_cons, List.map_map]
    exact congrArg _ (ih c.read.2)

/-- Each reading that fails moves the cursor, so that as many tokens are read as readings failed. -/
theorem le_position_after (times : Nat)
    (herrors : ∀ k < times, ∃ fault, (after limit tokens k).read.1 = .error fault) :
    times ≤ (after limit tokens times).position := by
  induction times with
  | zero => exact Nat.zero_le _
  | succ times ih =>
    obtain ⟨fault, herror⟩ := herrors times (Nat.lt_succ_self _)
    have hbefore := ih fun k hk => herrors k (Nat.lt_succ_of_lt hk)
    exact Nat.succ_le_of_lt (hbefore.trans_lt (after_succ_of_error limit tokens herror))

theorem empty_of_lt_of_ok {j k : Nat} {tree : Node}
    (hok : (after limit tokens j).read.1 = .ok tree) (hlt : j < k) :
    (after limit tokens k).read.1 = .ok (.root []) := by
  refine read_at_end ?_
  rw [tokens_after, ← after_succ_of_ok limit tokens hok]
  exact monotone_position_after limit tokens hlt

theorem exists_error_iff {ε α : Type} {x : Except ε α} :
    (∃ e, x = .error e) ↔ ¬∃ a, x = .ok a := by
  cases x <;> simp

/-- Some reading makes a tree, since there are not enough tokens for all of them to fail. -/
theorem exists_ok : ∃ k tree, (after limit tokens k).read.1 = .ok tree := by
  by_contra hnone
  have hfar := le_position_after limit tokens (tokens.length + 1) fun k _ =>
    exists_error_iff.mpr fun hok => hnone ⟨k, hok⟩
  exact Nat.not_le_of_lt hfar (after_within limit tokens _)

/-- The readings that fail are those before the first tree. -/
theorem failures_after :
    ∃ count ≤ tokens.length,
      ∀ k, (∃ fault, (after limit tokens k).read.1 = .error fault) ↔ k < count := by
  classical
  have hsome := exists_ok limit tokens
  obtain ⟨tree, hfirst⟩ := Nat.find_spec hsome
  have hbefore : ∀ k < Nat.find hsome, ¬∃ tree, (after limit tokens k).read.1 = .ok tree :=
    fun k => Nat.find_min hsome
  refine ⟨Nat.find hsome, ?_, fun k => exists_error_iff.trans ⟨fun hfails => ?_, hbefore k⟩⟩
  · have hcount := le_position_after limit tokens _ fun k hk => exists_error_iff.mpr (hbefore k hk)
    exact hcount.trans (after_within limit tokens _)
  · by_contra hk
    obtain heq | hlt := (Nat.not_lt.mp hk).eq_or_lt
    · exact hfails ⟨tree, heq ▸ hfirst⟩
    · exact hfails ⟨_, empty_of_lt_of_ok limit tokens hfirst hlt⟩

/-- What reading tokens again and again with one cursor does: where the cursor stands before each
reading, and what the reading gives. -/
structure Progress (limit : Nat) (tokens : List Token) (position : Nat → Nat)
    (result : Nat → Except Fault Node) : Prop where
  begins : position 0 = 0
  /-- Each reading begins where the one before it stopped. -/
  reads (k : Nat) : read ⟨limit, tokens, position k⟩ =
    (result k, ⟨limit, tokens, position (k + 1)⟩)
  results (times : Nat) : Node.readRepeatedly limit times tokens = (List.range times).map result
  /-- A reading gives what a cursor gives that begins with the tokens that are left. -/
  fresh (k : Nat) : read (start limit (tokens.drop (position k))) =
    (result k, ⟨limit, tokens.drop (position k), position (k + 1) - position k⟩)
  /-- The machine that is given the tokens that are left gives the same. -/
  tree (k : Nat) : Node.readTokens limit (tokens.drop (position k)) =
    (result k, tokens.drop (position (k + 1)))
  forward : Monotone position
  within (k : Nat) : position k ≤ tokens.length
  /-- A reading that fails has read a token. -/
  fails_moving {k : Nat} {fault : Fault} :
    result k = .error fault → position k < position (k + 1)
  /-- A reading that makes a tree has read all the tokens. -/
  ends {k : Nat} {tree : Node} : result k = .ok tree → position (k + 1) = tokens.length
  /-- Readings fail up to some reading and not from then on, and no more of them than there are
  tokens. -/
  failures : ∃ count ≤ tokens.length, ∀ k, (∃ fault, result k = .error fault) ↔ k < count
  /-- After the first tree there are empty ones. -/
  empty {j k : Nat} {tree : Node} : result j = .ok tree → j < k → result k = .ok (.root [])

theorem progress (limit : Nat) (tokens : List Token) :
    Progress limit tokens (fun k => (after limit tokens k).position)
      (fun k => (after limit tokens k).read.1) where
  begins := rfl
  reads k := by
    rw [← after_eq, ← after_eq, after_succ]
  results times := readTimes_eq times (start limit tokens)
  fresh k := by
    have hread := read_fresh (c := after limit tokens k) (by simpa using after_within limit tokens k)
    rwa [limit_after, ahead_after, ← after_succ] at hread
  tree k := by
    have hread := read_eq (after limit tokens k)
    rwa [limit_after, ← after_succ, ahead_after, ahead_after] at hread
  forward := monotone_position_after limit tokens
  within := after_within limit tokens
  fails_moving := after_succ_of_error limit tokens
  ends := after_succ_of_ok limit tokens
  failures := failures_after limit tokens
  empty := empty_of_lt_of_ok limit tokens

end Cursor
end BooleanSearch
