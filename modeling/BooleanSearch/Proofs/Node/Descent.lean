import BooleanSearch.Node.Cursor
import BooleanSearch.Proofs.Node.Reading

/-!
# Reading with a cursor, against the machine

The two functions that read with a cursor do with the tokens ahead what the machine does that is given
one token after the other.

* `Cursor.Follows now onward x`: the reading `x` has done its part of what the machine does.
* `Cursor.group_follows`, `Cursor.operand_follows`: an operand, if the rows further on are read so.
* `Cursor.row_follows`: every row, whatever has been read of it and whatever is around it.
* `Cursor.read_eq`, `Cursor.read_start`: a tree is read, or refused, as by `Node.readTokens`.
-/

namespace BooleanSearch
set_option autoImplicit false

namespace Cursor

/-- The tokens that have not been read. -/
def ahead (c : Cursor) : List Token := c.tokens.drop c.position

theorem ahead_of_some {c : Cursor} {t : Token} (ht : c.token? = some t) :
    c.ahead = t :: c.next.ahead := by
  obtain ⟨hlt, rfl⟩ := List.getElem?_eq_some_iff.mp ht
  rw [next_of_some ht]
  exact List.drop_eq_getElem_cons hlt

theorem ahead_of_none {c : Cursor} (ht : c.token? = none) : c.ahead = [] :=
  List.drop_eq_nil_iff.mpr (List.getElem?_eq_none_iff.mp ht)

theorem ahead_next_of_none {c : Cursor} (ht : c.token? = none) : c.next.ahead = [] := by
  rw [next_of_none ht, ahead_of_none ht]

/-! ## Keeping up with the machine -/

/-- What is still to be done with the tokens ahead. -/
abbrev Onward := List Token → Except Fault (List Node) × List Token

/-- Going on with what was read, or stopping at the fault. -/
def goOn {α : Type} (onward : α → Onward) : Except Fault α → Onward
  | .ok a => onward a
  | .error fault => fun rest => (.error fault, rest)

theorem run_cons (limit : Nat) (b : Builder) (t : Token) (ts : List Token) :
    b.run limit (t :: ts) = goOn (Builder.run limit) (b.step limit t) ts := by
  rw [Builder.run]
  cases b.step limit t <;> rfl

/-- All that is done, `now`, is what is done behind the reading, `onward`, with what was read. -/
def Follows {α : Type} {c : Cursor} (now : Except Fault (List Node) × List Token)
    (onward : α → Onward) (x : Reading c α) : Prop :=
  now = goOn onward x.result x.behind.ahead

namespace Follows
variable {α β : Type} {c d : Cursor} {now : Except Fault (List Node) × List Token}
  {onward : α → Onward} {further : β → Onward} {x : Reading c α}

theorem stop {result : Except Fault α} (h : now = goOn onward result c.next.ahead) :
    Follows now onward (.stop result : Reading c α) := h

theorem since {x : Reading d α} (h : c.next.Forward d.next) (hx : Follows now onward x) :
    Follows now onward (x.since h) := hx

theorem map {f : α → β} (hx : Follows now (fun a => further (f a)) x) :
    Follows now further (x.map f) := by
  obtain ⟨result, behind, hforward⟩ := x
  cases result <;> exact hx

theorem bind {f : α → (q : Cursor) → c.next.Forward q → Reading q β} (hx : Follows now onward x)
    (hf : ∀ a q hq, Follows (onward a q.ahead) further (f a q hq)) :
    Follows now further (x.bind f) := by
  obtain ⟨result, behind, hforward⟩ := x
  cases result with
  | error fault => exact hx
  | ok a => exact Eq.trans hx (hf a behind hforward)

end Follows

/-! ### The row that is being filled -/

theorem join_inside (r : Filling) (outer : List OpenRow) (field : Option Field) :
    (r.inside outer field).join = r.join.map fun r => r.inside outer field := by
  obtain ⟨nodes, waiting⟩ := r
  unfold Filling.join Builder.join Filling.inside
  dsimp only
  cases waiting.isEmpty with
  | true => rfl
  | false => cases Connector.ofKeywords? (waiting.map (·.1)) <;> rfl

theorem waiting_of_join {r joined : Filling} (h : r.join = .ok joined) : joined.waiting = [] := by
  obtain ⟨nodes, waiting⟩ := r
  unfold Filling.join Builder.join Filling.inside at h
  cases waiting with
  | nil =>
    obtain rfl := Except.ok.inj h
    rfl
  | cons k ks =>
    dsimp only at h
    cases hc : Connector.ofKeywords? ((k :: ks).map (·.1)) with
    | none =>
      rw [hc] at h
      cases h
    | some c =>
      rw [hc] at h
      obtain rfl := Except.ok.inj h
      rfl

theorem putTerm_inside (r : Filling) (outer : List OpenRow) (field : Option Field)
    (value : String) : (r.inside outer field).putTerm value =
      r.join.map fun r => (r.put (.term value field)).inside outer none := by
  rw [Builder.putTerm, join_inside]
  cases r.join <;> rfl

theorem openGroup_inside (limit : Nat) (r : Filling) (outer : List OpenRow) (field : Option Field)
    (span : Span) : (r.inside outer field).openGroup limit span = r.join >>= fun r =>
      if limit ≤ outer.length then .error ⟨.tooDeep limit, some span⟩
      else .ok (Filling.empty.inside (⟨r.nodes, field⟩ :: outer) none) := by
  rw [Builder.openGroup, join_inside]
  cases r.join with
  | error fault => rfl
  | ok joined =>
    change (if limit ≤ outer.length then _ else _) = if limit ≤ outer.length then _ else _
    split <;> rfl

/-! ### Operands and rows -/

/-- What a row leaves to be done when it has ended: nothing if it is the outermost one, and otherwise
to go on with the row that its group is in. -/
def behindRow (limit : Nat) : List OpenRow → List Node → Onward
  | [], nodes => fun rest => (.ok nodes, rest)
  | around :: outer, nodes =>
    Builder.run limit ⟨outer, .group nodes around.field :: around.before, [], none⟩

/-- What an operand leaves to be done: to go on with its row. -/
def behindOperand (limit : Nat) (outer : List OpenRow) (r : Filling) : Onward :=
  Builder.run limit (r.inside outer none)

/-- Whatever has been read of a row and whatever is around it, the rest of the row is read as by the
machine. -/
def RowFollows (c : Cursor) : Prop :=
  ∀ (outer : List OpenRow) (r : Filling),
    Follows (Builder.run c.limit (r.inside outer none) c.ahead) (behindRow c.limit outer)
      (c.row outer.length r)

theorem RowFollows.of_forward {c q : Cursor} (hq : RowFollows q) (hforward : c.Forward q)
    (outer : List OpenRow) (r : Filling) :
    Follows (Builder.run c.limit (r.inside outer none) q.ahead) (behindRow c.limit outer)
      (q.row outer.length r) :=
  hforward.limit ▸ hq outer r

/-- A group is read, if there is room for one more, behind what was joined before it. -/
theorem group_follows {c : Cursor} {joined : Filling} (hjoined : joined.waiting = [])
    (hrow : RowFollows c.next) (outer : List OpenRow) (field : Option Field) (span : Span) :
    Follows
      (goOn (Builder.run c.limit)
        (if c.limit ≤ outer.length then .error ⟨.tooDeep c.limit, some span⟩
          else .ok (Filling.empty.inside (⟨joined.nodes, field⟩ :: outer) none)) c.next.ahead)
      (behindOperand c.limit outer)
      (if c.limit < outer.length + 1 then .stop (.error ⟨.tooDeep c.limit, some span⟩)
        else ((c.next.row (outer.length + 1) .empty).map fun children =>
          joined.put (.group children field)).since (forward_next c.next) : Reading c Filling) := by
  by_cases hroom : c.limit ≤ outer.length
  · rw [if_pos hroom, if_pos (Nat.lt_succ_of_le hroom)]
    exact .stop rfl
  · have hbehind : behindRow c.limit (⟨joined.nodes, field⟩ :: outer) =
        fun children => behindOperand c.limit outer (joined.put (.group children field)) := by
      funext children
      rw [behindRow, behindOperand, Filling.inside, Filling.put, hjoined]
    have hinside := hrow.of_forward (forward_next c) (⟨joined.nodes, field⟩ :: outer) .empty
    rw [hbehind] at hinside
    rw [if_neg hroom, if_neg fun h => hroom (Nat.le_of_lt_succ h)]
    exact .since _ (.map hinside)

/-- An operand without a field is read only where a term or a group begins. -/
def Fits (c : Cursor) (field : Option Field) : Prop :=
  (∃ f, field = some f) ∨
    ∃ t, c.token? = some t ∧ (t.kind = .opening ∨ ∃ value, t.kind = .term value)

theorem operand_follows {c : Cursor} {field : Option Field} (hfits : c.Fits field)
    (hrow : ∀ t, c.token? = some t → RowFollows c.next) (outer : List OpenRow) (r : Filling) :
    Follows (Builder.run c.limit (r.inside outer field) c.ahead) (behindOperand c.limit outer)
      (c.operand field outer.length r) := by
  rw [operand]
  split
  · next hnone =>
    obtain ⟨f, rfl⟩ := hfits.resolve_right (by simp [hnone])
    refine .stop ?_
    rw [ahead_of_none hnone, ahead_next_of_none hnone]
    rfl
  · next t ht =>
    rw [ahead_of_some ht, run_cons]
    obtain ⟨kind, span⟩ := t
    cases kind with
    | term value =>
      change Follows (goOn _ ((r.inside outer field).putTerm value) _) _ _
      rw [putTerm_inside]
      dsimp only
      cases r.join <;> exact .stop rfl
    | opening =>
      change Follows (goOn _ ((r.inside outer field).openGroup _ span) _) _ _
      rw [openGroup_inside]
      dsimp only
      cases hjoin : r.join with
      | error fault => exact .stop rfl
      | ok joined => exact group_follows (waiting_of_join hjoin) (hrow _ ht) outer field span
    -- A field waits in the machine, too, which asks for a term or a group.
    | _ =>
      obtain ⟨f, rfl⟩ := hfits.resolve_right (by simp [ht])
      exact .stop rfl

section Rows
variable {c : Cursor} (hrows : ∀ q, c.next.Forward q → RowFollows q) (outer : List OpenRow)
  (r : Filling)
include hrows

theorem rest_follows {d : Cursor} {now : Except Fault (List Node) × List Token}
    {x : Reading d Filling} (hd : c.next.Forward d.next)
    (hx : Follows now (behindOperand c.limit outer) x) :
    Follows now (behindRow c.limit outer)
      (x.bind fun joined q _ => q.row outer.length joined) := by
  refine hx.bind fun joined q hq => ?_
  have hbehind : c.next.Forward q := hd.trans hq
  exact (hrows q hbehind).of_forward ((forward_next c).trans hbehind) outer joined

/-- Behind a field code, its operand is read and then the rest of the row. -/
theorem code_follows (f : Field) :
    Follows (Builder.run c.limit (r.inside outer (some f)) c.next.ahead) (behindRow c.limit outer)
      ((c.next.operand (some f) outer.length r).bind fun joined q _ => q.row outer.length joined) := by
  have hfirst := operand_follows (c := c.next) (.inl ⟨f, rfl⟩) (fun _ _ => hrows _ (forward_next _))
    outer r
  rw [(forward_next c).limit] at hfirst
  exact rest_follows hrows outer (forward_next c.next) hfirst

/-- The machine takes the token at once, and the row only in the operand behind the step back. -/
theorem again_follows {t : Token} (ht : c.token? = some t)
    (hkind : t.kind = .opening ∨ ∃ value, t.kind = .term value) :
    Follows (Builder.run c.limit (r.inside outer none) c.ahead) (behindRow c.limit outer)
      ((c.next.back.operand none outer.length r).bind fun joined q _ =>
        q.row outer.length joined) := by
  have hfirst : Follows (Builder.run c.limit (r.inside outer none) c.ahead)
      (behindOperand c.limit outer) (c.next.back.operand none outer.length r) := by
    rw [back_next ht]
    exact operand_follows (.inr ⟨t, ht, hkind⟩) (fun _ _ => hrows _ (.refl _)) outer r
  exact rest_follows hrows outer (forward_again ht) hfirst

end Rows

/-- The induction is on the number of tokens ahead: an operand reads one at least, so that the row
goes on, and a group begins, further on. -/
theorem row_follows (c : Cursor) : RowFollows c := by
  intro outer r
  rw [row]
  split
  · next hnone =>
    refine .stop ?_
    rw [ahead_of_none hnone, ahead_next_of_none hnone]
    cases outer <;> rfl
  · next t ht =>
    have hrows (q : Cursor) (hq : c.next.Forward q) : RowFollows q :=
      have := left_lt ht hq
      row_follows q
    have hrun := run_cons c.limit (r.inside outer none) t c.next.ahead
    rw [← ahead_of_some ht] at hrun
    obtain ⟨kind, span⟩ := t
    cases kind with
    | keyword k =>
      rw [hrun]
      exact .since _ ((hrows _ (.refl _)).of_forward (forward_next c) outer (r.wait k span))
    | fieldPrefix code =>
      rw [hrun]
      dsimp only
      cases hf : Field.ofCode? code with
      | none =>
        rw [Filling.inside, Builder.step]
        dsimp only
        rw [hf]
        exact .stop rfl
      | some f =>
        have hstep := Builder.step_code c.limit outer r.nodes r.waiting code f span hf
        rw [Filling.inside, hstep]
        exact .since _ (code_follows hrows outer r f)
    | term value => exact .since _ (again_follows hrows outer r ht (.inr ⟨value, rfl⟩))
    | opening => exact .since _ (again_follows hrows outer r ht (.inl rfl))
    | closing =>
      rw [hrun]
      cases outer <;> exact .stop rfl
    | word text | illegal =>
      rw [hrun]
      exact .stop rfl
termination_by c.left

/-! ## Trees -/

theorem read_eq (c : Cursor) : Node.readTokens c.limit c.ahead = (c.read.1, c.read.2.ahead) := by
  have hrow : Builder.start.run c.limit c.ahead = _ := row_follows c [] .empty
  rw [Node.readTokens, hrow, read]
  dsimp only
  cases (c.row 0 .empty).result <;> rfl

/-- The tree that tokens make is the one that is read from the first of them on. -/
theorem read_start (limit : Nat) (tokens : List Token) :
    (start limit tokens).read.1 = Node.ofTokens limit tokens :=
  (congrArg Prod.fst (read_eq (start limit tokens))).symm

theorem forward_read (c : Cursor) : c.next.Forward c.read.2 := (c.row 0 .empty).forward

end Cursor
end BooleanSearch
