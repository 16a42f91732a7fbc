import BooleanSearch.Proofs.Text.Runs
import BooleanSearch.Rule.Term

/-!
# What the rule for one term lets through

* `TermText value`: what the text of a term looks like, said without the order in which the rule asks.
* `Rule.term_eq_ok_iff`: the texts that keep the rule are these.
* `Wildcard.first?_eq_some_iff`: in a text with one wildcard at most, the first one is the one that is
  there.
* `TermText.first?_multiple`, `TermText.first?_single`, `TermText.first?_none`: where the wildcard of a
  term is seen.
-/

namespace BooleanSearch
set_option autoImplicit false

/-! ## Wildcards in a text -/

namespace Wildcard

/-- The character that a wildcard is written with. -/
def mark : Wildcard → Char
  | .single => '?'
  | .multiple => '*'

theorem ofChar?_eq_some_iff (c : Char) (w : Wildcard) : ofChar? c = some w ↔ c = w.mark := by
  unfold ofChar?
  split <;> cases w <;> simp_all [mark]

theorem ofChar?_eq_none_iff (c : Char) : ofChar? c = none ↔ c ≠ '?' ∧ c ≠ '*' := by
  unfold ofChar?
  split <;> simp_all

theorem countP_isMark (text : List Char) :
    text.countP isMark = text.count '?' + text.count '*' := by
  induction text with
  | nil => rfl
  | cons c text ih =>
    rw [List.countP_cons, List.count_cons, List.count_cons, ih]
    by_cases hq : c = '?'
    · subst hq
      simp [isMark, ofChar?]
      omega
    · by_cases ha : c = '*'
      · subst ha
        simp [isMark, ofChar?]
        omega
      · have hmark : isMark c = false := by
          rw [Bool.eq_false_iff]
          intro h
          rcases (isMark_iff c).mp h with rfl | rfl
          · exact hq rfl
          · exact ha rfl
        simp [hmark, hq, ha]

theorem first?_eq_none_iff (text : List Char) :
    first? text = none ↔ '?' ∉ text ∧ '*' ∉ text := by
  unfold first?
  rw [List.findSome?_eq_none_iff]
  constructor
  · intro h
    exact ⟨fun hm => absurd (h _ hm) (by decide), fun hm => absurd (h _ hm) (by decide)⟩
  · rintro ⟨hq, ha⟩ c hc
    rw [ofChar?_eq_none_iff]
    exact ⟨fun e => hq (e ▸ hc), fun e => ha (e ▸ hc)⟩

/-- Where there is one wildcard at most, the first one is any one that is there. -/
theorem first?_eq_some_iff (text : List Char) (h : text.count '?' + text.count '*' ≤ 1)
    (w : Wildcard) : first? text = some w ↔ w.mark ∈ text := by
  constructor
  · intro hfirst
    obtain ⟨c, hc, hmark⟩ := List.exists_of_findSome?_eq_some hfirst
    rw [ofChar?_eq_some_iff] at hmark
    exact hmark ▸ hc
  · intro hm
    cases hfirst : first? text with
    | none =>
      obtain ⟨hq, ha⟩ := (first?_eq_none_iff text).mp hfirst
      cases w with
      | single => exact absurd hm hq
      | multiple => exact absurd hm ha
    | some v =>
      obtain ⟨c, hc, hmark⟩ := List.exists_of_findSome?_eq_some hfirst
      rw [ofChar?_eq_some_iff] at hmark
      subst hmark
      have hv := List.count_pos_iff.mpr hc
      have hw := List.count_pos_iff.mpr hm
      -- two different wildcards would be two
      cases v <;> cases w <;> simp only [mark] at hv hw <;> first | rfl | omega

end Wildcard

/-! ## The text of a term -/

/-- What the text of a term looks like. -/
structure TermText (value : String) : Prop where
  visible : ∃ c ∈ value.toList, Text.isBlank c = false
  noQuote : '"' ∉ value.toList
  oneMark : value.toList.count '?' + value.toList.count '*' ≤ 1
  markBehind : value.toList.head? ≠ some '?' ∧ value.toList.head? ≠ some '*'
  oneWord : '?' ∈ value.toList ∨ '*' ∈ value.toList → ∀ c ∈ value.toList, Text.isBlank c = false
  asteriskLast : '*' ∈ value.toList → ∃ before, value.toList = before ++ ['*'] ∧ 3 ≤ before.length

namespace Rule

theorem ite_error_eq_ok (p : Prop) [Decidable p] (v : Violation) (x : Check) :
    (if p then .error v else x) = .ok () ↔ ¬ p ∧ x = .ok () := by
  by_cases hp : p
  · simp [hp]
  · simp [hp]

theorem ite_ok_eq_ok (p : Prop) [Decidable p] (x : Check) :
    (if p then .ok () else x) = .ok () ↔ p ∨ x = .ok () := by
  by_cases hp : p
  · simp [hp]
  · simp [hp]

/-- The only asterisk of a text has to be its last character, with three before it. -/
theorem asterisk_eq_ok_iff (value : String) (h : value.toList.count '*' ≤ 1) :
    asterisk value = .ok () ↔
      ('*' ∈ value.toList → ∃ before, value.toList = before ++ ['*'] ∧ 3 ≤ before.length) := by
  unfold asterisk leastBeforeAsterisk
  dsimp only
  rw [ite_ok_eq_ok, ite_error_eq_ok, ite_error_eq_ok]
  generalize value.toList = cs at h
  constructor
  · rintro (hno | ⟨hlast, hfew, -⟩) hm
    · exact absurd hm (by simpa using hno)
    · have hcut := List.takeWhile_append_dropWhile (p := (· != '*')) (l := cs)
      have hstop := stops_dropWhile (· != '*') cs
      have hlength := congrArg List.length hcut
      simp only [List.length_append, bne_iff_ne, ne_eq, not_not] at hlength hlast
      obtain ⟨c, hc⟩ : ∃ c, cs.dropWhile (· != '*') = [c] := List.length_eq_one_iff.mp (by omega)
      rw [hc] at hcut hstop
      obtain rfl : c = '*' := by simpa using hstop c rfl
      exact ⟨_, hcut.symm, by omega⟩
  · intro hplace
    by_cases hm : '*' ∈ cs
    · obtain ⟨before, rfl, hthree⟩ := hplace hm
      have hbefore : '*' ∉ before := by
        rw [← List.count_eq_zero]
        simp only [List.count_append, List.count_singleton_self] at h
        omega
      have hrun : (before ++ ['*']).takeWhile (· != '*') = before := by
        refine takeWhile_run _ _ _ (fun c hc => ?_) (fun c hc => ?_)
        · exact bne_iff_ne.mpr fun e => hbefore (e ▸ hc)
        · obtain rfl := Option.some.inj hc
          rfl
      refine Or.inr ⟨?_, ?_, rfl⟩
      · rw [hrun]
        simp
      · rw [hrun]
        exact Nat.not_lt.mpr hthree
    · exact Or.inl (by simpa using hm)

theorem head_isMark_iff (cs : List Char) : cs.head?.any Wildcard.isMark = true ↔
    cs.head? = some '?' ∨ cs.head? = some '*' := by
  cases cs with
  | nil => simp
  | cons c cs => simp [Wildcard.isMark_iff]

/-- The rule for one term lets through these texts and no others. -/
theorem term_eq_ok_iff (value : String) : term value = .ok () ↔ TermText value := by
  unfold term
  dsimp only
  rw [ite_error_eq_ok, ite_error_eq_ok, ite_ok_eq_ok, ite_error_eq_ok, ite_error_eq_ok,
    ite_error_eq_ok, Wildcard.countP_isMark, head_isMark_iff]
  have hvisible : ¬ value.toList.all Text.isBlank = true ↔
      ∃ c ∈ value.toList, Text.isBlank c = false := by simp
  have hquote : ¬ value.toList.contains '"' = true ↔ '"' ∉ value.toList := by simp
  have hword : ¬ value.toList.any Text.isBlank = true ↔
      ∀ c ∈ value.toList, Text.isBlank c = false := by simp
  rw [hvisible, hquote, hword, beq_iff_eq]
  constructor
  · rintro ⟨hseen, hplain, hnone | ⟨hfew, hfirst, hone, hlast⟩⟩
    · -- without a wildcard nothing is said about one
      obtain ⟨hq, ha⟩ := Nat.add_eq_zero_iff.mp hnone
      rw [List.count_eq_zero] at hq ha
      exact ⟨hseen, hplain, by omega, ⟨fun e => hq (List.mem_of_mem_head? e),
        fun e => ha (List.mem_of_mem_head? e)⟩, fun hm => absurd hm (by simp [hq, ha]),
        fun hm => absurd hm ha⟩
    · rw [asterisk_eq_ok_iff value (by omega)] at hlast
      exact ⟨hseen, hplain, by omega, not_or.mp hfirst, fun _ => hone, hlast⟩
  · rintro ⟨hseen, hplain, hfew, hfirst, hone, hlast⟩
    refine ⟨hseen, hplain, ?_⟩
    by_cases hnone : value.toList.count '?' + value.toList.count '*' = 0
    · exact Or.inl hnone
    · have hmark : '?' ∈ value.toList ∨ '*' ∈ value.toList := by
        rw [← List.count_pos_iff, ← List.count_pos_iff]
        omega
      refine Or.inr ⟨by omega, not_or.mpr hfirst, hone hmark, ?_⟩
      exact (asterisk_eq_ok_iff value (by omega)).mpr hlast

end Rule

/-! ## The wildcard of a term -/

namespace TermText

variable {value : String} (h : TermText value)
include h

theorem endsWithAsterisk_iff : value.toList.getLast? = some '*' ↔ '*' ∈ value.toList := by
  constructor
  · exact List.mem_of_getLast?
  · intro hm
    obtain ⟨before, hvalue, -⟩ := h.asteriskLast hm
    rw [hvalue, List.getLast?_concat]

theorem first?_multiple :
    Wildcard.first? value.toList = some .multiple ↔ value.toList.getLast? = some '*' := by
  rw [Wildcard.first?_eq_some_iff _ h.oneMark, h.endsWithAsterisk_iff]
  rfl

theorem first?_single : Wildcard.first? value.toList = some .single ↔ '?' ∈ value.toList :=
  Wildcard.first?_eq_some_iff _ h.oneMark .single

theorem first?_none : Wildcard.first? value.toList = none ↔
    value.toList.getLast? ≠ some '*' ∧ '?' ∉ value.toList := by
  rw [Wildcard.first?_eq_none_iff, Ne, h.endsWithAsterisk_iff]
  exact and_comm

end TermText
end BooleanSearch
