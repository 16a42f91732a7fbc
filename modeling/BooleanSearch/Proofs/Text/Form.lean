import BooleanSearch.Proofs.Token.Blanks

/-!
# Texts of the same form

What the query language does not look at: outside brackets, the case of letters, and which blanks and
how many of them part two words.

* `SameForm text text'`: the texts differ in nothing else.
* `SameForm.head_eq`, `SameForm.run`: how two such texts begin.
* `SameForm.trim`: their trimmed forms are such texts too.
-/

namespace BooleanSearch
set_option autoImplicit false

/-! ## The case of a letter -/

theorem isBlank_of_isLetter {c : Char} (h : Text.isLetter c = true) : Text.isBlank c = false := by
  have hrange := (Text.isLetter_iff c).mp h
  simp only [Text.isBlank, Bool.or_eq_false_iff, Bool.and_eq_false_iff, decide_eq_false_iff_not,
    beq_eq_false_iff_ne]
  omega

theorem isWordChar_of_isLetter {c : Char} (h : Text.isLetter c = true) : isWordChar c = true := by
  have hne : ∀ d : Char, Text.isLetter d = false → c ≠ d := by
    rintro d hd rfl
    rw [hd] at h
    exact Bool.false_ne_true h
  exact (isWordChar_iff c).mpr ⟨isBlank_of_isLetter h, hne _ rfl, hne _ rfl, hne _ rfl, hne _ rfl⟩

/-- Another case of a letter makes no other class of character. -/
theorem eq_or_isWordChar {c d : Char} (h : c.toUpper = d.toUpper) :
    c = d ∨ isWordChar c = true ∧ isWordChar d = true := by
  rcases Text.eq_or_isLetter h with e | ⟨hc, hd⟩
  · exact Or.inl e
  · exact Or.inr ⟨isWordChar_of_isLetter hc, isWordChar_of_isLetter hd⟩

theorem isWordChar_congr {c d : Char} (h : c.toUpper = d.toUpper) : isWordChar c = isWordChar d := by
  rcases eq_or_isWordChar h with rfl | ⟨hc, hd⟩
  · rfl
  · rw [hc, hd]

/-- A mark that ends a word is no letter, so another case does not make it. -/
theorem eq_mark_iff {c d mark : Char} (h : c.toUpper = d.toUpper) (hmark : isWordChar mark = false) :
    c = mark ↔ d = mark := by
  rcases eq_or_isWordChar h with rfl | ⟨hc, hd⟩
  · exact Iff.rfl
  · have hne : ∀ e : Char, isWordChar e = true → e ≠ mark := by
      rintro e he rfl
      exact Bool.false_ne_true (hmark.symm.trans he)
    exact iff_of_false (hne c hc) (hne d hd)

theorem isBlank_congr {c d : Char} (h : c.toUpper = d.toUpper) : Text.isBlank c = Text.isBlank d := by
  rcases Text.eq_or_isLetter h with rfl | ⟨hc, hd⟩
  · rfl
  · rw [isBlank_of_isLetter hc, isBlank_of_isLetter hd]

/-! ## The same form -/

/-- Two texts that differ, outside brackets, in the case of letters and in the blanks of their gaps
only. A bracket goes from an opening mark to the next closing one, or to the end of the text when there
is none, and is the same in both. -/
inductive SameForm : List Char → List Char → Prop
  | nil : SameForm [] []
  | char {text text' : List Char} (c d : Char) (same : c.toUpper = d.toUpper)
      (hc : Text.isBlank c = false) (ho : c ≠ '[') (rest : SameForm text text') :
      SameForm (c :: text) (d :: text')
  | gap {text text' : List Char} (gap gap' : List Char) (hne : gap ≠ []) (hne' : gap' ≠ [])
      (hb : ∀ c ∈ gap, Text.isBlank c = true) (hb' : ∀ c ∈ gap', Text.isBlank c = true)
      (rest : SameForm text text') : SameForm (gap ++ text) (gap' ++ text')
  | bracket {text text' : List Char} (inside : List Char) (h : ']' ∉ inside)
      (rest : SameForm text text') :
      SameForm ('[' :: (inside ++ [']']) ++ text) ('[' :: (inside ++ [']']) ++ text')
  | unclosed (inside : List Char) (h : ']' ∉ inside) : SameForm ('[' :: inside) ('[' :: inside)

theorem bracket_append (inside text : List Char) :
    '[' :: (inside ++ [']']) ++ text = '[' :: inside ++ ']' :: text := by
  simp

theorem isBlank_head {gap : List Char} (hne : gap ≠ []) (hb : ∀ c ∈ gap, Text.isBlank c = true)
    (text : List Char) : ∀ c ∈ (gap ++ text).head?, Text.isBlank c = true := by
  cases gap with
  | nil => exact absurd rfl hne
  | cons c gap =>
    intro d hd
    obtain rfl := Option.some.inj hd
    exact hb c List.mem_cons_self

theorem stops_gap {gap : List Char} (hne : gap ≠ []) (hb : ∀ c ∈ gap, Text.isBlank c = true)
    (text : List Char) : Stops isWordChar (gap ++ text) := by
  intro c hc
  simp [isWordChar, isBlank_head hne hb text c hc]

namespace SameForm

variable {text text' : List Char}

theorem eq_nil_iff (h : SameForm text text') : text = [] ↔ text' = [] := by
  cases h with
  | gap gap gap' hne hne' => simp [hne, hne']
  | _ => simp

/-- A mark that ends a word begins both texts or none. -/
theorem head_eq (h : SameForm text text') (mark : Char) (hmark : isWordChar mark = false)
    (hblank : Text.isBlank mark = false) :
    (text.head? == some mark) = (text'.head? == some mark) := by
  rw [Bool.eq_iff_iff, beq_iff_eq, beq_iff_eq]
  cases h with
  | char c d same hc ho rest =>
    rw [List.head?_cons, List.head?_cons, Option.some_inj, Option.some_inj]
    exact eq_mark_iff same hmark
  | @gap text text' gap gap' hne hne' hb hb' rest =>
    have hfirst : ∀ (front behind : List Char), front ≠ [] →
        (∀ c ∈ front, Text.isBlank c = true) → (front ++ behind).head? ≠ some mark := by
      intro front behind hf hall hhead
      exact Bool.false_ne_true (hblank.symm.trans (isBlank_head hf hall behind mark hhead))
    exact iff_of_false (hfirst gap text hne hb) (hfirst gap' text' hne' hb')
  | _ => exact Iff.rfl

/-- Two texts of the same form begin with the same word, up to the case of its letters. -/
theorem run (h : SameForm text text') :
    Text.upper (text.takeWhile isWordChar) = Text.upper (text'.takeWhile isWordChar) ∧
      SameForm (text.dropWhile isWordChar) (text'.dropWhile isWordChar) := by
  induction h with
  | nil => exact ⟨rfl, nil⟩
  | char c d same hc ho rest ih =>
    have hclass := isWordChar_congr same
    by_cases hcw : isWordChar c = true
    · have hdw := hclass.symm.trans hcw
      rw [List.takeWhile_cons_of_pos hcw, List.takeWhile_cons_of_pos hdw,
        List.dropWhile_cons_of_pos hcw, List.dropWhile_cons_of_pos hdw]
      exact ⟨congrArg₂ List.cons same ih.1, ih.2⟩
    · have hdw : ¬ isWordChar d = true := hclass ▸ hcw
      rw [List.takeWhile_cons_of_neg hcw, List.takeWhile_cons_of_neg hdw,
        List.dropWhile_cons_of_neg hcw, List.dropWhile_cons_of_neg hdw]
      exact ⟨rfl, char c d same hc ho rest⟩
  | @gap text text' gap gap' hne hne' hb hb' rest ih =>
    have hstop := stops_gap hne hb text
    have hstop' := stops_gap hne' hb' text'
    rw [hstop.takeWhile_eq, hstop'.takeWhile_eq, hstop.dropWhile_eq, hstop'.dropWhile_eq]
    exact ⟨rfl, SameForm.gap gap gap' hne hne' hb hb' rest⟩
  | bracket inside h rest ih => exact ⟨rfl, bracket inside h rest⟩
  | unclosed inside h => exact ⟨rfl, unclosed inside h⟩

/-! ## Trimmed texts -/

theorem trimStart (h : SameForm text text') :
    SameForm (text.dropWhile Text.isBlank) (text'.dropWhile Text.isBlank) := by
  induction h with
  | nil => exact nil
  | char c d same hc ho rest ih =>
    have hd := (isBlank_congr same).symm.trans hc
    rw [List.dropWhile_cons_of_neg (by rw [hc]; exact Bool.false_ne_true),
      List.dropWhile_cons_of_neg (by rw [hd]; exact Bool.false_ne_true)]
    exact char c d same hc ho rest
  | gap gap gap' hne hne' hb hb' rest ih =>
    rw [List.dropWhile_append_of_pos hb, List.dropWhile_append_of_pos hb']
    exact ih
  | bracket inside h rest ih => exact bracket inside h rest
  | unclosed inside h => exact unclosed inside h

theorem trimEnd (h : SameForm text text') :
    SameForm (Text.trimEnd text) (Text.trimEnd text') := by
  induction h with
  | nil => exact nil
  | @char text text' c d same hc ho rest ih =>
    have hd := (isBlank_congr same).symm.trans hc
    have hcut := trimEnd_append_cons [] text c hc
    have hcut' := trimEnd_append_cons [] text' d hd
    rw [List.nil_append, List.nil_append] at hcut hcut'
    rw [hcut, hcut']
    exact char c d same hc ho ih
  | @gap text text' gap gap' hne hne' hb hb' rest ih =>
    rw [trimEnd_blanks_append gap text hb, trimEnd_blanks_append gap' text' hb']
    by_cases hnil : Text.trimEnd text = []
    · rw [if_pos hnil, if_pos (ih.eq_nil_iff.mp hnil)]
      exact nil
    · rw [if_neg hnil, if_neg fun e => hnil (ih.eq_nil_iff.mpr e)]
      exact SameForm.gap gap gap' hne hne' hb hb' ih
  | @bracket text text' inside h rest ih =>
    have hcut := fun behind => trimEnd_append_cons ('[' :: inside) behind ']' (by decide)
    rw [bracket_append, bracket_append, hcut, hcut, ← bracket_append, ← bracket_append]
    exact bracket inside h ih
  | unclosed inside h =>
    have hcut := trimEnd_append_cons [] inside '[' (by decide)
    rw [List.nil_append, List.nil_append] at hcut
    have hsub := (List.rdropWhile_prefix Text.isBlank inside).subset
    rw [hcut]
    exact unclosed _ fun hm => h (hsub hm)

theorem trim (h : SameForm text text') : SameForm (Text.trim text) (Text.trim text') :=
  h.trimStart.trimEnd

theorem toList_trimmed {raw raw' : String} (h : SameForm raw.toList raw'.toList) :
    SameForm (trimmed raw).toList (trimmed raw').toList := by
  rw [trimmed, trimmed, String.toList_ofList, String.toList_ofList]
  exact h.trim

end SameForm

end BooleanSearch
