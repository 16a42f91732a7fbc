import BooleanSearch.Proofs.Json.Escape

/-!
# Written strings

* `exists_encodedChar`: what a character is written as is one part of a string, which means it.
* `exists_encoded`: a text is written as the parts of a string that mean it.
-/

namespace BooleanSearch.Json
set_option autoImplicit false

/-! ## Escapes -/

theorem hexDigit?_digitChar (d : Nat) (hd : d < 16) : hexDigit? (Nat.digitChar d) = some d := by
  have hall : ∀ d < 16, hexDigit? (Nat.digitChar d) = some d := by decide
  exact hall d hd

theorem utf8Size_digitChar (d : Nat) (hd : d < 16) : (Nat.digitChar d).utf8Size = 1 := by
  have hall : ∀ d < 16, (Nat.digitChar d).utf8Size = 1 := by decide
  exact hall d hd

theorem hexNumber_digits (a b : Nat) (ha : a < 16) (hb : b < 16) (cs : List Char) :
    hexNumber ('0' :: '0' :: Nat.digitChar a :: Nat.digitChar b :: cs) = .ok (a * 16 + b) := by
  have hzero : hexDigit? '0' = some 0 := by decide
  have hsize : ('0' : Char).utf8Size = 1 := by decide
  have hcount : Text.byteCount ['0', '0', Nat.digitChar a, Nat.digitChar b] = 4 := by
    simp only [Text.byteCount_cons, Text.byteCount_nil, hsize, utf8Size_digitChar a ha,
      utf8Size_digitChar b hb]
  have htake : ('0' :: '0' :: Nat.digitChar a :: Nat.digitChar b :: cs).take 4 =
      ['0', '0', Nat.digitChar a, Nat.digitChar b] := rfl
  unfold hexNumber
  rw [htake, hcount, if_neg (Nat.lt_irrefl 4)]
  simp only [List.mapM_cons, List.mapM_nil, hzero, hexDigit?_digitChar a ha,
    hexDigit?_digitChar b hb]
  simp

theorem escaped?_controlLetter {c letter : Char} (h : controlLetter? c = some letter) :
    escaped? letter = some c := by
  have hc : Char.ofNat c.toNat = c := Char.ofNat_toNat c
  unfold controlLetter? at h
  split at h
  case h_6 => cases h
  all_goals
    rename_i hn
    rw [hn] at hc
    obtain rfl := Option.some.inj h
    exact congrArg some hc

theorem escaped?_self {c : Char} (h : c = '"' ∨ c = '\\') : escaped? c = some c := by
  rcases h with rfl | rfl
  · rfl
  · rfl

theorem meaning_control {c : Char} (hc : c.toNat < 0x20) (x y z w : Char)
    (h : hexNumber [x, y, z, w] = .ok c.toNat) (parts : List StringPart) :
    meaning (.code x y z w c.toNat h :: parts) = (meaning parts).map (c :: ·) := by
  have hlow : ¬ isLowSurrogate c.toNat = true := by
    unfold isLowSurrogate
    rw [Bool.and_eq_true, decide_eq_true_eq, decide_eq_true_eq]
    omega
  have hhigh : ¬ isHighSurrogate c.toNat = true := by
    unfold isHighSurrogate
    rw [Bool.and_eq_true, decide_eq_true_eq, decide_eq_true_eq]
    omega
  conv =>
    lhs
    unfold meaning
  rw [if_neg hlow, if_neg hhigh, Char.ofNat_toNat]

/-! ## A whole string -/

theorem exists_encodedChar (c : Char) : ∃ part : StringPart, part.chars = encodeChar c ∧
    ∀ parts, meaning (part :: parts) = (meaning parts).map (c :: ·) := by
  unfold encodeChar
  by_cases hmark : c = '"' ∨ c = '\\'
  · rw [if_pos (by simpa using hmark)]
    exact ⟨.letter c c (escaped?_self hmark), rfl, fun _ => by rw [meaning]⟩
  · rw [if_neg (by simpa using hmark)]
    by_cases hc : 0x20 ≤ c.toNat
    · rw [if_pos hc]
      exact ⟨.plain c ⟨hc, not_or.mp hmark⟩, rfl, fun _ => by rw [meaning]⟩
    · rw [if_neg hc]
      cases hletter : controlLetter? c with
      | some letter =>
        exact ⟨.letter letter c (escaped?_controlLetter hletter), rfl, fun _ => by rw [meaning]⟩
      | none =>
        have hcontrol := Nat.not_le.mp hc
        have hnumber := hexNumber_digits (c.toNat / 16) (c.toNat % 16) (by omega) (by omega) []
        rw [Nat.div_add_mod' c.toNat 16] at hnumber
        exact ⟨.code _ _ _ _ c.toNat hnumber, rfl, meaning_control hcontrol _ _ _ _ hnumber⟩

theorem exists_encoded (text : List Char) : ∃ parts : List StringPart,
    quotedParts parts = text.flatMap encodeChar ++ ['"'] ∧ meaning parts = some text := by
  induction text with
  | nil => exact ⟨[], rfl, by rw [meaning]⟩
  | cons c text ih =>
    obtain ⟨part, hchars, hmeaning⟩ := exists_encodedChar c
    obtain ⟨parts, hparts, htext⟩ := ih
    refine ⟨part :: parts, ?_, ?_⟩
    · rw [quotedParts_cons, hchars, hparts, List.flatMap_cons, List.append_assoc]
    · rw [hmeaning, htext, Option.map_some]

end BooleanSearch.Json
