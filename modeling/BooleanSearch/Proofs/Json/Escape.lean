import BooleanSearch.Json.Quoted

/-!
# Strings as they are written

What may stand between the quotes of a JSON string, and what it is read as.

* `StringPart`: one character, or an escape.
* `meaning`: the text that the parts of a string mean, if no surrogate stands without its partner.
* `pass_parts`, `exists_parts`: a string is passed over when it is made of such parts.
* `decode_parts`: a string made of such parts is read as their meaning, or refused if they have none.
-/

namespace BooleanSearch.Json
set_option autoImplicit false

/-- One character of a string, a letter behind a backslash, or a number of four digits behind `\u`. -/
inductive StringPart where
  | plain (c : Char) (h : 0x20 ≤ c.toNat ∧ c ≠ '"' ∧ c ≠ '\\')
  | letter (l c : Char) (h : escaped? l = some c)
  | code (a b c d : Char) (n : Nat) (h : hexNumber [a, b, c, d] = .ok n)

def StringPart.chars : StringPart → List Char
  | plain c _ => [c]
  | letter l _ _ => ['\\', l]
  | code a b c d _ _ => ['\\', 'u', a, b, c, d]

/-- The characters of a string behind its opening quote. -/
def quotedParts (parts : List StringPart) : List Char := parts.flatMap StringPart.chars ++ ['"']

/-- The character that two surrogates stand for. -/
def paired (high low : Nat) : Char := Char.ofNat (0x10000 + (high - 0xD800) * 0x400 + (low - 0xDC00))

/-- The text that the parts of a string mean. A surrogate means nothing alone. -/
def meaning : List StringPart → Option (List Char)
  | [] => some []
  | .plain c _ :: parts => (meaning parts).map (c :: ·)
  | .letter _ c _ :: parts => (meaning parts).map (c :: ·)
  | .code _ _ _ _ n _ :: parts =>
    if isLowSurrogate n then none
    else if isHighSurrogate n then
      match parts with
      | .code _ _ _ _ low _ :: parts =>
        if isLowSurrogate low then (meaning parts).map (paired n low :: ·) else none
      | _ => none
    else (meaning parts).map (Char.ofNat n :: ·)

theorem quotedParts_code (a b c d : Char) (n : Nat) (h : hexNumber [a, b, c, d] = .ok n)
    (parts : List StringPart) (rest : List Char) :
    quotedParts (.code a b c d n h :: parts) ++ rest =
      '\\' :: 'u' :: a :: b :: c :: d :: (quotedParts parts ++ rest) := rfl

theorem quotedParts_cons (part : StringPart) (parts : List StringPart) :
    quotedParts (part :: parts) = part.chars ++ quotedParts parts := by
  rw [quotedParts, List.flatMap_cons, List.append_assoc, quotedParts]

theorem ne_u_of_escaped? {l c : Char} (h : escaped? l = some c) : l ≠ 'u' := by
  rintro rfl
  cases h

/-! ## Strings that are passed over -/

theorem pass_letter (letter c : Char) (cs : List Char) (hu : letter ≠ 'u')
    (h : escaped? letter = some c) : pass ('\\' :: letter :: cs) = pass cs := by
  rw [pass, h]
  · rfl
  · exact hu

theorem pass_plain (c : Char) (cs : List Char) (hq : c ≠ '"') (hb : c ≠ '\\')
    (hc : 0x20 ≤ c.toNat) : pass (c :: cs) = pass cs := by
  rw [pass, if_neg (Nat.not_lt.mpr hc)]
  · exact hq
  · exact fun h _ => hb h
  · exact fun _ h _ => hb h
  · exact fun _ _ h _ => hb h

theorem length_of_mapM {α β : Type} {f : α → Option β} {xs : List α} {ys : List β}
    (h : xs.mapM f = some ys) : ys.length = xs.length := by
  induction xs generalizing ys with
  | nil =>
    obtain rfl := Option.some.inj h
    rfl
  | cons x xs ih =>
    rw [List.mapM_cons] at h
    obtain ⟨y, -, hmore⟩ := Option.bind_eq_some_iff.mp h
    obtain ⟨zs, hzs, hys⟩ := Option.bind_eq_some_iff.mp hmore
    obtain rfl := Option.some.inj hys
    rw [List.length_cons, List.length_cons, ih hzs]

theorem exists_four {cs : List Char} {n : Nat} (h : hexNumber cs = .ok n) :
    ∃ a b c d rest, cs = a :: b :: c :: d :: rest ∧ hexNumber [a, b, c, d] = .ok n := by
  have hlength : 4 = (cs.take 4).length := by
    unfold hexNumber at h
    split at h
    · cases h
    · split at h
      · next hdigits => exact length_of_mapM hdigits
      · cases h
  match cs with
  | a :: b :: c :: d :: rest => exact ⟨a, b, c, d, rest, rfl, h⟩
  | [] | [a] | [a, b] | [a, b, c] => cases hlength

theorem pass_parts (parts : List StringPart) (rest : List Char) :
    pass (quotedParts parts ++ rest) = .ok rest := by
  induction parts with
  | nil =>
    change pass ('"' :: rest) = _
    rw [pass]
  | cons part parts ih =>
    rw [quotedParts_cons, List.append_assoc]
    cases part with
    | plain c h => exact (pass_plain c _ h.2.1 h.2.2 h.1).trans ih
    | letter l c h => exact (pass_letter l c _ (ne_u_of_escaped? h) h).trans ih
    | code a b c d n h =>
      have hnumber : hexNumber (a :: b :: c :: d :: (quotedParts parts ++ rest)) = .ok n := h
      change pass ('\\' :: 'u' :: a :: b :: c :: d :: (quotedParts parts ++ rest)) = _
      rw [pass, hnumber]
      exact ih

/-- The cases are those of reading: the closing quote, an escape by a number, an escape by a letter, and
any other character; in the rest the string is refused. -/
theorem exists_parts {cs rest : List Char} (h : pass cs = .ok rest) :
    ∃ parts, cs = quotedParts parts ++ rest := by
  fun_induction pass cs with
  | case1 => cases h
  | case2 cs =>
    obtain rfl := Except.ok.inj h
    exact ⟨[], rfl⟩
  | case3 => cases h
  | case4 cs ih =>
    cases hnumber : hexNumber cs with
    | error s =>
      rw [hnumber] at h
      cases h
    | ok n =>
      rw [hnumber] at h
      obtain ⟨a, b, c, d, more, rfl, hfour⟩ := exists_four hnumber
      obtain ⟨parts, rfl⟩ := ih h
      exact ⟨.code a b c d n hfour :: parts, rfl⟩
  | case5 l cs hu hsome ih =>
    obtain ⟨c, hc⟩ := Option.isSome_iff_exists.mp hsome
    obtain ⟨parts, rfl⟩ := ih h
    exact ⟨.letter l c hc :: parts, rfl⟩
  | case6 => cases h
  | case7 => cases h
  | case8 c cs hquote hlast hu hletter hplain ih =>
    have hslash : c ≠ '\\' := by
      cases cs with
      | nil => exact fun hc => hlast hc rfl
      | cons l cs => exact fun hc => hletter l cs hc rfl
    obtain ⟨parts, rfl⟩ := ih h
    exact ⟨.plain c ⟨Nat.not_lt.mp hplain, hquote, hslash⟩ :: parts, rfl⟩

/-! ## Strings that are used -/

theorem decode_letter (letter c : Char) (cs : List Char) (hu : letter ≠ 'u')
    (h : escaped? letter = some c) :
    decode ('\\' :: letter :: cs) = do
      let (text, rest) ← decode cs
      return (c :: text, rest) := by
  rw [decode, h]
  exact hu

theorem decode_plain (c : Char) (cs : List Char) (hq : c ≠ '"') (hb : c ≠ '\\')
    (hc : 0x20 ≤ c.toNat) :
    decode (c :: cs) = do
      let (text, rest) ← decode cs
      return (c :: text, rest) := by
  rw [decode, if_neg (Nat.not_lt.mpr hc)]
  · exact hq
  · exact fun h _ => hb h
  · exact fun _ h _ => hb h
  · exact fun _ _ h _ => hb h

/-- What follows the first half of a pair: the second half, with an escape of its own. -/
def secondHalf (high : Nat) : List Char → Except Stop (Char × Nat)
  | [] => .error .ended
  | '\\' :: [] => .error .ended
  | '\\' :: 'u' :: rest => do
    let low ← hexNumber rest
    if !isLowSurrogate low then throw .malformed
    return (paired high low, 10)
  | _ => .error .malformed

theorem secondHalf_code {high low : Nat} {behind : List Char} (h : hexNumber behind = .ok low) :
    secondHalf high ('\\' :: 'u' :: behind) =
      if isLowSurrogate low then .ok (paired high low, 10) else .error .malformed := by
  rw [secondHalf, h]
  cases hpartner : isLowSurrogate low with
  | true => exact if_neg (by simp [hpartner])
  | false => exact if_pos (by simp [hpartner])

theorem secondHalf_other {cs : List Char} (high : Nat) (h : ∀ behind, cs ≠ '\\' :: 'u' :: behind) :
    ∃ s, secondHalf high cs = .error s := by
  unfold secondHalf
  split
  · exact ⟨_, rfl⟩
  · exact ⟨_, rfl⟩
  · exact absurd rfl (h _)
  · exact ⟨_, rfl⟩

section Unicode

variable {cs : List Char} {n : Nat}

theorem unicodeEscape_low (h : hexNumber cs = .ok n) (hlow : isLowSurrogate n = true) :
    unicodeEscape cs = .error .malformed := by
  unfold unicodeEscape
  rw [h]
  exact if_pos hlow

theorem unicodeEscape_high (h : hexNumber cs = .ok n) (hlow : ¬ isLowSurrogate n = true)
    (hhigh : isHighSurrogate n = true) : unicodeEscape cs = secondHalf n (cs.drop 4) := by
  have hnot : ¬ (!isHighSurrogate n) = true := by simpa using hhigh
  unfold unicodeEscape
  rw [h]
  exact (if_neg hlow).trans (if_neg hnot)

theorem unicodeEscape_alone (h : hexNumber cs = .ok n) (hlow : ¬ isLowSurrogate n = true)
    (hhigh : ¬ isHighSurrogate n = true) : unicodeEscape cs = .ok (Char.ofNat n, 4) := by
  have hnot : (!isHighSurrogate n) = true := by simpa using hhigh
  unfold unicodeEscape
  rw [h]
  exact (if_neg hlow).trans (if_pos hnot)

end Unicode

/-- Reading of a string that goes on behind a character. -/
theorem toOption_cons (c : Char) (r : Except Stop (List Char × List Char)) (rest : List Char)
    {text : Option (List Char)} (h : r.toOption = text.map fun text => (text, rest)) :
    (do
      let (text, rest) ← r
      return (c :: text, rest)).toOption =
      (text.map (c :: ·)).map fun text => (text, rest) := by
  cases r with
  | error s =>
    cases text with
    | none => rfl
    | some text => cases h
  | ok found =>
    cases text with
    | none => cases h
    | some text =>
      obtain rfl := Option.some.inj h
      rfl

/-- Only a part that is a number goes on as the second half of a pair would. -/
theorem quotedParts_ne {parts : List StringPart} (rest : List Char)
    (hparts : ∀ a b c d low h more, parts ≠ .code a b c d low h :: more) (behind : List Char) :
    quotedParts parts ++ rest ≠ '\\' :: 'u' :: behind := by
  intro heq
  cases parts with
  | nil => exact absurd (List.cons.inj heq).1 (by decide)
  | cons part parts =>
    cases part with
    | plain c h => exact h.2.2 (List.cons.inj heq).1
    | letter l c h => exact ne_u_of_escaped? h (List.cons.inj (List.cons.inj heq).2).1
    | code a b c d low h => exact hparts a b c d low h parts rfl

theorem decode_parts (parts : List StringPart) (rest : List Char) :
    (decode (quotedParts parts ++ rest)).toOption =
      (meaning parts).map fun text => (text, rest) := by
  fun_induction meaning parts with
  | case1 =>
    change (decode ('"' :: rest)).toOption = _
    rw [decode]
    rfl
  | case2 c h parts ih =>
    rw [quotedParts_cons, List.append_assoc]
    refine (congrArg Except.toOption (decode_plain c _ h.2.1 h.2.2 h.1)).trans ?_
    exact toOption_cons c _ rest ih
  | case3 l c h parts ih =>
    rw [quotedParts_cons, List.append_assoc]
    refine (congrArg Except.toOption (decode_letter l c _ (ne_u_of_escaped? h) h)).trans ?_
    exact toOption_cons c _ rest ih
  | case4 a b c d n h parts hlow =>
    have hnumber : hexNumber (a :: b :: c :: d :: (quotedParts parts ++ rest)) = .ok n := h
    rw [quotedParts_code, decode, unicodeEscape_low hnumber hlow]
    rfl
  | case5 a b c d n h hlow hhigh a' b' c' d' low h' parts hpartner ih =>
    have hnumber : hexNumber (a :: b :: c :: d ::
      (quotedParts (.code a' b' c' d' low h' :: parts) ++ rest)) = .ok n := h
    have hsecond : hexNumber (a' :: b' :: c' :: d' :: (quotedParts parts ++ rest)) = .ok low := h'
    rw [quotedParts_code, decode, unicodeEscape_high hnumber hlow hhigh]
    dsimp only [List.drop]
    rw [quotedParts_code, secondHalf_code hsecond, if_pos hpartner]
    have hbehind := toOption_cons (paired n low) (decode (quotedParts parts ++ rest)) rest ih
    -- otherwise the number of the character is computed
    generalize paired n low = both at hbehind ⊢
    exact hbehind
  | case6 a b c d n h hlow hhigh a' b' c' d' low h' parts halone =>
    have hnumber : hexNumber (a :: b :: c :: d ::
      (quotedParts (.code a' b' c' d' low h' :: parts) ++ rest)) = .ok n := h
    have hsecond : hexNumber (a' :: b' :: c' :: d' :: (quotedParts parts ++ rest)) = .ok low := h'
    rw [quotedParts_code, decode, unicodeEscape_high hnumber hlow hhigh]
    dsimp only [List.drop]
    rw [quotedParts_code, secondHalf_code hsecond, if_neg halone]
    rfl
  | case7 a b c d n h parts hlow hhigh hother =>
    have hnumber : hexNumber (a :: b :: c :: d :: (quotedParts parts ++ rest)) = .ok n := h
    obtain ⟨s, hs⟩ := secondHalf_other n (quotedParts_ne rest hother)
    rw [quotedParts_code, decode, unicodeEscape_high hnumber hlow hhigh]
    dsimp only [List.drop]
    rw [hs]
    rfl
  | case8 a b c d n h parts hlow hhigh ih =>
    have hnumber : hexNumber (a :: b :: c :: d :: (quotedParts parts ++ rest)) = .ok n := h
    rw [quotedParts_code, decode, unicodeEscape_alone hnumber hlow hhigh]
    exact toOption_cons _ _ rest ih

end BooleanSearch.Json
