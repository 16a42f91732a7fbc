import BooleanSearch.Json.Number
import BooleanSearch.Proofs.Text.Runs

/-!
# Number literals

A number of JSON as it is written, digit by digit, and what it is read as.

* `Digits`, `Power`, `Literal`: the parts of a number, with what JSON asks of each.
* `scanNumeral_chars`, `exists_literal`: a literal is read as its numeral, and what is read as a numeral
  is a literal.
* `Literal.IsNatural`: the literal has no sign, no point and no power of ten.
* `Literal.number_eq_natural_iff`: a literal means a number of 64 bits when it is such a literal and its
  digits mean that number.
-/

namespace BooleanSearch.Json
set_option autoImplicit false

/-! ## Literals -/

/-- One or more decimal digits. -/
structure Digits where
  chars : List Char
  ne_nil : chars ≠ []
  isDigit : ∀ c ∈ chars, c.isDigit = true

namespace Digits

def values (d : Digits) : List Nat := d.chars.map fun c => c.toNat - 48

/-- The number that the digits mean. -/
def value (d : Digits) : Nat := Nat.ofDigitChars 10 d.chars 0

end Digits

/-- A power of ten: a letter, perhaps a sign, and digits. -/
structure Power where
  mark : Char
  sign : List Char
  digits : Digits
  mark_mem : mark = 'e' ∨ mark = 'E'
  sign_mem : sign = [] ∨ sign = ['+'] ∨ sign = ['-']

/-- A number as it is written. A zero stands before no other digit. -/
structure Literal where
  minus : Bool
  whole : Digits
  fraction : Option Digits
  power : Option Power
  zero_alone : whole.chars.head? = some '0' → whole.chars = ['0']

def fractionChars : Option Digits → List Char
  | none => []
  | some d => '.' :: d.chars

def powerChars : Option Power → List Char
  | none => []
  | some p => p.mark :: (p.sign ++ p.digits.chars)

namespace Literal

def chars (l : Literal) : List Char :=
  (if l.minus then ['-'] else []) ++
    (l.whole.chars ++ (fractionChars l.fraction ++ powerChars l.power))

/-- The literal has no sign, no point and no power of ten. -/
structure IsNatural (l : Literal) : Prop where
  minus : l.minus = false
  fraction : l.fraction = none
  power : l.power = none

def numeral (l : Literal) : Numeral where
  minus := l.minus
  whole := l.whole.values
  fraction := l.fraction.map Digits.values
  power := l.power.map fun p => (p.sign == ['-'], p.digits.values)

end Literal

/-! ## Digits -/

theorem bind_eq_ok_iff {ε α β : Type} {x : Except ε α} {f : α → Except ε β} {b : β} :
    (x >>= f) = .ok b ↔ ∃ a, x = .ok a ∧ f a = .ok b := by
  cases x with
  | error e => exact ⟨nofun, nofun⟩
  | ok a => exact ⟨fun h => ⟨a, rfl, h⟩, fun ⟨_, ha, h⟩ => Except.ok.inj ha ▸ h⟩

theorem exists_digits {cs : List Char} {ds : List Nat} {rest : List Char}
    (h : someDigits cs = .ok (ds, rest)) : ∃ d : Digits, d.values = ds ∧ cs = d.chars ++ rest := by
  cases cs with
  | nil => cases h
  | cons c cs =>
    unfold someDigits at h
    dsimp only at h
    split at h
    · next hc =>
      obtain ⟨rfl, rfl⟩ := Prod.mk.inj (Except.ok.inj h)
      have hne : (c :: cs).takeWhile Char.isDigit ≠ [] := by
        rw [List.takeWhile_cons_of_pos hc]
        exact List.cons_ne_nil _ _
      refine ⟨⟨_, hne, fun d hd => List.mem_takeWhile_imp hd⟩, rfl, ?_⟩
      exact List.takeWhile_append_dropWhile.symm
    · cases h

namespace Digits

theorem someDigits_chars (d : Digits) {rest : List Char} (h : Stops Char.isDigit rest) :
    someDigits (d.chars ++ rest) = .ok (d.values, rest) := by
  have hdigits : digits (d.chars ++ rest) = (d.values, rest) := by
    unfold digits
    rw [takeWhile_run _ _ _ d.isDigit h, dropWhile_run _ _ _ d.isDigit h]
    rfl
  obtain ⟨c, cs, hd⟩ := List.exists_cons_of_ne_nil d.ne_nil
  have hc : c.isDigit = true := d.isDigit c (by rw [hd]; exact List.mem_cons_self)
  rw [← hdigits, hd, List.cons_append]
  exact if_pos hc

/-- Of the digits only a zero means zero. -/
theorem head_values (d : Digits) (h : d.values.head? = some 0) : d.chars.head? = some '0' := by
  obtain ⟨c, cs, hd⟩ := List.exists_cons_of_ne_nil d.ne_nil
  have hdigit := Char.isDigit_iff_toNat.mp (d.isDigit c (by rw [hd]; exact List.mem_cons_self))
  have hvalue : c.toNat - 48 = 0 := by
    rw [values, hd] at h
    exact Option.some.inj h
  have hchar : c = '0' := by
    apply Char.toNat_inj.mp
    change 48 ≤ c.toNat ∧ _ at hdigit
    change c.toNat = 48
    omega
  rw [hd, hchar]
  rfl

theorem length_values (d : Digits) : d.values.length = d.chars.length := List.length_map _

end Digits

theorem wholeDigits_chars (l : Literal) {rest : List Char} (h : Stops Char.isDigit rest) :
    wholeDigits (l.whole.chars ++ rest) = .ok (l.whole.values, rest) := by
  unfold wholeDigits
  rw [l.whole.someDigits_chars h]
  dsimp only [bind, Except.bind]
  split
  · next d ds hvalues =>
    have hone := l.zero_alone (l.whole.head_values (by rw [hvalues]; rfl))
    have hlength := l.whole.length_values
    rw [hvalues, hone] at hlength
    cases hlength
  · rfl

theorem exists_whole {cs : List Char} {ds : List Nat} {rest : List Char}
    (h : wholeDigits cs = .ok (ds, rest)) : ∃ d : Digits, d.values = ds ∧ cs = d.chars ++ rest ∧
      (d.chars.head? = some '0' → d.chars = ['0']) := by
  unfold wholeDigits at h
  obtain ⟨⟨found, behind⟩, hsome, h⟩ := bind_eq_ok_iff.mp h
  dsimp only at h
  split at h
  · cases h
  · next hzero =>
    obtain ⟨rfl, rfl⟩ := Prod.mk.inj (Except.ok.inj h)
    obtain ⟨d, hvalues, hcs⟩ := exists_digits hsome
    refine ⟨d, hvalues, hcs, fun hhead => ?_⟩
    cases hd : d.chars with
    | nil => exact absurd hd d.ne_nil
    | cons c more =>
      rw [hd] at hhead
      obtain rfl := Option.some.inj hhead
      cases more with
      | nil => rfl
      | cons c more =>
        rw [Digits.values, hd] at hvalues
        exact absurd hvalues.symm (hzero _ _)

/-! ## Fractions and powers -/

theorem fractionDigits_chars (f : Option Digits) {rest : List Char} (h : Stops Char.isDigit rest)
    (hpoint : rest.head? ≠ some '.') :
    fractionDigits (fractionChars f ++ rest) = .ok (f.map Digits.values, rest) := by
  cases f with
  | none =>
    rw [fractionChars, List.nil_append]
    unfold fractionDigits
    split
    · exact absurd rfl hpoint
    · rfl
  | some d =>
    change (someDigits (d.chars ++ rest) >>= fun found => pure (some found.1, found.2)) = _
    rw [d.someDigits_chars h]
    rfl

theorem exists_fraction {cs : List Char} {found : Option (List Nat)} {rest : List Char}
    (h : fractionDigits cs = .ok (found, rest)) :
    ∃ f : Option Digits, f.map Digits.values = found ∧ cs = fractionChars f ++ rest := by
  unfold fractionDigits at h
  split at h
  · next cs =>
    obtain ⟨read, hsome, h⟩ := bind_eq_ok_iff.mp h
    obtain ⟨rfl, rfl⟩ := Prod.mk.inj (Except.ok.inj h)
    obtain ⟨d, hvalues, rfl⟩ := exists_digits hsome
    exact ⟨some d, congrArg some hvalues, rfl⟩
  · obtain ⟨rfl, rfl⟩ := Prod.mk.inj (Except.ok.inj h)
    exact ⟨none, rfl, rfl⟩

/-- What stands behind a letter for a power of ten, once its sign is known. -/
theorem powerDigits_signed {c : Char} (hc : c = 'e' ∨ c = 'E') {sign : List Char}
    (hsign : sign = [] ∨ sign = ['+'] ∨ sign = ['-']) (d : Digits) (rest : List Char) :
    powerDigits (c :: (sign ++ (d.chars ++ rest))) =
      (someDigits (d.chars ++ rest) >>= fun found => pure (some (sign == ['-'], found.1), found.2)) := by
  have hmark : (c == 'e' || c == 'E') = true := by simpa using hc
  unfold powerDigits
  dsimp only
  rw [if_pos hmark]
  rcases hsign with rfl | rfl | rfl
  · obtain ⟨a, cs, hd⟩ := List.exists_cons_of_ne_nil d.ne_nil
    have ha := d.isDigit a (by rw [hd]; exact List.mem_cons_self)
    rw [hd, List.nil_append, List.cons_append]
    split
    · next hplus =>
      rw [(List.cons.inj hplus).1] at ha
      exact absurd ha (by decide)
    · next hminus =>
      rw [(List.cons.inj hminus).1] at ha
      exact absurd ha (by decide)
    · rfl
  · rfl
  · rfl

theorem powerDigits_chars (p : Option Power) {rest : List Char} (h : Stops Char.isDigit rest)
    (hmark : ∀ c ∈ rest.head?, ¬ (c = 'e' ∨ c = 'E')) :
    powerDigits (powerChars p ++ rest) =
      .ok (p.map fun p => (p.sign == ['-'], p.digits.values), rest) := by
  cases p with
  | none =>
    rw [powerChars, List.nil_append]
    unfold powerDigits
    split
    · next c rest =>
      rw [if_neg (by simpa using hmark c rfl)]
      rfl
    · rfl
  | some p =>
    rw [powerChars, List.cons_append, List.append_assoc, powerDigits_signed p.mark_mem p.sign_mem,
      p.digits.someDigits_chars h]
    rfl

theorem exists_power {cs : List Char} {found : Option (Bool × List Nat)} {rest : List Char}
    (h : powerDigits cs = .ok (found, rest)) : ∃ p : Option Power,
      (p.map fun p => (p.sign == ['-'], p.digits.values)) = found ∧ cs = powerChars p ++ rest := by
  unfold powerDigits at h
  split at h
  · next c cs =>
    split at h
    · next hmark =>
      have hmark : c = 'e' ∨ c = 'E' := by simpa using hmark
      -- the sign is read off before the digits, so that it is known here whichever it is
      obtain ⟨sign, behind, hcs, hsign, hdigits⟩ : ∃ sign behind, cs = sign ++ behind ∧
          (sign = [] ∨ sign = ['+'] ∨ sign = ['-']) ∧
          (someDigits behind >>= fun read => pure (some (sign == ['-'], read.1), read.2)) =
            .ok (found, rest) := by
        dsimp only at h
        split at h
        · exact ⟨['+'], _, rfl, .inr (.inl rfl), h⟩
        · exact ⟨['-'], _, rfl, .inr (.inr rfl), h⟩
        · exact ⟨[], _, rfl, .inl rfl, h⟩
      obtain ⟨read, hsome, hread⟩ := bind_eq_ok_iff.mp hdigits
      obtain ⟨rfl, rfl⟩ := Prod.mk.inj (Except.ok.inj hread)
      obtain ⟨d, hvalues, rfl⟩ := exists_digits hsome
      refine ⟨some ⟨c, sign, d, hmark, hsign⟩, ?_, ?_⟩
      · rw [Option.map_some, hvalues]
      · rw [hcs, powerChars, List.cons_append, List.append_assoc]
    · obtain ⟨rfl, rfl⟩ := Prod.mk.inj (Except.ok.inj h)
      exact ⟨none, rfl, rfl⟩
  · obtain ⟨rfl, rfl⟩ := Prod.mk.inj (Except.ok.inj h)
    exact ⟨none, rfl, rfl⟩

/-! ## Whole literals -/

/-- A character that a numeral of digits would go on with. -/
def goesOn (c : Char) : Bool := c.isDigit || c == '.' || c == 'e' || c == 'E'

theorem goesOn_of_isDigit {c : Char} (h : c.isDigit = true) : goesOn c = true := by
  unfold goesOn
  rw [h]
  rfl

theorem stops_isDigit {rest : List Char} (h : Stops goesOn rest) : Stops Char.isDigit rest :=
  h.of_imp fun _ => goesOn_of_isDigit

theorem stops_powerChars (p : Option Power) {rest : List Char} (h : Stops goesOn rest) :
    Stops Char.isDigit (powerChars p ++ rest) ∧ (powerChars p ++ rest).head? ≠ some '.' := by
  cases p with
  | none => exact ⟨stops_isDigit h, fun hpoint => absurd (h '.' hpoint) (by decide)⟩
  | some p =>
    have hmark : p.mark.isDigit = false ∧ p.mark ≠ '.' := by
      rcases p.mark_mem with hm | hm <;> rw [hm] <;> decide
    refine ⟨fun c hc => ?_, fun hpoint => hmark.2 (Option.some.inj hpoint)⟩
    obtain rfl := Option.some.inj hc
    exact hmark.1

theorem stops_fractionChars (f : Option Digits) {rest : List Char} (h : Stops Char.isDigit rest) :
    Stops Char.isDigit (fractionChars f ++ rest) := by
  cases f with
  | none => exact h
  | some d =>
    intro c hc
    obtain rfl := Option.some.inj hc
    decide

/-- The numeral of a text behind its sign. -/
def unsignedNumeral (minus : Bool) (cs : List Char) : Except Stop (Numeral × List Char) :=
  wholeDigits cs >>= fun whole => fractionDigits whole.2 >>= fun fraction =>
    powerDigits fraction.2 >>= fun power =>
      pure (⟨minus, whole.1, fraction.1, power.1⟩, power.2)

theorem scanNumeral_minus (cs : List Char) : scanNumeral ('-' :: cs) = unsignedNumeral true cs := rfl

theorem scanNumeral_unsigned {cs : List Char} (h : cs.head? ≠ some '-') :
    scanNumeral cs = unsignedNumeral false cs := by
  unfold scanNumeral
  split
  next minus unsigned heq =>
    split at heq
    · exact absurd rfl h
    · obtain ⟨rfl, rfl⟩ := Prod.mk.inj heq
      rfl

theorem exists_unsigned {text : List Char} {read : Numeral × List Char}
    (h : scanNumeral text = .ok read) : ∃ minus unsigned,
      text = (if minus then ['-'] else []) ++ unsigned ∧ unsignedNumeral minus unsigned = .ok read := by
  by_cases hminus : text.head? = some '-'
  · obtain ⟨unsigned, rfl⟩ := List.head?_eq_some_iff.mp hminus
    rw [scanNumeral_minus] at h
    exact ⟨true, unsigned, rfl, h⟩
  · rw [scanNumeral_unsigned hminus] at h
    exact ⟨false, text, rfl, h⟩

namespace Literal

theorem unsignedNumeral_chars (l : Literal) {rest : List Char} (h : Stops goesOn rest) :
    unsignedNumeral l.minus (l.whole.chars ++
      (fractionChars l.fraction ++ (powerChars l.power ++ rest))) = .ok (l.numeral, rest) := by
  obtain ⟨hpower, hpoint⟩ := stops_powerChars l.power h
  have hmark : ∀ c ∈ rest.head?, ¬ (c = 'e' ∨ c = 'E') := by
    intro c hc hcase
    have hno := h c hc
    rcases hcase with rfl | rfl <;> exact absurd hno (by decide)
  unfold unsignedNumeral
  rw [wholeDigits_chars l (stops_fractionChars l.fraction hpower)]
  dsimp only [bind, Except.bind]
  rw [fractionDigits_chars l.fraction hpower hpoint]
  dsimp only
  rw [powerDigits_chars l.power (stops_isDigit h) hmark]
  rfl

theorem scanNumeral_chars (l : Literal) {rest : List Char} (h : Stops goesOn rest) :
    scanNumeral (l.chars ++ rest) = .ok (l.numeral, rest) := by
  have hunsigned := l.unsignedNumeral_chars h
  rw [chars, List.append_assoc, List.append_assoc, List.append_assoc]
  cases hminus : l.minus with
  | true =>
    rw [hminus] at hunsigned
    exact (scanNumeral_minus _).trans hunsigned
  | false =>
    rw [hminus] at hunsigned
    rw [if_neg Bool.false_ne_true, List.nil_append, scanNumeral_unsigned, hunsigned]
    obtain ⟨c, cs, hd⟩ := List.exists_cons_of_ne_nil l.whole.ne_nil
    have hc := l.whole.isDigit c (by rw [hd]; exact List.mem_cons_self)
    rw [hd]
    intro hsign
    rw [Option.some.inj hsign] at hc
    exact absurd hc (by decide)

end Literal

theorem exists_literal {text : List Char} {n : Numeral} {rest : List Char}
    (h : scanNumeral text = .ok (n, rest)) : ∃ l : Literal, l.numeral = n ∧ text = l.chars ++ rest := by
  obtain ⟨minus, unsigned, htext, hread⟩ := exists_unsigned h
  obtain ⟨⟨whole, behind⟩, hwhole, hread⟩ := bind_eq_ok_iff.mp hread
  obtain ⟨⟨fraction, behind⟩, hfraction, hread⟩ := bind_eq_ok_iff.mp hread
  obtain ⟨⟨power, behind⟩, hpower, hread⟩ := bind_eq_ok_iff.mp hread
  obtain ⟨rfl, rfl⟩ := Prod.mk.inj (Except.ok.inj hread)
  obtain ⟨w, rfl, rfl, hzero⟩ := exists_whole hwhole
  obtain ⟨f, rfl, rfl⟩ := exists_fraction hfraction
  obtain ⟨p, rfl, rfl⟩ := exists_power hpower
  exact ⟨⟨minus, w, f, p, hzero⟩, rfl, by simp [htext, Literal.chars]⟩

/-! ## The number that a literal means -/

theorem absorb_ofDigitChars (limit : Nat) (cs : List Char) (m : Nat)
    (h : Nat.ofDigitChars 10 cs m ≤ limit) :
    absorb limit m (cs.map fun c => c.toNat - 48) = (Nat.ofDigitChars 10 cs m, []) := by
  induction cs generalizing m with
  | nil => rw [Nat.ofDigitChars_nil]; rfl
  | cons c cs ih =>
    rw [Nat.ofDigitChars_cons] at h ⊢
    have hstep : m * 10 + (c.toNat - 48) = 10 * m + (c.toNat - '0'.toNat) := by
      rw [Nat.mul_comm]
      rfl
    have hle : 10 * m + (c.toNat - '0'.toNat) ≤ limit := by
      refine Nat.le_trans ?_ h
      rw [Nat.ofDigitChars_eq_ofDigitChars_zero]
      exact Nat.le_add_right_of_le (Nat.le_mul_of_pos_left _ (Nat.pow_pos (by decide)))
    rw [List.map_cons, absorb, hstep, if_pos hle]
    exact ih _ h

theorem ofDigitChars_le_of_absorb {limit : Nat} {cs : List Char} {m n : Nat} (hm : m ≤ limit)
    (h : absorb limit m (cs.map fun c => c.toNat - 48) = (n, [])) :
    Nat.ofDigitChars 10 cs m ≤ limit := by
  induction cs generalizing m with
  | nil => exact hm
  | cons c cs ih =>
    rw [List.map_cons, absorb] at h
    split at h
    · next hle =>
      rw [Nat.ofDigitChars_cons, Nat.mul_comm]
      exact ih hle h
    · cases h

theorem real_ne_natural (n : Numeral) (m : Nat) : n.real ≠ .natural m := by
  unfold Numeral.real
  dsimp only
  split <;> nofun

namespace Literal

theorem number_eq_natural_iff (l : Literal) (n : Nat) : l.numeral.number = .natural n ↔
    l.IsNatural ∧ l.whole.value = n ∧ n ≤ largestNatural := by
  constructor
  · intro h
    unfold Numeral.number at h
    split at h
    · next value hfraction hpower habsorb =>
      have hle := ofDigitChars_le_of_absorb (Nat.zero_le _) habsorb
      have hvalue := absorb_ofDigitChars largestNatural l.whole.chars 0 hle
      rw [show (l.whole.chars.map fun c => c.toNat - 48) = l.numeral.whole from rfl, habsorb] at hvalue
      obtain rfl := (Prod.mk.inj hvalue).1
      split at h
      · next hminus =>
        obtain rfl := Number.natural.inj h
        rw [Bool.not_eq_true'] at hminus
        exact ⟨⟨hminus, Option.map_eq_none_iff.mp hfraction, Option.map_eq_none_iff.mp hpower⟩, rfl, hle⟩
      · split at h <;> cases h
    · exact absurd h (real_ne_natural _ n)
  · rintro ⟨⟨hminus, hfraction, hpower⟩, rfl, hle⟩
    have hread : absorb largestNatural 0 l.whole.values = (l.whole.value, []) :=
      absorb_ofDigitChars largestNatural l.whole.chars 0 hle
    unfold Numeral.number numeral
    rw [hminus, hfraction, hpower]
    dsimp only
    rw [hread]
    rfl

end Literal

end BooleanSearch.Json
