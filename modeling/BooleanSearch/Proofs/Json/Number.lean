import BooleanSearch.Proofs.Json.Literal

/-!
# Written numbers

* `Literal.ofNat`: the digits of a number are a literal.
* `Literal.number_ofNat`: it means the number again, when that fits 64 bits.
-/

namespace BooleanSearch.Json
set_option autoImplicit false

theorem all_isDigit_toDigits (n : Nat) : ∀ c ∈ Nat.toDigits 10 n, c.isDigit = true := by
  intro c hc
  exact Nat.isDigit_of_mem_toDigits (by decide) (by decide) hc

theorem head_toDigits_append (n : Nat) (rest : List Char) :
    (Nat.toDigits 10 n ++ rest).head? = (Nat.toDigits 10 n).head? := by
  cases hd : Nat.toDigits 10 n with
  | nil => exact absurd hd Nat.toDigits_ne_nil
  | cons c cs => rfl

theorem head_toDigits_ne_zero (n : Nat) (hn : 0 < n) : (Nat.toDigits 10 n).head? ≠ some '0' := by
  induction n using Nat.strong_induction_on with
  | _ n ih =>
    by_cases hlt : n < 10
    · rw [Nat.toDigits_of_lt_base hlt, List.head?_cons]
      intro h
      have hzero := Nat.digitChar_eq_zero.mp (Option.some.inj h)
      omega
    · have hle : 10 ≤ n := Nat.not_lt.mp hlt
      rw [Nat.toDigits_of_base_le (by decide) hle, head_toDigits_append]
      exact ih (n / 10) (by omega) (by omega)

theorem toDigits_zero_alone {n : Nat} (h : (Nat.toDigits 10 n).head? = some '0') :
    Nat.toDigits 10 n = ['0'] := by
  have hzero : n = 0 := by
    by_contra hn
    exact head_toDigits_ne_zero n (Nat.pos_of_ne_zero hn) h
  rw [hzero, Nat.toDigits_zero]

namespace Literal

/-- A number as it is written. -/
def ofNat (n : Nat) : Literal where
  minus := false
  whole := ⟨Nat.toDigits 10 n, Nat.toDigits_ne_nil, all_isDigit_toDigits n⟩
  fraction := none
  power := none
  zero_alone := toDigits_zero_alone

theorem chars_ofNat (n : Nat) : (ofNat n).chars = Nat.toDigits 10 n := List.append_nil _

theorem number_ofNat (n : Nat) (h : n ≤ largestNatural) : (ofNat n).numeral.number = .natural n :=
  ((ofNat n).number_eq_natural_iff n).mpr ⟨⟨rfl, rfl, rfl⟩, Nat.ofDigitChars_ten_toDigits, h⟩

end Literal

end BooleanSearch.Json
