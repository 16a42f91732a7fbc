/-!
# Letters of ASCII

Keywords and field codes are written in ASCII, and the case of their letters does not matter. No
other letter has a case here.

* `upper`, `lower`: a text with its ASCII letters in one case.
* `isLetter c`: `c` is one of the 52 ASCII letters.
* `eq_or_isLetter`, `upper_upper`, `lower_upper`: what another case changes.
-/

namespace BooleanSearch.Text
set_option autoImplicit false

def upper (cs : List Char) : List Char := cs.map Char.toUpper

def lower (cs : List Char) : List Char := cs.map Char.toLower

/-- One of the 52 ASCII letters. -/
def isLetter (c : Char) : Bool := c.isAlpha

@[simp] theorem upper_append (cs ds : List Char) : upper (cs ++ ds) = upper cs ++ upper ds := by
  simp [upper]

/-! ## Code points -/

theorem isLetter_iff (c : Char) : isLetter c = true ↔
    (65 ≤ c.toNat ∧ c.toNat ≤ 90) ∨ (97 ≤ c.toNat ∧ c.toNat ≤ 122) := by
  have hranges : isLetter c = (decide ('A'.val ≤ c.val ∧ c.val ≤ 'Z'.val) ||
      (decide ('a'.val ≤ c.val) && decide (c.val ≤ 'z'.val))) := rfl
  simp [hranges, UInt32.le_iff_toNat_le]

theorem toNat_toUpper (c : Char) :
    c.toUpper.toNat = if 97 ≤ c.toNat ∧ c.toNat ≤ 122 then c.toNat - 32 else c.toNat := by
  have hrange : ('a'.val ≤ c.val ∧ c.val ≤ 'z'.val) ↔ 97 ≤ c.toNat ∧ c.toNat ≤ 122 := by
    rw [UInt32.le_iff_toNat_le, UInt32.le_iff_toNat_le]
    rfl
  unfold Char.toUpper
  by_cases h : 97 ≤ c.toNat ∧ c.toNat ≤ 122
  · rw [dif_pos (hrange.mpr h), if_pos h]
    -- What is added is negative, so that the sum wraps around.
    refine (UInt32.toNat_add c.val ('A'.val - 'a'.val)).trans ?_
    change (c.toNat + 4294967264) % 4294967296 = _
    omega
  · rw [dif_neg (mt hrange.mp h), if_neg h]

theorem toNat_toLower (c : Char) :
    c.toLower.toNat = if 65 ≤ c.toNat ∧ c.toNat ≤ 90 then c.toNat + 32 else c.toNat := by
  have hrange : (c.val ≥ 'A'.val ∧ c.val ≤ 'Z'.val) ↔ 65 ≤ c.toNat ∧ c.toNat ≤ 90 := by
    rw [ge_iff_le, UInt32.le_iff_toNat_le, UInt32.le_iff_toNat_le]
    rfl
  unfold Char.toLower
  by_cases h : 65 ≤ c.toNat ∧ c.toNat ≤ 90
  · rw [dif_pos (hrange.mpr h), if_pos h]
    refine (UInt32.toNat_add c.val ('a'.val - 'A'.val)).trans ?_
    change (c.toNat + 32) % 4294967296 = _
    omega
  · rw [dif_neg (mt hrange.mp h), if_neg h]

/-! ## Another case -/

theorem isLetter_toUpper (c : Char) : isLetter c.toUpper = isLetter c := by
  rw [Bool.eq_iff_iff, isLetter_iff, isLetter_iff]
  grind [toNat_toUpper]

/-- Only letters have another case. -/
theorem eq_or_isLetter {c d : Char} (h : c.toUpper = d.toUpper) :
    c = d ∨ isLetter c = true ∧ isLetter d = true := by
  have hpoints := congrArg Char.toNat h
  rw [isLetter_iff, isLetter_iff, ← Char.toNat_inj]
  grind [toNat_toUpper]

theorem upper_upper (cs : List Char) : upper (upper cs) = upper cs := by
  have htwice : Char.toUpper ∘ Char.toUpper = Char.toUpper := by
    funext c
    apply Char.toNat_inj.mp
    grind [toNat_toUpper]
  rw [upper, upper, List.map_map, htwice]

theorem lower_upper (cs : List Char) : lower (upper cs) = lower cs := by
  have hlast : Char.toLower ∘ Char.toUpper = Char.toLower := by
    funext c
    apply Char.toNat_inj.mp
    grind [toNat_toUpper, toNat_toLower]
  rw [upper, lower, List.map_map, hlast]
  rfl

theorem all_isLetter_upper (cs : List Char) : (upper cs).all isLetter = cs.all isLetter := by
  have hclass : isLetter ∘ Char.toUpper = isLetter := funext isLetter_toUpper
  rw [upper, List.all_map, hclass]

end BooleanSearch.Text
