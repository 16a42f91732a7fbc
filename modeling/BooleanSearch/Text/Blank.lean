/-!
# White space

Which characters are blank, and what the library does with them: a text is trimmed at its two ends,
and a text is cut into words.

* `isBlank c`: `c` has the White_Space property of Unicode.
* `trim`: a text without the blank characters at its two ends.
* `words`: the maximal runs of characters that are not blank, in order.
-/

namespace BooleanSearch.Text
set_option autoImplicit false

/-- A character is blank when it has the White_Space property of Unicode. -/
def isBlank (c : Char) : Bool :=
  let n := c.toNat
  (9 ≤ n && n ≤ 13) || n == 0x20 || n == 0x85 || n == 0xA0 || n == 0x1680 ||
    (0x2000 ≤ n && n ≤ 0x200A) || n == 0x2028 || n == 0x2029 || n == 0x202F || n == 0x205F ||
    n == 0x3000

def trimEnd (cs : List Char) : List Char := (cs.reverse.dropWhile isBlank).reverse

def trim (cs : List Char) : List Char := trimEnd (cs.dropWhile isBlank)

/-- The maximal runs of characters that are not blank, in order. -/
def words : List Char → List (List Char)
  | [] => []
  | c :: cs =>
    if isBlank c then words cs
    else (c :: cs.takeWhile (!isBlank ·)) :: words (cs.dropWhile (!isBlank ·))
termination_by cs => cs.length
decreasing_by
  · simp
  · exact Nat.lt_succ_of_le (List.dropWhile_suffix _).length_le

/-! ## Small facts -/

theorem isBlank_space : isBlank ' ' = true := by decide

end BooleanSearch.Text
