/-!
# Wildcards of a search term

A question mark stands for one character and an asterisk for any number of them.

* `Wildcard`: the two kinds.
* `Wildcard.ofChar?`: the kind that a character stands for.
* `Wildcard.first?`: the kind of the first wildcard in a text.
-/

namespace BooleanSearch
set_option autoImplicit false

/-- What a wildcard stands for: one character, or any number of them. -/
inductive Wildcard where
  | single
  | multiple
  deriving DecidableEq, Repr

namespace Wildcard

def ofChar? : Char → Option Wildcard
  | '?' => some .single
  | '*' => some .multiple
  | _ => none

def isMark (c : Char) : Bool := (ofChar? c).isSome

def first? (text : List Char) : Option Wildcard := text.findSome? ofChar?

theorem isMark_iff (c : Char) : isMark c = true ↔ c = '?' ∨ c = '*' := by
  unfold isMark ofChar?
  split <;> simp_all

theorem any_isMark_iff (text : List Char) : text.any isMark = true ↔ '?' ∈ text ∨ '*' ∈ text := by
  simp only [List.any_eq_true, isMark_iff, and_or_left, exists_or, exists_eq_right]

end Wildcard
end BooleanSearch
