import BooleanSearch.Rule.Term

/-!
# Rules on the characters of a query

These rules look at a text before it is cut into tokens.

* `Rule.notEmpty`, `Rule.balancedBrackets`, `Rule.balancedParentheses`, `Rule.noEmptyBrackets`.
* `Rule.bracketed`: the contents of the square brackets of a text; `Rule.terms` asks the rule for one
  term of each.
* `Rule.termsSeparated`: something stands between two bracketed terms.
-/

namespace BooleanSearch.Rule
set_option autoImplicit false

/-- A query has a character that is not blank. -/
def notEmpty (text : List Char) : Check := .unless (!text.all Text.isBlank) .emptyQuery

/-! ## Balance -/

/-- With `depth` brackets open, every bracket of the text finds its partner. -/
def bracketsBalance : (depth : Nat) → List Char → Bool
  | depth, [] => depth == 0
  | depth, '[' :: cs => bracketsBalance (depth + 1) cs
  | 0, ']' :: _ => false
  | depth + 1, ']' :: cs => bracketsBalance depth cs
  | depth, _ :: cs => bracketsBalance depth cs

def balancedBrackets (text : List Char) : Check :=
  .unless (bracketsBalance 0 text) .unbalancedBrackets

/-- With `depth` parentheses open, every parenthesis outside terms finds its partner. A term begins at
an opening square bracket and ends at a closing one. -/
def parenthesesBalance : (inTerm : Bool) → (depth : Nat) → List Char → Bool
  | _, depth, [] => depth == 0
  | _, depth, '[' :: cs => parenthesesBalance true depth cs
  | _, depth, ']' :: cs => parenthesesBalance false depth cs
  | false, depth, '(' :: cs => parenthesesBalance false (depth + 1) cs
  | false, 0, ')' :: _ => false
  | false, depth + 1, ')' :: cs => parenthesesBalance false depth cs
  | inTerm, depth, _ :: cs => parenthesesBalance inTerm depth cs

def balancedParentheses (text : List Char) : Check :=
  .unless (parenthesesBalance false 0 text) .unbalancedParentheses

/-! ## Terms -/

/-- An opening square bracket stands directly before a closing one. -/
def hasEmptyBrackets : List Char → Bool
  | '[' :: ']' :: _ => true
  | _ :: cs => hasEmptyBrackets cs
  | [] => false

def noEmptyBrackets (text : List Char) : Check := .unless (!hasEmptyBrackets text) .emptyTerm

/-- The contents of the square brackets of a text, in order. A bracket goes on to the next closing
one, and one that is never closed has no contents. -/
def bracketed : List Char → List String
  | [] => []
  | c :: cs =>
    if c != '[' then bracketed cs
    else if cs.contains ']' then
      String.ofList (cs.takeWhile (· != ']')) :: bracketed (cs.dropWhile (· != ']')).tail
    else []
termination_by text => text.length
decreasing_by
  · simp
  · have := (List.dropWhile_suffix (l := cs) (· != ']')).length_le
    simp only [List.length_tail, List.length_cons]
    omega

def terms (text : List Char) : Check := (bracketed text).forM term

/-- A closing square bracket stands before an opening one with only blanks between them. -/
def hasAdjoiningBrackets : List Char → Bool
  | [] => false
  | c :: cs =>
    (c == ']' && (cs.dropWhile Text.isBlank).head? == some '[') || hasAdjoiningBrackets cs

def termsSeparated (text : List Char) : Check :=
  .unless (!hasAdjoiningBrackets text) .missingOperator

end BooleanSearch.Rule
