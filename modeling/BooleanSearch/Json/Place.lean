import BooleanSearch.Json.Number

/-!
# Places at the end of complaints

A place is a line and a column. It is told apart from a complaint, so the words of a complaint end before
its place. A name from the text can end in the same words, and they count as a place there too.

* `Place`, `Place.words`: a place and how it is written behind a complaint.
* `splitPlace?`: what stands before the place that a text ends in, and the place.
* `withoutPlace`: a complaint without the place at its end.
-/

namespace BooleanSearch.Json
set_option autoImplicit false

/-- A line and a column, both numbers of 64 bits. -/
structure Place where
  line : Nat
  column : Nat
  deriving DecidableEq, Repr

def Place.words (p : Place) : List Char :=
  " at line ".toList ++ (toString p.line).toList ++ " column ".toList ++ (toString p.column).toList

/-- What stands before the number that a text ends in, and the number. -/
def splitNumber? (cs : List Char) : Option (List Char × Nat) :=
  let (ds, before) := digits cs.reverse
  match ds, absorb largestNatural 0 ds.reverse with
  | [], _ => none
  | _, (n, []) => some (before.reverse, n)
  | _, _ => none

def splitPlace? (cs : List Char) : Option (List Char × Place) := do
  let (upToColumn, column) ← splitNumber? cs
  let upToLine ← " column ".toList.isSuffixOf? upToColumn
  let (upToLine, line) ← splitNumber? upToLine
  let before ← " at line ".toList.isSuffixOf? upToLine
  return (before, ⟨line, column⟩)

/-- A complaint without the place at its end. Lines count from 1, so a place in line 0 is as good as none:
where it stands twice, both go. Of other places only the last one goes. -/
def withoutPlace (complaint : String) : String :=
  match splitPlace? complaint.toList with
  | none => complaint
  | some (before, place) =>
    if place.line == 0 then String.ofList ((place.words.isSuffixOf? before).getD before)
    else String.ofList before

end BooleanSearch.Json
