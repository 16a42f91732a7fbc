import BooleanSearch.Json.Value

/-!
# Writing JSON

Data is written without any space between its parts.

* `Data`: complete data of the shapes that the library writes.
* `Data.write`: its text.
-/

namespace BooleanSearch.Json
set_option autoImplicit false

mutual

/-- Complete data. -/
inductive Data where
  | text (s : String)
  | natural (n : Nat)
  | array (items : List Data)
  | object (members : List Member)
  deriving Repr

/-- A key of an object and what stands there. -/
inductive Member where
  | mk (key : String) (value : Data)
  deriving Repr

end

instance : Inhabited Data := ⟨.natural 0⟩

def commaSeparated : List (List Char) → List Char
  | [] => []
  | [t] => t
  | t :: ts => t ++ ',' :: commaSeparated ts

mutual

def Data.chars : Data → List Char
  | .text s => encode s.toList
  | .natural n => Nat.toDigits 10 n
  | .array items => '[' :: commaSeparated (charsOfItems items) ++ [']']
  | .object members => '\x7b' :: commaSeparated (charsOfMembers members) ++ ['\x7d']

def charsOfItems : List Data → List (List Char)
  | [] => []
  | d :: ds => d.chars :: charsOfItems ds

def charsOfMembers : List Member → List (List Char)
  | [] => []
  | .mk key d :: ms => (encode key.toList ++ ':' :: d.chars) :: charsOfMembers ms

end

/-- The text that data is written as. -/
def Data.write (d : Data) : String := String.ofList d.chars

end BooleanSearch.Json
