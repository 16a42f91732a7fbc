import BooleanSearch.Text.Ascii

/-!
# Search fields

The part of a paper that a term is searched in.

* `Field`: the five fields, with the order in which they are listed.
* `Field.code`: the short name of a field.
* `Field.ofCode?`: the field with a given short name, in any case of letters.
* `Field.listed`: a collection of fields, each once, in order.
-/

namespace BooleanSearch
set_option autoImplicit false

/-- The part of a paper that a term is searched in. -/
inductive Field where
  | title
  | abstract
  | keyword
  | titleAbstract
  | titleAbstractKeyword
  deriving DecidableEq, Repr

namespace Field

/-- All fields, in the order in which they are listed. -/
def all : List Field := [.title, .abstract, .keyword, .titleAbstract, .titleAbstractKeyword]

def code : Field → String
  | .title => "ti"
  | .abstract => "abs"
  | .keyword => "key"
  | .titleAbstract => "tiabs"
  | .titleAbstractKeyword => "tiabskey"

/-- The field with exactly this short name. -/
def ofExactCode? (text : String) : Option Field := all.find? (·.code == text)

/-- The field with this short name, written in any case of letters. -/
def ofCode? (text : String) : Option Field :=
  ofExactCode? (String.ofList (Text.lower text.toList))

/-- The fields of a collection, each once, in the order of `all`. -/
def listed (fields : List Field) : List Field := all.filter (fields.contains ·)

structure Unknown where
  code : String
  deriving DecidableEq, Repr

def Unknown.message (u : Unknown) : String := "Unknown field code: " ++ u.code

def ofCode (text : String) : Except Unknown Field :=
  match ofCode? text with
  | some f => .ok f
  | none => .error ⟨text⟩

theorem mem_all (f : Field) : f ∈ all := by cases f <;> decide

theorem mem_listed (fields : List Field) (f : Field) : f ∈ listed fields ↔ f ∈ fields := by
  simp [listed, mem_all]

theorem ofCode?_code (f : Field) : ofCode? f.code = some f := by cases f <;> decide

end Field
end BooleanSearch
