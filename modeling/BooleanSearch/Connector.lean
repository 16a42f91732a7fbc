import BooleanSearch.Text.Ascii
import BooleanSearch.Text.Blank

/-!
# Keywords and connectors

A query is joined together by the words `AND`, `OR` and `NOT`. Two of them make connectors alone and
`AND NOT` is a third connector; no other run of keywords means anything.

* `Keyword`, `Keyword.ofWord?`: the three words, in any case of letters.
* `Connector`, `Connector.text`: the three connectors and how they are written.
* `Connector.ofKeywords?`: the connector that a run of keywords makes.
* `Connector.ofText?`: the connector that a text spells, with any white space between its words.
-/

namespace BooleanSearch
set_option autoImplicit false

/-- A word of the query language. -/
inductive Keyword where
  | and
  | or
  | not
  deriving DecidableEq, Repr

namespace Keyword

def text : Keyword → String
  | .and => "AND"
  | .or => "OR"
  | .not => "NOT"

def name : Keyword → String
  | .and => "And"
  | .or => "Or"
  | .not => "Not"

def all : List Keyword := [.and, .or, .not]

/-- The keyword that a word is, in any case of letters. -/
def ofWord? (word : List Char) : Option Keyword :=
  all.find? (·.text.toList == Text.upper word)

theorem ofWord?_text (k : Keyword) : ofWord? k.text.toList = some k := by cases k <;> decide

end Keyword

/-- What stands between two operands. -/
inductive Connector where
  | and
  | or
  | andNot
  deriving DecidableEq, Repr

namespace Connector

def all : List Connector := [.and, .or, .andNot]

def text : Connector → String
  | .and => "AND"
  | .or => "OR"
  | .andNot => "AND NOT"

def keywords : Connector → List Keyword
  | .and => [.and]
  | .or => [.or]
  | .andNot => [.and, .not]

/-- The connector that a run of keywords makes. -/
def ofKeywords? : List Keyword → Option Connector
  | [.and] => some .and
  | [.or] => some .or
  | [.and, .not] => some .andNot
  | _ => none

/-- The connector that a text spells: its words are read in any case of letters and the white space
around them does not matter. -/
def ofText? (text : String) : Option Connector :=
  let spelled := Text.upper (List.intercalate [' '] (Text.words text.toList))
  all.find? (·.text.toList == spelled)

structure Unknown where
  text : String
  deriving DecidableEq, Repr

def Unknown.message (u : Unknown) : String := "Unknown connector: " ++ u.text

def ofText (text : String) : Except Unknown Connector :=
  match ofText? text with
  | some c => .ok c
  | none => .error ⟨text⟩

theorem ofKeywords?_keywords (c : Connector) : ofKeywords? c.keywords = some c := by
  cases c <;> rfl

theorem eq_keywords_of_ofKeywords? {ks : List Keyword} {c : Connector}
    (h : ofKeywords? ks = some c) : ks = c.keywords := by
  unfold ofKeywords? at h
  split at h <;> simp_all <;> subst h <;> rfl

end Connector
end BooleanSearch
