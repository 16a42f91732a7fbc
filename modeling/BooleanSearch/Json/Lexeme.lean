import BooleanSearch.Json.Number

/-!
# The parts of a JSON text

A JSON text is cut into marks, literals, numbers and strings. Cutting stops at the first part that is
broken; what a broken part means depends on whether its value is used or passed over.

* `Mark`, `Lexeme`: the parts.
* `firstLexeme`: the part that a text begins with, and what follows it.
* `lexemes`: all parts of a text.
-/

namespace BooleanSearch.Json
set_option autoImplicit false

inductive Mark where
  | openArray
  | closeArray
  | openObject
  | closeObject
  | comma
  | colon
  deriving DecidableEq, Repr

namespace Mark

def all : List Mark := [.openArray, .closeArray, .openObject, .closeObject, .comma, .colon]

def char : Mark → Char
  | openArray => '['
  | closeArray => ']'
  | openObject => '\x7b'
  | closeObject => '\x7d'
  | comma => ','
  | colon => ':'

def ofChar? (c : Char) : Option Mark := all.find? (·.char == c)

end Mark

inductive Lexeme where
  | mark (m : Mark)
  | null
  | bool (b : Bool)
  | number (n : Number)
  /-- A string with its text, which is missing when the escapes name half a pair of surrogates. -/
  | string (text : Option String)
  /-- A literal or a number that is not complete: how it looks to a reader that uses it and to one that
  passes over it. -/
  | broken (used passed : Stop)
  | brokenString (used passed : Stop)

/-- The characters between values that mean nothing. -/
def isSpace (c : Char) : Bool := c == ' ' || c == '\n' || c == '\t' || c == '\r'

/-- What is wrong with a text that should begin with a word, if anything. -/
def wordFault? : (word text : List Char) → Option Stop
  | [], _ => none
  | _ :: _, [] => some .ended
  | w :: ws, c :: cs => if w == c then wordFault? ws cs else some .malformed

def literals : List (List Char × Lexeme) :=
  [("null".toList, .null), ("true".toList, .bool true), ("false".toList, .bool false)]

def literalLexeme (text : List Char) : Lexeme × List Char :=
  match literals.find? (·.1.head? == text.head?) with
  | none => (.broken .malformed .malformed, [])
  | some (word, value) =>
    match wordFault? word text with
    | none => (value, text.drop word.length)
    | some s => (.broken s s, [])

/-- The number that a text begins with, and what follows it. A number that is passed over is malformed
even where the text has ended. -/
def numberLexeme (text : List Char) : Lexeme × List Char :=
  match scanNumeral text with
  | .ok (n, rest) => (.number n.number, rest)
  | .error s => (.broken s .malformed, [])

def stringLexeme (text : List Char) : Lexeme × List Char :=
  match pass text, decode text with
  | .ok rest, .ok (content, _) => (.string (some (String.ofList content)), rest)
  | .ok rest, .error _ => (.string none, rest)
  | .error passed, .error used => (.brokenString used passed, [])
  | .error passed, .ok _ => (.brokenString passed passed, [])

/-- The part that a text with the first character `c` begins with, and what follows it. -/
def firstLexeme (c : Char) (cs : List Char) : Lexeme × List Char :=
  if c == '"' then stringLexeme cs
  else if c == '-' || c.isDigit then numberLexeme (c :: cs)
  else match Mark.ofChar? c with
    | some m => (.mark m, cs)
    | none => literalLexeme (c :: cs)

/-- The parts of a text, when `limit` bounds their number. -/
def lexemesWithin : (limit : Nat) → List Char → List Lexeme
  | 0, _ => []
  | _, [] => []
  | limit + 1, c :: cs =>
    if isSpace c then lexemesWithin limit cs
    else
      let (part, rest) := firstLexeme c cs
      part :: lexemesWithin limit rest

/-- The parts of a text. Each takes at least one character. -/
def lexemes (text : List Char) : List Lexeme := lexemesWithin text.length text

end BooleanSearch.Json
