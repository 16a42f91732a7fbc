import BooleanSearch.Connector
import BooleanSearch.Text.Quoted

/-!
# Tokens of a query

A query is read as a row of tokens: terms in square brackets, keywords, parentheses, field codes glued
to the operand that they apply to, and what fits nowhere.

* `Span`: the part of a text that a token was read from.
* `Kind`: what a token is; `Kind.shown` is its name in complaints.
* `Token`: a kind with its span.
-/

namespace BooleanSearch
set_option autoImplicit false

/-- A part of a text, by the byte offsets of its two ends. -/
structure Span where
  start : Nat
  stop : Nat
  deriving DecidableEq, Repr

def Span.touches (a b : Span) : Bool := a.stop == b.start

/-- What a token is. -/
inductive Kind where
  /-- A search term, without its square brackets. -/
  | term (value : String)
  | keyword (word : Keyword)
  | opening
  | closing
  /-- Letters directly before a term or a group. -/
  | fieldPrefix (code : String)
  /-- Any other run of characters outside brackets. -/
  | word (text : String)
  /-- A square bracket without its partner. -/
  | illegal
  deriving DecidableEq, Repr

namespace Kind

def shown : Kind → String
  | term value => "Term(" ++ Text.quoted value ++ ")"
  | keyword k => k.name
  | opening => "LParen"
  | closing => "RParen"
  | fieldPrefix code => "FieldPrefix(" ++ Text.quoted code ++ ")"
  | word text => "Word(" ++ Text.quoted text ++ ")"
  | illegal => "Illegal"

def isKeyword : Kind → Bool
  | keyword _ => true
  | _ => false

def isTerm : Kind → Bool
  | term _ => true
  | _ => false

def text? : Kind → Option String
  | term value => some value
  | fieldPrefix code => some code
  | word text => some text
  | _ => none

end Kind

/-- A kind and the part of the text that it was read from. -/
structure Token where
  kind : Kind
  span : Span
  deriving DecidableEq, Repr

end BooleanSearch
