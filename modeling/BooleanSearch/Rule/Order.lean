import BooleanSearch.Field
import BooleanSearch.Rule.Violation
import BooleanSearch.Text.Offset
import BooleanSearch.Token

/-!
# Rules on the tokens of a query

These rules look at which tokens there are and in which order.

* `Rule.operatorSpacing`: no keyword touches a term.
* `Rule.bareWords`: all text outside brackets means something.
* `Rule.notPlacement`: `NOT` comes directly after `AND`.
* `Rule.connectorPlacement`: outside groups, operands and connectors take turns.
* `Rule.connectorRuns`: no connector directly follows another one, in groups too.
* `Rule.hasTerm`, `Rule.knownFields`.
-/

namespace BooleanSearch.Rule
set_option autoImplicit false

/-! ## Words -/

/-- One of two neighbours is a keyword and the other a term, with nothing between them. -/
def glued (a b : Token) : Bool :=
  ((a.kind.isKeyword && b.kind.isTerm) || (a.kind.isTerm && b.kind.isKeyword)) &&
    a.span.touches b.span

def hasGlued : List Token → Bool
  | a :: b :: rest => glued a b || hasGlued (b :: rest)
  | _ => false

def operatorSpacing (tokens : List Token) : Check := .unless (!hasGlued tokens) .missingSpace

/-- Words that other query languages join operands with. -/
def unsupportedOperators : List String := ["XOR", "NAND", "NOR"]

def aboutWord (word : String) : Violation :=
  if unsupportedOperators.any (·.toList == Text.upper word.toList) then .unsupportedOperator word
  else .textOutsideBrackets word

def bareWords (text : List Char) : List Token → Check
  | [] => .ok ()
  | ⟨.word w, _⟩ :: _ => .error (aboutWord w)
  | ⟨.illegal, span⟩ :: _ =>
    .error (.textOutsideBrackets (String.ofList (Text.slice text span.start span.stop)))
  | _ :: rest => bareWords text rest

/-! ## Connectors -/

/-- Every `NOT` comes directly after an `AND`, when the tokens come after an `AND` or not. -/
def notsFollowAnd : (afterAnd : Bool) → List Kind → Bool
  | _, [] => true
  | afterAnd, .keyword .not :: ks => afterAnd && notsFollowAnd false ks
  | _, k :: ks => notsFollowAnd (k == .keyword .and) ks

def notPlacement (tokens : List Token) : Check :=
  .unless (notsFollowAnd false (tokens.map (·.kind))) .notWithoutAnd

/-- What a part of a query is to the parts beside it. -/
inductive Role where
  | operand
  | connector
  deriving DecidableEq, Repr

/-- The roles of the parts outside groups, when `depth` groups are open. A group is one operand, and
`AND NOT` is one connector. -/
def roles : (depth : Nat) → List Kind → List Role
  | 0, .opening :: ks => .operand :: roles 1 ks
  | depth, .opening :: ks => roles (depth + 1) ks
  | depth, .closing :: ks => roles (depth - 1) ks
  | 0, .term _ :: ks => .operand :: roles 0 ks
  | 0, .keyword .and :: .keyword .not :: ks => .connector :: roles 0 ks
  | 0, .keyword _ :: ks => .connector :: roles 0 ks
  | depth, _ :: ks => roles depth ks
  | _, [] => []

/-- The complaint about the first two neighbours of the same role, if any. -/
def sameNeighbours? : List Role → Option Violation
  | .connector :: .connector :: _ => some .consecutiveConnectors
  | .operand :: .operand :: _ => some .missingOperator
  | _ :: rest => sameNeighbours? rest
  | [] => none

/-- Outside groups, a query begins and ends with an operand, and operands and connectors take turns. -/
def connectorPlacement (tokens : List Token) : Check :=
  let rs := roles 0 (tokens.map (·.kind))
  if rs.head? == some .connector then .error .connectorFirst
  else if rs.getLast? == some .connector then .error .connectorLast
  else match sameNeighbours? rs with
    | some v => .error v
    | none => .ok ()

/-- No connector directly follows another one, when the tokens come after a connector or not. -/
def connectorsApart : (afterConnector : Bool) → List Kind → Bool
  | _, [] => true
  | after, .keyword .and :: .keyword .not :: ks => !after && connectorsApart true ks
  | after, .keyword _ :: ks => !after && connectorsApart true ks
  | _, _ :: ks => connectorsApart false ks

def connectorRuns (tokens : List Token) : Check :=
  .unless (connectorsApart false (tokens.map (·.kind))) .consecutiveConnectors

/-! ## Presence -/

def hasTerm (tokens : List Token) : Check := .unless (tokens.any (·.kind.isTerm)) .noTerm

def knownFields : List Token → Check
  | [] => .ok ()
  | ⟨.fieldPrefix code, _⟩ :: rest =>
    if (Field.ofCode? code).isSome then knownFields rest else .error (.unknownField code)
  | _ :: rest => knownFields rest

end BooleanSearch.Rule
