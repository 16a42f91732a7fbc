import BooleanSearch.Node
import BooleanSearch.Token

/-!
# Building a tree from tokens

The tokens are read one after the other. A machine keeps the row that is being filled, the keywords
that wait for the operand behind them, the field that waits for its operand, and the rows around the
groups that are still open.

* `Complaint`, `Fault`: why tokens make no tree, and where.
* `Builder`, `Builder.step`: the machine and what it does with one token.
* `Builder.run`: reading until the tokens end or one of them is refused; what was not read is kept.
* `Node.ofTokens`: the tree that some tokens make.
-/

namespace BooleanSearch
set_option autoImplicit false

/-! ## Complaints -/

/-- Why tokens make no tree. -/
inductive Complaint where
  | unknownField (code : String)
  | endAfterField
  | noOperand (found : Kind)
  | strayClosing
  | noPlace (found : Kind)
  | noConnector (run : List Keyword)
  | tooDeep (limit : Nat)
  | openGroup
  deriving DecidableEq, Repr

namespace Complaint

def message : Complaint → String
  | unknownField code => "Unknown field code: " ++ code
  | endAfterField => "Unexpected end of input after field prefix"
  | noOperand found => "Expected a term or a group, found " ++ found.shown
  | strayClosing => "Unexpected ')'"
  | noPlace found => "Unexpected token: " ++ found.shown
  | noConnector run =>
    "Invalid connector sequence: [" ++ ", ".intercalate (run.map Keyword.name) ++ "]"
  | tooDeep limit => "Maximum nesting depth of " ++ toString limit ++ " exceeded"
  | openGroup => "Unexpected end of input: unterminated group"

end Complaint

/-- A complaint and the part of the text that it is about, unless it is about the end. -/
structure Fault where
  complaint : Complaint
  span : Option Span
  deriving DecidableEq, Repr

/-! ## The machine -/

/-- A row around a group that is still open: the nodes read before the group, last first, and the field
that the group is bound to. -/
structure OpenRow where
  before : List Node
  field : Option Field
  deriving DecidableEq, Repr

/-- What is known between two tokens. -/
structure Builder where
  /-- The rows around the groups that are open, innermost first. -/
  outer : List OpenRow
  /-- The nodes of the row that is being filled, last first. -/
  row : List Node
  /-- The keywords read since the last operand, in order. -/
  waiting : List (Keyword × Span)
  /-- The field that waits for its operand. -/
  field : Option Field
  deriving DecidableEq, Repr

namespace Builder

def start : Builder := ⟨[], [], [], none⟩

/-- The part of the text that a run of keywords spans. -/
def runSpan : List (Keyword × Span) → Option Span
  | [] => none
  | (_, first) :: rest => some ⟨first.start, (rest.getLast?.map (·.2)).getD first |>.stop⟩

/-- The keywords that wait become a connector, now that an operand follows. -/
def join (b : Builder) : Except Fault Builder :=
  if b.waiting.isEmpty then .ok b
  else
    let run := b.waiting.map (·.1)
    match Connector.ofKeywords? run with
    | some c => .ok { b with row := .connector c :: b.row, waiting := [] }
    | none => .error ⟨.noConnector run, runSpan b.waiting⟩

def putTerm (b : Builder) (value : String) : Except Fault Builder := do
  let b ← b.join
  return { b with row := .term value b.field :: b.row, field := none }

/-- A group is opened, if fewer than `limit` are open. -/
def openGroup (limit : Nat) (b : Builder) (span : Span) : Except Fault Builder := do
  let b ← b.join
  if limit ≤ b.outer.length then throw ⟨.tooDeep limit, some span⟩
  return ⟨⟨b.row, b.field⟩ :: b.outer, [], [], none⟩

/-- The innermost group is closed. Keywords at its end have no operand and are dropped. -/
def closeGroup (b : Builder) (span : Span) : Except Fault Builder :=
  match b.outer with
  | [] => .error ⟨.strayClosing, some span⟩
  | around :: outer =>
    .ok ⟨outer, .group b.row.reverse around.field :: around.before, [], none⟩

/-- What one token does. A field that waits takes a term or a group and nothing else. -/
def step (limit : Nat) (b : Builder) (t : Token) : Except Fault Builder :=
  match t.kind, b.field with
  | .term value, _ => b.putTerm value
  | .opening, _ => b.openGroup limit t.span
  | found, some _ => .error ⟨.noOperand found, some t.span⟩
  | .keyword k, none => .ok { b with waiting := b.waiting ++ [(k, t.span)] }
  | .fieldPrefix code, none =>
    match Field.ofCode? code with
    | some f => .ok { b with field := some f }
    | none => .error ⟨.unknownField code, some t.span⟩
  | .closing, none => b.closeGroup t.span
  | found, none => .error ⟨.noPlace found, some t.span⟩

/-- What the end of the tokens does: the row is the tree, unless something is still open. Keywords at
the end have no operand and are dropped. -/
def finish (b : Builder) : Except Fault (List Node) :=
  if b.field.isSome then .error ⟨.endAfterField, none⟩
  else if b.outer.isEmpty then .ok b.row.reverse
  else .error ⟨.openGroup, none⟩

/-- The tokens are read until they end or one is refused. What follows a refused token is kept. -/
def run (limit : Nat) (b : Builder) : List Token → Except Fault (List Node) × List Token
  | [] => (b.finish, [])
  | t :: ts =>
    match b.step limit t with
    | .ok b => run limit b ts
    | .error fault => (.error fault, ts)

end Builder

/-! ## Trees of tokens -/

namespace Node

/-- The tree that tokens make and the tokens that were not read, when groups are nested at most
`limit` deep. -/
def readTokens (limit : Nat) (tokens : List Token) : Except Fault Node × List Token :=
  let (result, rest) := Builder.start.run limit tokens
  (result.map root, rest)

/-- The tree that tokens make, when groups are nested at most `limit` deep. -/
def ofTokens (limit : Nat) (tokens : List Token) : Except Fault Node := (readTokens limit tokens).1

end Node
end BooleanSearch
