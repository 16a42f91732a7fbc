import BooleanSearch.Node.Cursor
import BooleanSearch.Node.Render
import BooleanSearch.Node.Scope
import BooleanSearch.Record.Stored
import BooleanSearch.Settings
import BooleanSearch.Validation

/-!
# Queries

A query is a text that keeps all rules, with its tree. The tree has every field at the terms that the
field holds for.

* `Query`: the text and the parts of the tree.
* `Query.compile`: the query that a text is, or why it is none.
* `Query.terms`, `Query.fields`, `Query.hasWildcard`, `Query.canonical`, `Query.withEnclosures`.
* `Query.toDocument`, `Query.ofDocument`, `Query.toJson`, `Query.ofJson`,
  `Query.ofJsonPart`: the stored form.
-/

namespace BooleanSearch
set_option autoImplicit false

structure Query where
  text : String
  parts : List Node
  deriving DecidableEq, Repr

inductive Refusal where
  | violation (v : Violation)
  | fault (f : Fault)
  deriving DecidableEq, Repr

def Refusal.message : Refusal → String
  | violation v => v.message
  | fault f => "Internal parser error: " ++ f.complaint.message

/-- Why a stored text is not a query. -/
inductive Unreadable where
  | json (fault : Json.Fault)
  | misreading (m : Misreading)

/-- The complaint about a stored text. Where the text stops being JSON is not said. -/
def Unreadable.message : Unreadable → String
  | json (.mismatch m) => "Malformed payload: " ++ m.message
  | json (.stop _) => "Malformed payload: "
  | misreading m => m.message

namespace Query

def root (q : Query) : Node := .root q.parts

/-- Two queries are the same when their texts are. -/
def same (a b : Query) : Bool := a.text == b.text

/-! ## From text -/

/-- The tree of a text, when groups are nested at most `limit` deep. Fields stay where they are
written. -/
def parse (limit : Nat) (text : String) : Except Fault Node :=
  Node.ofTokens limit (Token.scan text)

/-- The query that a text is, with the blanks at its ends left out. -/
def compile (settings : Settings) (raw : String) : Except Refusal Query := do
  let text := trimmed raw
  (validate text).mapError .violation
  let tree ← (parse settings.maxNestingDepth.toNat text).mapError .fault
  return ⟨text, (tree.bindTerms none).children⟩

/-! ## What a query holds -/

def terms (q : Query) : List String := q.root.terms

def fields (q : Query) : List Field := q.root.fields

def hasWildcard (q : Query) : Bool := q.root.hasWildcard

/-- The text of a query written in the one usual way. -/
def canonical (q : Query) : String := q.root.canonical

def withEnclosures (q : Query) (before after : String) (onlyWildcards : Bool) : String :=
  q.root.withEnclosures before after onlyWildcards

/-! ## Storage -/

def toDocument (q : Query) : Document := ⟨q.text, Record.ofNode q.root⟩

/-- The query of a stored form, which must be a whole tree. Its text is not looked at. -/
def ofDocument (d : Document) : Except Misreading Query := do
  match ← d.tree.toNode with
  | .root parts => return ⟨d.text, parts⟩
  | _ => throw (.notRoot d.tree.kind)

def toJson (q : Query) : String := q.toDocument.write

/-- The query that a JSON text holds. The whole text is read before its records are. -/
def ofJson (text : String) : Except Unreadable Query := do
  let d ← (Document.read text).mapError .json
  (ofDocument d).mapError .misreading

/-- The query that a JSON text holds, when it is read like a part of a larger text: records without a
meaning are refused like a value of another shape, and what stands behind the value is looked at last. -/
def ofJsonPart (text : String) : Json.Reader Query := do
  let (v, ends) := Json.read text
  let d ← Document.ofValue Json.nestingLimit v
  let q ← (ofDocument d).mapError fun m => .mismatch (.meaningless m.message)
  if ends then return q else Json.malformed

end Query
end BooleanSearch
