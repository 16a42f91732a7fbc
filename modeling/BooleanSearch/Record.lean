import BooleanSearch.Node

/-!
# The stored form of a tree

For storage a tree is written as a record per node. A record names the kind of its node and holds every
other part as plain text, so that records can say things that no tree means.

* `Record`, `Document`: the stored forms of a tree and of a whole query.
* `Record.ofNode`: the record of a tree, without parts that are empty.
* `Record.toNode`: the tree that a record means, or the first thing in it that means nothing.
-/

namespace BooleanSearch
set_option autoImplicit false

/-- The stored form of a tree. -/
structure Record where
  kind : String
  value : Option String
  field : Option String
  children : List Record
  deriving Repr

/-- The stored form of a query: its text and its tree. -/
structure Document where
  text : String
  tree : Record
  deriving Repr

instance : Inhabited Record := ⟨⟨"", none, none, []⟩⟩

/-! ## Kinds of nodes -/

/-- What a node is, apart from what it holds. -/
inductive NodeKind where
  | root
  | term
  | connector
  | group
  deriving DecidableEq, Repr

namespace NodeKind

def all : List NodeKind := [.root, .term, .connector, .group]

def name : NodeKind → String
  | .root => "root"
  | .term => "term"
  | .connector => "connector"
  | .group => "group"

def ofName? (text : String) : Option NodeKind := all.find? (·.name == text)

theorem ofName?_name (k : NodeKind) : ofName? k.name = some k := by cases k <;> decide

end NodeKind

def Node.kind : Node → NodeKind
  | .root _ => .root
  | .term _ _ => .term
  | .connector _ => .connector
  | .group _ _ => .group

/-! ## Errors -/

/-- The first thing in a record that means nothing. -/
inductive Misreading where
  | unknownKind (name : String)
  | unknownConnector (text : String)
  | missingConnector
  | unknownField (code : String)
  | notRoot (name : String)
  deriving DecidableEq, Repr

def Misreading.message : Misreading → String
  | unknownKind name => "Unknown node type: " ++ name
  | unknownConnector text => (Connector.Unknown.mk text).message
  | missingConnector => "Connector node without a value"
  | unknownField code => (Field.Unknown.mk code).message
  | notRoot name => "Payload tree must start with a root node, found " ++ name

/-! ## From a tree to its record -/

namespace Record

mutual

/-- The record of a tree. A term without text has no value. -/
def ofNode : Node → Record
  | .root cs => ⟨NodeKind.root.name, none, none, ofNodes cs⟩
  | .term v f => ⟨NodeKind.term.name, if v == "" then none else some v, f.map (·.code), []⟩
  | .connector c => ⟨NodeKind.connector.name, some c.text, none, []⟩
  | .group cs f => ⟨NodeKind.group.name, none, f.map (·.code), ofNodes cs⟩

def ofNodes : List Node → List Record
  | [] => []
  | n :: ns => ofNode n :: ofNodes ns

end

/-! ## From a record to its tree -/

def readField : Option String → Except Misreading (Option Field)
  | none => .ok none
  | some code =>
    match Field.ofCode? code with
    | some f => .ok (some f)
    | none => .error (.unknownField code)

def readConnector : Option String → Except Misreading Connector
  | none => .error .missingConnector
  | some text =>
    match Connector.ofText? text with
    | some c => .ok c
    | none => .error (.unknownConnector text)

mutual

/-- The tree that a record means. Children of a term or a connector are not looked at. -/
def toNode : Record → Except Misreading Node
  | ⟨name, value, field, children⟩ =>
    match NodeKind.ofName? name with
    | none => .error (.unknownKind name)
    | some .root => do return .root (← toNodes children)
    | some .term => do return .term (value.getD "") (← readField field)
    | some .connector => do return .connector (← readConnector value)
    | some .group => do
      let cs ← toNodes children
      return .group cs (← readField field)

def toNodes : List Record → Except Misreading (List Node)
  | [] => .ok []
  | r :: rs => do
    let n ← toNode r
    return n :: (← toNodes rs)

end

end Record
end BooleanSearch
