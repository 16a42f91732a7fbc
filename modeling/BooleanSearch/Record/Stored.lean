import BooleanSearch.Json.Data
import BooleanSearch.Json.Expect
import BooleanSearch.Record

/-!
# Records as JSON

A record is written as an object without the parts that are empty. It is read from an object with its
keys in any order, where unknown keys are passed over, or from an array of its parts in order.

* `Record.toData`, `Document.toData`: the JSON of a record and of a document.
* `Record.ofValue`, `Document.ofValue`: the record and the document that a value holds, when so many
  more arrays and objects may be open.
* `Record.read`, `Document.read`: the record and the document that a text holds.
-/

namespace BooleanSearch
set_option autoImplicit false
open Json

/-! ## Writing -/

namespace Record

mutual

def toData : Record → Data
  | ⟨kind, value, field, children⟩ =>
    .object (.mk "node_type" (.text kind) ::
      (value.toList.map fun v => .mk "value" (.text v)) ++
      (field.toList.map fun f => .mk "field" (.text f)) ++
      (match children with
        | [] => []
        | c :: cs => [.mk "children" (.array (toData c :: toDataOfRow cs))]))

def toDataOfRow : List Record → List Data
  | [] => []
  | r :: rs => toData r :: toDataOfRow rs

end

/-! ## Reading -/

/-- The parts of a record that were found in an object so far. -/
structure Parts where
  kind : Option String
  value : Option (Option String)
  field : Option (Option String)
  children : Option (List Record)

def Parts.none : Parts := ⟨.none, .none, .none, .none⟩

/-- The record of the parts that were found. Only its kind must be there. -/
def Parts.record (p : Parts) : Reader Record :=
  match p.kind with
  | .none => .error (.mismatch (.missingKey "node_type"))
  | some kind => .ok ⟨kind, p.value.join, p.field.join, p.children.getD []⟩

/-- A part is refused when it was found before. -/
def once {α : Type} (key : String) (found : Option α) : Reader Unit :=
  if found.isSome then .error (.mismatch (.repeatedKey key)) else .ok ()

mutual

/-- The record that a value holds, when `room` more arrays and objects may be open. -/
def ofValue (room : Nat) : Value → Reader Record
  | .array items => match room with
    | 0 => malformed
    | room + 1 => ofItems room items
  | .object members => match room with
    | 0 => malformed
    | room + 1 => ofMembers room .none members
  | v => v.refuse "struct NodePayload"

/-- The record with its parts in order. Parts that are missing at the end are empty. -/
def ofItems (room : Nat) : Items → Reader Record
  | .closed => .error (.mismatch (.tooShort 0 "struct NodePayload with 4 elements"))
  | .stopped s | .comma s => .error (.stop s)
  | .item v rest => do
    let kind ← v.text "a string"
    match rest with
    | .closed => return ⟨kind, none, none, []⟩
    | .stopped s | .comma s => throw (.stop s)
    | .item v rest =>
      let value ← v.optionalText
      match rest with
      | .closed => return ⟨kind, value, none, []⟩
      | .stopped s | .comma s => throw (.stop s)
      | .item v rest =>
        let field ← v.optionalText
        match rest with
        | .closed => return ⟨kind, value, field, []⟩
        | .stopped s | .comma s => throw (.stop s)
        | .item v rest =>
          let children ← rowOfValue room v
          rest.finish
          return ⟨kind, value, field, children⟩

/-- The record of the members of an object, when some parts were found before. -/
def ofMembers (room : Nat) (p : Parts) : Members → Reader Record
  | .closed => p.record
  | .stopped s | .comma s | .brokenKey s _ => .error (.stop s)
  | .member none _ _ => malformed
  | .member (some key) v rest =>
    if key == "node_type" then do
      once key p.kind
      let kind ← v.text "a string"
      ofMembers room { p with kind := some kind } rest
    else if key == "value" then do
      once key p.value
      let value ← v.optionalText
      ofMembers room { p with value := some value } rest
    else if key == "field" then do
      once key p.field
      let field ← v.optionalText
      ofMembers room { p with field := some field } rest
    else if key == "children" then do
      once key p.children
      let children ← rowOfValue room v
      ofMembers room { p with children := some children } rest
    else do
      v.passOver
      ofMembers room p rest

def rowOfValue (room : Nat) : Value → Reader (List Record)
  | .array items => match room with
    | 0 => malformed
    | room + 1 => rowOfItems room items
  | v => v.refuse "a sequence"

def rowOfItems (room : Nat) : Items → Reader (List Record)
  | .closed => .ok []
  | .stopped s | .comma s => .error (.stop s)
  | .item v rest => do
    let r ← ofValue room v
    return r :: (← rowOfItems room rest)

end

/-- The record that a text holds, with nothing behind it. -/
def read (text : String) : Reader Record := do
  let (v, ends) := Json.read text
  let r ← ofValue nestingLimit v
  if ends then return r else malformed

def write (r : Record) : String := r.toData.write

end Record

/-! ## Documents -/

namespace Document

def toData (d : Document) : Data :=
  .object [.mk "raw_query" (.text d.text), .mk "tree" d.tree.toData]

def ofItems (room : Nat) (items : Items) : Reader Document := do
  let wanted := "struct QueryPayload with 2 elements"
  let some (v, rest) ← items.next | throw (.mismatch (.tooShort 0 wanted))
  let text ← v.text "a string"
  let some (v, rest) ← rest.next | throw (.mismatch (.tooShort 1 wanted))
  let tree ← Record.ofValue room v
  rest.finish
  return ⟨text, tree⟩

/-- The document of the members of an object, when its text or its tree may have been found before. -/
def ofMembers (room : Nat) (text : Option String) (tree : Option Record) : Members → Reader Document
  | .closed =>
    match text, tree with
    | some text, some tree => .ok ⟨text, tree⟩
    | none, _ => .error (.mismatch (.missingKey "raw_query"))
    | _, none => .error (.mismatch (.missingKey "tree"))
  | .stopped s | .comma s | .brokenKey s _ => .error (.stop s)
  | .member none _ _ => malformed
  | .member (some key) v rest =>
    if key == "raw_query" then do
      Record.once key text
      let text ← v.text "a string"
      ofMembers room (some text) tree rest
    else if key == "tree" then do
      Record.once key tree
      let tree ← Record.ofValue room v
      ofMembers room text (some tree) rest
    else do
      v.passOver
      ofMembers room text tree rest

/-- The document that a value holds, when `room` more arrays and objects may be open. -/
def ofValue (room : Nat) : Value → Reader Document
  | .array items => match room with
    | 0 => malformed
    | room + 1 => ofItems room items
  | .object members => match room with
    | 0 => malformed
    | room + 1 => ofMembers room none none members
  | v => v.refuse "struct QueryPayload"

def read (text : String) : Reader Document := do
  let (v, ends) := Json.read text
  let d ← ofValue nestingLimit v
  if ends then return d else malformed

def write (d : Document) : String := d.toData.write

end Document
end BooleanSearch
