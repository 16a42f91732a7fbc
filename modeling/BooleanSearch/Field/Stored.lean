import BooleanSearch.Field
import BooleanSearch.Json.Data
import BooleanSearch.Json.Expect

/-!
# The stored form of a field

A field is stored as its short name. It may also stand as the only key of an object, with `null` behind
it.

* `Field.toData`: how a field is stored.
* `Field.ofValue`, `Field.read`: the field that a value or a text holds.
-/

namespace BooleanSearch.Field
set_option autoImplicit false
open Json

def toData (f : Field) : Data := .text f.code

/-- The field with exactly this short name. -/
def named (name : String) : Reader Field :=
  match ofExactCode? name with
  | some f => .ok f
  | none => .error (.mismatch (.unknownName name (all.map code)))

/-- Nothing stands behind the name of a field in an object. -/
def nothing : Value → Reader Unit
  | .null => .ok ()
  | v => v.refuse "unit"

/-- The end of an object: no member is left. -/
def endOfObject : Members → Reader Unit
  | .closed => .ok ()
  | .stopped s => .error (.stop s)
  | _ => malformed

def ofMembers : Members → Reader Field
  | .member (some name) v rest => do
    let f ← named name
    nothing v
    endOfObject rest
    return f
  | .stopped s | .comma s | .brokenKey s _ => .error (.stop s)
  | .member none _ _ | .closed => malformed

def ofValue : Value → Reader Field
  | .string (some name) => named name
  | .object members => ofMembers members
  | .absent s | .brokenString s _ => .error (.stop s)
  | _ => malformed

/-- The field that a text holds, with nothing behind it. -/
def read (text : String) : Reader Field := do
  let (v, ends) := Json.read text
  let f ← ofValue v
  if ends then return f else malformed

end BooleanSearch.Field
