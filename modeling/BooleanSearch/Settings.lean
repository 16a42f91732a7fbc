import BooleanSearch.Json.Data
import BooleanSearch.Json.Expect

/-!
# Settings of the compiler

The only setting is how deep groups may be nested.

* `Settings`: the settings, a number of 64 bits.
* `Settings.toData`, `Settings.ofValue`: their JSON.
* `Settings.read`: the settings that a text holds.
-/

namespace BooleanSearch
set_option autoImplicit false
open Json

structure Settings where
  /-- How many groups may be open at once. -/
  maxNestingDepth : UInt64 := 64
  deriving DecidableEq, Repr

namespace Settings

/-- The settings where nothing is said. -/
def default : Settings := {}

def toData (s : Settings) : Data :=
  .object [.mk "max_nesting_depth" (.natural s.maxNestingDepth.toNat)]

/-- The depth that a value holds. -/
def depthOfValue (v : Value) : Reader UInt64 := UInt64.ofNat <$> v.natural "usize"

def ofItems (items : Items) : Reader Settings := do
  match ← items.next with
  | none => return default
  | some (v, rest) =>
    let depth ← depthOfValue v
    rest.finish
    return ⟨depth⟩

/-- The settings of the members of an object, when the depth may have been found before. -/
def ofMembers (depth : Option UInt64) : Members → Reader Settings
  | .closed => .ok (match depth with
    | some d => ⟨d⟩
    | none => default)
  | .stopped s | .comma s | .brokenKey s _ => .error (.stop s)
  | .member none _ _ => malformed
  | .member (some key) v rest =>
    if key == "max_nesting_depth" then do
      if depth.isSome then throw (.mismatch (.repeatedKey key))
      let d ← depthOfValue v
      ofMembers (some d) rest
    else do
      v.passOver
      ofMembers depth rest

def ofValue : Value → Reader Settings
  | .array items => ofItems items
  | .object members => ofMembers none members
  | v => v.refuse "struct CompilerConfig"

def read (text : String) : Reader Settings := do
  let (v, ends) := Json.read text
  let s ← ofValue v
  if ends then return s else malformed

def write (s : Settings) : String := s.toData.write

end Settings
end BooleanSearch
