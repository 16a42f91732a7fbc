import BooleanSearch.Decimal.Shortest
import BooleanSearch.Json.Place
import BooleanSearch.Json.Value
import BooleanSearch.Text.Quoted

/-!
# Reading a value of a certain shape

A reader that wants a certain shape takes a value apart from left to right. It is refused where the
text stops, and where the value has another shape.

* `Found`, `Mismatch`, `Fault`: why a value is refused, with the complaint about a wrong shape.
* `Items.finish`, `Value.passOver`: the end of an array, and a value that is not used.
* `Value.text`, `Value.optionalText`, `Value.natural`: the shapes without parts.
* `nestingLimit`: how many arrays and objects may be open at once.
-/

namespace BooleanSearch.Json
set_option autoImplicit false

/-! ## Complaints -/

/-- What stands in the place of a wanted shape. -/
inductive Found where
  | null
  | bool (b : Bool)
  | natural (n : Nat)
  | negative (n : Nat)
  | real (x : Float)
  | text (s : String)
  | sequence
  | map

/-- A double in a complaint: positional for the exponents from -5 to 15. -/
def realLayout : Decimal.Layout := ⟨-5, 15, "e"⟩

def inTicks (words : String) : String := "`" ++ words ++ "`"

/-- How a complaint names what stands in the place of a wanted shape. -/
def Found.shown : Found → String
  | null => "null"
  | bool b => "boolean " ++ inTicks (if b then "true" else "false")
  | natural n => "integer " ++ inTicks (toString n)
  | negative n => "integer " ++ inTicks ("-" ++ toString n)
  | real x => "floating point " ++ inTicks (realLayout.writeBits x.toBits.toNat)
  | text s => "string " ++ Text.quoted s
  | sequence => "sequence"
  | map => "map"

/-- How a value differs from a wanted shape. -/
inductive Mismatch where
  | wrongShape (found : Found) (wanted : String)
  /-- A number of the right shape that is out of bounds. -/
  | wrongNumber (found : Found) (wanted : String)
  | missingKey (key : String)
  | repeatedKey (key : String)
  | tooShort (length : Nat) (wanted : String)
  | unknownName (name : String) (known : List String)
  /-- A value of the wanted shape that does not mean anything. -/
  | meaningless (complaint : String)

def Mismatch.message : Mismatch → String
  | wrongShape found wanted => "invalid type: " ++ found.shown ++ ", expected " ++ wanted
  | wrongNumber found wanted => "invalid value: " ++ found.shown ++ ", expected " ++ wanted
  | missingKey key => "missing field " ++ inTicks key
  | repeatedKey key => "duplicate field " ++ inTicks key
  | tooShort length wanted => "invalid length " ++ toString length ++ ", expected " ++ wanted
  | unknownName name known =>
    "unknown variant " ++ inTicks name ++ ", expected one of " ++ ", ".intercalate (known.map inTicks)
  | meaningless complaint => withoutPlace complaint

/-- Why a value is refused: the text stops, or the value has another shape. -/
inductive Fault where
  | stop (s : Stop)
  | mismatch (m : Mismatch)

abbrev Reader (α : Type) := Except Fault α

def malformed {α : Type} : Reader α := .error (.stop .malformed)

/-- How many arrays and objects may be open at once, those that are passed over not counted. -/
def nestingLimit : Nat := 127

/-! ## Shapes without parts -/

namespace Value

/-- A value of another shape than the wanted one is refused, unless the text stops in it. -/
def refuse {α : Type} (wanted : String) : Value → Reader α
  | null => .error (.mismatch (.wrongShape .null wanted))
  | bool b => .error (.mismatch (.wrongShape (.bool b) wanted))
  | number (.natural n) => .error (.mismatch (.wrongShape (.natural n) wanted))
  | number (.negative n) => .error (.mismatch (.wrongShape (.negative n) wanted))
  | number (.real x) => .error (.mismatch (.wrongShape (.real x) wanted))
  | number .outOfRange => malformed
  | string (some s) => .error (.mismatch (.wrongShape (.text s) wanted))
  | string none => malformed
  | array _ => .error (.mismatch (.wrongShape .sequence wanted))
  | object _ => .error (.mismatch (.wrongShape .map wanted))
  | absent s => .error (.stop s)
  | broken used _ | brokenString used _ => .error (.stop used)

def text (wanted : String) : Value → Reader String
  | string (some s) => .ok s
  | v => v.refuse wanted

def optionalText : Value → Reader (Option String)
  | null => .ok none
  | v => some <$> v.text "a string"

def natural (wanted : String) : Value → Reader Nat
  | number (.natural n) => .ok n
  | number (.negative n) => .error (.mismatch (.wrongNumber (.negative n) wanted))
  | v => v.refuse wanted

end Value

/-! ## Ends -/

/-- The end of an array: no element is left. -/
def Items.finish : Items → Reader Unit
  | closed => .ok ()
  | stopped s => .error (.stop s)
  | comma _ | item _ _ => malformed

/-- The next element of an array and what follows it, or nothing at its end. -/
def Items.next : Items → Reader (Option (Value × Items))
  | closed => .ok none
  | stopped s | comma s => .error (.stop s)
  | item v rest => .ok (some (v, rest))

/-! ## Values that are not used -/

mutual

/-- A value that is passed over must be complete, whatever it is. -/
def Value.passOver : Value → Reader Unit
  | .array items => items.passOver
  | .object members => members.passOver
  | .absent s => .error (.stop s)
  | .broken _ passed | .brokenString _ passed => .error (.stop passed)
  | _ => .ok ()

def Items.passOver : Items → Reader Unit
  | .closed => .ok ()
  | .stopped s | .comma s => .error (.stop s)
  | .item v rest => do
    v.passOver
    rest.passOver

def Members.passOver : Members → Reader Unit
  | .closed => .ok ()
  | .stopped s | .comma s => .error (.stop s)
  | .brokenKey _ passed => .error (.stop passed)
  | .member _ v rest => do
    v.passOver
    rest.passOver

end

end BooleanSearch.Json
