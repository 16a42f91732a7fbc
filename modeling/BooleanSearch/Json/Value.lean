import BooleanSearch.Json.Lexeme

/-!
# JSON values, complete or not

A JSON text is read as far as it goes. The value that is read says where and why it stops, so that a
reader that wants a certain shape meets the first fault from the left: a wrong shape, or a text that
stops.

* `Value`, `Items`, `Members`: a value as far as it can be read.
* `Frame`, `Awaits`, `Reading.step`: the machine that puts the parts of a text together.
* `Reading.run`: the value of some parts, and the parts behind it.
* `read`: the value of a text.
-/

namespace BooleanSearch.Json
set_option autoImplicit false

mutual

/-- A value as far as it can be read. -/
inductive Value where
  | null
  | bool (b : Bool)
  | number (n : Number)
  /-- A string with its text, which is missing when the escapes name half a pair of surrogates. -/
  | string (text : Option String)
  | array (items : Items)
  | object (members : Members)
  | absent (s : Stop)
  /-- A literal or a number that is not complete: how it looks to a reader that uses it and to one that
  passes over it. -/
  | broken (used passed : Stop)
  | brokenString (used passed : Stop)

/-- What follows the opening bracket of an array, or one of its elements. -/
inductive Items where
  | closed
  /-- Neither an element nor the closing bracket. -/
  | stopped (s : Stop)
  /-- A comma and no element behind it. -/
  | comma (s : Stop)
  | item (v : Value) (rest : Items)

/-- What follows the opening brace of an object, or one of its members. -/
inductive Members where
  | closed
  /-- Neither a key nor the closing brace. -/
  | stopped (s : Stop)
  /-- A comma and no key behind it. -/
  | comma (s : Stop)
  | brokenKey (used passed : Stop)
  | member (key : Option String) (v : Value) (rest : Members)

end

instance : Inhabited Value := ⟨.null⟩

/-- The elements of an array that go before others, last first. -/
def Items.prepend (rest : Items) (before : List Value) : Items :=
  before.foldl (fun rest v => .item v rest) rest

def Members.prepend (rest : Members) (before : List (Option String × Value)) : Members :=
  before.foldl (fun rest (key, v) => .member key v rest) rest

namespace Reading

/-- An array or an object that is open, with what was read of it, last first. -/
inductive Frame where
  | array (before : List Value)
  /-- The key is that of the member that is being read. -/
  | object (before : List (Option String × Value)) (key : Option String)

inductive Awaits where
  | value
  | firstItem
  | item
  | afterItem
  | firstKey
  | key
  | colon
  | afterMember
  deriving DecidableEq, Repr

/-- What was read so far: the arrays and objects that are open, innermost first, and what has to come
next. -/
structure State where
  stack : List Frame
  awaits : Awaits

inductive Progress where
  | more (s : State)
  | done (v : Value)

def start : State := ⟨[], .value⟩

/-- A value is complete and goes to its place. -/
def place (v : Value) : List Frame → Progress
  | [] => .done v
  | .array before :: stack => .more ⟨.array (v :: before) :: stack, .afterItem⟩
  | .object before key :: stack => .more ⟨.object ((key, v) :: before) none :: stack, .afterMember⟩

/-- Reading stops inside a value. Everything around it stays as it is, without an end. -/
def abandon (v : Value) : List Frame → Value
  | [] => v
  | .array before :: stack =>
    abandon (.array (.prepend (.item v (.stopped .malformed)) before)) stack
  | .object before key :: stack =>
    abandon (.object (.prepend (.member key v (.stopped .malformed)) before)) stack

/-- Reading stops where an array or an object goes on. -/
def abandonRow (items : Items) (members : Members) : List Frame → Value
  | [] => .absent .malformed
  | .array before :: stack => abandon (.array (items.prepend before)) stack
  | .object before _ :: stack => abandon (.object (members.prepend before)) stack

def stop (s : State) (why : Stop) : Value :=
  match s.awaits with
  | .value | .colon => abandon (.absent why) s.stack
  | .firstItem | .afterItem | .firstKey | .afterMember =>
    abandonRow (.stopped why) (.stopped why) s.stack
  | .item | .key => abandonRow (.comma why) (.comma why) s.stack

def beginValue (stack : List Frame) : Lexeme → Option Progress
  | .null => some (place .null stack)
  | .bool b => some (place (.bool b) stack)
  | .number n => some (place (.number n) stack)
  | .string text => some (place (.string text) stack)
  | .mark .openArray => some (.more ⟨.array [] :: stack, .firstItem⟩)
  | .mark .openObject => some (.more ⟨.object [] none :: stack, .firstKey⟩)
  | .mark _ => none
  | .broken used passed => some (.done (abandon (.broken used passed) stack))
  | .brokenString used passed => some (.done (abandon (.brokenString used passed) stack))

def close : List Frame → Progress
  | [] => .done (.absent .malformed)
  | .array before :: stack => place (.array (.prepend .closed before)) stack
  | .object before _ :: stack => place (.object (.prepend .closed before)) stack

/-- The key of the next member of the innermost object. -/
def withKey (key : Option String) : List Frame → List Frame
  | .object before _ :: stack => .object before key :: stack
  | stack => stack

def step (s : State) (part : Lexeme) : Progress :=
  match s.awaits, part with
  | .firstItem, .mark .closeArray => close s.stack
  | .afterItem, .mark .closeArray => close s.stack
  | .afterItem, .mark .comma => .more ⟨s.stack, .item⟩
  | .firstKey, .mark .closeObject => close s.stack
  | .afterMember, .mark .closeObject => close s.stack
  | .afterMember, .mark .comma => .more ⟨s.stack, .key⟩
  | .colon, .mark .colon => .more ⟨s.stack, .value⟩
  | .firstKey, .string key | .key, .string key => .more ⟨withKey key s.stack, .colon⟩
  | .firstKey, .brokenString used passed | .key, .brokenString used passed =>
    .done (abandonRow (.stopped .malformed) (.brokenKey used passed) s.stack)
  | .value, part | .firstItem, part | .item, part =>
    match beginValue s.stack part with
    | some progress => progress
    | none => .done (stop s .malformed)
  | _, _ => .done (stop s .malformed)

/-- The value of some parts and the parts behind it. -/
def run (s : State) : List Lexeme → Value × List Lexeme
  | [] => (stop s .ended, [])
  | part :: parts =>
    match step s part with
    | .more s => run s parts
    | .done v => (v, parts)

end Reading

/-- The value of a text, and whether nothing stands behind it. -/
def read (text : String) : Value × Bool :=
  let (v, rest) := Reading.run Reading.start (lexemes text.toList)
  (v, rest.isEmpty)

end BooleanSearch.Json
