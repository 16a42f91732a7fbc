import BooleanSearch.Settings

/-!
# Settings from a file

* `Entry`, `Folder`: files by their bytes, and folders by the names in them.
* `Folder.find?`: what a path leads to.
* `Settings.load`: the settings of a file, or why there are none.
-/

namespace BooleanSearch
set_option autoImplicit false

/-! ## Files and paths -/

/-- A file by its bytes, or a folder by the names in it. -/
inductive Entry where
  | file (bytes : ByteArray)
  | folder (entries : List (String × Entry))

/-- What is known of a folder. -/
abbrev Folder := List (String × Entry)

/-- Where a path leads. -/
inductive Place where
  | file (bytes : ByteArray)
  /-- A folder, with the folders around it, innermost first. -/
  | folder (entries : Folder) (around : List Folder)
  | outside

/-- The longest path that leads anywhere, in bytes. -/
def longestPath : Nat := 4095

/-- One part of a path. A file has nothing below it, and a dot or an empty part stay where they are. -/
def Place.enter (part : String) : Place → Option Place
  | .file _ => none
  | .folder entries around =>
    if part == "" || part == "." then some (.folder entries around)
    else if part == ".." then
      match around with
      | [] => some .outside
      | parent :: around => some (.folder parent around)
    else match entries.lookup part with
      | some (.file bytes) => some (.file bytes)
      | some (.folder inner) => some (.folder inner (entries :: around))
      | none => none
  | .outside => if part == "" || part == "." || part == ".." then some .outside else none

def pathParts : List Char → List (List Char)
  | [] => [[]]
  | c :: cs =>
    if c == '/' then [] :: pathParts cs
    else match pathParts cs with
      | [] => [[c]]
      | part :: parts => (c :: part) :: parts

def Folder.find? (here : Folder) (path : String) : Option Place :=
  let cs := path.toList
  if cs.isEmpty || cs.contains '\x00' || longestPath < Text.byteCount cs then none
  else
    let start := if cs.head? == some '/' then .outside else .folder here []
    (pathParts cs).foldlM (fun place part => place.enter (String.ofList part)) start

/-! ## Settings -/

/-- Why a file holds no settings. -/
inductive Unloaded where
  | missing (path : String)
  | isFolder (path : String)
  | notText (path : String)
  | notSettings (path : String) (fault : Json.Fault)
  | zeroDepth

/-- The complaint about a file. Where its text stops being JSON is not said. -/
def Unloaded.message : Unloaded → String
  | missing path => "Config file does not exist: " ++ path
  | isFolder path => "Cannot read config file " ++ path ++ ": Is a directory (os error 21)"
  | notText path =>
    "Cannot read config file " ++ path ++ ": stream did not contain valid UTF-8"
  | notSettings path fault =>
    "Cannot parse config file " ++ path ++ ": " ++ (match fault with
      | .mismatch m => m.message
      | .stop _ => "")
  | zeroDepth => "Invalid config value: max_nesting_depth must be at least 1"

namespace Settings

def ofBytes (path : String) (bytes : ByteArray) : Except Unloaded Settings :=
  match String.fromUTF8? bytes with
  | none => .error (.notText path)
  | some text =>
    match read text with
    | .error fault => .error (.notSettings path fault)
    | .ok s => if s.maxNestingDepth == 0 then .error .zeroDepth else .ok s

/-- The settings of the file that a path leads to from a folder. -/
def load (here : Folder) (path : String) : Except Unloaded Settings :=
  match here.find? path with
  | none => .error (.missing path)
  | some (.file bytes) => ofBytes path bytes
  | some _ => .error (.isFolder path)

end Settings
end BooleanSearch
