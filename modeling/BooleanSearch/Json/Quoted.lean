import BooleanSearch.Text.Offset

/-!
# Strings of JSON

A string is written between double quotes, with escapes for the quote, the backslash and the controls.

* `encode`: how a text is written.
* `Stop`: why reading came to an end too early.
* `decode`: the text of a string that is used, and what follows the closing quote.
* `pass`: what follows the closing quote of a string that is not used. Escapes are looked at, but
  surrogates need no partner.
-/

namespace BooleanSearch.Json
set_option autoImplicit false

/-- Why reading came to an end too early: the text ended, or something stands where it cannot. -/
inductive Stop where
  | ended
  | malformed
  deriving DecidableEq, Repr

/-! ## Writing -/

/-- The letter that a control is written with after a backslash. -/
def controlLetter? (c : Char) : Option Char :=
  match c.toNat with
  | 8 => some 'b'
  | 9 => some 't'
  | 10 => some 'n'
  | 12 => some 'f'
  | 13 => some 'r'
  | _ => none

def encodeChar (c : Char) : List Char :=
  if c == '"' || c == '\\' then ['\\', c]
  else if 0x20 ≤ c.toNat then [c]
  else match controlLetter? c with
    | some letter => ['\\', letter]
    | none => ['\\', 'u', '0', '0', Nat.digitChar (c.toNat / 16), Nat.digitChar (c.toNat % 16)]

def encode (text : List Char) : List Char := '"' :: text.flatMap encodeChar ++ ['"']

/-! ## Escapes -/

def hexDigit? (c : Char) : Option Nat :=
  let n := c.toNat
  if 48 ≤ n && n ≤ 57 then some (n - 48)
  else if 65 ≤ n && n ≤ 70 then some (n - 55)
  else if 97 ≤ n && n ≤ 102 then some (n - 87)
  else none

/-- The number behind `\u`, which has four digits. The text has ended too early when it does not go on
for four bytes. -/
def hexNumber (cs : List Char) : Except Stop Nat :=
  if Text.byteCount (cs.take 4) < 4 then .error .ended
  else match (cs.take 4).mapM hexDigit? with
    | some [a, b, c, d] => .ok (((a * 16 + b) * 16 + c) * 16 + d)
    | _ => .error .malformed

def isHighSurrogate (n : Nat) : Bool := 0xD800 ≤ n && n ≤ 0xDBFF

def isLowSurrogate (n : Nat) : Bool := 0xDC00 ≤ n && n ≤ 0xDFFF

/-- The character behind `\u` and the number of characters that spell it. A first half needs the second
half behind it, with a `\u` of its own. -/
def unicodeEscape (cs : List Char) : Except Stop (Char × Nat) := do
  let n ← hexNumber cs
  if isLowSurrogate n then throw .malformed
  if !isHighSurrogate n then return (Char.ofNat n, 4)
  match cs.drop 4 with
  | [] => throw .ended
  | '\\' :: [] => throw .ended
  | '\\' :: 'u' :: rest =>
    let low ← hexNumber rest
    if !isLowSurrogate low then throw .malformed
    return (Char.ofNat (0x10000 + (n - 0xD800) * 0x400 + (low - 0xDC00)), 10)
  | _ => throw .malformed

/-- The character that a letter after a backslash stands for. -/
def escaped? : Char → Option Char
  | '"' => some '"'
  | '\\' => some '\\'
  | '/' => some '/'
  | 'b' => some (Char.ofNat 8)
  | 'f' => some (Char.ofNat 12)
  | 'n' => some '\n'
  | 'r' => some '\r'
  | 't' => some '\t'
  | _ => none

/-! ## Reading -/

/-- The text of a string behind its opening quote, and what follows its closing quote. -/
def decode : List Char → Except Stop (List Char × List Char)
  | [] => .error .ended
  | '"' :: cs => .ok ([], cs)
  | ['\\'] => .error .ended
  | '\\' :: 'u' :: cs => do
    let (c, length) ← unicodeEscape cs
    let (text, rest) ← decode (cs.drop length)
    return (c :: text, rest)
  | '\\' :: letter :: cs => do
    let some c := escaped? letter | throw .malformed
    let (text, rest) ← decode cs
    return (c :: text, rest)
  | c :: cs => do
    if c.toNat < 0x20 then throw .malformed
    let (text, rest) ← decode cs
    return (c :: text, rest)
termination_by cs => cs.length
decreasing_by all_goals simp only [List.length_drop, List.length_cons]; omega

/-- What follows the closing quote of a string that is not used. -/
def pass : List Char → Except Stop (List Char)
  | [] => .error .ended
  | '"' :: cs => .ok cs
  | ['\\'] => .error .ended
  | '\\' :: 'u' :: cs => do
    let _ ← hexNumber cs
    pass (cs.drop 4)
  | '\\' :: letter :: cs =>
    if (escaped? letter).isSome then pass cs else .error .malformed
  | c :: cs => if c.toNat < 0x20 then .error .malformed else pass cs
termination_by cs => cs.length
decreasing_by all_goals simp only [List.length_drop, List.length_cons]; omega

end BooleanSearch.Json
