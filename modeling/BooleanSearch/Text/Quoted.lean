import BooleanSearch.Text.Unprintable

/-!
# Quoted text

A text inside a complaint is shown between double quotes. The quote and the backslash are written
after a backslash, five controls by a letter, and every other character that is not visible alone by
its number in hexadecimal.

* `quotedChar`: how one character is shown.
* `quoted`: how a text is shown.
-/

namespace BooleanSearch.Text
set_option autoImplicit false

/-- A character by its number: lower-case hexadecimal digits between braces. -/
def numbered (c : Char) : List Char :=
  ['\\', 'u', '\x7b'] ++ Nat.toDigits 16 c.toNat ++ ['\x7d']

/-- How one character of a quoted text is shown. -/
def quotedChar (c : Char) : List Char :=
  match c with
  | '"' => ['\\', '"']
  | '\\' => ['\\', '\\']
  | '\t' => ['\\', 't']
  | '\n' => ['\\', 'n']
  | '\r' => ['\\', 'r']
  | '\x00' => ['\\', '0']
  | c => if isUnprintable c then numbered c else [c]

def quoted (text : String) : String :=
  String.ofList ('"' :: text.toList.flatMap quotedChar ++ ['"'])

end BooleanSearch.Text
