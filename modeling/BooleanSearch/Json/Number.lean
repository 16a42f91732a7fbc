import BooleanSearch.Json.Quoted

/-!
# Numbers of JSON

A number is an integer as long as it is written as one and fits 64 bits; every other number is a double.

* `Numeral`: a number as it is written.
* `scanNumeral`: the numeral that a text begins with, and what follows it.
* `Number`, `Numeral.number`: the number that a numeral means.
-/

namespace BooleanSearch.Json
set_option autoImplicit false

/-! ## Numerals -/

/-- A number as it is written: sign, digits, digits behind the point, and a signed power of ten. -/
structure Numeral where
  minus : Bool
  whole : List Nat
  fraction : Option (List Nat)
  power : Option (Bool × List Nat)
  deriving DecidableEq, Repr

def digit? (c : Char) : Option Nat :=
  if c.isDigit then some (c.toNat - 48) else none

def digits (cs : List Char) : List Nat × List Char :=
  (cs.takeWhile Char.isDigit |>.map fun c => c.toNat - 48, cs.dropWhile Char.isDigit)

/-- Digits that must be there: without them the text either ends or is malformed. -/
def someDigits (cs : List Char) : Except Stop (List Nat × List Char) :=
  match cs with
  | [] => .error .ended
  | c :: _ => if c.isDigit then .ok (digits cs) else .error .malformed

/-- The digits before the point. A zero in front of another digit is not allowed. -/
def wholeDigits (cs : List Char) : Except Stop (List Nat × List Char) := do
  let (ds, rest) ← someDigits cs
  match ds with
  | 0 :: _ :: _ => throw .malformed
  | _ => return (ds, rest)

/-- The part of a numeral behind a point, if there is one. -/
def fractionDigits (cs : List Char) : Except Stop (Option (List Nat) × List Char) :=
  match cs with
  | '.' :: rest => do
    let (ds, rest) ← someDigits rest
    return (some ds, rest)
  | _ => .ok (none, cs)

/-- The power of ten of a numeral, if there is one. The first part is true of a negative power. -/
def powerDigits (cs : List Char) : Except Stop (Option (Bool × List Nat) × List Char) :=
  match cs with
  | c :: rest =>
    if c == 'e' || c == 'E' then do
      let (minus, rest) := match rest with
        | '+' :: rest => (false, rest)
        | '-' :: rest => (true, rest)
        | _ => (false, rest)
      let (ds, rest) ← someDigits rest
      return (some (minus, ds), rest)
    else .ok (none, cs)
  | [] => .ok (none, cs)

/-- The numeral that a text begins with, and what follows it. -/
def scanNumeral (cs : List Char) : Except Stop (Numeral × List Char) := do
  let (minus, rest) := match cs with
    | '-' :: rest => (true, rest)
    | _ => (false, cs)
  let (whole, rest) ← wholeDigits rest
  let (fraction, rest) ← fractionDigits rest
  let (power, rest) ← powerDigits rest
  return (⟨minus, whole, fraction, power⟩, rest)

/-! ## Numbers -/

inductive Number where
  /-- A number from 0 up to the largest of 64 bits. -/
  | natural (n : Nat)
  /-- The negative of a number from 1 up to 2 ^ 63. -/
  | negative (n : Nat)
  | real (x : Float)
  | outOfRange

/-- Digits are put behind a number as long as it stays within a limit. The digits that have no place
are left over. -/
def absorb (limit : Nat) : (number : Nat) → List Nat → Nat × List Nat
  | n, [] => (n, [])
  | n, d :: ds => if n * 10 + d ≤ limit then absorb limit (n * 10 + d) ds else (n, d :: ds)

def largestNatural : Nat := Nat.pow 2 64 - 1

/-- The largest power of ten that is counted exactly. -/
def largestPower : Nat := Nat.pow 2 31 - 1

/-- The largest power of ten that is a double. -/
def largestTen : Nat := 308

def ten (power : Nat) : Float := Float.ofScientific 1 false power

/-- A double divided by a power of ten, by one division where that power is a double. -/
def divideByTen (x : Float) (power : Nat) : Float :=
  if power ≤ largestTen then x / ten power
  else if x == 0 then x
  else divideByTen (x / ten largestTen) (power - largestTen)
termination_by power
decreasing_by simp only [largestTen] at *; omega

/-- A double times a power of ten, which may be negative. -/
def scale (x : Float) : (power : Int) → Option Float
  | .ofNat power =>
    if power ≤ largestTen then
      let y := x * ten power
      if y.isInf then none else some y
    else if x == 0 then some x else none
  | .negSucc power => some (divideByTen x (power + 1))

def signed (minus : Bool) (x : Float) : Float := if minus then -x else x

/-- The double that a numeral means: the digits that fit 64 bits, scaled by a power of ten. -/
def Numeral.real (n : Numeral) : Number :=
  let (significand, excess) := absorb largestNatural 0 n.whole
  let behind := n.fraction.getD []
  let (significand, lost) := absorb largestNatural significand behind
  let shift : Int := excess.length - (behind.length - lost.length : Nat)
  let (minus, ds) := n.power.getD (false, [])
  let (power, uncounted) := absorb largestPower 0 ds
  let result :=
    if uncounted.isEmpty then
      scale (Float.ofNat significand) (shift + (if minus then -(power : Int) else power))
    else if significand != 0 && !minus then none
    else some 0
  match result with
  | some x => .real (signed n.minus x)
  | none => .outOfRange

def Numeral.number (n : Numeral) : Number :=
  match n.fraction, n.power, absorb largestNatural 0 n.whole with
  | none, none, (value, []) =>
    if !n.minus then .natural value
    else if value != 0 && value ≤ Nat.pow 2 63 then .negative value
    else .real (signed true (Float.ofNat value))
  | _, _, _ => n.real

end BooleanSearch.Json
