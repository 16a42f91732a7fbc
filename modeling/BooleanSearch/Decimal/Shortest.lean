/-!
# The shortest decimal of a binary number

A binary floating-point number is written with the fewest decimal digits that read back as the same
number, and among those with the digits nearest to it.

* `Dyadic`: a positive number `mantissa · 2 ^ exponent` with the interval of reals that round to it.
* `Dyadic.ofBits`: the number behind the bits of a finite positive double.
* `shortest`: its digits and the power of ten of the last one.
* `Layout`, `Layout.write`: how digits become text.
-/

namespace BooleanSearch.Decimal
set_option autoImplicit false

/-! ## The number and its neighbourhood -/

/-- A positive number as a quotient, and the two ends of the interval of numbers that round to it, over
the same denominator. The ends belong to the interval when `closed` holds. -/
structure Dyadic where
  low : Nat
  value : Nat
  high : Nat
  denominator : Nat
  closed : Bool
  deriving DecidableEq, Repr

/-- The number behind the bits of a finite positive double. Halfway to the neighbours are the ends of
its interval; below a power of two the neighbour is nearer. -/
def Dyadic.ofBits (bits : Nat) : Dyadic :=
  let fraction := bits % Nat.pow 2 52
  let biased := bits / Nat.pow 2 52 % Nat.pow 2 11
  let mantissa := if biased == 0 then fraction else fraction + Nat.pow 2 52
  let below := if fraction == 0 && 1 < biased then 1 else 2
  -- four times the mantissa, so that the ends are whole numbers: the exponent is `power - 1077`
  let power := if biased == 0 then 1 else biased
  let scale := if 1077 ≤ power then Nat.pow 2 (power - 1077) else 1
  let denominator := if 1077 ≤ power then 1 else Nat.pow 2 (1077 - power)
  ⟨(4 * mantissa - below) * scale, 4 * mantissa * scale, (4 * mantissa + 2) * scale, denominator,
    mantissa % 2 == 0⟩

/-! ## Digits -/

/-- A whole number of units of a power of ten. -/
structure Digits where
  units : Nat
  exponent : Int
  deriving DecidableEq, Repr

/-- The quotient `num / den` is `num' / den'` units of `10 ^ exponent`. -/
def inUnits (exponent : Int) (num den : Nat) : Nat × Nat :=
  match exponent with
  | .ofNat e => (num, den * Nat.pow 10 e)
  | .negSucc e => (num * Nat.pow 10 (e + 1), den)

/-- So many units of the power of ten lie in the interval of a number. -/
def Dyadic.holds (x : Dyadic) (d : Digits) : Bool :=
  let (low, den) := inUnits d.exponent x.low x.denominator
  let (high, _) := inUnits d.exponent x.high x.denominator
  if x.closed then low ≤ d.units * den && d.units * den ≤ high
  else low < d.units * den && d.units * den < high

/-- The neighbours of a number among the multiples of a power of ten that lie in its interval, the
nearer one if both do, and of two equally near ones the even one. -/
def Dyadic.at? (x : Dyadic) (exponent : Int) : Option Digits :=
  let (num, den) := inUnits exponent x.value x.denominator
  let below : Digits := ⟨num / den, exponent⟩
  let above : Digits := ⟨num / den + 1, exponent⟩
  match x.holds below, x.holds above with
  | true, false => some below
  | false, true => some above
  | false, false => none
  | true, true =>
    let left := num % den
    if 2 * left < den || (2 * left == den && below.units % 2 == 0) then some below else some above

/-- The power of ten of the first digit of a positive quotient, looked for from `10 ^ guess`
downwards. -/
def leading (num den : Nat) : (steps : Nat) → (guess : Int) → Int
  | 0, guess => guess
  | steps + 1, guess =>
    let (n, d) := inUnits guess num den
    if d ≤ n then guess else leading num den steps (guess - 1)

/-- The first power of ten, going down, that has a multiple in the interval of a number. -/
def firstGrid (x : Dyadic) : (steps : Nat) → (exponent : Int) → Digits
  | 0, exponent => ⟨0, exponent⟩
  | steps + 1, exponent =>
    match x.at? exponent with
    | some d => if d.units == 0 then firstGrid x steps (exponent - 1) else d
    | none => firstGrid x steps (exponent - 1)

/-- The fewest digits that read back as a number. Seventeen always do. -/
def shortest (x : Dyadic) : Digits :=
  firstGrid x 18 (leading x.value x.denominator 640 309)

/-! ## Layout -/

/-- How digits become text. Between the two exponents of the first digit a number is written with a
point and at least one digit on both sides of it, elsewhere with an exponent. -/
structure Layout where
  leastPositional : Int
  greatestPositional : Int
  exponentMark : String
  deriving DecidableEq, Repr

def Layout.write (l : Layout) (d : Digits) : String :=
  let all := Nat.toDigits 10 d.units
  -- zeros at the end say nothing: they go into the exponent
  let kept := (all.reverse.dropWhile (· == '0')).reverse
  let digits := if kept.isEmpty then ['0'] else kept
  let first : Int := d.exponent + all.length - 1
  let text := String.ofList
  if l.leastPositional ≤ first && first ≤ l.greatestPositional then
    match first with
    | .negSucc e => "0." ++ text (List.replicate e '0' ++ digits)
    | .ofNat e =>
      let whole := digits.take (e + 1)
      let rest := digits.drop (e + 1)
      text (whole ++ List.replicate (e + 1 - whole.length) '0') ++ "." ++
        text (if rest.isEmpty then ['0'] else rest)
  else
    let rest := digits.drop 1
    text (digits.take 1) ++ (if rest.isEmpty then "" else "." ++ text rest) ++ l.exponentMark ++
      (if first < 0 then "-" else "+") ++ text (Nat.toDigits 10 first.natAbs)

/-- The text of a finite double with these bits. -/
def Layout.writeBits (l : Layout) (bits : Nat) : String :=
  let magnitude := bits % Nat.pow 2 63
  let sign := if Nat.pow 2 63 ≤ bits then "-" else ""
  sign ++ (if magnitude == 0 then "0.0" else l.write (shortest (.ofBits magnitude)))

end BooleanSearch.Decimal
