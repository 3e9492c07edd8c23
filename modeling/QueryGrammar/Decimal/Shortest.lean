/-!
The shortest decimal of a double: of all decimals that round to it, those on the coarsest power of
ten, and of these the nearest to its value. The reals that round to the double form an interval
whose ends are kept exactly, so every comparison is one of natural numbers.
-/
namespace QueryGrammar.Decimal

/-- The number `coefficient · 10 ^ exponent`. -/
structure Scaled where
  coefficient : Nat
  exponent : Int
  deriving DecidableEq

/-- Which of two equally near decimals stands for a value. -/
inductive Tie where
  | even
  | up
  deriving DecidableEq

/-- The reals from `low / unit` to `high / unit` that round to `centre / unit`; the ends are among
them when `closed`. -/
structure Interval where
  low : Nat
  centre : Nat
  high : Nat
  unit : Nat
  closed : Bool

namespace Interval

/-- The interval of `mantissa · 2 ^ exponent`. At a power of two, where `wide` is false, the next
double below is only half as far as the one above. -/
def ofBinary (mantissa : Nat) (exponent : Int) (wide : Bool) : Interval :=
  let scale := Nat.pow 2 (exponent - 2).toNat
  { low := (4 * mantissa - if wide then 2 else 1) * scale
    centre := 4 * mantissa * scale
    high := (4 * mantissa + 2) * scale
    unit := Nat.pow 2 (2 - exponent).toNat
    closed := mantissa % 2 == 0 }

/-- The leading bit of a mantissa, which is not stored. -/
def hiddenBit : Nat := 0x10000000000000

/-- The interval of the absolute value of a finite double other than zero. -/
def ofFloat (x : Float) : Interval :=
  let bits : Nat := x.toBits.toNat
  let fraction := bits % hiddenBit
  let exponent := bits / hiddenBit % 0x800
  if exponent = 0 then ofBinary fraction (-1074) true
  else ofBinary (fraction + hiddenBit) ((exponent : Int) - 1075) (fraction != 0 || exponent == 1)

/-- Whether `numerator / (unit · scale)` lies in the interval. -/
def holds (i : Interval) (numerator scale : Nat) : Bool :=
  if i.closed then i.low * scale ≤ numerator && numerator ≤ i.high * scale
  else i.low * scale < numerator && numerator < i.high * scale

/-- The multiple of `10 ^ exponent` in the interval that is nearest to its centre. -/
def nearest? (i : Interval) (tie : Tie) (exponent : Int) : Option Nat :=
  let scale := Nat.pow 10 (-exponent).toNat
  let step := i.unit * Nat.pow 10 exponent.toNat
  let below := i.centre * scale / step
  let beyond := i.centre * scale % step
  match i.holds (below * step) scale, i.holds ((below + 1) * step) scale with
  | true, false => some below
  | false, true => some (below + 1)
  | true, true =>
    if 2 * beyond < step then some below
    else if step < 2 * beyond then some (below + 1)
    else if tie = .even ∧ below % 2 = 0 then some below
    else some (below + 1)
  | false, false => none

/-- A power of ten that no decimal of the interval needs to exceed. -/
def topExponent (i : Interval) : Int :=
  if i.unit ≤ i.centre then (Nat.toDigits 10 (i.centre / i.unit)).length
  else 1 - (Nat.toDigits 10 (i.unit / i.centre)).length

/-- Searches the powers of ten from `exponent` down for the first with a decimal in the interval;
where none is found within the steps allowed, the digits down to the last power tried are kept. -/
def search (i : Interval) (tie : Tie) : Nat → Int → Scaled
  | 0, exponent =>
    ⟨i.centre * Nat.pow 10 (-exponent).toNat / (i.unit * Nat.pow 10 exponent.toNat), exponent⟩
  | steps + 1, exponent =>
    match i.nearest? tie exponent with
    | some coefficient => ⟨coefficient, exponent⟩
    | none => search i tie steps (exponent - 1)

end Interval

/-- The shortest decimal of the absolute value of a finite double. Seventeen digits always suffice,
and the first power tried is at most one too high. -/
def shortest (tie : Tie) (x : Float) : Scaled :=
  if x == 0 then ⟨0, 0⟩
  else
    let i := Interval.ofFloat x
    i.search tie 18 i.topExponent

/-- The digits of a scaled number before and after its decimal point, without an exponent. -/
def Scaled.positional (s : Scaled) : List Char × List Char :=
  let digits := Nat.toDigits 10 s.coefficient
  if 0 ≤ s.exponent then (digits ++ List.replicate s.exponent.toNat '0', [])
  else
    let places := (-s.exponent).toNat
    if digits.length ≤ places then
      (['0'], List.replicate (places - digits.length) '0' ++ digits)
    else digits.splitAt (digits.length - places)

/-- Whether the sign bit of a double is set. -/
def isNegative (x : Float) : Bool :=
  0x8000000000000000 ≤ x.toBits.toNat

/-- A double as plain text: shortest digits, no exponent, a point only before a fraction. -/
def plain (x : Float) : String :=
  if x.isNaN then "NaN"
  else
    let sign := if isNegative x then "-" else ""
    if x.isFinite then
      let (whole, fraction) := (shortest .up x).positional
      let tail := if fraction.isEmpty then [] else '.' :: fraction
      sign ++ String.ofList (whole ++ tail)
    else sign ++ "inf"

end QueryGrammar.Decimal
