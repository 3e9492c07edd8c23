import QueryGrammar.Decimal.Shortest
/-!
JSON values as they are written. Numbers keep their digits, so that each reader decides what it
makes of them; members keep their order and may repeat a name.
-/
namespace QueryGrammar

/-- A number as written: digits before the point, digits after it (none: no point), and the
exponent, if one is written. -/
structure Numeral where
  negative : Bool
  whole : List Char
  fraction : List Char
  exponent : Option Int
  deriving DecidableEq

/-- A string is `none` when an escape in it names half of a surrogate pair, so that it is no
text. -/
inductive Json where
  | null
  | bool (b : Bool)
  | number (n : Numeral)
  | string (text : Option String)
  | array (items : List Json)
  | object (members : List (Option String × Json))

namespace Numeral

/-- The number that the digits after `start` add up to. -/
def digitsValue (start : Nat) (digits : List Char) : Nat :=
  digits.foldl (fun n c => 10 * n + (c.toNat - '0'.toNat)) start

def ofNat (n : Nat) : Numeral :=
  ⟨false, Nat.toDigits 10 n, [], none⟩

/-- A finite double in its shortest digits. From 0.00001 to below 10 ^ 16 it is written without an
exponent and with at least one digit after the point; otherwise one digit stands before the
point. -/
def ofFinite (x : Float) : Numeral :=
  let s := Decimal.shortest .even x
  let digits := Nat.toDigits 10 s.coefficient
  let exponent := s.exponent + digits.length - 1
  if s.coefficient = 0 ∨ (-5 ≤ exponent ∧ exponent < 16) then
    let (whole, fraction) := s.positional
    ⟨Decimal.isNegative x, whole, if fraction.isEmpty then ['0'] else fraction, none⟩
  else ⟨Decimal.isNegative x, digits.take 1, digits.drop 1, some exponent⟩

/-- The natural number that is written without point and exponent, if it is below `bound`. -/
def toNat? (bound : Nat) (n : Numeral) : Option Nat :=
  if n.negative = false ∧ n.fraction = [] ∧ n.exponent = none then
    let value := digitsValue 0 n.whole
    if value < bound then some value else none
  else none

/-- Takes up digits while the number they form fits in 64 bits; the rest is left over. -/
def absorb (significand : Nat) : List Char → Nat × List Char
  | [] => (significand, [])
  | c :: cs =>
    let next := digitsValue significand [c]
    if next < UInt64.size then absorb next cs else (significand, c :: cs)

/-- The double nearest to a power of ten. -/
def powerOfTen (n : Nat) : Float := Float.ofNat (Nat.pow 10 n)

/-- Divides by a power of ten, in steps of 308; three of them leave nothing of a 64-bit number. -/
def scaleDown : Nat → Float → Nat → Float
  | 0, x, _ => x
  | steps + 1, x, n =>
    if n ≤ 308 then x / powerOfTen n
    else if x == 0 then x
    else scaleDown steps (x / powerOfTen 308) (n - 308)

/-- `significand · 10 ^ exponent` by one scaling in double arithmetic, unless it overflows. -/
def scale? (significand : Nat) (exponent : Int) : Option Float :=
  let x := Float.ofNat significand
  if exponent < 0 then some (scaleDown 4 x (-exponent).toNat)
  else if exponent ≤ 308 then
    let y := x * powerOfTen exponent.toNat
    if y.isInf then none else some y
  else if x == 0 then some x
  else none

/-- The double a number stands for: its leading digits as far as they fit in 64 bits, scaled by a
power of ten. Numbers too large for a double are refused. -/
def toFloat? (n : Numeral) : Option Float :=
  let (wholePart, excess) := absorb 0 n.whole
  let (significand, unread) := absorb wholePart n.fraction
  let taken := n.fraction.length - unread.length
  let magnitude := scale? significand (n.exponent.getD 0 + excess.length - taken)
  if n.negative then magnitude.map (-·) else magnitude

end Numeral

namespace Json

def text (s : String) : Json := .string (some s)

def nat (n : Nat) : Json := .number (.ofNat n)

/-- A finite double is a number, and one that is not finite is null. -/
def float (x : Float) : Json :=
  if x.isFinite then .number (.ofFinite x) else .null

def texts (items : List String) : Json := .array (items.map text)

/-- An object with the given members. -/
def record (members : List (String × Json)) : Json :=
  .object (members.map fun m => (some m.1, m.2))

/-- A member that is left out when there is no value for it. -/
def optionalMember (name : String) (value : Option Json) : List (String × Json) :=
  (value.map fun v => (name, v)).toList

/-- A list member that is left out when the list is empty. -/
def listMember (name : String) (items : List Json) : List (String × Json) :=
  if items.isEmpty then [] else [(name, .array items)]

end Json

end QueryGrammar
