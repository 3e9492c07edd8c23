import QueryGrammar.Json.Reader
import QueryGrammar.Toml.Basic
/-!
Values of a single word: flags, numbers, dates and times.
-/
namespace QueryGrammar.Toml

/-- The digits of a run in which single underscores may stand between digits. -/
def separated? (isDigit : Char → Bool) : List Char → Option (List Char)
  | [] => none
  | [c] => if isDigit c then some [c] else none
  | c :: '_' :: cs => if isDigit c then (separated? isDigit cs).map (c :: ·) else none
  | c :: cs => if isDigit c then (separated? isDigit cs).map (c :: ·) else none

/-- A sign, if there is one: whether it is a minus, and what follows. -/
def readSign : List Char → Bool × List Char
  | '-' :: cs => (true, cs)
  | '+' :: cs => (false, cs)
  | cs => (false, cs)

/-- A run of decimal digits without a needless zero in front. -/
def wholeDigits? (cs : List Char) : Option (List Char) := do
  let digits ← separated? Char.isDigit cs
  if digits.head? == some '0' && digits.length != 1 then none else some digits

/-- An integer in 64 bits. -/
def word? (negative : Bool) (n : Nat) : Option Int :=
  if negative then if n ≤ 0x8000000000000000 then some (-n) else none
  else if n < 0x8000000000000000 then some n
  else none

/-- A number in a base of its own, after the letter that names it. -/
def based? (base : Nat) (cs : List Char) : Option Int := do
  let isDigit c := (Json.hexDigit? c).any (· < base)
  let digits ← (← separated? isDigit cs).mapM Json.hexDigit?
  word? false (digits.foldl (fun n d => base * n + d) 0)

def integer? : List Char → Option Int
  | '0' :: 'x' :: cs => based? 16 cs
  | '0' :: 'o' :: cs => based? 8 cs
  | '0' :: 'b' :: cs => based? 2 cs
  | cs => do
    let (negative, cs) := readSign cs
    word? negative (Numeral.digitsValue 0 (← wholeDigits? cs))

/-- The least number that rounds to no finite double. -/
def overflow : Nat := Nat.pow 2 1024 - Nat.pow 2 970

/-- Whether `significand · 10 ^ exponent` rounds to a finite double. The number of digits before the
point decides, unless it is 309. -/
def fitsDouble (significand : Nat) (exponent : Int) : Bool :=
  let size := (Nat.toDigits 10 significand).length + exponent
  if significand = 0 || size < 309 then true
  else if 309 < size then false
  else significand * Nat.pow 10 exponent.toNat < overflow * Nat.pow 10 (-exponent).toNat

/-- A number with a fraction, an exponent or both. One too large for a double is refused, unless it
is negative. -/
def isReal (cs : List Char) : Bool :=
  let (negative, cs) := readSign cs
  if cs == ['i', 'n', 'f'] || cs == ['n', 'a', 'n'] then true
  else
    let isMark c := c == 'e' || c == 'E'
    let mantissa := cs.takeWhile (!isMark ·)
    let fraction := (mantissa.dropWhile (· != '.')).drop 1
    let exponent := (cs.dropWhile (!isMark ·)).drop 1
    let hasFraction := mantissa.contains '.'
    let hasExponent := cs.any isMark
    let (minus, exponent) := readSign exponent
    match wholeDigits? (mantissa.takeWhile (· != '.')),
      if hasFraction then separated? Char.isDigit fraction else some [],
      if hasExponent then separated? Char.isDigit exponent else some [] with
    | some whole, some fraction, some exponent =>
      let scale : Int := Numeral.digitsValue 0 exponent
      (hasFraction || hasExponent) && (negative ||
        fitsDouble (Numeral.digitsValue 0 (whole ++ fraction))
          ((if minus then -scale else scale) - fraction.length))
    | _, _, _ => false

/-- The number that decimal digits form. -/
def number? (digits : List Char) : Option Nat :=
  if digits.all Char.isDigit then some (Numeral.digitsValue 0 digits) else none

def isLeapYear (year : Nat) : Bool :=
  year % 4 == 0 && (year % 100 != 0 || year % 400 == 0)

def daysOfMonth (year month : Nat) : Nat :=
  if month == 2 then if isLeapYear year then 29 else 28
  else if month == 4 || month == 6 || month == 9 || month == 11 then 30
  else 31

/-- What follows a date. -/
def afterDate? : List Char → Option (List Char)
  | a :: b :: c :: d :: '-' :: e :: f :: '-' :: g :: h :: rest => do
    let year ← number? [a, b, c, d]
    let month ← number? [e, f]
    let day ← number? [g, h]
    if 1 ≤ month && month ≤ 12 && 1 ≤ day && day ≤ daysOfMonth year month then some rest else none
  | _ => none

/-- Hours and minutes. -/
def isHourMinute : List Char → Bool
  | [a, b, ':', c, d] => (number? [a, b]).any (· ≤ 23) && (number? [c, d]).any (· ≤ 59)
  | _ => false

/-- What follows a time; a leap second is a time. -/
def afterTime? : List Char → Option (List Char)
  | a :: b :: ':' :: c :: d :: ':' :: e :: f :: rest =>
    if isHourMinute [a, b, ':', c, d] && (number? [e, f]).any (· ≤ 60) then
      match rest with
      | '.' :: rest => (Json.readDigits rest).map (·.2)
      | rest => some rest
    else none
  | _ => none

/-- A distance from universal time, which may be left out. -/
def isOffset : List Char → Bool
  | [] | ['Z'] | ['z'] => true
  | sign :: cs => (sign == '+' || sign == '-') && isHourMinute cs

/-- A date, a time, or a date and a time with or without an offset. -/
def isMoment (cs : List Char) : Bool :=
  match afterDate? cs with
  | some [] => true
  | some (c :: rest) =>
    (c == 'T' || c == 't' || c == ' ') && (afterTime? rest).any isOffset
  | none => afterTime? cs == some []

/-- The value that a word stands for. -/
def scalar? (word : List Char) : Option Value :=
  if word == ['t', 'r', 'u', 'e'] then some (.flag true)
  else if word == ['f', 'a', 'l', 's', 'e'] then some (.flag false)
  else if isMoment word then some (.moment (String.ofList word))
  else if isReal word then some (.real (String.ofList word))
  else (integer? word).map .integer

/-- Whether a character may stand in such a word. -/
def isWordChar (c : Char) : Bool :=
  c.isAlphanum || c == '+' || c == '-' || c == '_' || c == '.' || c == ':'

/-- A value of one word. A time may follow its date after a single space. -/
def readScalar (cs : List Char) : Option (Value × List Char) :=
  let word := cs.takeWhile isWordChar
  let rest := cs.dropWhile isWordChar
  let (word, rest) := match afterDate? word, rest with
    | some [], ' ' :: c :: rest =>
      if c.isDigit then
        (word ++ ' ' :: c :: rest.takeWhile isWordChar, rest.dropWhile isWordChar)
      else (word, ' ' :: c :: rest)
    | _, rest => (word, rest)
  (scalar? word).map fun v => (v, rest)

end QueryGrammar.Toml
