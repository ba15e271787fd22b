/-!
Binary fractions of 53 bits and their shortest decimal text: the fewest digits that round back to the same fraction,
written without an exponent.
-/
namespace KeepBlame.Decimal

inductive Binary where
  | nan
  | infinite (negative : Bool)
  | finite (negative : Bool) (mantissa : Nat) (exponent : Int)
  deriving DecidableEq, Repr

def leastExponent : Int := -1074

def greatestExponent : Int := 971

def scaled (num den : Nat) (shift : Int) : Nat × Nat :=
  if 0 ≤ shift then (num, den * Nat.pow 2 shift.toNat) else (num * Nat.pow 2 (-shift).toNat, den)

def roundDiv (num den : Nat) : Nat :=
  let low := num / den
  let twice := 2 * (num % den)
  if twice < den ∨ (twice = den ∧ low % 2 = 0) then low else low + 1

def ofQuotient (negative : Bool) (num den : Nat) : Binary :=
  let guess : Int := (Nat.log2 num : Int) - Nat.log2 den - 52
  let (n, d) := scaled num den guess
  let fit := if n < d * Nat.pow 2 52 then guess - 1 else if d * Nat.pow 2 53 ≤ n then guess + 1 else guess
  let exponent := max fit leastExponent
  let (n, d) := scaled num den exponent
  let mantissa := roundDiv n d
  let (mantissa, exponent) := if mantissa = Nat.pow 2 53 then (Nat.pow 2 52, exponent + 1) else (mantissa, exponent)
  if greatestExponent < exponent then .infinite negative else .finite negative mantissa exponent

def ofDecimal (negative : Bool) (digits : Nat) (power : Int) : Binary :=
  let size : Int := (Nat.toDigits 10 digits).length + power
  if digits = 0 ∨ size < -400 then .finite negative 0 leastExponent
  else if 400 < size then .infinite negative
  else if 0 ≤ power then ofQuotient negative (digits * Nat.pow 10 power.toNat) 1
  else ofQuotient negative digits (Nat.pow 10 (-power).toNat)

/-- The decimals `count · 10 ^ power` that round to a fraction are those between two bounds, given over the common
denominator of the fraction; the bounds themselves belong to them where its mantissa is even. -/
structure Interval where
  low : Nat
  value : Nat
  high : Nat
  den : Nat
  closed : Bool

def interval (mantissa : Nat) (exponent : Int) : Interval :=
  -- Four units to the step: the step below a power of two is half as wide.
  let below := if mantissa = Nat.pow 2 52 ∧ leastExponent < exponent then 1 else 2
  let (scale, den) := if 0 ≤ exponent then (Nat.pow 2 exponent.toNat, 4) else (1, 4 * Nat.pow 2 (-exponent).toNat)
  ⟨(4 * mantissa - below) * scale, 4 * mantissa * scale, (4 * mantissa + 2) * scale, den, mantissa % 2 = 0⟩

def Interval.holds (i : Interval) (count : Nat) (power : Int) : Bool :=
  let (up, down) := if 0 ≤ power then (Nat.pow 10 power.toNat, 1) else (1, Nat.pow 10 (-power).toNat)
  let x := count * up * i.den
  if i.closed then i.low * down ≤ x && x ≤ i.high * down else i.low * down < x && x < i.high * down

def Interval.neighbours (i : Interval) (power : Int) : List Nat :=
  let (num, den) :=
    if 0 ≤ power then (i.value, i.den * Nat.pow 10 power.toNat) else (i.value * Nat.pow 10 (-power).toNat, i.den)
  let low := num / den
  if 2 * (num % den) ≤ den then [low, low + 1] else [low + 1, low]

def Interval.search (i : Interval) (power : Int) : Nat → Nat × Int
  | 0 => (i.value, 0)
  | tries + 1 =>
    match (i.neighbours power).find? (i.holds · power) with
    | some count => (count, power)
    | none => i.search (power - 1) tries

def magnitude (num den : Nat) : Int :=
  if den ≤ num then (Nat.toDigits 10 (num / den)).length
  else 1 - (Nat.toDigits 10 (den / num)).length

def shortest (mantissa : Nat) (exponent : Int) : Nat × Int :=
  let i := interval mantissa exponent
  i.search (magnitude i.value i.den + 1) 24

def positional (count : Nat) (power : Int) : List Char :=
  let digits := Nat.toDigits 10 count
  if 0 ≤ power then digits ++ List.replicate power.toNat '0' ++ ['.', '0']
  else
    let places := (-power).toNat
    let digits := List.replicate (places + 1 - digits.length) '0' ++ digits
    let whole := digits.take (digits.length - places)
    let fraction := ((digits.drop (digits.length - places)).reverse.dropWhile (· == '0')).reverse
    whole ++ ['.'] ++ (if fraction.isEmpty then ['0'] else fraction)

def Binary.text : Binary → String
  | nan => "NaN"
  | infinite negative => if negative then "-inf" else "inf"
  | finite negative mantissa exponent =>
    let digits := if mantissa = 0 then "0.0".toList else
      let (count, power) := shortest mantissa exponent
      positional count power
    String.ofList (if negative then '-' :: digits else digits)

end KeepBlame.Decimal
