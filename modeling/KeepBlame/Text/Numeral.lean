/-! Unsigned numbers in text: an optional `+` and digits, within a limit. -/
namespace KeepBlame.Text

inductive NumeralError where
  | empty
  | badDigit
  | tooLarge
  deriving DecidableEq, Repr

def NumeralError.message : NumeralError → String
  | empty => "cannot parse integer from empty string"
  | badDigit => "invalid digit found in string"
  | tooLarge => "number too large to fit in target type"

def digitValue? (radix : Nat) (c : Char) : Option Nat :=
  let n := c.toNat
  let value :=
    if 48 ≤ n ∧ n ≤ 57 then n - 48
    else if 97 ≤ n ∧ n ≤ 122 then n - 87
    else if 65 ≤ n ∧ n ≤ 90 then n - 55
    else radix
  if value < radix then some value else none

def readDigits (radix limit value : Nat) : List Char → Except NumeralError Nat
  | [] => .ok value
  | c :: rest =>
    match digitValue? radix c with
    | none => .error .badDigit
    | some d =>
      if limit < value * radix + d then .error .tooLarge
      else readDigits radix limit (value * radix + d) rest

def readUnsigned (radix limit : Nat) : List Char → Except NumeralError Nat
  | [] => .error .empty
  | ['+'] => .error .badDigit
  | '+' :: rest => readDigits radix limit 0 rest
  | cs => readDigits radix limit 0 cs

def readNat? (limit : Nat) (cs : List Char) : Option Nat := (readUnsigned 10 limit cs).toOption

def wordLimit : Nat := 0xffffffffffffffff

def halfWordLimit : Nat := 0xffffffff

end KeepBlame.Text
