/-!
Bytes and text. Text is written as UTF-8. Bytes are read back either strictly, or with a replacement character
for each longest start of a character that breaks off.
-/
namespace KeepBlame

abbrev Bytes := List UInt8

namespace Utf8

def encode (cs : List Char) : Bytes := cs.flatMap String.utf8EncodeChar

def width (lead : UInt8) : Nat :=
  if lead < 0x80 then 1
  else if 0xC2 ≤ lead && lead ≤ 0xDF then 2
  else if 0xE0 ≤ lead && lead ≤ 0xEF then 3
  else if 0xF0 ≤ lead && lead ≤ 0xF4 then 4
  else 0

def isTail (b : UInt8) : Bool := 0x80 ≤ b && b ≤ 0xBF

def isSecond (lead b : UInt8) : Bool :=
  if lead == 0xE0 then 0xA0 ≤ b && b ≤ 0xBF
  else if lead == 0xED then 0x80 ≤ b && b ≤ 0x9F
  else if lead == 0xF0 then 0x90 ≤ b && b ≤ 0xBF
  else if lead == 0xF4 then 0x80 ≤ b && b ≤ 0x8F
  else isTail b

def bits (b : UInt8) (modulus : Nat) : Nat := b.toNat % modulus

/-- Reads the character that starts with `lead`. The number says how many of the following bytes belong to it,
or, where there is no character, to its broken start. -/
def step (lead : UInt8) (rest : Bytes) : Option Char × Nat :=
  match width lead, rest with
  | 1, _ => (some (Char.ofNat lead.toNat), 0)
  | 2, b :: _ =>
    if isSecond lead b then (some (Char.ofNat (bits lead 32 * 64 + bits b 64)), 1) else (none, 0)
  | 3, b :: rest =>
    if isSecond lead b then
      match rest with
      | c :: _ =>
        if isTail c then
          (some (Char.ofNat ((bits lead 16 * 64 + bits b 64) * 64 + bits c 64)), 2)
        else (none, 1)
      | [] => (none, 1)
    else (none, 0)
  | 4, b :: rest =>
    if isSecond lead b then
      match rest with
      | c :: rest =>
        if isTail c then
          match rest with
          | d :: _ =>
            if isTail d then
              (some (Char.ofNat (((bits lead 8 * 64 + bits b 64) * 64 + bits c 64) * 64 + bits d 64)), 3)
            else (none, 2)
          | [] => (none, 2)
        else (none, 1)
      | [] => (none, 1)
    else (none, 0)
  | _, _ => (none, 0)

def pieces : Bytes → List (Option Char)
  | [] => []
  | lead :: rest => (step lead rest).1 :: pieces (rest.drop (step lead rest).2)
termination_by bs => bs.length
decreasing_by
  simp only [List.length_cons, List.length_drop]
  omega

def replacement : Char := Char.ofNat 0xFFFD

def decodeLossy (bs : Bytes) : List Char := (pieces bs).map (·.getD replacement)

def decode? (bs : Bytes) : Option (List Char) := (pieces bs).mapM id

def ofText (s : String) : Bytes := encode s.toList

def toText (bs : Bytes) : String := String.ofList (decodeLossy bs)

def toText? (bs : Bytes) : Option String := (decode? bs).map String.ofList

end Utf8
end KeepBlame
