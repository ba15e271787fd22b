import KeepBlame.Text.Quoted
import KeepBlame.Text.Utf8

/-! Commit names: twenty bytes, written as forty hexadecimal digits. -/
namespace KeepBlame

structure CommitId where
  bytes : Bytes
  length_eq : bytes.length = 20
  deriving DecidableEq, Repr

namespace CommitId

instance : LT CommitId where
  lt a b := a.bytes < b.bytes

instance (a b : CommitId) : Decidable (a < b) := inferInstanceAs (Decidable (a.bytes < b.bytes))

def digitsOf (b : UInt8) : List Char := [(b.toNat / 16).digitChar, (b.toNat % 16).digitChar]

def digits (id : CommitId) : List Char := id.bytes.flatMap digitsOf

def text (id : CommitId) : String := String.ofList id.digits

def short (id : CommitId) : String := String.ofList (id.digits.take 12)

inductive ParseError where
  | wrongLength (found : Nat)
  | badDigit (byte : UInt8)
  deriving DecidableEq, Repr

def ParseError.reason : ParseError → String
  | wrongLength found => s!"expected 40 hex characters, got {found}"
  | badDigit byte => "invalid hex digit '" ++ String.ofList [Char.ofNat byte.toNat] ++ "'"

def ParseError.message (value : String) (e : ParseError) : String :=
  s!"invalid OID {Text.quoted value}: {e.reason}"

def digitValue? (b : UInt8) : Option Nat :=
  let n := b.toNat
  if 48 ≤ n ∧ n ≤ 57 then some (n - 48)
  else if 97 ≤ n ∧ n ≤ 102 then some (n - 87)
  else if 65 ≤ n ∧ n ≤ 70 then some (n - 55)
  else none

def readPairs : Bytes → Except ParseError Bytes
  | high :: low :: rest =>
    match digitValue? high, digitValue? low with
    | none, _ => .error (.badDigit high)
    | _, none => .error (.badDigit low)
    | some h, some l =>
      match readPairs rest with
      | .ok bytes => .ok ((16 * h + l).toUInt8 :: bytes)
      | .error e => .error e
  | _ => .ok []

theorem readPairsLength {digits bytes : Bytes} (h : readPairs digits = .ok bytes) :
    bytes.length = digits.length / 2 := by
  fun_induction readPairs digits generalizing bytes with
  | case1 => simp at h
  | case2 => simp at h
  | case3 high low rest _ _ _ _ bs hr ih =>
    cases h
    have := ih hr
    simp only [List.length_cons]
    omega
  | case4 => simp at h
  | case5 bs short =>
    cases h
    match bs with
    | [] => rfl
    | [_] => simp
    | a :: b :: r => exact absurd rfl (short a b r)

def parse (s : String) : Except ParseError CommitId :=
  let digits := Utf8.ofText s
  if h : digits.length = 40 then
    match hp : readPairs digits with
    | .ok bytes => .ok ⟨bytes, by rw [readPairsLength hp, h]⟩
    | .error e => .error e
  else .error (.wrongLength digits.length)

end CommitId
end KeepBlame
