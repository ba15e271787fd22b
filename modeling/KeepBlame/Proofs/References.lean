import KeepBlame.Markup.Event
import KeepBlame.Proofs.Numeral

/-! Characters referred to. A reference gives the name of a character or the digits of its number, and is read as that
character whatever follows it. -/
namespace KeepBlame

namespace Text

inductive Digits (radix : Nat) : List Char → Nat → Prop where
  | one {c : Char} {d : Nat} (small : d < radix) (digit : c = d.digitChar ∨ c = d.digitChar.toUpper) :
      Digits radix [c] d
  | more {c : Char} {d n : Nat} {cs : List Char} (before : Digits radix cs n) (small : d < radix)
      (digit : c = d.digitChar ∨ c = d.digitChar.toUpper) : Digits radix (cs ++ [c]) (n * radix + d)

theorem digitsPair {radix d e : Nat} (first : d < radix) (second : e < radix) :
    Digits radix [d.digitChar, e.digitChar] (d * radix + e) :=
  .more (.one first (.inl rfl)) second (.inl rfl)

theorem digitValueDigit {radix d : Nat} {c : Char} (base : radix = 10 ∨ radix = 16) (small : d < radix)
    (digit : c = d.digitChar ∨ c = d.digitChar.toUpper) : digitValue? radix c = some d := by
  have ten : ∀ k : Fin 10, digitValue? 10 k.val.digitChar = some k.val ∧
      digitValue? 10 k.val.digitChar.toUpper = some k.val := by
    decide
  have sixteen : ∀ k : Fin 16, digitValue? 16 k.val.digitChar = some k.val ∧
      digitValue? 16 k.val.digitChar.toUpper = some k.val := by
    decide
  rcases base with rfl | rfl
  · rcases digit with rfl | rfl
    · exact (ten ⟨d, small⟩).1
    · exact (ten ⟨d, small⟩).2
  · rcases digit with rfl | rfl
    · exact (sixteen ⟨d, small⟩).1
    · exact (sixteen ⟨d, small⟩).2

theorem readDigitsAppend (radix limit value : Nat) (early late : List Char) :
    readDigits radix limit value (early ++ late) =
      (readDigits radix limit value early).bind fun n => readDigits radix limit n late := by
  induction early generalizing value with
  | nil => rfl
  | cons c rest ih =>
    simp only [List.cons_append, readDigits]
    split
    · rfl
    · split
      · rfl
      · exact ih _

section Digits
variable {radix n : Nat} {cs : List Char} (base : radix = 10 ∨ radix = 16) (digits : Digits radix cs n)
include base digits

theorem digitsValues : cs ≠ [] ∧ ∀ c ∈ cs, (digitValue? radix c).isSome = true := by
  induction digits with
  | one small digit => simp [digitValueDigit base small digit]
  | more before small digit ih =>
    refine ⟨by simp, ?_⟩
    intro c mem
    rcases List.mem_append.mp mem with early | last
    · exact ih.2 c early
    · cases List.mem_singleton.mp last
      simp [digitValueDigit base small digit]

theorem digitsOther {c : Char} (other : digitValue? radix c = none) : c ∉ cs := by
  intro mem
  have value := (digitsValues base digits).2 c mem
  rw [other] at value
  cases value

theorem readDigitsWritten {limit : Nat} (within : n ≤ limit) : readDigits radix limit 0 cs = .ok n := by
  have positive : 0 < radix := by omega
  induction digits with
  | @one c d small digit =>
    simp only [readDigits, digitValueDigit base small digit, Nat.zero_mul, Nat.zero_add]
    rw [if_neg (Nat.not_lt.mpr within)]
  | @more c d n cs before small digit ih =>
    have grown : n ≤ n * radix := Nat.le_mul_of_pos_right n positive
    rw [readDigitsAppend, ih (by omega)]
    simp only [Except.bind, readDigits, digitValueDigit base small digit]
    rw [if_neg (Nat.not_lt.mpr within)]

theorem readUnsignedWritten {limit : Nat} (within : n ≤ limit) : readUnsigned radix limit cs = .ok n := by
  have read := readDigitsWritten base digits within
  have plus : digitValue? radix '+' = none := by
    rcases base with rfl | rfl <;> decide
  have unsigned := digitsOther base digits plus
  unfold readUnsigned
  split
  · exact absurd rfl (digitsValues base digits).1
  · simp at unsigned
  · simp at unsigned
  · exact read

end Digits
end Text

namespace Markup
open Text (Digits)

def entities : List (String × Char) := [("lt", '<'), ("gt", '>'), ("amp", '&'), ("apos", '\''), ("quot", '"')]

inductive Named (c : Char) : List Char → Prop where
  | entity {name : String} (known : (name, c) ∈ entities) : Named c name.toList
  | decimal {digits : List Char} (code : Digits 10 digits c.toNat) : Named c ('#' :: digits)
  | hexadecimal {digits : List Char} (code : Digits 16 digits c.toNat) : Named c ('#' :: 'x' :: digits)

theorem namedHash (cs : List Char) : namedCharacter? ('#' :: cs) = none := by
  have first : ∀ name ∈ ["lt", "gt", "amp", "apos", "quot"], '#' :: cs ≠ name.toList := by
    have heads : ∀ name ∈ ["lt", "gt", "amp", "apos", "quot"], name.toList.head? ≠ some '#' := by decide
    intro name mem same
    exact heads name mem (same ▸ rfl)
  simp only [List.forall_mem_cons] at first
  obtain ⟨lt, gt, amp, apos, quot, _⟩ := first
  simp only [namedCharacter?, if_neg lt, if_neg gt, if_neg amp, if_neg apos, if_neg quot]

theorem characterOfCode (c : Char) : characterOf? c.toNat = some c := by
  have valid : c.toNat.isValidChar := c.valid
  rw [characterOf?, if_pos valid, Char.ofNat_toNat]

theorem codeWithin (c : Char) : c.toNat ≤ Text.halfWordLimit := Nat.le_of_lt_succ c.val.toNat_lt

theorem resolveNumber {c : Char} {digits : List Char} (code : readCode digits = .ok c.toNat) :
    resolve ('#' :: digits) = .ok c := by
  simp only [resolve, namedHash, code, characterOfCode]

theorem resolveNamed {c : Char} {name : List Char} (named : Named c name) : resolve name = .ok c := by
  cases named with
  | @entity name known =>
    have all : ∀ e ∈ entities, namedCharacter? e.1.toList = some e.2 := by decide
    simp only [resolve, all (name, c) known]
  | @decimal digits code =>
    have read := Text.readUnsignedWritten (.inl rfl) code (codeWithin c)
    have small : 'x' ∉ digits := Text.digitsOther (.inl rfl) code (by decide)
    have large : 'X' ∉ digits := Text.digitsOther (.inl rfl) code (by decide)
    refine resolveNumber ?_
    unfold readCode
    split
    · simp at small
    · simp at large
    · exact read
  | hexadecimal code => exact resolveNumber (Text.readUnsignedWritten (.inr rfl) code (codeWithin c))

theorem namedPlain {c : Char} {name : List Char} (named : Named c name) :
    ∀ d ∈ name, (d != ';' && d != '&' && d != '<') = true := by
  have digits {radix : Nat} {cs : List Char} (base : radix = 10 ∨ radix = 16) (code : Digits radix cs c.toNat) :
      ∀ d ∈ cs, (d != ';' && d != '&' && d != '<') = true := by
    have marks : ([';', '&', '<'].all fun d => (Text.digitValue? radix d).isNone) = true := by
      rcases base with rfl | rfl <;> decide
    intro d mem
    have other : d ∉ [';', '&', '<'] := fun mark =>
      Text.digitsOther base code (Option.isNone_iff_eq_none.mp (List.all_eq_true.mp marks d mark)) mem
    simpa [and_assoc] using other
  cases named with
  | @entity name known =>
    have all : (entities.all fun e => e.1.toList.all fun d => d != ';' && d != '&' && d != '<') = true := by decide
    exact List.all_eq_true.mp (List.all_eq_true.mp all (name, c) known)
  | decimal code =>
    intro d mem
    rcases List.mem_cons.mp mem with rfl | later
    · decide
    · exact digits (.inl rfl) code d later
  | hexadecimal code =>
    intro d mem
    rcases List.mem_cons.mp mem with rfl | later
    · decide
    · rcases List.mem_cons.mp later with rfl | later
      · decide
      · exact digits (.inr rfl) code d later

theorem readReferenceNamed {c : Char} {name : List Char} (named : Named c name) (opened : List (List Char))
    (rest : List Char) :
    readStep opened '&' (name ++ ';' :: rest) = .ok (some (.reference name), opened, rest) := by
  have inside := namedPlain named
  have ending : (';' != ';' && ';' != '&' && ';' != '<') = false := by decide
  have reference : readStep opened '&' (name ++ ';' :: rest) = readReference opened (name ++ ';' :: rest) := by
    simp [readStep]
  rw [reference]
  simp only [readReference, List.dropWhile_append_of_pos inside, List.takeWhile_append_of_pos inside,
    List.dropWhile_cons, List.takeWhile_cons, ending, Bool.false_eq_true, if_false, List.append_nil]

theorem readEventsStep {opened o : List (List Char)} {c : Char} {rest r : List Char} {event : Option Event}
    (read : readStep opened c rest = .ok (event, o, r)) :
    readEvents opened (c :: rest) = (event.toList ++ (readEvents o r).1, (readEvents o r).2) := by
  rw [readEvents]
  split
  · rename_i failed
    rw [read] at failed
    cases failed
  · rename_i went
    rw [read] at went
    cases went
    rfl

end Markup

end KeepBlame
