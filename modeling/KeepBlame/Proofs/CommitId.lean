import KeepBlame.CommitId
import KeepBlame.Proofs.Numeral

/-! Commit names as text. A text is read as a commit name just where it is forty hexadecimal digits of either case, and a
commit is read back from its own digits, which are in lower case. Commits stand in the order of these digits. -/
namespace KeepBlame

namespace Utf8

theorem encodeAscii {c : Char} (small : c.toNat < 128) : String.utf8EncodeChar c = [c.toNat.toUInt8] := by
  have low : c.val.toNat ≤ 127 := Nat.le_of_lt_succ small
  simp only [String.utf8EncodeChar, if_pos low]
  rfl

theorem encodeWide {c : Char} (wide : ¬ c.toNat < 128) : ∃ b ∈ String.utf8EncodeChar c, 128 ≤ b.toNat := by
  have high : ¬ c.val.toNat ≤ 127 := fun low => wide (Nat.lt_succ_of_le low)
  have last : (UInt8.ofNat (c.val.toNat % 64 + 128)).toNat = c.val.toNat % 64 + 128 := by
    rw [UInt8.toNat_ofNat']
    omega
  refine ⟨UInt8.ofNat (c.val.toNat % 64 + 128), ?_, by omega⟩
  simp only [String.utf8EncodeChar, if_neg high]
  split
  · simp
  · split <;> simp

theorem encodeAsciiAll {cs : List Char} (small : ∀ c ∈ cs, c.toNat < 128) : encode cs = cs.map (·.toNat.toUInt8) := by
  induction cs with
  | nil => rfl
  | cons c rest ih =>
    rw [List.forall_mem_cons] at small
    have split : encode (c :: rest) = String.utf8EncodeChar c ++ encode rest := List.flatMap_cons
    rw [split, encodeAscii small.1, ih small.2]
    rfl

end Utf8

namespace CommitId

def isHexDigit (c : Char) : Bool := c.isDigit || ('a' ≤ c && c ≤ 'f') || ('A' ≤ c && c ≤ 'F')

theorem isHexDigitIff {c : Char} : isHexDigit c = true ↔
    (48 ≤ c.toNat ∧ c.toNat ≤ 57) ∨ (97 ≤ c.toNat ∧ c.toNat ≤ 102) ∨ (65 ≤ c.toNat ∧ c.toNat ≤ 70) := by
  simp only [isHexDigit, Bool.or_eq_true, Bool.and_eq_true, decide_eq_true_eq, Text.isDigitIff, Char.le_def,
    UInt32.le_iff_toNat_le, or_assoc]
  rfl

theorem hexAscii {c : Char} (hex : isHexDigit c = true) : c.toNat < 128 := by
  rw [isHexDigitIff] at hex
  omega

theorem digitValueSome {b : UInt8} : (digitValue? b).isSome = true ↔
    (48 ≤ b.toNat ∧ b.toNat ≤ 57) ∨ (97 ≤ b.toNat ∧ b.toNat ≤ 102) ∨ (65 ≤ b.toNat ∧ b.toNat ≤ 70) := by
  unfold digitValue?
  grind

theorem parseIff {s : String} {id : CommitId} :
    parse s = .ok id ↔ (Utf8.ofText s).length = 40 ∧ readPairs (Utf8.ofText s) = .ok id.bytes := by
  obtain ⟨bytes, size⟩ := id
  unfold parse
  dsimp only
  split
  · rename_i length
    split
    · rename_i found read
      simp [length, read]
    · rename_i e read
      simp [length, read]
  · rename_i length
    simp [length]

theorem readPairsDigits {digits bytes : Bytes} (ok : readPairs digits = .ok bytes) (even : digits.length % 2 = 0) :
    ∀ b ∈ digits, (digitValue? b).isSome = true := by
  fun_induction readPairs digits generalizing bytes with
  | case1 => simp at ok
  | case2 => simp at ok
  | case3 high low rest h l lowIs highIs tail read ih =>
    have later := ih read (by simp only [List.length_cons] at even; omega)
    simpa [highIs, lowIs] using later
  | case4 => simp at ok
  | case5 bs short =>
    cases bs with
    | nil => simp
    | cons high rest =>
      cases rest with
      | nil => simp at even
      | cons low rest => exact absurd rfl (short high low rest)

def IsName (cs : List Char) : Prop := cs.length = 40 ∧ ∀ c ∈ cs, isHexDigit c = true

theorem encodeHex {cs : List Char} (digits : ∀ b ∈ Utf8.encode cs, (digitValue? b).isSome = true) :
    ∀ c ∈ cs, isHexDigit c = true := by
  induction cs with
  | nil => simp
  | cons c rest ih =>
    have split : Utf8.encode (c :: rest) = String.utf8EncodeChar c ++ Utf8.encode rest := List.flatMap_cons
    rw [split] at digits
    have tail := ih fun b mem => digits b (List.mem_append_right _ mem)
    by_cases small : c.toNat < 128
    · have one := Utf8.encodeAscii small
      have code : c.toNat.toUInt8.toNat = c.toNat := by
        rw [Nat.toUInt8, UInt8.toNat_ofNat']
        omega
      have hex := digits c.toNat.toUInt8 (by simp [one])
      rw [digitValueSome, code] at hex
      exact List.forall_mem_cons.mpr ⟨isHexDigitIff.mpr hex, tail⟩
    · obtain ⟨b, mem, high⟩ := Utf8.encodeWide small
      have hex := digits b (List.mem_append_left _ mem)
      rw [digitValueSome] at hex
      omega

theorem parseName {cs : List Char} {id : CommitId} (ok : parse (String.ofList cs) = .ok id) : IsName cs := by
  obtain ⟨length, read⟩ := parseIff.mp ok
  rw [Utf8.ofText, String.toList_ofList] at length read
  have hex := encodeHex (readPairsDigits read (by rw [length]))
  rw [Utf8.encodeAsciiAll fun c mem => hexAscii (hex c mem), List.length_map] at length
  exact ⟨length, hex⟩

theorem digitByte {n : Nat} (small : n < 16) :
    n.digitChar.toNat < 128 ∧ digitValue? n.digitChar.toNat.toUInt8 = some n := by
  have all : ∀ k : Fin 16, k.val.digitChar.toNat < 128 ∧ digitValue? k.val.digitChar.toNat.toUInt8 = some k.val := by
    decide
  exact all ⟨n, small⟩

theorem encodeDigitsCons (b : UInt8) (rest : Bytes) :
    Utf8.encode ((b :: rest).flatMap digitsOf) =
      (b.toNat / 16).digitChar.toNat.toUInt8 :: (b.toNat % 16).digitChar.toNat.toUInt8 ::
        Utf8.encode (rest.flatMap digitsOf) := by
  have small := b.toNat_lt
  have high := (digitByte (n := b.toNat / 16) (by omega)).1
  have low := (digitByte (n := b.toNat % 16) (by omega)).1
  simp [Utf8.encode, digitsOf, Utf8.encodeAscii high, Utf8.encodeAscii low]

theorem encodeDigitsLength (bytes : Bytes) : (Utf8.encode (bytes.flatMap digitsOf)).length = 2 * bytes.length := by
  induction bytes with
  | nil => rfl
  | cons b rest ih =>
    rw [encodeDigitsCons, List.length_cons, List.length_cons, ih, List.length_cons]
    omega

theorem readPairsDigitsOf (bytes : Bytes) : readPairs (Utf8.encode (bytes.flatMap digitsOf)) = .ok bytes := by
  induction bytes with
  | nil => rfl
  | cons b rest ih =>
    have small := b.toNat_lt
    have high := (digitByte (n := b.toNat / 16) (by omega)).2
    have low := (digitByte (n := b.toNat % 16) (by omega)).2
    have whole : (16 * (b.toNat / 16) + b.toNat % 16).toUInt8 = b := by
      rw [Nat.div_add_mod]
      exact UInt8.ofNat_toNat
    rw [encodeDigitsCons, readPairs, high, low, ih]
    simp only [whole]

theorem parseDigits (id : CommitId) : parse (String.ofList id.digits) = .ok id := by
  rw [parseIff, Utf8.ofText, String.toList_ofList]
  exact ⟨by rw [digits, encodeDigitsLength, id.length_eq], readPairsDigitsOf id.bytes⟩

theorem digitValueSmall {b : UInt8} {n : Nat} (digit : digitValue? b = some n) : n < 16 := by
  unfold digitValue? at digit
  grind

theorem digitLowered {c : Char} (hex : isHexDigit c = true) :
    ∃ n < 16, digitValue? c.toNat.toUInt8 = some n ∧ n.digitChar = c.toLower := by
  have all : ∀ k : Fin 128, isHexDigit (Char.ofNat k.val) = true →
      (digitValue? k.val.toUInt8).map Nat.digitChar = some (Char.ofNat k.val).toLower := by
    decide
  have written := all ⟨c.toNat, hexAscii hex⟩
  rw [Char.ofNat_toNat] at written
  obtain ⟨n, digit, lower⟩ := Option.map_eq_some_iff.mp (written hex)
  exact ⟨n, digitValueSmall digit, digit, lower⟩

theorem digitsOfPair {h l : Nat} (high : h < 16) (low : l < 16) :
    digitsOf (16 * h + l).toUInt8 = [h.digitChar, l.digitChar] := by
  have byte : (16 * h + l).toUInt8.toNat = 16 * h + l := by
    rw [Nat.toUInt8, UInt8.toNat_ofNat']
    omega
  rw [digitsOf, byte, show (16 * h + l) / 16 = h by omega, show (16 * h + l) % 16 = l by omega]

theorem readPairsHex {n : Nat} {cs : List Char} (length : cs.length = 2 * n) (hex : ∀ c ∈ cs, isHexDigit c = true) :
    ∃ bytes, readPairs (cs.map (·.toNat.toUInt8)) = .ok bytes ∧ bytes.flatMap digitsOf = cs.map Char.toLower := by
  induction n generalizing cs with
  | zero =>
    rw [List.length_eq_zero_iff.mp length]
    exact ⟨[], rfl, rfl⟩
  | succ n ih =>
    obtain ⟨c, d, rest, rfl⟩ : ∃ c d rest, cs = c :: d :: rest := by
      cases cs with
      | nil => simp at length
      | cons c cs =>
        cases cs with
        | nil =>
          rw [List.length_singleton] at length
          omega
        | cons d rest => exact ⟨c, d, rest, rfl⟩
    simp only [List.forall_mem_cons] at hex
    obtain ⟨first, second, later⟩ := hex
    obtain ⟨bytes, read, lower⟩ := ih (by simp only [List.length_cons] at length; omega) later
    obtain ⟨h, high, highIs, highLower⟩ := digitLowered first
    obtain ⟨l, low, lowIs, lowLower⟩ := digitLowered second
    refine ⟨(16 * h + l).toUInt8 :: bytes, ?_, ?_⟩
    · rw [List.map_cons, List.map_cons, readPairs, highIs, lowIs, read]
    · rw [List.flatMap_cons, digitsOfPair high low, highLower, lowLower, lower]
      rfl

theorem parseLower {s : String} (name : IsName s.toList) : ∃ id, parse s = .ok id ∧ id.text = s.toLower := by
  have ascii : Utf8.ofText s = s.toList.map (·.toNat.toUInt8) :=
    Utf8.encodeAsciiAll fun c mem => hexAscii (name.2 c mem)
  have length : (Utf8.ofText s).length = 40 := by rw [ascii, List.length_map, name.1]
  obtain ⟨bytes, read, lower⟩ := readPairsHex (n := 20) name.1 name.2
  rw [← ascii] at read
  refine ⟨⟨bytes, by rw [readPairsLength read, length]⟩, parseIff.mpr ⟨length, read⟩, ?_⟩
  have lowered : s.toLower.toList = s.toList.map Char.toLower := String.toList_map
  rw [← String.toList_inj, text, digits, String.toList_ofList, lower, lowered]

theorem digitCharLt {m n : Nat} (left : m < 16) (right : n < 16) : m.digitChar < n.digitChar ↔ m < n := by
  have all : ∀ j k : Fin 16, j.val.digitChar < k.val.digitChar ↔ j.val < k.val := by decide
  exact all ⟨m, left⟩ ⟨n, right⟩

theorem digitCharInj {m n : Nat} (left : m < 16) (right : n < 16) : m.digitChar = n.digitChar ↔ m = n := by
  constructor
  · intro same
    have read := (digitByte left).2
    rw [same, (digitByte right).2] at read
    exact (Option.some.inj read).symm
  · rintro rfl
    rfl

theorem digitsOfLt {x y : UInt8} {cs ds : List Char} :
    digitsOf x ++ cs < digitsOf y ++ ds ↔ x < y ∨ x = y ∧ cs < ds := by
  have left := x.toNat_lt
  have right := y.toNat_lt
  have less : x < y ↔ x.toNat / 16 < y.toNat / 16 ∨ x.toNat / 16 = y.toNat / 16 ∧ x.toNat % 16 < y.toNat % 16 := by
    rw [UInt8.lt_iff_toNat_lt]
    omega
  have same : x = y ↔ x.toNat / 16 = y.toNat / 16 ∧ x.toNat % 16 = y.toNat % 16 := by
    rw [← UInt8.toNat_inj]
    omega
  simp only [digitsOf, List.cons_append, List.nil_append, List.cons_lt_cons_iff]
  rw [digitCharLt (by omega) (by omega), digitCharLt (by omega) (by omega), digitCharInj (by omega) (by omega),
    digitCharInj (by omega) (by omega), less, same, and_or_left, or_assoc, and_assoc]

theorem digitsLt (as bs : Bytes) : as.flatMap digitsOf < bs.flatMap digitsOf ↔ as < bs := by
  induction as generalizing bs with
  | nil =>
    cases bs with
    | nil => exact iff_of_false (List.not_lt_nil _) (List.not_lt_nil _)
    | cons y bs => exact iff_of_true (List.nil_lt_cons _ _) (List.nil_lt_cons _ _)
  | cons x as ih =>
    cases bs with
    | nil => exact iff_of_false (List.not_lt_nil _) (List.not_lt_nil _)
    | cons y bs => rw [List.flatMap_cons, List.flatMap_cons, digitsOfLt, ih, List.cons_lt_cons_iff]

theorem textLt {a b : CommitId} : a.text < b.text ↔ a < b := by
  rw [String.lt_iff, text, text, String.toList_ofList, String.toList_ofList]
  exact digitsLt a.bytes b.bytes

theorem textInj {a b : CommitId} : a.text = b.text ↔ a = b := by
  constructor
  · intro same
    have read : parse b.text = .ok a := same ▸ parseDigits a
    exact Except.ok.inj (read.symm.trans (parseDigits b))
  · rintro rfl
    rfl

theorem textNamesInOrder (s : String) (a b : CommitId) :
    ((∃ id, parse s = .ok id) ↔ IsName s.toList) ∧
    (∀ id, parse s = .ok id ↔ IsName s.toList ∧ id.text = s.toLower) ∧
    parse a.text = .ok a ∧
    (a < b ↔ a.text < b.text) ∧ (a = b ↔ a.text = b.text) := by
  have named {id : CommitId} (ok : parse s = .ok id) : IsName s.toList :=
    parseName (by rw [String.ofList_toList, ok])
  refine ⟨⟨?_, ?_⟩, fun id => ⟨?_, ?_⟩, parseDigits a, textLt.symm, textInj.symm⟩
  · rintro ⟨id, ok⟩
    exact named ok
  · intro name
    obtain ⟨id, ok, _⟩ := parseLower name
    exact ⟨id, ok⟩
  · intro ok
    obtain ⟨other, read, lower⟩ := parseLower (named ok)
    cases ok.symm.trans read
    exact ⟨named ok, lower⟩
  · rintro ⟨name, lower⟩
    obtain ⟨other, read, written⟩ := parseLower name
    rw [textInj.mp (lower.trans written.symm)]
    exact read

example : parse (String.ofList (List.replicate 20 'é')) = .error (.badDigit 0xC3) := rfl

end CommitId
end KeepBlame
