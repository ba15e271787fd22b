import KeepBlame.Proofs.References
import KeepBlame.Toml.Scalar
import Mathlib.Data.List.TakeWhile

/-! TOML strings and whole numbers as text. A string between double quotes is read back from every spelling of its
characters, a number from its decimal digits. -/
namespace KeepBlame.Toml

theorem cutRun {p : Char → Bool} {run rest : List Char} (inside : ∀ c ∈ run, p c = true)
    (next : ∀ c, rest.head? = some c → p c = false) :
    (run ++ rest).takeWhile p = run ∧ (run ++ rest).dropWhile p = rest := by
  rw [List.takeWhile_append_of_pos inside, List.dropWhile_append_of_pos inside]
  cases rest with
  | nil => simp
  | cons c more => simp [next c rfl]

def shortEscapes : List (Char × Char) :=
  [('b', Char.ofNat 8), ('t', '\t'), ('n', '\n'), ('f', Char.ofNat 12), ('r', '\r'), ('"', '"'), ('\\', '\\')]

inductive Spelling (c : Char) : List Char → Prop where
  | plain (visible : isVisible c = true) (quote : c ≠ '"') (back : c ≠ '\\') : Spelling c [c]
  | short {e : Char} (known : (e, c) ∈ shortEscapes) : Spelling c ['\\', e]
  | code {digits : List Char} (size : digits.length = 4) (value : Text.Digits 16 digits c.toNat) :
      Spelling c ('\\' :: 'u' :: digits)
  | longCode {digits : List Char} (size : digits.length = 8) (value : Text.Digits 16 digits c.toNat) :
      Spelling c ('\\' :: 'U' :: digits)

inductive Spelled : List Char → List Char → Prop where
  | nil : Spelled [] []
  | cons {c : Char} {cs first text : List Char} (here : Spelling c first) (later : Spelled cs text) :
      Spelled (c :: cs) (first ++ text)

theorem digitsOf (size : Nat) {n : Nat} (within : n < Nat.pow 16 (size + 1)) :
    ∃ digits, digits.length = size + 1 ∧ Text.Digits 16 digits n := by
  induction size generalizing n with
  | zero => exact ⟨[n.digitChar], rfl, .one within (.inl rfl)⟩
  | succ size ih =>
    have fewer : n / 16 < Nat.pow 16 (size + 1) := Nat.div_lt_of_lt_mul (by rw [Nat.mul_comm]; exact within)
    obtain ⟨digits, length, value⟩ := ih fewer
    have small : n % 16 < 16 := Nat.mod_lt n (by decide)
    have whole : n / 16 * 16 + n % 16 = n := Nat.div_add_mod' n 16
    have longer : Text.Digits 16 (digits ++ [(n % 16).digitChar]) (n / 16 * 16 + n % 16) := .more value small (.inl rfl)
    rw [whole] at longer
    exact ⟨_, by simp [length], longer⟩

theorem spelledSome (cs : List Char) : ∃ text, Spelled cs text := by
  induction cs with
  | nil => exact ⟨[], .nil⟩
  | cons c cs ih =>
    obtain ⟨text, spelled⟩ := ih
    have below : c.toNat < Nat.pow 16 (7 + 1) := by
      have valid : c.toNat < 0xD800 ∨ (0xDFFF < c.toNat ∧ c.toNat < 0x110000) := c.valid
      have size : Nat.pow 16 (7 + 1) = 0x100000000 := rfl
      omega
    obtain ⟨digits, size, value⟩ := digitsOf 7 below
    exact ⟨_, .cons (.longCode size value) spelled⟩

theorem codeEscapeDigits {c : Char} {digits : List Char} (value : Text.Digits 16 digits c.toNat) (rest : List Char) :
    codeEscape? digits.length (digits ++ rest) = some c := by
  have read := Text.readDigitsWritten (.inr rfl) value (Markup.codeWithin c)
  have valid : c.toNat.isValidChar := c.valid
  simp only [codeEscape?, List.take_left, if_true, read, if_pos valid, Char.ofNat_toNat]

theorem escapeShort {c e : Char} (known : (e, c) ∈ shortEscapes) (rest : List Char) :
    escape? (e :: rest) = some (c, 1) := by
  have all : (shortEscapes.all fun x => x.1 ≠ 'u' ∧ x.1 ≠ 'U' ∧ shortEscape? x.1 = some x.2) = true := by decide
  obtain ⟨small, large, meaning⟩ := of_decide_eq_true (List.all_eq_true.mp all (e, c) known)
  unfold escape?
  split
  · rename_i empty
    cases empty
  · rename_i same
    exact absurd (List.cons.inj same).1 small
  · rename_i same
    exact absurd (List.cons.inj same).1 large
  · rename_i same
    cases same
    simp only [meaning]
    rfl

theorem readBasicEscape {cs : List Char} {c : Char} {size : Nat} (escape : escape? cs = some (c, size)) :
    readBasic ('\\' :: cs) = (readBasic (cs.drop size)).map fun (text, rest) => (c :: text, rest) := by
  rw [readBasic, if_neg (by decide), if_pos rfl, escape]
  dsimp only
  cases readBasic (cs.drop size) <;> rfl

theorem readBasicSpelling {c : Char} {first : List Char} (spelling : Spelling c first) (rest : List Char) :
    readBasic (first ++ rest) = (readBasic rest).map fun (text, rest) => (c :: text, rest) := by
  cases spelling with
  | plain visible quote back =>
    rw [List.singleton_append, readBasic, if_neg quote, if_neg back, if_pos visible]
    cases readBasic rest <;> rfl
  | @short e known => exact readBasicEscape (escapeShort known rest)
  | @code digits size value =>
    have escape : escape? ('u' :: (digits ++ rest)) = some (c, 5) := by
      rw [escape?, ← size, codeEscapeDigits value]
      rfl
    have behind : ('u' :: (digits ++ rest)).drop 5 = rest := List.drop_left' size
    rw [List.cons_append, List.cons_append, readBasicEscape escape, behind]
  | @longCode digits size value =>
    have escape : escape? ('U' :: (digits ++ rest)) = some (c, 9) := by
      rw [escape?, ← size, codeEscapeDigits value]
      rfl
    have behind : ('U' :: (digits ++ rest)).drop 9 = rest := List.drop_left' size
    rw [List.cons_append, List.cons_append, readBasicEscape escape, behind]

theorem readBasicSpelled {cs text : List Char} (spelled : Spelled cs text) (rest : List Char) :
    readBasic (text ++ '"' :: rest) = .ok (cs, rest) := by
  induction spelled with
  | nil => rw [List.nil_append, readBasic, if_pos rfl]
  | cons here later ih =>
    rw [List.append_assoc, readBasicSpelling here, ih]
    rfl

theorem spelledFirst {cs text : List Char} (spelled : Spelled cs text) : text.head? ≠ some '"' := by
  cases spelled with
  | nil => simp
  | cons here later =>
    cases here with
    | plain visible quote back => simpa using quote
    | short known => simp
    | code size value => simp
    | longCode size value => simp

theorem readStringSpelled {cs text rest : List Char} (spelled : Spelled cs text) (next : rest.head? ≠ some '"') :
    readString ('"' :: (text ++ '"' :: rest)) = .ok (cs, rest) := by
  have first := spelledFirst spelled
  have read := readBasicSpelled spelled rest
  unfold readString
  split
  · rename_i three
    obtain ⟨_, three⟩ := List.cons.inj three
    cases text with
    | nil =>
      obtain ⟨_, three⟩ := List.cons.inj three
      simp [three] at next
    | cons c more =>
      simp [(List.cons.inj three).1] at first
  · rename_i other
    cases (List.cons.inj other).1
  · rename_i same
    cases same
    rw [read]
    rfl
  · rename_i other
    cases (List.cons.inj other).1
  · rename_i none _
    exact absurd rfl (none _)

theorem decimalDigits (n : Nat) : ∀ c ∈ Nat.toDigits 10 n, c.isDigit = true :=
  fun _ => Nat.isDigit_of_mem_toDigits (by decide) (by decide)

theorem decimalCons (n : Nat) : ∃ c more, Nat.toDigits 10 n = c :: more ∧ c.isDigit = true := by
  obtain ⟨c, more, split⟩ := List.exists_cons_of_ne_nil (Nat.toDigits_ne_nil (n := n) (b := 10))
  exact ⟨c, more, split, decimalDigits n c (split ▸ List.mem_cons_self)⟩

theorem toDigitsFirst {n : Nat} (several : 1 < (Nat.toDigits 10 n).length) : (Nat.toDigits 10 n).head? ≠ some '0' := by
  have digits : ∀ k : Fin 10, k.val ≠ 0 → k.val.digitChar ≠ '0' := by decide
  induction n using Nat.strongRecOn with
  | ind n ih =>
    by_cases small : n < 10
    · simp [Nat.toDigits_of_lt_base small] at several
    · rw [Nat.toDigits_of_base_le (by decide) (by omega), List.head?_append,
        Option.or_of_isSome (List.isSome_head?.mpr Nat.toDigits_ne_nil)]
      by_cases single : n / 10 < 10
      · rw [Nat.toDigits_of_lt_base single]
        simpa using digits ⟨n / 10, single⟩ (show n / 10 ≠ 0 by omega)
      · refine ih (n / 10) (by omega) ?_
        rw [Nat.toDigits_of_base_le (by decide) (by omega), List.length_append]
        exact Nat.lt_add_of_pos_left Nat.length_toDigits_pos

section Digits
variable {cs : List Char} (digits : ∀ c ∈ cs, c.isDigit = true)
include digits

theorem digitsLack {c : Char} (other : c.isDigit = false) : c ∉ cs := by
  intro mem
  rw [digits c mem] at other
  cases other

theorem digitsNatOf (value : Nat) :
    cs.foldl (fun n c => n * 10 + (Text.digitValue? 10 c).getD 0) value = Nat.ofDigitChars 10 cs value := by
  induction cs generalizing value with
  | nil => rfl
  | cons c rest ih =>
    have here := Text.digitValueTen.mpr ⟨digits c List.mem_cons_self, rfl⟩
    rw [List.foldl_cons, here, Option.getD_some, ih fun d mem => digits d (List.mem_cons_of_mem c mem),
      Nat.ofDigitChars_cons, Nat.mul_comm]
    rfl

theorem digitsUnsigned : unsign cs = (false, cs) := by
  have minus : '-' ∉ cs := digitsLack digits (by decide)
  have plus : '+' ∉ cs := digitsLack digits (by decide)
  unfold unsign
  split
  · simp at minus
  · simp at plus
  · rfl

theorem digitsNotNamed : named? cs = none := by
  have letters : ∀ word ∈ ["true", "false", "inf", "nan"], cs ≠ word.toList := by
    have shown : ∀ word ∈ ["true", "false", "inf", "nan"], word.toList.any (fun c => !c.isDigit) = true := by decide
    rintro word known rfl
    obtain ⟨c, mem, other⟩ := List.any_eq_true.mp (shown word known)
    exact digitsLack digits (by simpa using other) mem
  simp only [List.forall_mem_cons] at letters
  obtain ⟨yes, no, inf, nan, _⟩ := letters
  simp only [named?, digitsUnsigned digits, if_neg yes, if_neg no, if_neg inf, if_neg nan]

theorem digitsNotDate : isDate cs = false := by
  simp only [isDate, List.splitOn_eq_singleton (digitsLack digits (show ('-').isDigit = false by decide))]

theorem digitsNotMoment : isMoment cs = false := by
  have short : ∀ c ∈ cs.take 10, c.isDigit = true := fun c mem => digits c (List.mem_of_mem_take mem)
  have time : isTime cs = false := by
    simp only [isTime, List.splitOn_eq_singleton (digitsLack digits (show (':').isDigit = false by decide))]
  simp only [isMoment, time, digitsNotDate digits, digitsNotDate short, Bool.false_and, Bool.or_false]

theorem digitsNotSplit {p : Char → Bool} (apart : ∀ c, c.isDigit = true → p c = false) : splitAt? p cs = (cs, none) := by
  have all : cs.takeWhile (!p ·) = cs :=
    List.takeWhile_eq_self_iff.mpr fun c mem => by simp [apart c (digits c mem)]
  simp only [splitAt?, all, Nat.lt_irrefl, if_false]

theorem digitsNotFloat : float? cs = none := by
  have exponent := @digitsNotSplit cs digits (fun c => c == 'e' || c == 'E') (by
    rintro c digit
    have other : c ≠ 'e' ∧ c ≠ 'E' := ⟨by rintro rfl; simp at digit, by rintro rfl; simp at digit⟩
    simp [other])
  have fraction := @digitsNotSplit cs digits (· == '.') (by
    rintro c digit
    have other : c ≠ '.' := by rintro rfl; simp at digit
    simp [other])
  simp only [float?, exponent, fraction, Option.isNone_none, and_self, if_true]

theorem digitsGroup (full : cs ≠ []) : digitGroups? Char.isDigit cs = some cs := by
  have single := List.splitOn_eq_singleton (digitsLack digits (show ('_').isDigit = false by decide))
  simpa [digitGroups?, single, full] using digits

end Digits

section Number
variable {n : Nat} (within : n ≤ integerLimit)
include within

theorem integerWritten : integer? (Nat.toDigits 10 n) = some (.integer n) := by
  have digits := decimalDigits n
  have whole : wholeNumber? (Nat.toDigits 10 n) = some (Nat.toDigits 10 n) := by
    have leading : ¬ ((Nat.toDigits 10 n).length > 1 ∧ (Nat.toDigits 10 n).head? = some '0') :=
      fun zero => toDigitsFirst zero.1 zero.2
    simp only [wholeNumber?, digitsGroup digits Nat.toDigits_ne_nil, bind, Option.bind, if_neg leading]
  have value : natOf 10 (Nat.toDigits 10 n) = n := (digitsNatOf digits 0).trans Nat.ofDigitChars_ten_toDigits
  simp only [integer?, digitsUnsigned digits, whole, bind, Option.bind, value, Bool.false_eq_true, if_false, if_pos within]

theorem wordWritten : word? (Nat.toDigits 10 n) = some (.integer n) := by
  have digits := decimalDigits n
  have hexadecimal := digitsLack digits (show ('x').isDigit = false by decide)
  have octal := digitsLack digits (show ('o').isDigit = false by decide)
  have binary := digitsLack digits (show ('b').isDigit = false by decide)
  unfold word?
  split
  · rename_i same
    simp [same] at hexadecimal
  · rename_i same
    simp [same] at octal
  · rename_i same
    simp [same] at binary
  · simp [digitsNotNamed digits, digitsNotMoment digits, digitsNotFloat digits, integerWritten within]

theorem readWordWritten {rest : List Char} (next : ∀ c, rest.head? = some c → isWordChar c = false) :
    readWord (Nat.toDigits 10 n ++ rest) = .ok (.integer n, rest) := by
  have digits := decimalDigits n
  have chars : ∀ c ∈ Nat.toDigits 10 n, isWordChar c = true := fun c mem => by
    simp [isWordChar, Char.isAlphanum, digits c mem]
  have word : wordAt (Nat.toDigits 10 n ++ rest) = Nat.toDigits 10 n := by
    simp only [wordAt, (cutRun chars next).1, digitsNotDate digits, Bool.false_eq_true, if_false]
  simp only [readWord, word, wordWritten within, List.drop_left]

end Number

end KeepBlame.Toml
