import KeepBlame.Proofs.CommitId

/-! Bytes read as text where not all of them are text. A byte below 128 is always a character of its own, so what stands
before it is read as if nothing followed; a character that was written is read as itself. -/
namespace KeepBlame.Utf8

section Step
variable {lead : UInt8}

theorem widthCases (lead : UInt8) :
    (width lead = 1 ∧ lead.toNat < 128) ∨ (width lead = 2 ∧ 194 ≤ lead.toNat ∧ lead.toNat ≤ 223) ∨
      (width lead = 3 ∧ 224 ≤ lead.toNat ∧ lead.toNat ≤ 239) ∨ (width lead = 4 ∧ 240 ≤ lead.toNat ∧ lead.toNat ≤ 244) ∨
      (width lead = 0 ∧ 128 ≤ lead.toNat ∧ (lead.toNat ≤ 193 ∨ 245 ≤ lead.toNat)) := by
  simp only [width, UInt8.lt_iff_toNat_lt, UInt8.le_iff_toNat_le, Bool.and_eq_true, decide_eq_true_eq]
  grind

theorem tailIff {b : UInt8} : isTail b = true ↔ 128 ≤ b.toNat ∧ b.toNat ≤ 191 := by
  simp [isTail, UInt8.le_iff_toNat_le]

theorem secondIff {b : UInt8} : isSecond lead b = true ↔
    128 ≤ b.toNat ∧ b.toNat ≤ 191 ∧ (lead.toNat = 224 → 160 ≤ b.toNat) ∧ (lead.toNat = 237 → b.toNat ≤ 159) ∧
      (lead.toNat = 240 → 144 ≤ b.toNat) ∧ (lead.toNat = 244 → b.toNat ≤ 143) := by
  simp only [isSecond, isTail, beq_iff_eq, UInt8.le_iff_toNat_le, ← UInt8.toNat_inj]
  grind

theorem stepLow {b : UInt8} (low : b.toNat < 128) (front rest : Bytes) :
    step lead (front ++ b :: rest) = step lead front := by
  have second : isSecond lead b = false := by
    rw [Bool.eq_false_iff, Ne, secondIff]
    omega
  have third : isTail b = false := by
    rw [Bool.eq_false_iff, Ne, tailIff]
    omega
  cases front with
  | nil => rcases widthCases lead with w | w | w | w | w <;> simp [step, w.1, second]
  | cons x front =>
    cases front with
    | nil => rcases widthCases lead with w | w | w | w | w <;> simp [step, w.1, third]
    | cons y front =>
      cases front with
      | nil => rcases widthCases lead with w | w | w | w | w <;> simp [step, w.1, third]
      | cons z front => rcases widthCases lead with w | w | w | w | w <;> simp [step, w.1]

theorem stepWithin (lead : UInt8) (rest : Bytes) : (step lead rest).2 ≤ rest.length := by
  unfold step
  split <;> grind

theorem stepOne (low : lead.toNat < 128) (rest : Bytes) : step lead rest = (some (Char.ofNat lead.toNat), 0) := by
  have one : width lead = 1 := if_pos (UInt8.lt_iff_toNat_lt.mpr low)
  simp [step, one]

theorem stepHigh (high : 128 ≤ lead.toNat) (rest : Bytes) :
    ∀ c, (step lead rest).1 = some c → ∃ n, 128 ≤ n ∧ c = Char.ofNat n := by
  have lengths := widthCases lead
  fun_cases step lead rest
  case case1 => omega
  case case2 =>
    intro c read
    cases read
    exact ⟨_, by unfold bits; omega, rfl⟩
  case case4 second _ _ _ =>
    rw [secondIff] at second
    intro c read
    cases read
    exact ⟨_, by unfold bits; omega, rfl⟩
  case case8 second _ _ _ _ _ =>
    rw [secondIff] at second
    intro c read
    cases read
    exact ⟨_, by unfold bits; omega, rfl⟩
  all_goals
    intro c read
    cases read

section Written
variable {a b d e : UInt8} {n : Nat} (last : b.toNat = n % 64 + 128)
include last

theorem stepTwo (lead : a.toNat = n / 64 % 32 + 192) (low : 127 < n) (high : n ≤ 2047) (rest : Bytes) :
    step a (b :: rest) = (some (Char.ofNat n), 1) := by
  have two : width a = 2 := by
    rcases widthCases a with w | w | w | w | w <;> omega
  have second : isSecond a b = true := secondIff.mpr (by omega)
  have code : bits a 32 * 64 + bits b 64 = n := by
    unfold bits
    omega
  simp [step, two, second, code]

theorem stepThree (lead : a.toNat = n / 4096 % 16 + 224) (next : d.toNat = n / 64 % 64 + 128) (low : 2047 < n)
    (high : n ≤ 65535) (valid : n < 0xD800 ∨ 0xDFFF < n) (rest : Bytes) :
    step a (d :: b :: rest) = (some (Char.ofNat n), 2) := by
  have three : width a = 3 := by
    rcases widthCases a with w | w | w | w | w <;> omega
  have second : isSecond a d = true := secondIff.mpr (by omega)
  have third : isTail b = true := tailIff.mpr (by omega)
  have code : (bits a 16 * 64 + bits d 64) * 64 + bits b 64 = n := by
    unfold bits
    omega
  simp [step, three, second, third, code]

theorem stepFour (lead : a.toNat = n / 262144 % 8 + 240) (next : d.toNat = n / 4096 % 64 + 128)
    (after : e.toNat = n / 64 % 64 + 128) (low : 65535 < n) (high : n < 0x110000) (rest : Bytes) :
    step a (d :: e :: b :: rest) = (some (Char.ofNat n), 3) := by
  have four : width a = 4 := by
    rcases widthCases a with w | w | w | w | w <;> omega
  have second : isSecond a d = true := secondIff.mpr (by omega)
  have third : isTail e = true := tailIff.mpr (by omega)
  have fourth : isTail b = true := tailIff.mpr (by omega)
  have code : ((bits a 8 * 64 + bits d 64) * 64 + bits e 64) * 64 + bits b 64 = n := by
    unfold bits
    omega
  simp [step, four, second, third, fourth, code]

end Written

theorem byteNat {n : Nat} (small : n < 256) : (UInt8.ofNat n).toNat = n := by
  rw [UInt8.toNat_ofNat', Nat.mod_eq_of_lt small]

theorem stepEncoded (c : Char) (rest : Bytes) : ∃ lead tail, String.utf8EncodeChar c = lead :: tail ∧
    step lead (tail ++ rest) = (some c, tail.length) := by
  have code : c.val.toNat = c.toNat := rfl
  have valid : c.toNat < 0xD800 ∨ (0xDFFF < c.toNat ∧ c.toNat < 0x110000) := c.valid
  have last := @byteNat (c.toNat % 64 + 128) (by omega)
  have middle := @byteNat (c.toNat / 64 % 64 + 128) (by omega)
  have early := @byteNat (c.toNat / 4096 % 64 + 128) (by omega)
  simp only [String.utf8EncodeChar, code]
  split
  · have lead := @byteNat c.toNat (by omega)
    refine ⟨_, [], rfl, ?_⟩
    rw [stepOne (by omega), lead, Char.ofNat_toNat]
    rfl
  · split
    · refine ⟨_, [_], rfl, ?_⟩
      exact (stepTwo last (byteNat (by omega)) (by omega) (by omega) rest).trans (by rw [Char.ofNat_toNat]; rfl)
    · split
      · refine ⟨_, [_, _], rfl, ?_⟩
        exact (stepThree last (byteNat (by omega)) middle (by omega) (by omega) (by omega) rest).trans
          (by rw [Char.ofNat_toNat]; rfl)
      · refine ⟨_, [_, _, _], rfl, ?_⟩
        exact (stepFour last (byteNat (by omega)) early middle (by omega) (by omega) rest).trans
          (by rw [Char.ofNat_toNat]; rfl)

end Step

theorem piecesLow {b : UInt8} (low : b.toNat < 128) (front rest : Bytes) :
    pieces (front ++ b :: rest) = pieces front ++ some (Char.ofNat b.toNat) :: pieces rest := by
  fun_induction pieces front with
  | case1 =>
    rw [List.nil_append, pieces, stepOne low]
    rfl
  | case2 lead front ih =>
    rw [List.cons_append, pieces, stepLow low, List.drop_append_of_le_length (stepWithin lead front), ih]
    rfl

theorem piecesEncoded (cs : List Char) (rest : Bytes) : pieces (encode cs ++ rest) = cs.map some ++ pieces rest := by
  induction cs with
  | nil => rfl
  | cons c cs ih =>
    obtain ⟨lead, tail, written, read⟩ := stepEncoded c (encode cs ++ rest)
    have split : encode (c :: cs) ++ rest = lead :: (tail ++ (encode cs ++ rest)) := by
      simp [encode, written]
    rw [split, pieces, read, List.drop_left, ih]
    rfl

theorem decodeEncoded (cs : List Char) (rest : Bytes) : decodeLossy (encode cs ++ rest) = cs ++ decodeLossy rest := by
  have same : (cs.map some).map (·.getD replacement) = cs := by
    rw [List.map_map]
    exact List.map_id cs
  rw [decodeLossy, piecesEncoded, List.map_append, same]
  rfl

theorem decodeWritten (cs : List Char) : decodeLossy (encode cs) = cs := by
  have whole := decodeEncoded cs []
  rw [List.append_nil] at whole
  rw [whole, decodeLossy, pieces]
  exact List.append_nil cs

theorem decodeExactIff {bs : Bytes} : encode (decodeLossy bs) = bs ↔ ∃ cs, bs = encode cs := by
  constructor
  · intro exact
    exact ⟨decodeLossy bs, exact.symm⟩
  · intro text
    obtain ⟨cs, rfl⟩ := text
    rw [decodeWritten]

theorem codeOfNat {n : Nat} (valid : n.isValidChar) : (Char.ofNat n).toNat = n := by
  rw [Char.ofNat, dif_pos valid]
  rfl

theorem encodeLow {b : UInt8} (low : b.toNat < 128) : encode [Char.ofNat b.toNat] = [b] := by
  have code : (Char.ofNat b.toNat).toNat = b.toNat := codeOfNat (.inl (by omega))
  simp [encode, encodeAscii (c := Char.ofNat b.toNat) (by omega), code]

theorem encodeHigh {c : Char} (wide : ¬ c.toNat < 128) : ∀ b ∈ String.utf8EncodeChar c, 128 ≤ b.toNat := by
  have high : ¬ c.val.toNat ≤ 127 := fun low => wide (Nat.lt_succ_of_le low)
  have valid : c.val.toNat < 0xD800 ∨ (0xDFFF < c.val.toNat ∧ c.val.toNat < 0x110000) := c.valid
  have byte {n : Nat} (above : 128 ≤ n) (small : n < 256) : 128 ≤ (UInt8.ofNat n).toNat := by
    rw [byteNat small]
    exact above
  simp only [String.utf8EncodeChar, if_neg high]
  split
  · simp only [List.forall_mem_cons]
    exact ⟨byte (by omega) (by omega), byte (by omega) (by omega), by simp⟩
  · split
    · simp only [List.forall_mem_cons]
      exact ⟨byte (by omega) (by omega), byte (by omega) (by omega), byte (by omega) (by omega), by simp⟩
    · simp only [List.forall_mem_cons]
      exact ⟨byte (by omega) (by omega), byte (by omega) (by omega), byte (by omega) (by omega),
        byte (by omega) (by omega), by simp⟩

theorem decodeBefore {c : Char} (low : c.toNat < 128) (front : Bytes) (cs : List Char) (rest : Bytes) :
    decodeLossy (front ++ (encode (c :: cs) ++ rest)) = decodeLossy front ++ (c :: cs ++ decodeLossy rest) := by
  have byte : c.toNat.toUInt8.toNat = c.toNat := byteNat (by omega)
  have written : encode (c :: cs) ++ rest = c.toNat.toUInt8 :: (encode cs ++ rest) := by
    simp [encode, encodeAscii low]
  have first : decodeLossy (front ++ c.toNat.toUInt8 :: (encode cs ++ rest)) =
      decodeLossy front ++ c :: decodeLossy (encode cs ++ rest) := by
    simp only [decodeLossy, piecesLow (b := c.toNat.toUInt8) (by omega), byte, Char.ofNat_toNat, List.map_append,
      List.map_cons, Option.getD_some]
  rw [written, first, decodeEncoded, List.cons_append]

-- A number that is no character gives the character of number 0.
theorem ofNatHigh {n : Nat} (high : 128 ≤ n) {mark : Char} (positive : 0 < mark.toNat) (low : mark.toNat < 128) :
    Char.ofNat n ≠ mark := by
  intro same
  by_cases valid : n.isValidChar
  · have code := codeOfNat valid
    rw [same] at code
    omega
  · have zero : (Char.ofNat n).toNat = 0 := by
      rw [Char.ofNat, dif_neg valid]
      rfl
    rw [same] at zero
    omega

theorem decodeHigh {run : Bytes} (high : ∀ b ∈ run, 128 ≤ b.toNat) {mark : Char} (positive : 0 < mark.toNat)
    (low : mark.toNat < 128) : mark ∉ decodeLossy run := by
  unfold decodeLossy
  fun_induction pieces run with
  | case1 => simp
  | case2 lead rest ih =>
    have later := ih fun b mem => high b (List.mem_cons_of_mem lead (List.mem_of_mem_drop mem))
    have first : (step lead rest).1.getD replacement ≠ mark := by
      cases read : (step lead rest).1 with
      | none =>
        have far : 128 ≤ 0xFFFD := by decide
        exact ofNatHigh far positive low
      | some c =>
        obtain ⟨n, large, rfl⟩ := stepHigh (high lead List.mem_cons_self) rest c read
        exact ofNatHigh large positive low
    simp only [List.map_cons, List.mem_cons, not_or]
    exact ⟨Ne.symm first, later⟩

end KeepBlame.Utf8
