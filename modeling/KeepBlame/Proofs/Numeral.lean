import KeepBlame.Text.Numeral

/-! Decimal numerals. What is read as a number is a row of digits, perhaps after a plus sign, and a number within the
limit is read back from its own digits. -/
namespace KeepBlame.Text

theorem isDigitIff {c : Char} : c.isDigit = true ↔ 48 ≤ c.toNat ∧ c.toNat ≤ 57 := by
  simp only [Char.isDigit, Bool.and_eq_true, decide_eq_true_eq, ge_iff_le, UInt32.le_iff_toNat_le]
  rfl

theorem digitValueTen {c : Char} {d : Nat} : digitValue? 10 c = some d ↔ c.isDigit = true ∧ d = c.toNat - 48 := by
  rw [isDigitIff]
  simp only [digitValue?]
  by_cases digit : 48 ≤ c.toNat ∧ c.toNat ≤ 57
  · rw [if_pos digit, if_pos (by omega), Option.some.injEq]
    exact ⟨fun same => ⟨digit, same.symm⟩, fun same => same.2.symm⟩
  · have above : ¬ (if 97 ≤ c.toNat ∧ c.toNat ≤ 122 then c.toNat - 87
        else if 65 ≤ c.toNat ∧ c.toNat ≤ 90 then c.toNat - 55 else 10) < 10 := by
      split
      · omega
      · split <;> omega
    rw [if_neg digit, if_neg above]
    simp [digit]

theorem ofDigitCharsLe (cs : List Char) (value : Nat) : value ≤ Nat.ofDigitChars 10 cs value := by
  induction cs generalizing value with
  | nil => exact Nat.le_refl _
  | cons c rest ih =>
    rw [Nat.ofDigitChars_cons]
    have := ih (10 * value + (c.toNat - '0'.toNat))
    omega

theorem readDigitsTen {limit value n : Nat} {cs : List Char} (start : value ≤ limit) :
    readDigits 10 limit value cs = .ok n ↔
      (∀ c ∈ cs, c.isDigit = true) ∧ Nat.ofDigitChars 10 cs value = n ∧ n ≤ limit := by
  induction cs generalizing value with
  | nil =>
    simp only [readDigits, Nat.ofDigitChars_nil, Except.ok.injEq, List.not_mem_nil]
    constructor
    · rintro rfl
      exact ⟨by simp, rfl, start⟩
    · exact fun same => same.2.1
  | cons c rest ih =>
    rw [Nat.ofDigitChars_cons, readDigits]
    cases digit : digitValue? 10 c with
    | none =>
      have other : ¬ c.isDigit = true := fun this => by simp [digitValueTen.mpr ⟨this, rfl⟩] at digit
      simp [other]
    | some d =>
      obtain ⟨here, rfl⟩ := digitValueTen.mp digit
      have next : 10 * value + (c.toNat - '0'.toNat) = value * 10 + (c.toNat - 48) := by
        rw [Nat.mul_comm]
        rfl
      rw [next]
      dsimp only
      split
      · rename_i large
        have grown := ofDigitCharsLe rest (value * 10 + (c.toNat - 48))
        simp only [reduceCtorEq, false_iff, not_and]
        omega
      · rename_i small
        rw [ih (by omega)]
        simp [here]

def IsNumeral (limit : Nat) (cs : List Char) : Prop :=
  ∃ digits, (cs = digits ∨ cs = '+' :: digits) ∧ digits ≠ [] ∧ (∀ c ∈ digits, c.isDigit = true) ∧
    Nat.ofDigitChars 10 digits 0 ≤ limit

theorem readNatNumeral {limit n : Nat} {cs : List Char} (ok : readNat? limit cs = some n) : IsNumeral limit cs := by
  unfold readNat? at ok
  cases read : readUnsigned 10 limit cs with
  | error e => simp [read, Except.toOption] at ok
  | ok m =>
    unfold readUnsigned at read
    split at read
    · cases read
    · cases read
    · rename_i rest alone
      obtain ⟨digits, rfl, within⟩ := (readDigitsTen (Nat.zero_le limit)).mp read
      exact ⟨rest, .inr rfl, alone, digits, within⟩
    · rename_i full _ _
      obtain ⟨digits, rfl, within⟩ := (readDigitsTen (Nat.zero_le limit)).mp read
      exact ⟨cs, .inl rfl, full, digits, within⟩

theorem readNatDigits {limit n : Nat} (within : n ≤ limit) : readNat? limit (Nat.toDigits 10 n) = some n := by
  have digits : ∀ c ∈ Nat.toDigits 10 n, c.isDigit = true :=
    fun c => Nat.isDigit_of_mem_toDigits (by decide) (by decide)
  have read : readDigits 10 limit 0 (Nat.toDigits 10 n) = .ok n :=
    (readDigitsTen (Nat.zero_le limit)).mpr ⟨digits, Nat.ofDigitChars_ten_toDigits, within⟩
  have unsigned : readUnsigned 10 limit (Nat.toDigits 10 n) = .ok n := by
    unfold readUnsigned
    split
    · rename_i empty
      exact absurd empty Nat.toDigits_ne_nil
    · rename_i plus
      exact absurd (digits '+' (plus ▸ List.mem_cons_self)) (by decide)
    · rename_i plus
      exact absurd (digits '+' (plus ▸ List.mem_cons_self)) (by decide)
    · exact read
  rw [readNat?, unsigned]
  rfl

end KeepBlame.Text
