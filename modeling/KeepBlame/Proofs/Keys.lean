import KeepBlame.Partition
import KeepBlame.Proofs.Ordered
import Mathlib.Data.List.Lex
import Mathlib.Data.String.Basic

/-! The keys that lists are ordered by: spans, authors, commit names and the components of paths. Each is compared
strictly, and any two different keys are in order one way or the other. -/
namespace KeepBlame

theorem strictByTwo {τ κ μ : Type} [LT κ] [LT μ] [IsStrictTotalOrder κ (· < ·)] [IsStrictTotalOrder μ (· < ·)]
    (first : τ → κ) (second : τ → μ) (apart : ∀ a b, first a = first b → second a = second b → a = b) :
    IsStrictTotalOrder τ fun a b => first a < first b ∨ (first a = first b ∧ second a < second b) where
  trichotomous a b notLess notGreater := by
    simp only [not_or, not_and] at notLess notGreater
    have same := Ordered.eqOfNotLt notLess.1 notGreater.1
    exact apart a b same (Ordered.eqOfNotLt (notLess.2 same) (notGreater.2 same.symm))
  irrefl a less := by
    rcases less with less | ⟨_, less⟩
    · exact Ordered.ltIrrefl _ less
    · exact Ordered.ltIrrefl _ less
  trans a b c left right := by
    rcases left with left | ⟨ab, left⟩
    · rcases right with right | ⟨bc, _⟩
      · exact .inl (Ordered.ltTrans left right)
      · exact .inl (bc ▸ left)
    · rcases right with right | ⟨bc, right⟩
      · exact .inl (ab ▸ right)
      · exact .inr ⟨ab.trans bc, Ordered.ltTrans left right⟩

theorem strictOfNat {τ : Type} [LT τ] (value : τ → Nat) (apart : ∀ a b, value a = value b → a = b)
    (less : ∀ a b, a < b ↔ value a < value b) : IsStrictTotalOrder τ (· < ·) where
  trichotomous a b notLess notGreater := by
    rw [less] at notLess notGreater
    exact apart a b (by omega)
  irrefl a := by simp only [less]; omega
  trans a b c := by simp only [less]; omega

instance strictUInt64 : IsStrictTotalOrder UInt64 (· < ·) :=
  strictOfNat UInt64.toNat (fun _ _ => UInt64.toNat_inj.mp) (fun _ _ => UInt64.lt_iff_toNat_lt)

instance strictUInt8 : IsStrictTotalOrder UInt8 (· < ·) :=
  strictOfNat UInt8.toNat (fun _ _ => UInt8.toNat_inj.mp) (fun _ _ => UInt8.lt_iff_toNat_lt)

instance strictList {τ : Type} [LT τ] [IsStrictTotalOrder τ (· < ·)] : IsStrictTotalOrder (List τ) (· < ·) :=
  have : IsStrictTotalOrder (List τ) (List.Lex (· < ·)) := { isStrictWeakOrder_of_isOrderConnected with }
  this

instance : IsStrictTotalOrder Span (· < ·) :=
  strictByTwo Span.offset Span.length fun ⟨_, _⟩ ⟨_, _⟩ offset length => by
    cases offset
    cases length
    rfl

instance : IsStrictTotalOrder Author (· < ·) :=
  strictByTwo Author.name Author.email fun ⟨_, _⟩ ⟨_, _⟩ name email => by
    cases name
    cases email
    rfl

instance : IsStrictTotalOrder CommitId (· < ·) where
  trichotomous a b notLess notGreater := by
    have same : a.bytes = b.bytes := Ordered.eqOfNotLt notLess notGreater
    cases a
    cases b
    cases same
    rfl
  irrefl a := Ordered.ltIrrefl a.bytes
  trans a b c left right := by
    change a.bytes < c.bytes
    exact Ordered.ltTrans (b := b.bytes) left right

theorem componentOfText {a b : Component} (rank : a.rank = b.rank) (text : a.text = b.text) : a = b := by
  cases a <;> cases b <;> simp_all [Component.rank, Component.text]

instance : IsStrictTotalOrder Component (· < ·) :=
  strictByTwo Component.rank Component.text fun _ _ => componentOfText

end KeepBlame
