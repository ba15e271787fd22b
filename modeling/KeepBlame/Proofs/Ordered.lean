import KeepBlame.Ordered
import Mathlib.Order.Defs.Unbundled

/-! Sorting and ordered lists by key. Sorting rearranges, puts keys in order and commutes with selecting; a list of
ascending keys that is altered at one key keeps its order and every other entry. -/
namespace KeepBlame.Ordered

section Sorting
variable {α β κ : Type} [LT κ] [DecidableLT κ] {key : α → κ}

theorem insertByPerm (x : α) (xs : List α) : (insertBy key x xs).Perm (x :: xs) := by
  induction xs with
  | nil => exact List.Perm.refl _
  | cons y rest ih =>
    simp only [insertBy]
    split
    · exact (ih.cons y).trans (List.Perm.swap x y rest)
    · exact List.Perm.refl _

theorem sortByPerm (xs : List α) : (sortBy key xs).Perm xs := by
  induction xs with
  | nil => exact List.Perm.refl _
  | cons x rest ih => exact (insertByPerm x _).trans (ih.cons x)

theorem sortByMem {x : α} {xs : List α} : x ∈ sortBy key xs ↔ x ∈ xs := (sortByPerm xs).mem_iff

theorem insertByMap {f : β → α} (x : β) (xs : List β) :
    insertBy key (f x) (xs.map f) = (insertBy (key ∘ f) x xs).map f := by
  induction xs with
  | nil => rfl
  | cons y rest ih =>
    simp only [List.map_cons, insertBy, Function.comp_apply, ih]
    split <;> rfl

theorem sortByMap {f : β → α} (xs : List β) : sortBy key (xs.map f) = (sortBy (key ∘ f) xs).map f := by
  induction xs with
  | nil => rfl
  | cons x rest ih =>
    change insertBy key (f x) (sortBy key (rest.map f)) = _
    rw [ih, insertByMap]
    rfl

theorem insertByFirst {x : α} {xs : List α} (least : ∀ y ∈ xs, ¬ key y < key x) :
    insertBy key x xs = x :: xs := by
  cases xs with
  | nil => rfl
  | cons y rest => simp only [insertBy, if_neg (least y List.mem_cons_self)]

end Sorting

section Order
variable {α κ : Type} [LT κ] [IsStrictTotalOrder κ (· < ·)]

theorem ltTrans {a b c : κ} (ab : a < b) (bc : b < c) : a < c := IsTrans.trans a b c ab bc

theorem ltIrrefl (a : κ) : ¬ a < a := Std.Irrefl.irrefl a

theorem eqOfNotLt {a b : κ} (ab : ¬ a < b) (ba : ¬ b < a) : a = b := Std.Trichotomous.trichotomous a b ab ba

theorem notLtTrans {a b c : κ} (ba : ¬ b < a) (cb : ¬ c < b) : ¬ c < a := by
  intro ca
  by_cases ab : a < b
  · exact cb (ltTrans ca ab)
  · cases eqOfNotLt ab ba
    exact cb ca

theorem neOfLt {a b : κ} (ab : a < b) : a ≠ b := by
  rintro rfl
  exact ltIrrefl a ab

theorem notLtOfLt {a b : κ} (ab : a < b) : ¬ b < a := fun ba => ltIrrefl a (ltTrans ab ba)

theorem sortedNodup {xs : List κ} (sorted : xs.Pairwise (· < ·)) : xs.Nodup := sorted.imp neOfLt

theorem eqOfKey {key : α → κ} {xs : List α} (sorted : xs.Pairwise fun a b => key a < key b) {a b : α}
    (left : a ∈ xs) (right : b ∈ xs) (same : key a = key b) : a = b := by
  induction xs with
  | nil => simp at left
  | cons x rest ih =>
    obtain ⟨least, tail⟩ := List.pairwise_cons.mp sorted
    rcases List.mem_cons.mp left with rfl | ha
    · rcases List.mem_cons.mp right with rfl | hb
      · rfl
      · exact absurd same (neOfLt (least b hb))
    · rcases List.mem_cons.mp right with rfl | hb
      · exact absurd same.symm (neOfLt (least a ha))
      · exact ih tail ha hb

theorem eqOfMem {key : α → κ} {xs ys : List α} (left : xs.Pairwise fun a b => key a < key b)
    (right : ys.Pairwise fun a b => key a < key b) (same : ∀ z, z ∈ xs ↔ z ∈ ys) : xs = ys := by
  have nodup : ∀ zs : List α, (zs.Pairwise fun a b => key a < key b) → zs.Nodup :=
    fun zs sorted => sorted.imp fun less equal => neOfLt less (congrArg key equal)
  have perm := (List.perm_ext_iff_of_nodup (nodup xs left) (nodup ys right)).mpr same
  refine List.Perm.eq_of_pairwise ?_ left right perm
  intro a b _ _ ab ba
  exact absurd ba (notLtOfLt ab)

theorem eqOfSorted {xs ys : List κ} (left : xs.Pairwise (· < ·)) (right : ys.Pairwise (· < ·))
    (same : ∀ z, z ∈ xs ↔ z ∈ ys) : xs = ys :=
  @eqOfMem κ κ _ _ id xs ys left right same

variable [DecidableLT κ] {key : α → κ}

theorem insertBySorted {x : α} {xs : List α} (sorted : xs.Pairwise fun a b => ¬ key b < key a) :
    (insertBy key x xs).Pairwise fun a b => ¬ key b < key a := by
  induction xs with
  | nil => exact List.pairwise_singleton _ x
  | cons y rest ih =>
    obtain ⟨least, tail⟩ := List.pairwise_cons.mp sorted
    simp only [insertBy]
    split
    · rename_i below
      refine List.pairwise_cons.mpr ⟨?_, ih tail⟩
      intro z mem
      rcases List.mem_cons.mp ((insertByPerm x rest).mem_iff.mp mem) with rfl | mem
      · exact notLtOfLt below
      · exact least z mem
    · rename_i above
      refine List.pairwise_cons.mpr ⟨?_, sorted⟩
      intro z mem
      rcases List.mem_cons.mp mem with rfl | mem
      · exact above
      · exact notLtTrans above (least z mem)

theorem sortBySorted (xs : List α) : (sortBy key xs).Pairwise fun a b => ¬ key b < key a := by
  induction xs with
  | nil => exact List.Pairwise.nil
  | cons x rest ih => exact insertBySorted ih

theorem sortByStrict {xs : List α} (apart : xs.Pairwise fun a b => key a ≠ key b) :
    (sortBy key xs).Pairwise fun a b => key a < key b := by
  have still : (sortBy key xs).Pairwise fun a b => key a ≠ key b :=
    ((sortByPerm xs).pairwise_iff (fun {_ _} => Ne.symm)).mpr apart
  refine ((sortBySorted xs).and still).imp ?_
  intro a b both
  by_cases less : key a < key b
  · exact less
  · exact absurd (eqOfNotLt less both.1) both.2

theorem insertByFilter {keep : α → Bool} {x : α} {xs : List α}
    (sorted : xs.Pairwise fun a b => ¬ key b < key a) :
    (insertBy key x xs).filter keep =
      if keep x then insertBy key x (xs.filter keep) else xs.filter keep := by
  induction xs with
  | nil => simp only [insertBy, List.filter_cons, List.filter_nil]
  | cons y rest ih =>
    obtain ⟨least, tail⟩ := List.pairwise_cons.mp sorted
    have rest' := ih tail
    by_cases below : key y < key x
    · simp only [insertBy, if_pos below, List.filter_cons, rest']
      by_cases ky : keep y <;> by_cases kx : keep x <;> simp [ky, kx, insertBy, below]
    · -- Whatever is kept of the list stands at or above `y`, and so does not come before `x`.
      have first : insertBy key x ((y :: rest).filter keep) = x :: (y :: rest).filter keep := by
        apply insertByFirst
        intro z mem
        rcases List.mem_cons.mp (List.mem_filter.mp mem).1 with rfl | mem
        · exact below
        · exact notLtTrans below (least z mem)
      rw [first, insertBy, if_neg below, List.filter_cons]

theorem sortByFilter (keep : α → Bool) (xs : List α) :
    sortBy key (xs.filter keep) = (sortBy key xs).filter keep := by
  induction xs with
  | nil => rfl
  | cons x rest ih =>
    change _ = (insertBy key x (sortBy key rest)).filter keep
    rw [insertByFilter (sortBySorted rest), ← ih]
    by_cases kx : keep x
    · simp only [List.filter_cons, kx, if_true]
      rfl
    · simp only [List.filter_cons, kx, if_false, Bool.false_eq_true]

theorem sortByUnique {xs ys : List α} (perm : xs.Perm ys) (sorted : ys.Pairwise fun a b => key a < key b) :
    sortBy key xs = ys := by
  have weak : ys.Pairwise fun a b => ¬ key b < key a := sorted.imp notLtOfLt
  refine List.Perm.eq_of_pairwise ?_ (sortBySorted xs) weak ((sortByPerm xs).trans perm)
  intro a b left right ba ab
  exact eqOfKey sorted (perm.mem_iff.mp (sortByMem.mp left)) right (eqOfNotLt ab ba)

theorem alterMem {k : κ} {fresh : α} {change : α → α} {xs : List α} {z : α}
    (sorted : xs.Pairwise fun a b => key a < key b) :
    z ∈ alter key k fresh change xs ↔
      (z ∈ xs ∧ key z ≠ k) ∨ (∃ y ∈ xs, key y = k ∧ z = change y) ∨
        ((∀ y ∈ xs, key y ≠ k) ∧ z = change fresh) := by
  induction xs with
  | nil => simp [alter]
  | cons y rest ih =>
    obtain ⟨least, tail⟩ := List.pairwise_cons.mp sorted
    have rest' := ih tail
    simp only [alter]
    by_cases below : key y < k
    · have other := neOfLt below
      rw [if_pos below, List.mem_cons, rest']
      grind
    · rw [if_neg below]
      by_cases above : k < key y
      · -- Nothing stands at `k`: all that follows is above `y`.
        have absent : ∀ w ∈ y :: rest, key w ≠ k := by
          intro w mem
          rcases List.mem_cons.mp mem with rfl | mem
          · exact (neOfLt above).symm
          · exact (neOfLt (ltTrans above (least w mem))).symm
        rw [if_pos above, List.mem_cons]
        grind
      · have found : key y = k := eqOfNotLt below above
        have others : ∀ w ∈ rest, key w ≠ k := fun w mem => found ▸ (neOfLt (least w mem)).symm
        rw [if_neg above, List.mem_cons]
        grind

theorem alterSorted {k : κ} {fresh : α} {change : α → α} {xs : List α}
    (keeps : ∀ y, key (change y) = key y) (start : key fresh = k)
    (sorted : xs.Pairwise fun a b => key a < key b) :
    (alter key k fresh change xs).Pairwise fun a b => key a < key b := by
  induction xs with
  | nil => exact List.pairwise_singleton _ _
  | cons y rest ih =>
    obtain ⟨least, tail⟩ := List.pairwise_cons.mp sorted
    simp only [alter]
    split
    · rename_i below
      refine List.pairwise_cons.mpr ⟨?_, ih tail⟩
      intro z mem
      rcases (alterMem tail).mp mem with ⟨old, _⟩ | ⟨w, old, _, rfl⟩ | ⟨_, rfl⟩
      · exact least z old
      · rw [keeps]
        exact least w old
      · rw [keeps, start]
        exact below
    · split
      · rename_i above
        refine List.pairwise_cons.mpr ⟨?_, sorted⟩
        intro z mem
        rw [keeps, start]
        rcases List.mem_cons.mp mem with rfl | mem
        · exact above
        · exact ltTrans above (least z mem)
      · refine List.pairwise_cons.mpr ⟨?_, tail⟩
        intro z mem
        rw [keeps]
        exact least z mem

theorem alterFind [DecidableEq κ] {k : κ} {fresh : α} {change : α → α} {xs : List α}
    (keeps : ∀ y, key (change y) = key y) (start : key fresh = k) (sorted : xs.Pairwise fun a b => key a < key b)
    (q : κ) :
    (alter key k fresh change xs).find? (key · == q) =
      if q = k then some (change ((xs.find? (key · == k)).getD fresh)) else xs.find? (key · == q) := by
  induction xs with
  | nil =>
    by_cases here : q = k
    · simp [alter, keeps, start, here]
    · simp [alter, keeps, start, here, Ne.symm here]
  | cons y rest ih =>
    obtain ⟨least, tail⟩ := List.pairwise_cons.mp sorted
    simp only [alter]
    by_cases below : key y < k
    · have other : key y ≠ k := neOfLt below
      rw [if_pos below, List.find?_cons, ih tail]
      by_cases here : q = k
      · subst here
        simp only [beq_false_of_ne other, if_true, List.find?_cons]
      · simp only [if_neg here, List.find?_cons]
    · rw [if_neg below]
      by_cases above : k < key y
      · -- Nothing stands at `k`: all that follows is above `y`.
        have absent : (y :: rest).find? (key · == k) = none := by
          refine List.find?_eq_none.mpr fun w mem => ?_
          rcases List.mem_cons.mp mem with rfl | mem
          · simpa using (neOfLt above).symm
          · simpa using (neOfLt (ltTrans above (least w mem))).symm
        rw [if_pos above, absent, List.find?_cons, keeps, start]
        by_cases here : q = k
        · simp [here]
        · simp only [beq_false_of_ne (Ne.symm here), if_neg here]
      · have found : key y = k := eqOfNotLt below above
        rw [if_neg above, List.find?_cons, keeps, found]
        by_cases here : q = k
        · simp [here, found]
        · simp only [List.find?_cons, found, beq_false_of_ne (Ne.symm here), if_neg here]

theorem insertNewMem {x z : κ} {xs : List κ} (sorted : xs.Pairwise (· < ·)) :
    z ∈ insertNew x xs ↔ z = x ∨ z ∈ xs := by
  have entries := @alterMem κ κ _ _ _ id x x id xs z sorted
  unfold insertNew
  rw [entries]
  grind

theorem insertNewSorted {x : κ} {xs : List κ} (sorted : xs.Pairwise (· < ·)) :
    (insertNew x xs).Pairwise (· < ·) :=
  @alterSorted κ κ _ _ _ id x x id xs (fun _ => rfl) rfl sorted

end Order
end KeepBlame.Ordered
