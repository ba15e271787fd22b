import KeepBlame.Proofs.Accepted

/-! Which edits can be made together. Once they are sorted only neighbours are compared, and that decides about every
two of them; the order in which they are given makes no difference, also to the two that are reported. -/
namespace KeepBlame.EditSet

def TwoOf {α : Type} (xs : List α) (a b : α) : Prop := ∃ i j : Nat, i ≠ j ∧ xs[i]? = some a ∧ xs[j]? = some b

section TwoOf
variable {α : Type} {xs ys : List α} {a b : α}

theorem twoOfSwap (two : TwoOf xs a b) : TwoOf xs b a := by
  obtain ⟨i, j, apart, first, second⟩ := two
  exact ⟨j, i, apart.symm, second, first⟩

theorem pairwiseTwo {r : α → α → Prop} (symm : ∀ a b, r a b → r b a) : xs.Pairwise r ↔ ∀ a b, TwoOf xs a b → r a b := by
  rw [List.pairwise_iff_getElem]
  constructor
  · intro all a b two
    obtain ⟨i, j, apart, first, second⟩ := two
    obtain ⟨here, rfl⟩ := List.getElem?_eq_some_iff.mp first
    obtain ⟨there, rfl⟩ := List.getElem?_eq_some_iff.mp second
    rcases Nat.lt_or_gt_of_ne apart with before | after
    · exact all i j here there before
    · exact symm _ _ (all j i there here after)
  · intro all i j here there before
    exact all _ _ ⟨i, j, Nat.ne_of_lt before, List.getElem?_eq_getElem here, List.getElem?_eq_getElem there⟩

theorem twoOfPerm (perm : xs.Perm ys) (two : TwoOf xs a b) : TwoOf ys a b := by
  -- No two elements being `a` and `b` is a property of all pairs, and so the same of both lists.
  let other (x y : α) : Prop := ¬ (x = a ∧ y = b) ∧ ¬ (x = b ∧ y = a)
  have symm : ∀ x y, other x y → other y x := by
    intro x y is
    exact ⟨fun both => is.2 both.symm, fun both => is.1 both.symm⟩
  by_contra absent
  have none : ys.Pairwise other := by
    refine (pairwiseTwo symm).mpr fun x y found => ⟨?_, ?_⟩
    · intro both
      exact absent (both.1 ▸ both.2 ▸ found)
    · intro both
      exact absent (twoOfSwap (both.1 ▸ both.2 ▸ found))
  have before : xs.Pairwise other := (perm.pairwise_iff (fun {x y} => symm x y)).mpr none
  exact ((pairwiseTwo symm).mp before a b two).1 ⟨rfl, rfl⟩

end TwoOf

/-- The edits have different names, and where `a` has the smaller one it ends before `b` starts. -/
structure Clear (a b : Edit) : Prop where
  named : a.span ≠ b.span
  apart : a.span < b.span → a.span.stop ≤ b.span.start

def real (edits : List Edit) : List Edit := edits.filter (!·.isNoop)

theorem arrangePerm (edits : List Edit) : ((arrange edits).map Pending.edit).Perm (real edits) := by
  rw [arrangeEdits]
  exact Ordered.sortByPerm _

theorem clearOfBefore {edits : List Edit} {a b : Pending} (left : a ∈ arrange edits) (right : b ∈ arrange edits)
    (before : Before a b) : Clear a.edit b.edit ∧ Clear b.edit a.edit := by
  have less : a.edit.span < b.edit.span := by
    rw [← (arrangeNamed left).1, ← (arrangeNamed right).1]
    exact before.1
  exact ⟨⟨Ordered.neOfLt less, fun _ => before.2⟩,
    ⟨(Ordered.neOfLt less).symm, fun above => absurd above (Ordered.notLtOfLt less)⟩⟩

theorem beforeOfClear {edits : List Edit} {a b : Pending} (left : a ∈ arrange edits) (right : b ∈ arrange edits)
    (sorted : ¬ b.id < a.id) (clear : Clear a.edit b.edit) : Before a b := by
  have first := (arrangeNamed left).1
  have second := (arrangeNamed right).1
  have less : a.id < b.id := by
    by_contra above
    exact clear.named (by rw [← first, ← second, Ordered.eqOfNotLt above sorted])
  exact ⟨less, clear.apart (first ▸ second ▸ less)⟩

theorem unclashedIff {edits : List Edit} :
    firstClash (arrange edits) = none ↔ ∀ a b, TwoOf (real edits) a b → Clear a b := by
  have symm : ∀ a b, Clear a b ∧ Clear b a → Clear b a ∧ Clear a b := fun _ _ => And.symm
  have moved : (real edits).Pairwise (fun a b => Clear a b ∧ Clear b a) ↔
      (arrange edits).Pairwise fun a b => Clear a.edit b.edit ∧ Clear b.edit a.edit := by
    rw [← (arrangePerm edits).pairwise_iff (fun {a b} => symm a b), List.pairwise_map]
  constructor
  · intro free
    have clear := (arrangeBefore free).imp_of_mem fun left right before => clearOfBefore left right before
    exact fun a b two => ((pairwiseTwo symm).mp (moved.mpr clear) a b two).1
  · intro all
    have clear := moved.mp ((pairwiseTwo symm).mpr fun a b two => ⟨all a b two, all b a (twoOfSwap two)⟩)
    have sorted : (arrange edits).Pairwise fun a b => ¬ b.id < a.id := Ordered.sortBySorted _
    refine firstClashOfBefore ((sorted.and clear).imp_of_mem ?_)
    intro a b left right both
    exact beforeOfClear left right both.1 both.2.1

theorem ofEditsIff {edits : List Edit} :
    (∃ set, ofEdits edits = .ok set) ↔ ∀ a b, TwoOf (real edits) a b → Clear a b := by
  rw [← unclashedIff, ofEdits]
  cases firstClash (arrange edits) with
  | none => exact iff_of_true ⟨_, rfl⟩ rfl
  | some pair => simp

theorem firstClashFound {pending : List Pending} {first second : Span} (found : firstClash pending = some (first, second)) :
    ∃ early a b late, pending = early ++ a :: b :: late ∧ a.id = first ∧ b.id = second ∧ clash a b = true := by
  fun_induction firstClash pending with
  | case1 a b rest here =>
    cases found
    exact ⟨[], a, b, rest, rfl, rfl, rfl, here⟩
  | case2 a b rest free ih =>
    obtain ⟨early, x, y, late, split, is⟩ := ih found
    exact ⟨a :: early, x, y, late, by rw [split]; rfl, is⟩
  | case3 => cases found

theorem twoOfNeighbours {α : Type} (early late : List α) (a b : α) : TwoOf (early ++ a :: b :: late) a b :=
  ⟨early.length, early.length + 1, by omega, by simp, by simp⟩

theorem overlapReported {edits : List Edit} {e : EditError} (failed : ofEdits edits = .error e) :
    ∃ a b, e = .overlap a.span b.span ∧ TwoOf (real edits) a b ∧ ¬ Clear a b := by
  unfold ofEdits at failed
  split at failed <;> cases failed
  rename_i found
  obtain ⟨early, a, b, late, split, rfl, rfl, clashes⟩ := firstClashFound found
  have left : a ∈ arrange edits := by simp [split]
  have right : b ∈ arrange edits := by simp [split]
  have sorted : (arrange edits).Pairwise fun x y => ¬ y.id < x.id := Ordered.sortBySorted _
  have order : ¬ b.id < a.id := by
    rw [split] at sorted
    exact List.rel_of_pairwise_cons (List.pairwise_append.mp sorted).2.1 List.mem_cons_self
  refine ⟨a.edit, b.edit, by rw [(arrangeNamed left).1, (arrangeNamed right).1], ?_, ?_⟩
  · refine twoOfPerm (arrangePerm edits) ?_
    rw [split, List.map_append]
    exact twoOfNeighbours _ _ _ _
  · intro clear
    have before := beforeOfClear left right order clear
    simp only [clash, Bool.or_eq_true, beq_iff_eq, decide_eq_true_eq] at clashes
    rcases clashes with same | past
    · exact Ordered.neOfLt before.1 same
    · exact Nat.not_lt.mpr before.2 past

theorem firstClashNames {xs ys : List Pending} (left : ∀ p ∈ xs, p.id = p.edit.span) (right : ∀ p ∈ ys, p.id = p.edit.span)
    (same : xs.map Pending.id = ys.map Pending.id) : firstClash xs = firstClash ys := by
  induction xs generalizing ys with
  | nil =>
    cases List.map_eq_nil_iff.mp same.symm
    rfl
  | cons a rest ih =>
    obtain ⟨b, more, rfl, first, later⟩ := List.map_eq_cons_iff.mp same.symm
    have next := ih (fun p mem => left p (List.mem_cons_of_mem a mem))
      (fun p mem => right p (List.mem_cons_of_mem b mem)) later.symm
    cases rest with
    | nil =>
      cases List.map_eq_nil_iff.mp later
      rfl
    | cons c rest =>
      obtain ⟨d, more, rfl, second, _⟩ := List.map_eq_cons_iff.mp later
      -- Whether two edits clash is seen from their names alone.
      have clashes : clash a c = clash b d := by
        have inner : c ∈ a :: c :: rest := List.mem_cons_of_mem a List.mem_cons_self
        have inner' : d ∈ b :: d :: more := List.mem_cons_of_mem b List.mem_cons_self
        simp only [clash, ← left a List.mem_cons_self, ← left c inner, ← right b List.mem_cons_self, ← right d inner',
          first, second]
      simp only [firstClash, clashes, first, second, next]

theorem arrangeNames {edits other : List Edit} (perm : edits.Perm other) :
    (arrange edits).map Pending.id = (arrange other).map Pending.id := by
  have sorted (list : List Edit) : ((arrange list).map Pending.id).Pairwise fun a b => ¬ b < a :=
    List.pairwise_map.mpr (Ordered.sortBySorted _)
  have names (list : List Edit) : ((arrange list).map Pending.id).Perm ((real list).map Edit.span) := by
    have pending : (arrange list).Perm ((real list).map fun e => ⟨e.span, e⟩) := Ordered.sortByPerm _
    have names := pending.map Pending.id
    rw [List.map_map] at names
    exact names
  refine List.Perm.eq_of_pairwise ?_ (sorted edits) (sorted other)
    ((names edits).trans (((perm.filter _).map _).trans (names other).symm))
  intro a b _ _ notAbove notBelow
  exact Ordered.eqOfNotLt notBelow notAbove

theorem ofEditsPerm {edits other : List Edit} (perm : edits.Perm other) : ofEdits other = ofEdits edits := by
  have named (list : List Edit) : ∀ p ∈ arrange list, p.id = p.edit.span := fun p mem => (arrangeNamed mem).1
  have clashes := firstClashNames (named edits) (named other) (arrangeNames perm)
  unfold ofEdits
  rw [← clashes]
  cases free : firstClash (arrange edits) with
  | some pair => rfl
  | none =>
    have same : arrange other = arrange edits :=
      Ordered.sortByUnique (((perm.symm.filter _).map _).trans (Ordered.sortByPerm _).symm) ((arrangeBefore free).imp And.left)
    rw [same]

theorem acceptedIffClear (edits : List Edit) :
    ((∃ set, ofEdits edits = .ok set) ↔ ∀ a b, TwoOf (real edits) a b → Clear a b) ∧
    (∀ set, ofEdits edits = .ok set →
      set.edits.Perm (real edits) ∧ set.ids.Pairwise (· < ·) ∧ ∀ p ∈ set.pending, p.id = p.edit.span) ∧
    (∀ e, ofEdits edits = .error e → ∃ a b, e = .overlap a.span b.span ∧ TwoOf (real edits) a b ∧ ¬ Clear a b) ∧
    ∀ other, edits.Perm other → ofEdits other = ofEdits edits := by
  refine ⟨ofEditsIff, ?_, fun e => overlapReported, fun other => ofEditsPerm⟩
  intro set ok
  obtain ⟨pending, free⟩ := ofEditsPending ok
  rw [EditSet.edits, ids, pending]
  exact ⟨arrangePerm edits, List.pairwise_map.mpr ((arrangeBefore free).imp And.left), fun p mem => (arrangeNamed mem).1⟩

end KeepBlame.EditSet
