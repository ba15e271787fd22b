import KeepBlame.Proofs.OnePass

/-! Accepted edits: the pending edits of a set ascend by name, and each ends before the next one starts. They are the
edits that were given, less those that change nothing. -/
namespace KeepBlame.EditSet
open Edit (InOrder contentSize deltaSum)

def Before (a b : Pending) : Prop := a.id < b.id ∧ a.edit.span.stop ≤ b.edit.span.start

theorem beforeTrans {a b c : Pending} (ab : Before a b) (bc : Before b c) : Before a c :=
  ⟨Ordered.ltTrans ab.1 bc.1, Nat.le_trans ab.2 (Nat.le_trans b.edit.span.startLeStop bc.2)⟩

theorem pairwiseBefore {pending : List Pending} (free : firstClash pending = none)
    (sorted : pending.Pairwise fun a b => ¬ b.id < a.id) : pending.Pairwise Before := by
  induction pending with
  | nil => exact .nil
  | cons a rest ih =>
    cases rest with
    | nil => exact List.pairwise_singleton _ a
    | cons b rest =>
      obtain ⟨least, tail⟩ := List.pairwise_cons.mp sorted
      simp only [firstClash] at free
      split at free <;> try contradiction
      rename_i apart
      simp only [clash, Bool.or_eq_true, beq_iff_eq, decide_eq_true_eq, not_or, Nat.not_lt] at apart
      have rest' := ih free tail
      have next : Before a b := by
        refine ⟨?_, apart.2⟩
        by_contra above
        exact apart.1 (Ordered.eqOfNotLt above (least b List.mem_cons_self))
      refine List.pairwise_cons.mpr ⟨?_, rest'⟩
      intro c mem
      rcases List.mem_cons.mp mem with rfl | mem
      · exact next
      · exact beforeTrans next ((List.pairwise_cons.mp rest').1 c mem)

theorem ofEditsPending {edits : List Edit} {set : EditSet} (ok : ofEdits edits = .ok set) :
    set.pending = arrange edits ∧ firstClash (arrange edits) = none := by
  unfold ofEdits at ok
  split at ok <;> cases ok
  rename_i free
  exact ⟨rfl, free⟩

theorem arrangeEdits (edits : List Edit) :
    (arrange edits).map Pending.edit = Ordered.sortBy Edit.span (edits.filter (!·.isNoop)) := by
  unfold arrange
  rw [Ordered.sortByMap, List.map_map]
  exact List.map_id _

theorem arrangeNamed {edits : List Edit} {p : Pending} (mem : p ∈ arrange edits) :
    p.id = p.edit.span ∧ p.edit ∈ edits ∧ p.edit.isNoop = false := by
  obtain ⟨e, found, rfl⟩ := List.mem_map.mp (Ordered.sortByMem.mp mem)
  obtain ⟨given, real⟩ := List.mem_filter.mp found
  exact ⟨rfl, given, by simpa using real⟩

theorem arrangeBefore {edits : List Edit} (free : firstClash (arrange edits) = none) :
    (arrange edits).Pairwise Before :=
  pairwiseBefore free (Ordered.sortBySorted _)

theorem firstClashOfBefore {pending : List Pending} (before : pending.Pairwise Before) : firstClash pending = none := by
  induction pending with
  | nil => rfl
  | cons a rest ih =>
    obtain ⟨next, tail⟩ := List.pairwise_cons.mp before
    cases rest with
    | nil => rfl
    | cons b rest =>
      have first := next b List.mem_cons_self
      have free : clash a b = false := by
        simp only [clash, Bool.or_eq_false_iff, beq_eq_false_iff_ne, decide_eq_false_iff_not, Nat.not_lt]
        exact ⟨Ordered.neOfLt first.1, first.2⟩
      simp only [firstClash, free, Bool.false_eq_true, if_false]
      exact ih tail

theorem filterReal {edits : List Edit} (real : ∀ e ∈ edits, e.isNoop = false) : edits.filter (!·.isNoop) = edits := by
  refine List.filter_eq_self.mpr fun e mem => ?_
  simp [real e mem]

theorem ofEditsAscending {given edits : List Edit} (perm : given.Perm edits)
    (ascending : edits.Pairwise fun x y => x.span < y.span)
    (apart : edits.Pairwise fun x y => x.span.stop ≤ y.span.start) (real : ∀ e ∈ given, e.isNoop = false) :
    ∃ set, ofEdits given = .ok set ∧ set.edits = edits := by
  have sorted : arrange given = edits.map fun e => ⟨e.span, e⟩ := by
    unfold arrange
    rw [filterReal real, Ordered.sortByMap]
    exact congrArg _ (Ordered.sortByUnique perm ascending)
  have free : firstClash (arrange given) = none := by
    rw [sorted]
    exact firstClashOfBefore (List.pairwise_map.mpr (ascending.and apart))
  refine ⟨⟨arrange given⟩, ?_, ?_⟩
  · unfold ofEdits
    rw [free]
  · rw [EditSet.edits, sorted, List.map_map]
    exact List.map_id _

theorem inOrderOfBefore {pending : List Pending} {cursor stop : Nat} (le : cursor ≤ stop)
    (before : pending.Pairwise Before) (first : ∀ p ∈ pending, cursor ≤ p.edit.span.start)
    (inside : ∀ p ∈ pending, p.edit.span.stop ≤ stop) : InOrder cursor (pending.map Pending.edit) stop := by
  induction pending generalizing cursor with
  | nil => exact le
  | cons p rest ih =>
    obtain ⟨next, tail⟩ := List.pairwise_cons.mp before
    refine ⟨first p List.mem_cons_self, ih (inside p List.mem_cons_self) tail ?_ ?_⟩
    · intro q mem
      exact (next q mem).2
    · intro q mem
      exact inside q (List.mem_cons_of_mem p mem)

theorem contentSizeSublist {xs ys : List Edit} (part : xs.Sublist ys) : contentSize xs ≤ contentSize ys :=
  (part.map _).sum_le_sum fun _ _ => Nat.zero_le _

theorem contentSizeAppend (xs ys : List Edit) : contentSize (xs ++ ys) = contentSize xs + contentSize ys := by
  simp only [contentSize, List.map_append, List.sum_append]

theorem acceptedEdits {edits : List Edit} {set : EditSet} (ok : ofEdits edits = .ok set) :
    set.edits = Ordered.sortBy Edit.span (edits.filter (!·.isNoop)) := by
  rw [EditSet.edits, (ofEditsPending ok).1, arrangeEdits]

theorem acceptedAscending {edits : List Edit} {set : EditSet} (ok : ofEdits edits = .ok set) :
    set.edits.Pairwise fun x y => x.span < y.span := by
  obtain ⟨pending, free⟩ := ofEditsPending ok
  rw [EditSet.edits, pending, List.pairwise_map]
  refine (arrangeBefore free).imp_of_mem ?_
  intro a b left right before
  rw [← (arrangeNamed left).1, ← (arrangeNamed right).1]
  exact before.1

theorem acceptedPerm {edits : List Edit} {set : EditSet} (ok : ofEdits edits = .ok set)
    (real : ∀ e ∈ edits, e.isNoop = false) : set.edits.Perm edits := by
  rw [acceptedEdits ok, filterReal real]
  exact Ordered.sortByPerm _

theorem onePassAccepted {pristine : Bytes} {edits : List Edit} {set : EditSet} (ok : ofEdits edits = .ok set)
    (keep : Edit → Bool) : Edit.onePass pristine (edits.filter keep) = Edit.onePassFrom 0 pristine (set.edits.filter keep) := by
  rw [Edit.onePass, acceptedEdits ok, ← Ordered.sortByFilter, List.filter_comm]

theorem onePassWhole {pristine : Bytes} {edits : List Edit} {set : EditSet} (ok : ofEdits edits = .ok set) :
    Edit.onePass pristine edits = Edit.onePassFrom 0 pristine set.edits := by
  rw [Edit.onePass, acceptedEdits ok]

theorem acceptedReal {edits : List Edit} {set : EditSet} (ok : ofEdits edits = .ok set) {e : Edit} (mem : e ∈ set.edits) :
    e ∈ edits ∧ e.isNoop = false := by
  rw [acceptedEdits ok] at mem
  obtain ⟨given, real⟩ := List.mem_filter.mp (Ordered.sortByMem.mp mem)
  exact ⟨given, by simpa using real⟩

theorem onePassSelected {pristine : Bytes} {edits : List Edit} {set : EditSet} (ok : ofEdits edits = .ok set)
    (keep : Edit → Bool) :
    Edit.onePass pristine (set.edits.filter keep) = Edit.onePassFrom 0 pristine (set.edits.filter keep) := by
  have all : (set.edits.filter keep).filter (!·.isNoop) = set.edits.filter keep :=
    filterReal fun e mem => (acceptedReal ok (List.mem_filter.mp mem).1).2
  rw [Edit.onePass, all, Ordered.sortByUnique (List.Perm.refl _) ((acceptedAscending ok).filter _)]

theorem deltaSumReal (edits : List Edit) : deltaSum (edits.filter (!·.isNoop)) = deltaSum edits := by
  induction edits with
  | nil => rfl
  | cons e rest ih =>
    cases still : e.isNoop with
    | false => simp [deltaSum, still] at ih ⊢; omega
    | true =>
      have nothing : e.delta = 0 := by
        simp only [Edit.isNoop, Bool.and_eq_true, beq_iff_eq, List.isEmpty_iff] at still
        simp [Edit.delta, still.1, still.2]
      simp [deltaSum, still, nothing] at ih ⊢
      omega

theorem deltaSumAccepted {edits : List Edit} {set : EditSet} (ok : ofEdits edits = .ok set) (keep : Edit → Bool) :
    deltaSum (edits.filter keep) = deltaSum (set.edits.filter keep) := by
  have same : (Ordered.sortBy Edit.span (edits.filter (!·.isNoop))).Perm _ := Ordered.sortByPerm _
  have sums := ((same.filter keep).map Edit.delta).sum_eq
  calc deltaSum (edits.filter keep)
      = deltaSum ((edits.filter keep).filter (!·.isNoop)) := (deltaSumReal _).symm
    _ = deltaSum ((edits.filter (!·.isNoop)).filter keep) := by rw [List.filter_comm]
    _ = deltaSum (set.edits.filter keep) := by rw [acceptedEdits ok]; exact sums.symm

structure Ready (pristine : Bytes) (set : EditSet) : Prop where
  named : ∀ p ∈ set.pending, p.id = p.edit.span
  ascending : set.ids.Pairwise (· < ·)
  inside : InOrder 0 set.edits pristine.length
  room : pristine.length + contentSize set.edits ≤ Edit.sizeLimit

theorem contentSizeAccepted {edits : List Edit} {set : EditSet} (ok : ofEdits edits = .ok set) :
    contentSize set.edits ≤ contentSize edits := by
  rw [acceptedEdits ok]
  unfold contentSize
  rw [((Ordered.sortByPerm _).map _).sum_eq]
  exact contentSizeSublist List.filter_sublist

theorem acceptedInOrder {edits : List Edit} {set : EditSet} {stop : Nat} (ok : ofEdits edits = .ok set)
    (inside : ∀ e ∈ edits, e.span.stop ≤ stop) : InOrder 0 set.edits stop := by
  obtain ⟨pending, free⟩ := ofEditsPending ok
  rw [EditSet.edits, pending]
  refine inOrderOfBefore (Nat.zero_le _) (arrangeBefore free) (fun _ _ => Nat.zero_le _) ?_
  intro p mem
  exact inside p.edit (arrangeNamed mem).2.1

theorem acceptedApart {edits : List Edit} {set : EditSet} (ok : ofEdits edits = .ok set) :
    set.edits.Pairwise fun x y => x.span.stop ≤ y.span.start := by
  obtain ⟨pending, free⟩ := ofEditsPending ok
  rw [EditSet.edits, pending, List.pairwise_map]
  exact (arrangeBefore free).imp And.right

theorem ofEditsReady {pristine : Bytes} {edits : List Edit} {set : EditSet} (ok : ofEdits edits = .ok set)
    (inside : ∀ e ∈ edits, e.span.stop ≤ pristine.length)
    (room : pristine.length + contentSize set.edits < 2 ^ 63) : Ready pristine set := by
  obtain ⟨pending, free⟩ := ofEditsPending ok
  refine ⟨?_, ?_, acceptedInOrder ok inside, Nat.le_sub_one_of_lt room⟩
  · intro p mem
    exact (arrangeNamed (pending ▸ mem)).1
  · rw [ids, pending, List.pairwise_map]
    exact (arrangeBefore free).imp And.left

end KeepBlame.EditSet
