import KeepBlame.Proofs.Remaining
import Mathlib.Data.List.TakeWhile

/-! Calls on an edit set, one after the other, each on whatever target there is by then. A call names nothing pending,
finds its edit reaching past the target, or makes it; the later edits then move along as far as the positions go, and
stay in order unless one that runs past the last position has another behind it. A call that finds them out of order
panics, and none is made after it. -/
namespace KeepBlame

def Span.Overruns (s : Span) : Prop := limit < s.start + s.size

namespace EditSet

def Fits (delta : Int) (p : Pending) : Prop :=
  0 ≤ p.edit.span.start + delta ∧ p.edit.span.start + delta ≤ Span.limit

def InRow (pending : List Pending) : Prop := pending.Pairwise fun a b => a.edit.span.stop ≤ b.edit.span.start

theorem fitsZero (p : Pending) : Fits 0 p := by
  have := p.edit.span.startLeLimit
  unfold Fits
  omega

theorem inOrderIff {pending : List Pending} : inOrder pending = true ↔ InRow pending := by
  unfold InRow
  induction pending with
  | nil => simp [inOrder]
  | cons a rest ih =>
    cases rest with
    | nil => simp [inOrder]
    | cons b rest =>
      simp only [inOrder, Bool.and_eq_true, decide_eq_true_eq, ih]
      constructor
      · rintro ⟨first, tail⟩
        refine List.pairwise_cons.mpr ⟨?_, tail⟩
        intro c mem
        rcases List.mem_cons.mp mem with rfl | later
        · exact first
        · exact Nat.le_trans first (Nat.le_trans b.edit.span.startLeStop ((List.pairwise_cons.mp tail).1 c later))
      · intro row
        exact ⟨(List.pairwise_cons.mp row).1 b List.mem_cons_self, row.of_cons⟩

theorem shiftFits {delta : Int} {p : Pending} (fits : Fits delta p) :
    p.edit.span.shift? delta = some (moved delta p).edit.span := by
  unfold Span.shift?
  exact if_pos fits

theorem shiftAllFits {delta : Int} {pending : List Pending} (fits : ∀ p ∈ pending, Fits delta p) :
    shiftAll delta pending = (pending.map (moved delta), none) := by
  induction pending with
  | nil => rfl
  | cons p rest ih =>
    simp only [shiftAll, shiftFits (fits p List.mem_cons_self), ih fun q mem => fits q (List.mem_cons_of_mem p mem)]
    rfl

theorem shiftAllStuck {delta : Int} {early late : List Pending} {q : Pending} (fits : ∀ p ∈ early, Fits delta p)
    (stuck : ¬ Fits delta q) :
    shiftAll delta (early ++ q :: late) = (early.map (moved delta) ++ q :: late, some (.rebase q.id delta)) := by
  induction early with
  | nil =>
    have refused : q.edit.span.shift? delta = none := if_neg stuck
    simp only [List.nil_append, shiftAll, refused, List.map_nil]
  | cons p rest ih =>
    simp only [List.cons_append, shiftAll, shiftFits (fits p List.mem_cons_self),
      ih fun q mem => fits q (List.mem_cons_of_mem p mem)]
    rfl

theorem fitsOrStuck (delta : Int) (pending : List Pending) :
    (∀ p ∈ pending, Fits delta p) ∨
      ∃ early q late, pending = early ++ q :: late ∧ (∀ p ∈ early, Fits delta p) ∧ ¬ Fits delta q := by
  induction pending with
  | nil => exact .inl (by simp)
  | cons p rest ih =>
    by_cases fits : Fits delta p
    · rcases ih with all | ⟨early, q, late, split, before, stuck⟩
      · exact .inl (by simpa using ⟨fits, all⟩)
      · exact .inr ⟨p :: early, q, late, congrArg (p :: ·) split, by simpa using ⟨fits, before⟩, stuck⟩
    · exact .inr ⟨[], p, rest, rfl, by simp, fits⟩

theorem movedAllZero (pending : List Pending) : pending.map (moved 0) = pending := by
  have same : moved 0 = id := funext movedZero
  rw [same, List.map_id]

section At
variable {set : EditSet} {before after : List Pending} {p : Pending} {target : Stream}
  (split : set.pending = before ++ p :: after) (others : ∀ q ∈ before, q.id ≠ p.id)
include split others

theorem applyOutside (beyond : target.size < p.edit.span.stop) :
    set.apply p.id target = .refused (.outOfBounds p.edit.span target.size) set target.seekEnd := by
  obtain ⟨first, rest⟩ := cutAt split others
  simp only [apply, first, rest, Stream.spliceOutside beyond]

variable (inside : p.edit.span.stop ≤ target.size)
include inside

theorem applyInside : set.apply p.id target = shiftAfter before after p.edit.delta (target.splice p.edit).2 :=
  applyAt split others (Prod.ext (Stream.spliceInside inside).1 rfl)

theorem applyStuck {early late : List Pending} {q : Pending} (cut : after = early ++ q :: late)
    (fits : ∀ r ∈ early, Fits p.edit.delta r) (stuck : ¬ Fits p.edit.delta q) :
    set.apply p.id target = .refused (.rebase q.id p.edit.delta)
      ⟨before ++ (early.map (moved p.edit.delta) ++ q :: late)⟩ (target.splice p.edit).2 := by
  have nonzero : p.edit.delta ≠ 0 := fun zero => stuck (zero ▸ fitsZero q)
  rw [applyInside split others inside, shiftAfter, if_neg nonzero, cut, shiftAllStuck fits stuck]

variable (fits : ∀ q ∈ after, Fits p.edit.delta q)
include fits

theorem applyInRow (row : InRow (before ++ after.map (moved p.edit.delta))) :
    set.apply p.id target =
      .made p.edit.delta ⟨before ++ after.map (moved p.edit.delta)⟩ (target.splice p.edit).2 := by
  rw [applyInside split others inside]
  unfold shiftAfter
  split
  · rename_i zero
    rw [zero, movedAllZero]
  · simp only [shiftAllFits fits, inOrderIff.mpr row, if_true]

theorem applyOutOfRow (row : ¬ InRow (before ++ after.map (moved p.edit.delta))) (nonzero : p.edit.delta ≠ 0) :
    set.apply p.id target = .panicked (.editsOutOfOrder p.edit.delta) (target.splice p.edit).2 := by
  have broken : ¬ inOrder (before ++ after.map (moved p.edit.delta)) = true := fun ordered => row (inOrderIff.mp ordered)
  rw [applyInside split others inside]
  simp only [shiftAfter, if_neg nonzero, shiftAllFits fits, if_neg broken]

end At

structure Cleft (before : List Pending) (p : Pending) (after : List Pending) : Prop where
  left : before.Pairwise Before
  right : after.Pairwise Before
  below : ∀ a ∈ before, Before a p
  above : ∀ b ∈ after, Before p b

theorem cleft {before after : List Pending} {p : Pending} (ordered : (before ++ p :: after).Pairwise Before) :
    Cleft before p after := by
  obtain ⟨left, tail, cross⟩ := List.pairwise_append.mp ordered
  obtain ⟨above, right⟩ := List.pairwise_cons.mp tail
  exact ⟨left, right, fun a mem => cross a mem p List.mem_cons_self, above⟩

theorem cleftOthers {before after : List Pending} {p : Pending} (cut : Cleft before p after) :
    ∀ q ∈ before, q.id ≠ p.id :=
  fun q mem => Ordered.neOfLt (cut.below q mem).1

theorem cleftRow {before after : List Pending} {p : Pending} (cut : Cleft before p after) : InRow (before ++ after) := by
  refine List.pairwise_append.mpr ⟨cut.left.imp And.right, cut.right.imp And.right, ?_⟩
  intro a early b late
  exact (beforeTrans (cut.below a early) (cut.above b late)).2

inductive Applied (set : EditSet) (id : Span) (target : Stream) : Step Int → Prop where
  | unknown (absent : id ∉ set.ids) : Applied set id target (.refused (.unknownEdit id) set target)
  | outside {before after : List Pending} {p : Pending} (split : set.pending = before ++ p :: after) (named : p.id = id)
      (beyond : target.size < p.edit.span.stop) :
      Applied set id target (.refused (.outOfBounds p.edit.span target.size) set target.seekEnd)
  | stuck {before early late : List Pending} {p q : Pending} (split : set.pending = before ++ p :: (early ++ q :: late))
      (named : p.id = id) (inside : p.edit.span.stop ≤ target.size) (fits : ∀ r ∈ early, Fits p.edit.delta r)
      (stuck : ¬ Fits p.edit.delta q) :
      Applied set id target (.refused (.rebase q.id p.edit.delta)
        ⟨before ++ (early.map (moved p.edit.delta) ++ q :: late)⟩ (target.splice p.edit).2)
  | outOfRow {before after : List Pending} {p : Pending} (split : set.pending = before ++ p :: after) (named : p.id = id)
      (inside : p.edit.span.stop ≤ target.size) (fits : ∀ q ∈ after, Fits p.edit.delta q)
      (row : ¬ InRow (before ++ after.map (moved p.edit.delta))) :
      Applied set id target (.panicked (.editsOutOfOrder p.edit.delta) (target.splice p.edit).2)
  | made {before after : List Pending} {p : Pending} (split : set.pending = before ++ p :: after) (named : p.id = id)
      (inside : p.edit.span.stop ≤ target.size) (fits : ∀ q ∈ after, Fits p.edit.delta q)
      (row : InRow (before ++ after.map (moved p.edit.delta))) :
      Applied set id target
        (.made p.edit.delta ⟨before ++ after.map (moved p.edit.delta)⟩ (target.splice p.edit).2)

theorem applyUnknown {set : EditSet} {id : Span} {target : Stream} (absent : id ∉ set.ids) :
    set.apply id target = .refused (.unknownEdit id) set target := by
  have all : set.pending.takeWhile (·.id != id) = set.pending := by
    refine List.takeWhile_eq_self_iff.mpr fun p mem => ?_
    have other : p.id ≠ id := fun same => absent (same ▸ List.mem_map_of_mem mem)
    simpa using other
  simp only [apply, all, List.drop_length]

theorem applied {set : EditSet} (ordered : set.pending.Pairwise Before) (id : Span) (target : Stream) :
    Applied set id target (set.apply id target) := by
  by_cases known : id ∈ set.ids
  · obtain ⟨p, mem, rfl⟩ := List.mem_map.mp known
    obtain ⟨before, after, split⟩ := List.append_of_mem mem
    have cut := cleft (split ▸ ordered)
    have others := cleftOthers cut
    by_cases inside : p.edit.span.stop ≤ target.size
    · rcases fitsOrStuck p.edit.delta after with fits | ⟨early, q, late, rfl, fits, stuck⟩
      · by_cases row : InRow (before ++ after.map (moved p.edit.delta))
        · rw [applyInRow split others inside fits row]
          exact .made split rfl inside fits row
        · have nonzero : p.edit.delta ≠ 0 := by
            intro zero
            rw [zero, movedAllZero] at row
            exact row (cleftRow cut)
          rw [applyOutOfRow split others inside fits row nonzero]
          exact .outOfRow split rfl inside fits row
      · rw [applyStuck split others inside rfl fits stuck]
        exact .stuck split rfl inside fits stuck
    · rw [applyOutside split others (by omega)]
      exact .outside split rfl (by omega)
  · rw [applyUnknown known]
    exact .unknown known

theorem fitsBehind {p b : Pending} (order : Before p b) (shrinks : p.edit.delta ≤ 0) : Fits p.edit.delta b := by
  have start := b.edit.span.startLeLimit
  have stop := order.2
  simp only [Fits, Edit.delta, Edit.sizeLimit, Span.stop, Span.limit] at *
  omega

theorem movedApart {delta : Int} {a b : Pending} (order : Before a b) (first : Fits delta a) (second : Fits delta b) :
    (moved delta a).edit.span.stop ≤ (moved delta b).edit.span.start ↔ 0 ≤ delta ∨ ¬ a.edit.span.Overruns := by
  have size : (moved delta a).edit.span.size = a.edit.span.size := rfl
  have left := movedStart first.1 first.2
  have right := movedStart second.1 second.2
  have stop := order.2
  have start := b.edit.span.startLeLimit
  simp only [Fits, Span.Overruns, Span.stop, Span.limit] at *
  omega

def Tracked (a b : Pending) : Prop := Before a b ∧ (a.id.Overruns ↔ a.edit.span.Overruns)

theorem movedTracked {delta : Int} {a b : Pending} (tracked : Tracked a b) (first : Fits delta a) (second : Fits delta b)
    (apart : (moved delta a).edit.span.stop ≤ (moved delta b).edit.span.start) :
    Tracked (moved delta a) (moved delta b) := by
  obtain ⟨order, named⟩ := tracked
  refine ⟨⟨order.1, apart⟩, named.trans ?_⟩
  have size : (moved delta a).edit.span.size = a.edit.span.size := rfl
  have left := movedStart first.1 first.2
  have right := movedStart second.1 second.2
  have stop := order.2
  have start := b.edit.span.startLeLimit
  simp only [Fits, Span.Overruns, Span.stop, Span.limit] at *
  omega

theorem pairOf {R : Pending → Pending → Prop} {pending : List Pending} (pairs : pending.Pairwise R)
    (less : ∀ a b, R a b → a.id < b.id) {q r : Pending} (left : q ∈ pending) (right : r ∈ pending) (below : q.id < r.id) :
    R q r := by
  induction pending with
  | nil => cases left
  | cons p rest ih =>
    obtain ⟨first, tail⟩ := List.pairwise_cons.mp pairs
    rcases List.mem_cons.mp left with rfl | early
    · rcases List.mem_cons.mp right with rfl | late
      · exact absurd below (Ordered.ltIrrefl _)
      · exact first r late
    · rcases List.mem_cons.mp right with rfl | late
      · exact absurd (less r q (first q early)) (Ordered.notLtOfLt below)
      · exact ih tail early late

def Crowded (before after : List Pending) (delta : Int) : Prop :=
  (∃ q ∈ after, ∃ r ∈ after, q.id < r.id ∧ q.id.Overruns) ∨
    ∃ a ∈ before, ∃ b ∈ after, b.edit.span.start + delta < a.edit.span.stop

section Row
variable {before after : List Pending} {p : Pending} (tracked : (before ++ p :: after).Pairwise Tracked)
  (fits : ∀ q ∈ after, Fits p.edit.delta q)
include tracked fits

theorem rowTracked (row : InRow (before ++ after.map (moved p.edit.delta))) :
    (before ++ after.map (moved p.edit.delta)).Pairwise Tracked := by
  obtain ⟨left, tail, cross⟩ := List.pairwise_append.mp tracked
  obtain ⟨_, right, apart⟩ := List.pairwise_append.mp row
  refine List.pairwise_append.mpr ⟨left, List.pairwise_map.mpr ?_, ?_⟩
  · refine (tail.of_cons.and (List.pairwise_map.mp right)).imp_of_mem ?_
    rintro a b first second ⟨tracked, apart⟩
    exact movedTracked tracked (fits a first) (fits b second) apart
  · intro a early m late
    obtain ⟨b, mem, rfl⟩ := List.mem_map.mp late
    obtain ⟨order, named⟩ := cross a early b (List.mem_cons_of_mem p mem)
    exact ⟨⟨order.1, apart a early _ late⟩, named⟩

theorem outOfRowIff : ¬ InRow (before ++ after.map (moved p.edit.delta)) ↔
    p.edit.delta < 0 ∧ Crowded before after p.edit.delta := by
  obtain ⟨left, tail, cross⟩ := List.pairwise_append.mp tracked
  have place : ∀ b ∈ after, ((moved p.edit.delta b).edit.span.start : Int) = b.edit.span.start + p.edit.delta :=
    fun b mem => movedStart (fits b mem).1 (fits b mem).2
  constructor
  · intro broken
    by_contra sound
    refine broken (List.pairwise_append.mpr ⟨left.imp fun pair => pair.1.2, List.pairwise_map.mpr ?_, ?_⟩)
    · refine tail.of_cons.imp_of_mem ?_
      rintro a b first second ⟨order, named⟩
      refine (movedApart order (fits a first) (fits b second)).mpr ?_
      by_contra neither
      simp only [not_or, not_not, Int.not_le] at neither
      exact sound ⟨neither.1, .inl ⟨a, first, b, second, order.1, named.mpr neither.2⟩⟩
    · intro a early m late
      obtain ⟨b, mem, rfl⟩ := List.mem_map.mp late
      have order := (cross a early b (List.mem_cons_of_mem p mem)).1.2
      have start := place b mem
      by_contra close
      exact sound ⟨by omega, .inr ⟨a, early, b, mem, by omega⟩⟩
  · rintro ⟨shrinks, ⟨q, first, r, second, below, past⟩ | ⟨a, early, b, mem, close⟩⟩ row
    · have right := List.pairwise_map.mp (List.pairwise_append.mp row).2.1
      obtain ⟨⟨order, named⟩, apart⟩ :=
        pairOf (tail.of_cons.and right) (fun _ _ pair => pair.1.1.1) first second below
      rcases (movedApart order (fits q first) (fits r second)).mp apart with grows | short
      · omega
      · exact short (named.mp past)
    · have apart := (List.pairwise_append.mp row).2.2 a early _ (List.mem_map_of_mem mem)
      have start := place b mem
      omega

end Row

/-- The answers to the calls, each made on the target as it is then, and the set that they leave. A call that panics
is the last, and leaves none. -/
def callAll (set : EditSet) : List (Span × Stream) → List (Outcome EditError Int) × Option EditSet
  | [] => ([], some set)
  | (id, target) :: rest =>
    let step := set.apply id target
    match step.set? with
    | none => ([step.result], none)
    | some set => (step.result :: (set.callAll rest).1, (set.callAll rest).2)

theorem callsTracked {set : EditSet} {calls : List (Span × Stream)} (tracked : set.pending.Pairwise Tracked)
    (fine : ∀ r ∈ (set.callAll calls).1, ∃ delta, r = .ok delta) :
    ∃ now, (set.callAll calls).2 = some now ∧ now.pending.Pairwise Tracked ∧ now.ids.Sublist set.ids := by
  induction calls generalizing set with
  | nil => exact ⟨set, rfl, tracked, List.Sublist.refl _⟩
  | cons call rest ih =>
    obtain ⟨id, target⟩ := call
    have step := applied (tracked.imp And.left) id target
    simp only [callAll] at fine ⊢
    generalize set.apply id target = done at fine step ⊢
    cases step with
    | unknown | outside | stuck | outOfRow =>
      obtain ⟨delta, ok⟩ := fine _ List.mem_cons_self
      cases ok
    | @made before after p split named inside fits row =>
      obtain ⟨now, left, final, kept⟩ :=
        ih (rowTracked (split ▸ tracked) fits row) fun r mem => fine r (List.mem_cons_of_mem _ mem)
      refine ⟨now, left, final, kept.trans ?_⟩
      simp only [ids, split, List.map_append, List.map_map, List.map_cons]
      exact (List.Sublist.refl _).append (List.sublist_cons_self ..)

theorem acceptedTracked {edits : List Edit} {set : EditSet} (accepted : ofEdits edits = .ok set) :
    set.pending.Pairwise Tracked := by
  obtain ⟨pending, free⟩ := ofEditsPending accepted
  rw [pending]
  refine (arrangeBefore free).imp_of_mem ?_
  intro a b left _ order
  exact ⟨order, by rw [(arrangeNamed left).1]⟩

theorem lostIff {now : EditSet} (tracked : now.pending.Pairwise Tracked) (id : Span) (target : Stream) (panic : Panic) :
    (now.apply id target).result = .panic panic ↔
      ∃ before p after, now.pending = before ++ p :: after ∧ p.id = id ∧ p.edit.span.stop ≤ target.size ∧
        panic = .editsOutOfOrder p.edit.delta ∧ p.edit.delta < 0 ∧ Crowded before after p.edit.delta := by
  have ordered : now.pending.Pairwise Before := tracked.imp And.left
  constructor
  · intro lost
    have step := applied ordered id target
    generalize now.apply id target = done at lost step
    cases step with
    | unknown | outside | stuck | made => cases lost
    | @outOfRow before after p split named inside fits row =>
      cases lost
      exact ⟨before, p, after, split, named, inside, rfl, (outOfRowIff (split ▸ tracked) fits).mp row⟩
  · rintro ⟨before, p, after, split, rfl, inside, rfl, shrinks, close⟩
    have cut := cleft (split ▸ ordered)
    have fits : ∀ q ∈ after, Fits p.edit.delta q := fun q mem => fitsBehind (cut.above q mem) (by omega)
    have row := (outOfRowIff (split ▸ tracked) fits).mpr ⟨shrinks, close⟩
    rw [applyOutOfRow split (cleftOthers cut) inside fits row (by omega)]
    rfl

theorem crowdedOverruns {before after : List Pending} {p : Pending}
    (tracked : (before ++ p :: after).Pairwise Tracked) (close : Crowded before after p.edit.delta) :
    ∃ q ∈ p :: after, ∃ r ∈ p :: after, q.id < r.id ∧ q.id.Overruns := by
  rcases close with ⟨q, first, r, second, below, past⟩ | ⟨a, early, b, mem, close⟩
  · exact ⟨q, List.mem_cons_of_mem p first, r, List.mem_cons_of_mem p second, below, past⟩
  · -- Only behind an edit that runs past the last position is there less room than it gives up.
    obtain ⟨_, tail, cross⟩ := List.pairwise_append.mp tracked
    obtain ⟨order, named⟩ := (List.pairwise_cons.mp tail).1 b mem
    have gap := (cross a early p List.mem_cons_self).1.2
    have stop := order.2
    refine ⟨p, List.mem_cons_self, b, List.mem_cons_of_mem p mem, order.1, named.mpr ?_⟩
    simp only [Edit.delta, Edit.sizeLimit, Span.Overruns, Span.stop, Span.limit] at *
    omega

theorem callsPanicked {set : EditSet} {calls : List (Span × Stream)} {now : EditSet}
    (left : (set.callAll calls).2 = some now) {id : Span} {target : Stream} {panic : Panic}
    (lost : (now.apply id target).result = .panic panic) (later : List (Span × Stream)) :
    set.callAll (calls ++ (id, target) :: later) = ((set.callAll calls).1 ++ [.panic panic], none) := by
  induction calls generalizing set with
  | nil =>
    cases left
    simp only [List.nil_append, callAll]
    generalize now.apply id target = step at lost ⊢
    cases step <;> cases lost
    rfl
  | cons call rest ih =>
    obtain ⟨first, before⟩ := call
    simp only [List.cons_append, callAll] at left ⊢
    cases kept : (set.apply first before).set? with
    | none =>
      rw [kept] at left
      cases left
    | some next =>
      simp only [kept] at left
      simp only [ih left, List.cons_append]

/-- The pending edits stay sorted and apart. Still a call can panic, and it is then the last: it makes an edit that
shrinks the file, and of the edits that move back one runs past the last position. -/
theorem orderLostIff {edits : List Edit} {set : EditSet} {calls : List (Span × Stream)}
    (accepted : ofEdits edits = .ok set) (fine : ∀ r ∈ (set.callAll calls).1, ∃ delta, r = .ok delta) :
    ∃ now, (set.callAll calls).2 = some now ∧
    now.ids.Pairwise (· < ·) ∧ (now.edits.Pairwise fun a b => a.span.stop ≤ b.span.start) ∧
    (∀ id target panic, (now.apply id target).result = .panic panic ↔
      ∃ before p after, now.pending = before ++ p :: after ∧ p.id = id ∧ p.edit.span.stop ≤ target.size ∧
        panic = .editsOutOfOrder p.edit.delta ∧ p.edit.delta < 0 ∧ Crowded before after p.edit.delta) ∧
    (∀ id target panic, (now.apply id target).result = .panic panic → ∀ later,
      set.callAll (calls ++ (id, target) :: later) = ((set.callAll calls).1 ++ [.panic panic], none)) ∧
    ((∀ a ∈ set.ids, ∀ b ∈ set.ids, a < b → ¬ a.Overruns) →
      ∀ id target panic, (now.apply id target).result ≠ .panic panic) := by
  obtain ⟨now, left, tracked, kept⟩ := callsTracked (acceptedTracked accepted) fine
  refine ⟨now, left, List.pairwise_map.mpr (tracked.imp fun pair => pair.1.1),
    List.pairwise_map.mpr (tracked.imp fun pair => pair.1.2), lostIff tracked,
    fun _ _ _ lost => callsPanicked left lost, ?_⟩
  intro short id target panic lost
  obtain ⟨before, p, after, split, _, _, _, _, close⟩ := (lostIff tracked id target panic).mp lost
  obtain ⟨q, first, r, second, below, past⟩ := crowdedOverruns (split ▸ tracked) close
  have known : ∀ s ∈ p :: after, s.id ∈ set.ids := by
    intro s mem
    refine kept.subset (List.mem_map_of_mem ?_)
    rw [split]
    exact List.mem_append_right before mem
  exact short q.id (known q first) r.id (known r second) below past

-- Two edits at the last positions, the first of them longer than these, behind one that shrinks the file.
def farEdits : List Edit := [
  ⟨⟨0, 1⟩, []⟩, ⟨⟨1, 2⟩, [121, 122]⟩, ⟨⟨18446744073709551614, 5⟩, [120]⟩, ⟨⟨18446744073709551615, 0⟩, [121]⟩]

theorem farEditsLost :
    ∃ set now, ofEdits farEdits = .ok set ∧ set.callAll [(⟨1, 2⟩, ⟨[97, 98, 99], 0⟩)] = ([.ok 0], some now) ∧
      (now.edits.Pairwise fun a b => a.span.stop ≤ b.span.start) ∧
      (now.apply ⟨0, 1⟩ ⟨[97, 98], 0⟩).result = .panic (.editsOutOfOrder (-1)) ∧
      ∀ later, set.callAll ((⟨1, 2⟩, ⟨[97, 98, 99], 0⟩) :: (⟨0, 1⟩, ⟨[97, 98], 0⟩) :: later) =
        ([.ok 0, .panic (.editsOutOfOrder (-1))], none) := by
  have accepted : ofEdits farEdits = .ok ⟨farEdits.map fun e => ⟨e.span, e⟩⟩ := by decide
  have called : callAll ⟨farEdits.map fun e => ⟨e.span, e⟩⟩ [(⟨1, 2⟩, ⟨[97, 98, 99], 0⟩)] =
      ([.ok 0], some ⟨(farEdits.map fun e => ⟨e.span, e⟩).eraseIdx 1⟩) := by decide
  obtain ⟨now, left, _, ordered, lost, last, _⟩ :=
    @orderLostIff farEdits _ [(⟨1, 2⟩, ⟨[97, 98, 99], 0⟩)] accepted (by simp [called])
  rw [called] at left last
  cases left
  have panics := (lost ⟨0, 1⟩ ⟨[97, 98], 0⟩ (.editsOutOfOrder (-1))).mpr (by
    refine ⟨[], _, _, rfl, rfl, by decide, by decide, by decide, .inl ?_⟩
    refine ⟨_, List.mem_cons_self, _, List.mem_cons_of_mem _ List.mem_cons_self, by decide, ?_⟩
    unfold Span.Overruns
    decide)
  exact ⟨_, _, accepted, called, ordered, panics, last _ _ _ panics⟩

theorem farEditsCollide :
    ∃ set, ofEdits farEdits = .ok set ∧
      set.apply ⟨0, 1⟩ ⟨[97, 98], 0⟩ = .panicked (.editsOutOfOrder (-1)) ⟨[98], 1⟩ :=
  ⟨_, rfl, by decide⟩

end EditSet
end KeepBlame
