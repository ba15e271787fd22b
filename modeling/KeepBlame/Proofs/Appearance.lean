import KeepBlame.Basics
import KeepBlame.Proofs.Coverage
import KeepBlame.Proofs.Splice
import Mathlib.Data.Nat.Count

/-! To whom an edit belongs. Each line that it touches is read as the hunk that covers it, or as the hunk of line 1 where
no hunk does, and of the entries read in this way the one that comes up last, for the first time, owns the edit. -/
namespace KeepBlame

structure FirstShown {α : Type} (shown : Nat → α → Prop) (first last : Nat) (x : α) (n : Nat) : Prop where
  within : first ≤ n ∧ n ≤ last
  here : shown n x
  fresh : ∀ m, first ≤ m → m < n → ¬ shown m x

/-- What the lines from `first` to `last` show, each once, in the order of first appearance. -/
structure ByAppearance {α : Type} (shown : Nat → α → Prop) (first last : Nat) (xs : List α) : Prop where
  members : ∀ x, x ∈ xs ↔ ∃ n, FirstShown shown first last x n
  order : xs.Pairwise fun x y => ∃ m n, FirstShown shown first last x m ∧ FirstShown shown first last y n ∧ m < n

def LatestShown {α : Type} (shown : Nat → α → Prop) (first last : Nat) (x : α) : Prop :=
  ∃ n, FirstShown shown first last x n ∧ ∀ y m, FirstShown shown first last y m → m ≤ n

theorem firstIndex {α : Type} [DecidableEq α] {xs : List α} {i : Nat} {x : α} :
    (xs[i]? = some x ∧ ∀ j < i, xs[j]? ≠ some x) ↔ x ∈ xs ∧ xs.idxOf x = i := by
  constructor
  · rintro ⟨here, fresh⟩
    obtain ⟨inside, is⟩ := List.getElem?_eq_some_iff.mp here
    refine ⟨List.mem_of_getElem? here, (List.findIdx_eq inside).mpr ⟨by simpa using is, fun j less => ?_⟩⟩
    have other := fresh j less
    rw [List.getElem?_eq_getElem (Nat.lt_trans less inside)] at other
    simpa using other
  · rintro ⟨mem, rfl⟩
    refine ⟨List.getElem?_idxOf mem, fun j less shown => ?_⟩
    have other := List.not_of_lt_findIdx less
    obtain ⟨inside, is⟩ := List.getElem?_eq_some_iff.mp shown
    simp [is] at other

theorem filterIdxOf {α : Type} [DecidableEq α] {keep : α → Bool} {x y : α} {xs : List α} (left : keep x = true)
    (right : keep y = true) (less : (xs.filter keep).idxOf x < (xs.filter keep).idxOf y) : xs.idxOf x < xs.idxOf y := by
  induction xs with
  | nil => exact less
  | cons z rest ih =>
    cases kept : keep z with
    | false =>
      rw [List.filter_cons_of_neg (by simp [kept])] at less
      have other : z ≠ x ∧ z ≠ y := by
        constructor
        · rintro rfl
          simp [kept] at left
        · rintro rfl
          simp [kept] at right
      rw [List.idxOf_cons_ne rest other.1, List.idxOf_cons_ne rest other.2]
      exact Nat.succ_lt_succ (ih less)
    | true =>
      rw [List.filter_cons_of_pos kept] at less
      by_cases second : z = y
      · rw [List.idxOf_cons_eq _ second] at less
        exact absurd less (Nat.not_lt_zero _)
      · rw [List.idxOf_cons_ne _ second] at less ⊢
        by_cases front : z = x
        · rw [List.idxOf_cons_eq _ front]
          exact Nat.succ_pos _
        · rw [List.idxOf_cons_ne _ front] at less ⊢
          exact Nat.succ_lt_succ (ih (Nat.lt_of_succ_lt_succ less))

theorem eraseDupsOrder {α : Type} [DecidableEq α] (xs : List α) :
    xs.eraseDups.Pairwise fun x y => xs.idxOf x < xs.idxOf y := by
  -- By length: what follows the head is freed of it before its own duplicates are erased.
  induction whole : xs.length using Nat.strong_induction_on generalizing xs with
  | _ size ih =>
    cases xs with
    | nil => exact .nil
    | cons x rest =>
      have shorter : (rest.filter fun y => !y == x).length < size := by
        rw [← whole]
        exact Nat.lt_succ_of_le (List.length_filter_le _ _)
      have other : ∀ y ∈ (rest.filter fun y => !y == x).eraseDups, (!y == x) = true :=
        fun y mem => (List.mem_filter.mp (List.mem_eraseDups.mp mem)).2
      have apart : ∀ y, (!y == x) = true → x ≠ y := by
        intro y is same
        simp [same] at is
      rw [List.eraseDups_cons, List.pairwise_cons]
      constructor
      · intro y mem
        rw [List.idxOf_cons_self, List.idxOf_cons_ne rest (apart y (other y mem))]
        exact Nat.succ_pos _
      · refine (ih _ shorter _ rfl).imp_of_mem ?_
        intro y z left right less
        rw [List.idxOf_cons_ne rest (apart y (other y left)), List.idxOf_cons_ne rest (apart z (other z right))]
        exact Nat.succ_lt_succ (filterIdxOf (other y left) (other z right) less)

section Listed
variable {α : Type} [DecidableEq α] {shown : Nat → α → Prop} {first last : Nat} {xs : List α}
  (listed : ∀ i x, xs[i]? = some x ↔ first + i ≤ last ∧ shown (first + i) x)
include listed

theorem firstShownIff {x : α} {n : Nat} :
    FirstShown shown first last x n ↔ x ∈ xs ∧ first + xs.idxOf x = n := by
  constructor
  · rintro ⟨⟨above, below⟩, here, fresh⟩
    obtain ⟨i, rfl⟩ := Nat.exists_eq_add_of_le above
    have index : xs[i]? = some x ∧ ∀ j < i, xs[j]? ≠ some x := by
      refine ⟨(listed i x).mpr ⟨below, here⟩, fun j less is => ?_⟩
      exact fresh (first + j) (Nat.le_add_right first j) (by omega) ((listed j x).mp is).2
    obtain ⟨mem, same⟩ := firstIndex.mp index
    exact ⟨mem, by rw [same]⟩
  · rintro ⟨mem, rfl⟩
    obtain ⟨here, fresh⟩ := firstIndex.mpr ⟨mem, rfl⟩
    obtain ⟨below, is⟩ := (listed _ x).mp here
    refine ⟨⟨Nat.le_add_right _ _, below⟩, is, fun m above less before => ?_⟩
    obtain ⟨j, rfl⟩ := Nat.exists_eq_add_of_le above
    exact fresh j (by omega) ((listed j x).mpr ⟨by omega, before⟩)

theorem eraseDupsAppearance : ByAppearance shown first last xs.eraseDups := by
  refine ⟨fun x => ?_, (eraseDupsOrder xs).imp_of_mem ?_⟩
  · rw [List.mem_eraseDups]
    constructor
    · intro mem
      exact ⟨_, (firstShownIff listed).mpr ⟨mem, rfl⟩⟩
    · rintro ⟨n, is⟩
      exact ((firstShownIff listed).mp is).1
  · intro x y left right less
    have early := (firstShownIff listed).mpr ⟨List.mem_eraseDups.mp left, rfl⟩
    have late := (firstShownIff listed).mpr ⟨List.mem_eraseDups.mp right, rfl⟩
    exact ⟨_, _, early, late, by omega⟩

end Listed

theorem firstShownUnique {α : Type} {shown : Nat → α → Prop} {first last : Nat} {x : α} {m n : Nat}
    (left : FirstShown shown first last x m) (right : FirstShown shown first last x n) : m = n := by
  rcases Nat.lt_trichotomy m n with less | same | more
  · exact absurd left.here (right.fresh m left.within.1 less)
  · exact same
  · exact absurd right.here (left.fresh n right.within.1 more)

theorem latestOfLast {α : Type} {shown : Nat → α → Prop} {first last : Nat} {xs : List α} {x : α}
    (appear : ByAppearance shown first last xs) (ends : xs.getLast? = some x) : LatestShown shown first last x := by
  obtain ⟨front, rfl⟩ := List.getLast?_eq_some_iff.mp ends
  obtain ⟨n, late⟩ := (appear.members x).mp (List.mem_append_right _ List.mem_cons_self)
  refine ⟨n, late, fun y m is => ?_⟩
  rcases List.mem_append.mp ((appear.members y).mpr ⟨m, is⟩) with early | same
  · obtain ⟨i, j, before, after, less⟩ := (List.pairwise_append.mp appear.order).2.2 y early x List.mem_cons_self
    rw [firstShownUnique is before, firstShownUnique late after]
    exact Nat.le_of_lt less
  · cases List.mem_singleton.mp same
    exact Nat.le_of_eq (firstShownUnique is late)

def breaksBefore (content : Bytes) (offset : Nat) : Nat := Nat.count (fun i => content[i]? = some 10) offset

namespace LineMap

theorem lineOfBreaks (content : Bytes) (offset : Nat) : lineOf content offset = 1 + breaksBefore content offset := by
  have same : (content.take offset).count 10 = breaksBefore content offset := by
    induction offset with
    | zero => rfl
    | succ n ih =>
      have next : breaksBefore content (n + 1) = breaksBefore content n + if content[n]? = some 10 then 1 else 0 :=
        Nat.count_succ _ n
      rw [List.take_add_one, List.count_append, ih, next]
      cases content[n]? with
      | none => simp
      | some b => simp [List.count_singleton]
  rw [lineOf, same, Nat.add_comm]

theorem linesAscend (content : Bytes) (span : Span) : firstLine content span ≤ lastLine content span := by
  have start := span.startLeLimit
  rw [firstLine, lastLine, lineOfBreaks, lineOfBreaks]
  exact Nat.add_le_add_left (Nat.count_monotone _ (by omega)) 1

end LineMap

namespace Hunk

/-- Line `n` is read as the hunk that covers it, or, where there are not so many lines, as the hunk of line 1. -/
def ReadAs (hunks : List Hunk) (n : Nat) (a : Attribution) : Prop :=
  ∃ h ∈ hunks, h.attribution = a ∧ h.Covers (if n ≤ total hunks then n else 1)

end Hunk

namespace LineMap

section Built
variable {hunks : List Hunk} {map : LineMap} (built : ofHunks? hunks = some map)
include built

theorem lineBare (bare : Hunk.total hunks = 0) (n : Nat) : map.line? n = none := by
  have empty : map.lines = [] := by
    rw [(builtLines built).2, ← List.length_eq_zero_iff, Hunk.spreadLength, bare]
  simp [line?, empty]

variable (full : 0 < Hunk.total hunks)
include full

theorem lineReadAs {n : Nat} (above : 1 ≤ n) (a : Attribution) : map.line? n = some a ↔ Hunk.ReadAs hunks n a := by
  obtain ⟨follows, lines⟩ := builtLines built
  have size : map.lines.length = Hunk.total hunks := by rw [lines, Hunk.spreadLength]
  unfold Hunk.ReadAs
  generalize place : (if n ≤ Hunk.total hunks then n else 1) = m
  have within : 1 ≤ m ∧ m < 1 + Hunk.total hunks := by
    rw [← place]
    split <;> omega
  have line : map.line? n = (Hunk.spread hunks)[m - 1]? := by
    rw [line?, ← lines]
    split at place
    · subst place
      rw [List.getElem?_eq_getElem (by omega)]
      rfl
    · subst place
      rw [List.getElem?_eq_none (by omega), List.head?_eq_getElem?]
      rfl
  obtain ⟨i, ⟨h, found, covers⟩, _⟩ := Hunk.coveredOnce follows within.1 within.2
  have known := Hunk.spreadAt follows (List.mem_of_getElem? found) covers
  rw [line]
  constructor
  · intro is
    exact ⟨h, List.mem_of_getElem? found, Option.some.inj (known.symm.trans is), covers⟩
  · rintro ⟨g, mem, rfl, there⟩
    exact Hunk.spreadAt follows mem there

theorem lineKnown (n : Nat) : ∃ a, map.line? n = some a := by
  have size : map.lines.length = Hunk.total hunks := by rw [(builtLines built).2, Hunk.spreadLength]
  obtain ⟨a, front⟩ : ∃ a, map.lines.head? = some a :=
    ⟨_, List.head?_eq_some_head (List.ne_nil_of_length_pos (by omega))⟩
  rw [line?, front]
  cases map.lines[n - 1]? with
  | none => exact ⟨a, rfl⟩
  | some b => exact ⟨b, rfl⟩

theorem readAsOnce {n : Nat} (above : 1 ≤ n) : ∃! a, Hunk.ReadAs hunks n a := by
  obtain ⟨a, is⟩ := lineKnown built full n
  refine ⟨a, (lineReadAs built full above a).mp is, fun b other => ?_⟩
  exact Option.some.inj (((lineReadAs built full above b).mpr other).symm.trans is)

end Built

theorem entriesListed {map : LineMap} {first last : Nat} {entries : List Attribution}
    (all : (List.range' first (last + 1 - first)).mapM map.line? = some entries) (i : Nat) (a : Attribution) :
    entries[i]? = some a ↔ first + i ≤ last ∧ map.line? (first + i) = some a := by
  rw [mapMAt all]
  by_cases inside : i < last + 1 - first
  · rw [List.getElem?_range' inside, Option.bind_some, Nat.one_mul]
    constructor
    · intro is
      exact ⟨by omega, is⟩
    · exact And.right
  · rw [List.getElem?_eq_none (by rw [List.length_range']; omega)]
    constructor
    · intro is
      cases is
    · rintro ⟨within, _⟩
      omega

def ByAuthor (hunks : List Hunk) (n : Nat) (x : Author) : Prop := ∃ a, Hunk.ReadAs hunks n a ∧ a.author = x

section Attribute
variable {hunks : List Hunk} {map : LineMap} (built : ofHunks? hunks = some map) {content : Bytes} {span : Span}
include built

theorem attributeNone : map.attribute? content span = none ↔ Hunk.total hunks = 0 := by
  have ascend := linesAscend content span
  generalize range : List.range' (firstLine content span) (lastLine content span + 1 - firstLine content span) = lines
  constructor
  · intro nothing
    by_contra other
    have full := Nat.pos_of_ne_zero other
    obtain ⟨entries, all⟩ := mapMSome fun n (_ : n ∈ lines) => lineKnown built full n
    obtain ⟨a, is⟩ := lineKnown built full (firstLine content span)
    have start : entries[0]? = some a := (entriesListed (range ▸ all) 0 a).mpr ⟨ascend, is⟩
    simp only [attribute?, range, all, Option.map_eq_none_iff, List.getLast?_eq_none_iff] at nothing
    have mem := List.mem_eraseDups.mpr (List.mem_of_getElem? start)
    rw [nothing] at mem
    cases mem
  · intro bare
    have start : lines.mapM map.line? = none := by
      rw [← range, Nat.succ_sub ascend, List.range'_succ, List.mapM_cons, lineBare built bare]
      rfl
    simp only [attribute?, range, start]

variable {r : Resolution} (resolved : map.attribute? content span = some r)
include resolved

theorem attributeSome :
    r.firstLine = firstLine content span ∧ r.lastLine = lastLine content span ∧
    LatestShown (Hunk.ReadAs hunks) r.firstLine r.lastLine r.attribution ∧
    ∃ authors, ByAppearance (ByAuthor hunks) r.firstLine r.lastLine authors ∧
      r.contenders = if 2 ≤ authors.length then authors else [] := by
  have full : 0 < Hunk.total hunks := by
    refine Nat.pos_of_ne_zero fun bare => ?_
    rw [(attributeNone built).mpr bare] at resolved
    cases resolved
  unfold attribute? at resolved
  dsimp only at resolved
  split at resolved
  · cases resolved
  rename_i entries all
  obtain ⟨a, final, rfl⟩ := Option.map_eq_some_iff.mp resolved
  have listed : ∀ i x, entries[i]? = some x ↔
      firstLine content span + i ≤ lastLine content span ∧ Hunk.ReadAs hunks (firstLine content span + i) x := by
    intro i x
    have above : 1 ≤ firstLine content span + i := by
      rw [firstLine, lineOf]
      omega
    rw [entriesListed all, lineReadAs built full above]
  have authors : ∀ i x, (entries.map Attribution.author)[i]? = some x ↔
      firstLine content span + i ≤ lastLine content span ∧ ByAuthor hunks (firstLine content span + i) x := by
    intro i x
    simp only [List.getElem?_map, Option.map_eq_some_iff, listed, ByAuthor]
    constructor
    · rintro ⟨b, ⟨within, is⟩, rfl⟩
      exact ⟨within, b, is, rfl⟩
    · rintro ⟨within, b, is, rfl⟩
      exact ⟨b, ⟨within, is⟩, rfl⟩
  refine ⟨rfl, rfl, latestOfLast (eraseDupsAppearance listed) final, _, eraseDupsAppearance authors, ?_⟩
  by_cases few : (entries.map Attribution.author).eraseDups.length < 2
  · rw [if_neg (Nat.not_le.mpr few)]
    exact if_pos few
  · rw [if_pos (Nat.not_lt.mp few)]
    exact if_neg few

end Attribute

theorem attributeByAppearance {hunks : List Hunk} (follows : Hunk.Contiguous hunks) (content : Bytes) (e : Edit) :
    ∃ map, ofHunks? hunks = some map ∧
      (map.attribute? content e.span = none ↔ Hunk.total hunks = 0) ∧
      (Hunk.total hunks ≠ 0 → ∀ n, 1 ≤ n → ∃! a, Hunk.ReadAs hunks n a) ∧
      ∀ r, map.attribute? content e.span = some r →
        r.firstLine = 1 + breaksBefore content e.span.start ∧
        r.lastLine = 1 + breaksBefore content (min (e.span.start + (e.span.size - 1)) Span.limit) ∧
        LatestShown (Hunk.ReadAs hunks) r.firstLine r.lastLine r.attribution ∧
        ∃ authors, ByAppearance (ByAuthor hunks) r.firstLine r.lastLine authors ∧
          r.contenders = if 2 ≤ authors.length then authors else [] := by
  cases built : ofHunks? hunks with
  | none => exact absurd follows (ofHunksNone.mp built)
  | some map =>
    refine ⟨map, rfl, attributeNone built, fun full n above => ?_, fun r resolved => ?_⟩
    · exact readAsOnce built (Nat.pos_of_ne_zero full) above
    · obtain ⟨first, last, owner, contenders⟩ := attributeSome built resolved
      exact ⟨first.trans (lineOfBreaks _ _), last.trans (lineOfBreaks _ _), owner, contenders⟩

def blamed (byte : UInt8) (name : String) (line : Nat) : Hunk := ⟨⟨⟨List.replicate 20 byte, rfl⟩, name, "x@y"⟩, line, 1⟩

theorem middleLineOwns : ∃ map,
    ofHunks? [blamed 2 "B" 1, blamed 1 "A" 2, blamed 2 "B" 3] = some map ∧
      ∃ r, map.attribute? [120, 10, 121, 10, 122, 10] (.mk 0 5) = some r ∧ r.attribution = (blamed 1 "A" 2).attribution ∧
        r.contenders.length = 2 ∧ r.lastLine = 3 ∧
        LatestShown (Hunk.ReadAs [blamed 2 "B" 1, blamed 1 "A" 2, blamed 2 "B" 3]) 1 3 r.attribution := by
  have follows : Hunk.Contiguous [blamed 2 "B" 1, blamed 1 "A" 2, blamed 2 "B" 3] :=
    Hunk.contiguousFromIff.mp (by decide)
  obtain ⟨map, built, _, _, resolves⟩ := attributeByAppearance follows [120, 10, 121, 10, 122, 10] (.ofNats 0 5 [])
  cases Option.some.inj built
  exact ⟨_, rfl, _, rfl, rfl, rfl, rfl, (resolves _ rfl).2.2.1⟩

end LineMap

end KeepBlame
