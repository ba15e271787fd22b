import KeepBlame.Proofs.Notice
import KeepBlame.Proofs.Trim
import Mathlib.Data.List.TakeWhile

/-! Where a banner ends up. Edits are listed in any order and made in file order, so the first listed edit at the start
of the file, which takes the banner, may stand behind an insertion there; the banner then comes after what is inserted. -/
namespace KeepBlame.Notice
open Edit (onePass onePassFrom)

def atStart (e : Edit) : Bool := e.span.start == 0

theorem foundAtStart {edits : List Edit} {first : Edit} (found : edits.find? atStart = some first) :
    first.span.start = 0 := by
  simpa [atStart] using List.find?_some found

def withBanner (banner : Bytes) (e : Edit) : Edit := { e with content := banner ++ e.content }

inductive Injected (banner : Bytes) (edits : List Edit) : List Edit → Prop where
  | fresh (none : edits.find? atStart = none) : Injected banner edits (⟨⟨0, 0⟩, banner⟩ :: edits)
  | first {before first after} (listed : edits = before ++ first :: after) (found : edits.find? atStart = some first) :
      Injected banner edits (before ++ withBanner banner first :: after)

theorem injected {content banner : Bytes} (absent : isPresent content = false) (full : banner ≠ []) (edits : List Edit) :
    Injected banner edits (inject content banner edits) := by
  have goes : ¬ (banner.isEmpty || isPresent content) = true := by simp [absent, full]
  unfold inject
  rw [if_neg goes]
  cases found : edits.find? atStart with
  | none =>
    have all : edits.takeWhile (·.span.start != 0) = edits := by
      refine List.takeWhile_eq_self_iff.mpr fun e mem => ?_
      simpa [atStart] using List.find?_eq_none.mp found e mem
    simp only [all, List.drop_length]
    exact .fresh found
  | some first =>
    obtain ⟨here, before, after, listed, later⟩ := List.find?_eq_some_iff_append.mp found
    have early : edits.takeWhile (·.span.start != 0) = before := by
      rw [listed, List.takeWhile_append_of_pos fun e mem => by simpa [atStart] using later e mem]
      simpa [atStart] using here
    have rest : edits.drop before.length = first :: after := by rw [listed, List.drop_left]
    simp only [early, rest]
    exact .first listed found

theorem spanZero {s : Span} : s = ⟨0, 0⟩ ↔ s.start = 0 ∧ s.size = 0 := by
  constructor
  · rintro rfl
    exact ⟨rfl, rfl⟩
  · rintro ⟨start, size⟩
    obtain ⟨offset, length⟩ := s
    cases UInt64.toNat_inj.mp (show offset.toNat = (0 : UInt64).toNat from start)
    cases UInt64.toNat_inj.mp (show length.toNat = (0 : UInt64).toNat from size)
    rfl

theorem notBelowZero (s : Span) : ¬ s < ⟨0, 0⟩ := by
  intro less
  rcases Generator.spanLt.mp less with start | ⟨_, size⟩
  · exact Nat.not_lt_zero _ start
  · exact Nat.not_lt_zero _ size

theorem pairwiseSpans {r : Span → Span → Prop} {xs ys : List Edit} (same : xs.map Edit.span = ys.map Edit.span)
    (row : xs.Pairwise fun x y => r x.span y.span) : ys.Pairwise fun x y => r x.span y.span := by
  rw [← List.pairwise_map] at row ⊢
  rwa [← same]

theorem aheadOfStart {xs ys : List Edit} {first : Edit}
    (ascending : (xs ++ first :: ys).Pairwise fun x y => x.span < y.span)
    (apart : (xs ++ first :: ys).Pairwise fun x y => x.span.stop ≤ y.span.start) (here : first.span.start = 0) :
    xs = [] ∨ ∃ e, xs = [e] ∧ e.span = ⟨0, 0⟩ := by
  have origin : ∀ x ∈ xs, x.span = ⟨0, 0⟩ := by
    intro x mem
    have stop := (List.pairwise_append.mp apart).2.2 x mem first List.mem_cons_self
    simp only [Span.stop, Span.limit] at stop
    exact spanZero.mpr (by omega)
  cases xs with
  | nil => exact .inl rfl
  | cons e more =>
    cases more with
    | nil => exact .inr ⟨e, rfl, origin e List.mem_cons_self⟩
    | cons other more =>
      have less : e.span < other.span := List.rel_of_pairwise_cons ascending (List.mem_append_left _ List.mem_cons_self)
      rw [origin other (List.mem_cons_of_mem _ List.mem_cons_self)] at less
      exact absurd less (notBelowZero _)

/-- An insertion at the start of the file, listed behind another edit there. -/
structure Overtaken (edits : List Edit) (e : Edit) : Prop where
  listed : e ∈ edits
  span : e.span = ⟨0, 0⟩
  behind : edits.find? atStart ≠ some e

theorem overtakenFound {edits : List Edit} {e : Edit} (overtaken : Overtaken edits e) : edits.find? atStart ≠ none := by
  intro none
  have away := List.find?_eq_none.mp none e overtaken.listed
  simp [atStart, (spanZero.mp overtaken.span).1] at away

section Places
variable {banner : Bytes} {edits : List Edit} {set : EditSet} (real : ∀ e ∈ edits, e.isNoop = false)
  (accepted : EditSet.ofEdits edits = .ok set)
include real accepted

theorem freshPlace (none : edits.find? atStart = none) (real' : ∀ e ∈ ⟨⟨0, 0⟩, banner⟩ :: edits, e.isNoop = false) :
    ∃ now, EditSet.ofEdits (⟨⟨0, 0⟩, banner⟩ :: edits) = .ok now ∧ now.edits = ⟨⟨0, 0⟩, banner⟩ :: set.edits := by
  have least : ∀ e ∈ set.edits, (⟨0, 0⟩ : Span) < e.span := by
    intro e mem
    have away := List.find?_eq_none.mp none e (EditSet.acceptedReal accepted mem).1
    have other : e.span.start ≠ 0 := by simpa [atStart] using away
    exact Generator.spanLt.mpr (.inl (Nat.pos_of_ne_zero other))
  have ascending : (⟨⟨0, 0⟩, banner⟩ :: set.edits).Pairwise fun x y => x.span < y.span :=
    List.pairwise_cons.mpr ⟨least, EditSet.acceptedAscending accepted⟩
  have apart : (⟨⟨0, 0⟩, banner⟩ :: set.edits).Pairwise fun x y => x.span.stop ≤ y.span.start :=
    List.pairwise_cons.mpr ⟨fun e _ => Nat.zero_le e.span.start, EditSet.acceptedApart accepted⟩
  exact EditSet.ofEditsAscending ((EditSet.acceptedPerm accepted real).symm.cons _) ascending apart real'

variable {before after : List Edit} {first : Edit} (listed : edits = before ++ first :: after)
include listed

theorem firstPlace (real' : ∀ e ∈ before ++ withBanner banner first :: after, e.isNoop = false) :
    ∃ xs ys now, set.edits = xs ++ first :: ys ∧
      EditSet.ofEdits (before ++ withBanner banner first :: after) = .ok now ∧
      now.edits = xs ++ withBanner banner first :: ys := by
  have perm := EditSet.acceptedPerm accepted real
  obtain ⟨xs, ys, split⟩ := List.append_of_mem (perm.mem_iff.mpr (listed ▸ List.mem_append_right _ List.mem_cons_self))
  -- The edit with the banner keeps its span, and so its place.
  have spans : set.edits.map Edit.span = (xs ++ withBanner banner first :: ys).map Edit.span := by
    rw [split]
    simp [withBanner]
  have others : (before ++ after).Perm (xs ++ ys) := by
    rw [listed, split] at perm
    exact (List.perm_middle.symm.trans (perm.symm.trans List.perm_middle)).cons_inv
  have moved : (before ++ withBanner banner first :: after).Perm (xs ++ withBanner banner first :: ys) :=
    List.perm_middle.trans ((others.cons _).trans List.perm_middle.symm)
  have ascending : (xs ++ withBanner banner first :: ys).Pairwise fun x y => x.span < y.span :=
    pairwiseSpans spans (EditSet.acceptedAscending accepted)
  have apart : (xs ++ withBanner banner first :: ys).Pairwise fun x y => x.span.stop ≤ y.span.start :=
    pairwiseSpans (r := fun s t => s.stop ≤ t.start) spans (EditSet.acceptedApart accepted)
  obtain ⟨now, ok, edits⟩ := EditSet.ofEditsAscending moved ascending apart real'
  exact ⟨xs, ys, now, split, ok, edits⟩

omit listed in
theorem overtakenAhead (found : edits.find? atStart = some first) {xs ys : List Edit}
    (split : set.edits = xs ++ first :: ys) (e : Edit) : Overtaken edits e ↔ xs = [e] := by
  have perm := EditSet.acceptedPerm accepted real
  have ascending := EditSet.acceptedAscending accepted
  have apart := EditSet.acceptedApart accepted
  have here := foundAtStart found
  rw [split] at perm ascending apart
  have ahead := aheadOfStart ascending apart here
  obtain ⟨_, later, crossing⟩ := List.pairwise_append.mp ascending
  constructor
  · intro overtaken
    have early : e ∈ xs := by
      rcases List.mem_append.mp (perm.mem_iff.mpr overtaken.listed) with early | late
      · exact early
      · rcases List.mem_cons.mp late with rfl | late
        · exact absurd found overtaken.behind
        · have less := List.rel_of_pairwise_cons later late
          rw [overtaken.span] at less
          exact absurd less (notBelowZero _)
    rcases ahead with rfl | ⟨only, rfl, _⟩
    · cases early
    · rw [List.mem_singleton.mp early]
  · rintro rfl
    have span : e.span = ⟨0, 0⟩ := by
      rcases ahead with none | ⟨only, same, span⟩
      · cases none
      · cases same
        exact span
    refine ⟨perm.mem_iff.mp (List.mem_append_left _ List.mem_cons_self), span, ?_⟩
    rw [found]
    intro same
    have less := crossing e List.mem_cons_self first List.mem_cons_self
    rw [Option.some.inj same] at less
    exact Ordered.ltIrrefl _ less

end Places

theorem onePassBanner {first : Edit} (here : first.span.start = 0) (content banner : Bytes) (rest : List Edit) :
    onePassFrom 0 content (withBanner banner first :: rest) = banner ++ onePassFrom 0 content (first :: rest) := by
  simp [onePassFrom, withBanner, here]

theorem onePassInsertion {e : Edit} (span : e.span = ⟨0, 0⟩) (content : Bytes) (rest : List Edit) :
    onePassFrom 0 content (e :: rest) = e.content ++ onePassFrom 0 content rest := by
  have start := (spanZero.mp span).1
  have stop : e.span.stop = 0 := by rw [span]; rfl
  simp [onePassFrom, start, stop]

section Injection
variable {content banner : Bytes} {edits : List Edit} {set : EditSet} (absent : isPresent content = false)
  (full : banner ≠ []) (real : ∀ e ∈ edits, e.isNoop = false) (accepted : EditSet.ofEdits edits = .ok set)
include absent full real accepted

theorem bannerPlaced : ∃ now early late, EditSet.ofEdits (inject content banner edits) = .ok now ∧
    onePass content edits = early ++ late ∧ onePass content (inject content banner edits) = early ++ (banner ++ late) ∧
    (∀ e, Overtaken edits e → early = e.content) ∧ (early = [] ∨ ∃ e, Overtaken edits e) := by
  have real' : ∀ e ∈ inject content banner edits, e.isNoop = false := fun e => injectReal real
  have goes := injected absent full edits
  generalize inject content banner edits = result at real' goes ⊢
  rw [EditSet.onePassWhole accepted]
  cases goes with
  | fresh none =>
    obtain ⟨now, ok, order⟩ := freshPlace real accepted none real'
    refine ⟨now, [], _, ok, rfl, ?_, fun e overtaken => absurd none (overtakenFound overtaken), .inl rfl⟩
    rw [EditSet.onePassWhole ok, order, onePassInsertion rfl]
    rfl
  | @first before first after listed found =>
    have here := foundAtStart found
    obtain ⟨xs, ys, now, split, ok, order⟩ := firstPlace real accepted listed real'
    have ahead := overtakenAhead real accepted found split
    have ascending := EditSet.acceptedAscending accepted
    have apart := EditSet.acceptedApart accepted
    rw [split] at ascending apart
    rw [EditSet.onePassWhole ok, order, split]
    rcases aheadOfStart ascending apart here with rfl | ⟨e, rfl, span⟩
    · refine ⟨now, [], _, ok, rfl, onePassBanner here content banner ys, fun e overtaken => ?_, .inl rfl⟩
      cases (ahead e).mp overtaken
    · refine ⟨now, e.content, _, ok, onePassInsertion span content (first :: ys), ?_, fun other overtaken => ?_,
        .inr ⟨e, (ahead e).mpr rfl⟩⟩
      · rw [List.singleton_append, onePassInsertion span, onePassBanner here]
      · cases (ahead other).mp overtaken
        rfl

/-- The edits with the banner are accepted too. The banner comes first, ahead of all that was made before, unless an
insertion was overtaken whose content reads differently on the other side of the banner; that cannot be where the edits
are listed in file order. -/
theorem bannerFirstIff :
    (∃ now, EditSet.ofEdits (inject content banner edits) = .ok now) ∧
    (onePass content (inject content banner edits) = banner ++ onePass content edits ↔
      ∀ e, Overtaken edits e → e.content ++ banner = banner ++ e.content) ∧
    (∀ e, Overtaken edits e → ∃ late, onePass content edits = e.content ++ late ∧
      onePass content (inject content banner edits) = e.content ++ (banner ++ late)) ∧
    ((edits.Pairwise fun x y => x.span < y.span) → ∀ e, ¬ Overtaken edits e) := by
  obtain ⟨now, early, late, ok, before, after, overtaken, cases⟩ := bannerPlaced absent full real accepted
  refine ⟨⟨now, ok⟩, ?_, fun e is => ⟨late, overtaken e is ▸ before, overtaken e is ▸ after⟩, ?_⟩
  · have commutes : onePass content (inject content banner edits) = banner ++ onePass content edits ↔
        early ++ banner = banner ++ early := by
      rw [before, after, ← List.append_assoc, ← List.append_assoc, List.append_left_inj]
    rw [commutes]
    constructor
    · intro same e is
      rwa [← overtaken e is]
    · intro all
      rcases cases with rfl | ⟨e, is⟩
      · exact (List.append_nil banner).symm
      · rw [overtaken e is]
        exact all e is
  · rintro ascending e ⟨listed, span, behind⟩
    obtain ⟨xs, ys, rfl⟩ := List.append_of_mem listed
    -- Nothing comes before an insertion at the start, so it is also the first listed.
    cases xs with
    | nil =>
      refine behind (List.find?_cons_of_pos ?_)
      simp [atStart, (spanZero.mp span).1]
    | cons x xs =>
      have less : x.span < e.span := List.rel_of_pairwise_cons ascending (List.mem_append_right _ List.mem_cons_self)
      rw [span] at less
      exact notBelowZero _ less

end Injection

theorem listedFirstGetsBanner :
    ∃ now, EditSet.ofEdits (inject [97, 98, 99] [66] [.ofNats 2 1 [122], .ofNats 0 0 [121], .ofNats 0 1 [120]]) = .ok now ∧
      onePass [97, 98, 99] (inject [97, 98, 99] [66] [.ofNats 2 1 [122], .ofNats 0 0 [121], .ofNats 0 1 [120]]) =
        66 :: onePass [97, 98, 99] [.ofNats 2 1 [122], .ofNats 0 0 [121], .ofNats 0 1 [120]] := by
  obtain ⟨⟨now, ok⟩, first, _⟩ := @bannerFirstIff [97, 98, 99] [66]
    [.ofNats 2 1 [122], .ofNats 0 0 [121], .ofNats 0 1 [120]] _ (by decide) (by decide) (by decide) rfl
  refine ⟨now, ok, first.mpr ?_⟩
  rintro e ⟨listed, span, behind⟩
  simp only [List.mem_cons, List.not_mem_nil, or_false] at listed
  rcases listed with rfl | rfl | rfl
  · cases span
  · exact absurd rfl behind
  · cases span

theorem insertionBeforeBanner :
    isPresent [97, 98] = false ∧
      (∀ e ∈ [Edit.ofNats 0 2 [120], .ofNats 0 0 [121]], e.isNoop = false ∧ e.span.stop ≤ 2) ∧
      (∃ set, EditSet.ofEdits [.ofNats 0 2 [120], .ofNats 0 0 [121]] = .ok set) ∧
      onePass [97, 98] [.ofNats 0 2 [120], .ofNats 0 0 [121]] = [121, 120] ∧
      onePass [97, 98] (inject [97, 98] [66] [.ofNats 0 2 [120], .ofNats 0 0 [121]]) = [121, 66, 120] := by
  exact ⟨by decide, by decide, ⟨_, rfl⟩, by decide, by decide⟩

end KeepBlame.Notice
