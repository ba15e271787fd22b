import KeepBlame.Blame.Snapshot
import KeepBlame.Proofs.Porcelain

/-! Which lines the hunks of a blame cover. The reader holds the headers to the number of echoed lines and takes their
line numbers as they are, so hunks come in line order just where the headers do. -/
namespace KeepBlame

namespace Hunk

def total (hunks : List Hunk) : Nat := hunks.foldr (fun h n => h.lineCount + n) 0

theorem totalCons (h : Hunk) (rest : List Hunk) : total (h :: rest) = h.lineCount + total rest := rfl

def Contiguous (hunks : List Hunk) : Prop := ∀ i h, hunks[i]? = some h → h.startLine = 1 + total (hunks.take i)

def Covers (h : Hunk) (n : Nat) : Prop := h.startLine ≤ n ∧ n < h.startLine + h.lineCount

theorem contiguousFromCons {next : Nat} {first : Hunk} {rest : List Hunk} :
    contiguousFrom next (first :: rest) = true ↔
      first.startLine = next ∧ contiguousFrom (next + first.lineCount) rest = true := by
  simp only [contiguousFrom, Bool.and_eq_true, beq_iff_eq]

theorem contiguousFromIff {next : Nat} {hunks : List Hunk} :
    contiguousFrom next hunks = true ↔ ∀ i h, hunks[i]? = some h → h.startLine = next + total (hunks.take i) := by
  induction hunks generalizing next with
  | nil => simp [contiguousFrom]
  | cons first rest ih =>
    rw [contiguousFromCons, ih]
    constructor
    · rintro ⟨here, later⟩ i h found
      cases i with
      | zero =>
        cases Option.some.inj found
        exact here
      | succ i =>
        rw [later i h found, List.take_succ_cons, totalCons, Nat.add_assoc]
    · intro all
      refine ⟨all 0 first rfl, fun i h found => ?_⟩
      rw [all (i + 1) h found, List.take_succ_cons, totalCons, Nat.add_assoc]

theorem contiguousFromLe {next : Nat} {hunks : List Hunk} (follows : contiguousFrom next hunks = true) {h : Hunk}
    (mem : h ∈ hunks) : next ≤ h.startLine := by
  obtain ⟨i, found⟩ := List.mem_iff_getElem?.mp mem
  rw [contiguousFromIff.mp follows i h found]
  exact Nat.le_add_right _ _

theorem coveredOnce {next : Nat} {hunks : List Hunk} (follows : contiguousFrom next hunks = true) {n : Nat}
    (above : next ≤ n) (below : n < next + total hunks) : ∃! i : Nat, ∃ h : Hunk, hunks[i]? = some h ∧ h.Covers n := by
  induction hunks generalizing next with
  | nil => exact absurd below (Nat.not_lt.mpr above)
  | cons first rest ih =>
    obtain ⟨here, later⟩ := contiguousFromCons.mp follows
    by_cases inside : n < next + first.lineCount
    · refine ⟨0, ⟨first, rfl, by omega, by omega⟩, ?_⟩
      rintro j ⟨h, found, start, _⟩
      cases j with
      | zero => rfl
      | succ j =>
        have := contiguousFromLe later (List.mem_of_getElem? found)
        omega
    · rw [totalCons] at below
      obtain ⟨i, covered, only⟩ := ih later (by omega) (by omega)
      refine ⟨i + 1, covered, ?_⟩
      rintro j ⟨h, found, covers⟩
      cases j with
      | zero =>
        cases Option.some.inj found
        unfold Covers at covers
        omega
      | succ j => rw [only j ⟨h, found, covers⟩]

def spread (hunks : List Hunk) : List Attribution := hunks.flatMap fun h => List.replicate h.lineCount h.attribution

theorem spreadLength (hunks : List Hunk) : (spread hunks).length = total hunks := by
  induction hunks with
  | nil => rfl
  | cons h rest ih =>
    rw [totalCons, ← ih, spread, List.flatMap_cons, List.length_append, List.length_replicate]
    rfl

theorem spreadAt {next : Nat} {hunks : List Hunk} (follows : contiguousFrom next hunks = true) {h : Hunk}
    (mem : h ∈ hunks) {n : Nat} (covers : h.Covers n) : (spread hunks)[n - next]? = some h.attribution := by
  induction hunks generalizing next with
  | nil => cases mem
  | cons first rest ih =>
    obtain ⟨here, later⟩ := contiguousFromCons.mp follows
    obtain ⟨above, below⟩ := covers
    rw [spread, List.flatMap_cons]
    rcases List.mem_cons.mp mem with rfl | mem
    · rw [List.getElem?_append_left (by rw [List.length_replicate]; omega), List.getElem?_replicate, if_pos (by omega)]
    · have start := contiguousFromLe later mem
      rw [List.getElem?_append_right (by rw [List.length_replicate]; omega), List.length_replicate, Nat.sub_sub]
      exact ih later mem

end Hunk

namespace LineMap

theorem ofHunksNone {hunks : List Hunk} : ofHunks? hunks = none ↔ ¬ Hunk.Contiguous hunks := by
  unfold ofHunks? Hunk.Contiguous
  rw [← Hunk.contiguousFromIff]
  split <;> simp [*]

theorem builtLines {hunks : List Hunk} {map : LineMap} (built : ofHunks? hunks = some map) :
    Hunk.contiguousFrom 1 hunks = true ∧ map.lines = Hunk.spread hunks := by
  unfold ofHunks? at built
  split at built
  · rename_i follows
    cases Option.some.inj built
    exact ⟨follows, rfl⟩
  · cases built

theorem ofHunksSome {hunks : List Hunk} {map : LineMap} (ok : ofHunks? hunks = some map) :
    map.size = Hunk.total hunks ∧ ∀ n, 1 ≤ n → n ≤ Hunk.total hunks →
      ∃! i : Nat, ∃ h : Hunk, hunks[i]? = some h ∧ h.Covers n ∧ map.line? n = some h.attribution := by
  obtain ⟨follows, lines⟩ := builtLines ok
  refine ⟨by rw [size, lines, Hunk.spreadLength], fun n above below => ?_⟩
  obtain ⟨i, ⟨h, found, covers⟩, only⟩ := Hunk.coveredOnce follows above (by omega)
  have known := Hunk.spreadAt follows (List.mem_of_getElem? found) covers
  refine ⟨i, ⟨h, found, covers, ?_⟩, fun j ⟨g, there, covers, _⟩ => only j ⟨g, there, covers⟩⟩
  simp only [line?, lines, known]
  rfl

end LineMap

namespace Porcelain

def echoes (ls : List (List Char)) : Nat := ls.countP fun line => line.head? == some '\t'

def opens? (line : List Char) : Option LineGroup :=
  if line.head? = some '\t' then none
  else
    match header? line with
    | some (.ok h) => h.count.map fun n => ⟨h.commit, h.finalLine, n⟩
    | _ => none

theorem stepCounts {r next : Reading} {line : List Char} (ok : r.step line = .ok next) :
    next.groups = r.groups ++ (opens? line).toList ∧ next.echoed = r.echoed + echoes [line] := by
  rcases Reading.stepCases ok with ⟨tab, rfl⟩ | ⟨plain, h, is, rfl⟩ | ⟨plain, other, commit, rfl⟩
  · simp [opens?, echoes, tab]
  · simp [opens?, echoes, plain, is, Reading.header]
  · simp [opens?, echoes, plain, other, Reading.metadataGroups, Reading.metadataEchoed]

theorem linesCount {r next : Reading} {ls : List (List Char)} (ok : ls.foldlM Reading.step r = .ok next) :
    next.groups = r.groups ++ ls.filterMap opens? ∧ next.echoed = r.echoed + echoes ls := by
  induction ls generalizing r with
  | nil =>
    cases Except.ok.inj ok
    simp [echoes]
  | cons line rest ih =>
    rw [List.foldlM_cons] at ok
    cases step : r.step line with
    | error e =>
      rw [step] at ok
      cases ok
    | ok middle =>
      rw [step] at ok
      obtain ⟨groups, echoed⟩ := stepCounts step
      obtain ⟨later, count⟩ := ih ok
      constructor
      · rw [later, groups, List.append_assoc, List.filterMap_cons]
        cases opens? line <;> rfl
      · rw [count, echoed, Nat.add_assoc]
        simp [echoes, List.countP_cons, Nat.add_comm]

def groupOf (h : Hunk) : LineGroup := ⟨h.attribution.commit, h.startLine, h.lineCount⟩

theorem hunkGroup {r : Reading} {g : LineGroup} {h : Hunk} (ok : r.hunk g = .ok h) : groupOf h = g := by
  unfold Reading.hunk at ok
  split at ok
  · cases Except.ok.inj ok
    rfl
  · cases ok

theorem hunksGroups {r : Reading} {gs : List LineGroup} {hunks : List Hunk} (ok : gs.mapM r.hunk = .ok hunks) :
    hunks.map groupOf = gs := by
  induction gs generalizing hunks with
  | nil =>
    cases Except.ok.inj ok
    rfl
  | cons g rest ih =>
    rw [List.mapM_cons] at ok
    cases first : r.hunk g with
    | error e =>
      rw [first] at ok
      cases ok
    | ok h =>
      cases later : rest.mapM r.hunk with
      | error e =>
        rw [first, later] at ok
        cases ok
      | ok others =>
        rw [first, later] at ok
        cases Except.ok.inj ok
        rw [List.map_cons, hunkGroup first, ih later]

theorem readHunks {text : List Char} {hunks : List Hunk} (ok : read text = .ok hunks) :
    hunks.map groupOf = (Text.lines text).filterMap opens? ∧ Hunk.total hunks = echoes (Text.lines text) := by
  unfold read at ok
  cases final : (Text.lines text).foldlM Reading.step {} with
  | error e =>
    rw [final] at ok
    cases ok
  | ok r =>
    rw [final] at ok
    change r.hunks = .ok hunks at ok
    unfold Reading.hunks at ok
    split at ok
    · rename_i balanced
      obtain ⟨groups, echoed⟩ := linesCount final
      have same := hunksGroups ok
      refine ⟨same.trans groups, ?_⟩
      have declared : Hunk.total hunks = r.declared := by
        rw [Reading.declared, ← same, List.foldr_map]
        rfl
      rw [declared, balanced, echoed]
      exact Nat.zero_add _
    · cases ok

end Porcelain

theorem Git.Repository.blameRead {r : Git.Repository} {revision : CommitId} {path : Path} {hunks : List Hunk}
    (ok : r.blame revision path = .ok hunks) : Porcelain.read (r.blameReply revision path).text = .ok hunks := by
  unfold Git.Repository.blame at ok
  dsimp only at ok
  split at ok
  · split at ok
    · rename_i read
      rw [read, Except.ok.inj ok]
    · cases ok
  · split at ok <;> cases ok

namespace Snapshot

def echoedBy (reply : Reply) : Nat := Porcelain.echoes (Text.lines reply.text)

inductive Taken (r : Git.Repository) (d : Disk) (revision : CommitId) (p : Path) : Snapshot → Prop
  | outside (away : r.pathInTree? d p = none) : Taken r d revision p (unavailable .outsideRepository)
  | refused {inTree e} (here : r.pathInTree? d p = some inTree) (failed : r.blame revision inTree = .error e) :
      Taken r d revision p (unavailable (.git e))
  | empty {inTree hunks} (here : r.pathInTree? d p = some inTree)
      (read : Porcelain.read (r.blameReply revision inTree).text = .ok hunks) (follows : Hunk.Contiguous hunks)
      (bare : echoedBy (r.blameReply revision inTree) = 0) : Taken r d revision p (unavailable .noHistory)
  | full {inTree hunks map} (here : r.pathInTree? d p = some inTree)
      (read : Porcelain.read (r.blameReply revision inTree).text = .ok hunks) (follows : Hunk.Contiguous hunks)
      (filled : 0 < map.size) (size : map.size = echoedBy (r.blameReply revision inTree)) :
      Taken r d revision p (lines map)
  | panicked {inTree hunks} (here : r.pathInTree? d p = some inTree)
      (read : Porcelain.read (r.blameReply revision inTree).text = .ok hunks) (apart : ¬ Hunk.Contiguous hunks) :
      Taken r d revision p (panicked .hunksOutOfOrder)

theorem taken (r : Git.Repository) (d : Disk) (revision : CommitId) (p : Path) :
    Taken r d revision p (take r d revision p) := by
  unfold take
  cases here : r.pathInTree? d p with
  | none => exact .outside here
  | some inTree =>
    dsimp only
    cases blamed : r.blame revision inTree with
    | error e => exact .refused here blamed
    | ok hunks =>
      have read := Git.Repository.blameRead blamed
      dsimp only [ofHunks]
      cases built : LineMap.ofHunks? hunks with
      | none => exact .panicked here read (LineMap.ofHunksNone.mp built)
      | some map =>
        have follows : Hunk.Contiguous hunks := by
          by_contra apart
          rw [LineMap.ofHunksNone.mpr apart] at built
          cases built
        have size : map.size = echoedBy (r.blameReply revision inTree) :=
          (LineMap.ofHunksSome built).1.trans (Porcelain.readHunks read).2
        dsimp only
        split
        · rename_i zero
          exact .empty here read follows (size.symm.trans zero)
        · rename_i more
          exact .full here read follows (Nat.pos_of_ne_zero more) size

theorem coversWhereContiguous (text : List Char) (r : Git.Repository) (d : Disk) (revision : CommitId) (p : Path) :
    (∀ hunks, Porcelain.read text = .ok hunks →
      hunks.map Porcelain.groupOf = (Text.lines text).filterMap Porcelain.opens? ∧
      Hunk.total hunks = Porcelain.echoes (Text.lines text) ∧
      (LineMap.ofHunks? hunks = none ↔ ¬ Hunk.Contiguous hunks) ∧
      ∀ map, LineMap.ofHunks? hunks = some map →
        map.size = Porcelain.echoes (Text.lines text) ∧
        ∀ n, 1 ≤ n → n ≤ Porcelain.echoes (Text.lines text) →
          ∃! i : Nat, ∃ h : Hunk, hunks[i]? = some h ∧ h.Covers n ∧ map.line? n = some h.attribution) ∧
    Taken r d revision p (take r d revision p) := by
  refine ⟨fun hunks ok => ?_, taken r d revision p⟩
  obtain ⟨groups, total⟩ := Porcelain.readHunks ok
  rw [← total]
  exact ⟨groups, rfl, LineMap.ofHunksNone, fun map built => LineMap.ofHunksSome built⟩

def blamedCommit : CommitId := ⟨List.replicate 20 0x11, rfl⟩

def blamedBy : Attribution := ⟨blamedCommit, "A", "a@x"⟩

def twoHunks : List Char :=
  ["1111111111111111111111111111111111111111 4 1 2", "author A", "author-mail <a@x>", "\ta",
    "1111111111111111111111111111111111111111 5 2", "\tb",
    "1111111111111111111111111111111111111111 9 3 1", "\tc"].flatMap (·.toList ++ ['\n'])

def blamedTree (blame : List Char) : Git.Repository where
  workTree := ⟨"/w"⟩
  script := { blame := [("f.c", { out := Utf8.encode blame })] }

theorem twoHunksCovered :
    Porcelain.read twoHunks = .ok [⟨blamedBy, 1, 2⟩, ⟨blamedBy, 3, 1⟩] ∧
      (∃ map, LineMap.ofHunks? [⟨blamedBy, 1, 2⟩, ⟨blamedBy, 3, 1⟩] = some map ∧ map.size = 3 ∧
        ∃! i : Nat, ∃ h : Hunk,
          [⟨blamedBy, 1, 2⟩, ⟨blamedBy, 3, 1⟩][i]? = some h ∧ h.Covers 2 ∧ map.line? 2 = some h.attribution) ∧
      Taken (blamedTree twoHunks) {} blamedCommit ⟨"/w/f.c"⟩ (take (blamedTree twoHunks) {} blamedCommit ⟨"/w/f.c"⟩) := by
  have read : Porcelain.read twoHunks = .ok [⟨blamedBy, 1, 2⟩, ⟨blamedBy, 3, 1⟩] := by decide +kernel
  have three : Porcelain.echoes (Text.lines twoHunks) = 3 := by decide +kernel
  obtain ⟨covers, snapshot⟩ := coversWhereContiguous twoHunks (blamedTree twoHunks) {} blamedCommit ⟨"/w/f.c"⟩
  obtain ⟨_, _, _, covered⟩ := covers _ read
  obtain ⟨size, once⟩ := covered ⟨[blamedBy, blamedBy, blamedBy]⟩ rfl
  exact ⟨read, ⟨_, rfl, size.trans three, once 2 (by decide) (by rw [three]; decide)⟩, snapshot⟩

def lateStart : List Char :=
  ["1111111111111111111111111111111111111111 1 2 1", "author A", "author-mail <a@x>", "\ta"].flatMap (·.toList ++ ['\n'])

theorem lateStartDisordered :
    Porcelain.read lateStart = .ok [⟨blamedBy, 2, 1⟩] ∧ Porcelain.echoes (Text.lines lateStart) = 1 ∧
      ¬ Hunk.Contiguous [⟨blamedBy, 2, 1⟩] ∧ LineMap.ofHunks? [⟨blamedBy, 2, 1⟩] = none ∧
      take (blamedTree lateStart) {} blamedCommit ⟨"/w/f.c"⟩ = panicked .hunksOutOfOrder := by
  refine ⟨by decide +kernel, by decide +kernel, fun follows => ?_, rfl, by decide +kernel⟩
  have first : (2 : Nat) = 1 := follows 0 ⟨blamedBy, 2, 1⟩ rfl
  cases first

end Snapshot
end KeepBlame
