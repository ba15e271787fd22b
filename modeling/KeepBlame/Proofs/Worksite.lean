import KeepBlame.Proofs.AnyOrder
import KeepBlame.Proofs.Disk
import KeepBlame.Proofs.Journal
import KeepBlame.Proofs.Schedule

/-! Batches at work. After the batches of a plan, as far as they have been made, each file holds the one-pass application
of its edits in them, and the others are pending; git sees no other state than those between two batches. -/
namespace KeepBlame

namespace PendingFiles

theorem getMap (files : PendingFiles) (p q : Path) (set : EditSet) :
    get? (files.map fun f => if f.1.same p then (f.1, set) else f) q =
      if p.same q then (get? files q).map fun _ => set else get? files q := by
  unfold get?
  induction files with
  | nil => simp
  | cons f rest ih =>
    simp only [Path.same, beq_iff_eq, List.map_cons, List.find?_cons] at ih ⊢
    by_cases here : f.1.components = p.components <;> by_cases there : f.1.components = q.components
    · simp [here, ← there]
    · have other : p.components ≠ q.components := here ▸ there
      simp only [here, if_true, beq_false_of_ne other, ih, if_neg other]
    · have other : p.components ≠ q.components := fun same => here (there.trans same.symm)
      rw [if_neg here, if_neg other]
      simp only [there, beq_self_eq_true]
    · simp only [here, if_false, beq_false_of_ne there, ih]

theorem getPut (files : PendingFiles) (p q : Path) (set : EditSet) :
    get? (put files p set) q = if p.same q then some set else get? files q := by
  unfold put
  split
  · rename_i held
    rw [getMap]
    split
    · rename_i same
      have alike : get? files q = get? files p := by
        simp only [Path.same, beq_iff_eq] at same
        simp only [get?, Path.same, same]
      obtain ⟨old, found⟩ := Option.isSome_iff_exists.mp held
      rw [alike, found]
      rfl
    · rfl
  · rename_i absent
    have missing : files.find? (·.1.same p) = none := by
      simpa [get?] using absent
    simp only [get?, List.find?_append, Option.map_or]
    by_cases same : p.components = q.components
    · simp only [Path.same, same] at missing
      simp [missing, Path.same, same]
    · simp [Path.same, same]

end PendingFiles

namespace Worksite
open FileEdits (idsOf)
open EditSet (Ready Reached)
open Run (scheduled)

structure Home (disk : Disk) (entry : Path × Generated) (place : Place) (pristine : Bytes) : Prop where
  located : disk.locate entry.1 true = .ok place
  file : disk.node? place = some (.file pristine)
  ready : Ready pristine entry.2.set
  accepted : ∃ edits, EditSet.ofEdits edits = .ok entry.2.set

structure Site (disk : Disk) (entries : List (Path × Generated)) : Prop where
  apart : entries.Pairwise fun a b => ∀ place, disk.locate a.1 true = .ok place → disk.locate b.1 true ≠ .ok place
  homes : ∀ entry ∈ entries, ∃ place pristine, Home disk entry place pristine

structure Underway (disk : Disk) (entries : List (Path × Generated)) (made : Path → List Span) (w : Worksite) :
    Prop where
  shape : Disk.SameShape w.disk disk
  files : ∀ entry ∈ entries, ∀ place pristine, Home disk entry place pristine →
    ∃ bytes now, w.disk.node? place = some (.file bytes) ∧ w.pending.get? entry.1 = some now ∧
      Reached pristine entry.2.set (made entry.1) now ⟨bytes, 0⟩

theorem placeUnique {disk : Disk} {entries : List (Path × Generated)} (site : Site disk entries)
    {a b : Path × Generated} (left : a ∈ entries) (right : b ∈ entries) {place : Place}
    (here : disk.locate a.1 true = .ok place) (there : disk.locate b.1 true = .ok place) : a = b := by
  by_contra different
  have : Std.Symm fun a b : Path × Generated =>
      ∀ place, disk.locate a.1 true = .ok place → disk.locate b.1 true ≠ .ok place :=
    ⟨fun _ _ apart place second first => apart place first second⟩
  exact site.apart.forall left right different place here there

theorem otherPath {disk : Disk} {entries : List (Path × Generated)} (site : Site disk entries)
    {a b : Path × Generated} (left : a ∈ entries) (right : b ∈ entries) (other : a ≠ b) : a.1.same b.1 = false := by
  rw [Bool.eq_false_iff]
  intro same
  obtain ⟨place, _, home⟩ := site.homes a left
  obtain ⟨place', _, home'⟩ := site.homes b right
  cases Disk.locateSame same home.located home'.located
  exact other (placeUnique site left right home.located home'.located)

theorem stillThere {disk : Disk} {entries : List (Path × Generated)} {made : Path → List Span} {w : Worksite}
    (state : Underway disk entries made w) {entry : Path × Generated} {place : Place} {pristine : Bytes}
    (home : Home disk entry place pristine) : w.disk.locate entry.1 true = .ok place :=
  (Disk.locateSameShape state.shape entry.1 true).trans home.located

theorem editUnderway {disk : Disk} {entries : List (Path × Generated)} {made : Path → List Span} {w : Worksite}
    (site : Site disk entries) (state : Underway disk entries made w) {entry : Path × Generated} (mem : entry ∈ entries)
    {place : Place} {pristine : Bytes} (home : Home disk entry place pristine) {ids : List Span} {after : EditSet}
    {target : Stream} (final : Reached pristine entry.2.set (made entry.1 ++ ids) after target) :
    Underway disk entries (fun p => made p ++ idsOf p [⟨entry.1, ids⟩]) (w.edit entry.1 place after target.bytes) := by
  obtain ⟨bytes, _, node, _⟩ := state.files entry mem place pristine home
  refine ⟨Disk.sameShapeTrans (Disk.writeSameShape node _) state.shape, ?_⟩
  intro other listed place' pristine' home'
  simp only [edit, Disk.writeNode node, PendingFiles.getPut, idsOf, List.filter_cons, List.filter_nil]
  by_cases here : other = entry
  · subst here
    cases Except.ok.inj (home.located.symm.trans home'.located)
    cases home.file.symm.trans home'.file
    have same : other.1.same other.1 = true := by simp [Path.same]
    refine ⟨target.bytes, after, if_pos rfl, if_pos same, ?_⟩
    simp only [same, if_true, List.flatMap_cons, List.flatMap_nil, List.append_nil]
    exact ⟨final.left, final.bytes⟩
  · -- The write was to another place, and the set was put under another path.
    have away : place' ≠ place := by
      rintro rfl
      exact here (placeUnique site listed mem home'.located home.located)
    have apart := otherPath site mem listed (Ne.symm here)
    obtain ⟨old, set, file, found, kept⟩ := state.files other listed place' pristine' home'
    refine ⟨old, set, (if_neg away).trans file, ?_, ?_⟩
    · simpa [apart] using found
    · simpa [apart] using kept

theorem applyFileUnderway {disk : Disk} {entries : List (Path × Generated)} {made : Path → List Span} {w : Worksite}
    (site : Site disk entries) (state : Underway disk entries made w) {entry : Path × Generated} (mem : entry ∈ entries)
    {f : FileEdits} (path : f.path = entry.1) (known : ∀ id ∈ f.ids, id ∈ entry.2.set.ids)
    (fresh : (made entry.1 ++ f.ids).Nodup) :
    (∃ next, w.applyFile f = (.ok (), next) ∧ Underway disk entries (fun p => made p ++ idsOf p [f]) next ∧
      next.repository = w.repository) ∨
    ∃ e, disk.Refuses f.path e ∧ w.applyFile f = (.error (.cannotOpen f.path e), w) := by
  obtain ⟨place, pristine, home⟩ := site.homes entry mem
  obtain ⟨bytes, now, node, pending, reached⟩ := state.files entry mem place pristine home
  obtain ⟨p, ids⟩ := f
  cases path
  have opened := Disk.openFileHere (stillThere state home) node
  rw [state.shape.refusals] at opened
  unfold applyFile
  simp only [pending, opened]
  cases refused : disk.refusals.lookup place with
  | some e => exact .inr ⟨e, ⟨place, home.located, refused⟩, rfl⟩
  | none =>
    obtain ⟨after, target, run, final⟩ := EditSet.applyIdsReached home.ready reached known fresh
    simp only [run]
    exact .inl ⟨_, rfl, editUnderway site state mem home final, rfl⟩

structure Fits (entries : List (Path × Generated)) (made : Path → List Span) (files : List FileEdits) : Prop where
  paths : ∀ f ∈ files, ∃ entry ∈ entries, f.path = entry.1
  known : ∀ entry ∈ entries, ∀ id ∈ idsOf entry.1 files, id ∈ entry.2.set.ids
  fresh : ∀ entry ∈ entries, (made entry.1 ++ idsOf entry.1 files).Nodup

theorem idsOfCons (p : Path) (f : FileEdits) (rest : List FileEdits) :
    idsOf p (f :: rest) = idsOf p [f] ++ idsOf p rest := by
  simp only [idsOf, ← List.flatMap_append, ← List.filter_append, List.singleton_append]

theorem idsOfSame {p : Path} {f : FileEdits} (path : f.path = p) : idsOf p [f] = f.ids := by
  simp [idsOf, path, Path.same]

inductive FilesEnd (disk : Disk) (files : List FileEdits) : List FileEdits → Outcome ApplyCause Unit → Prop where
  | done : FilesEnd disk files files (.ok ())
  | closed {early late : List FileEdits} {f : FileEdits} {e : OsError} (split : files = early ++ f :: late)
      (refuses : disk.Refuses f.path e) : FilesEnd disk files early (.error (.cannotOpen f.path e))

theorem filesEndCons {disk : Disk} {rest early : List FileEdits} {outcome : Outcome ApplyCause Unit} (f : FileEdits)
    (ends : FilesEnd disk rest early outcome) : FilesEnd disk (f :: rest) (f :: early) outcome := by
  cases ends with
  | done => exact .done
  | closed split refuses => exact .closed (congrArg (f :: ·) split) refuses

theorem applyFilesUnderway {disk : Disk} {entries : List (Path × Generated)} {made : Path → List Span} {w : Worksite}
    {files : List FileEdits} (site : Site disk entries) (state : Underway disk entries made w)
    (fits : Fits entries made files) :
    ∃ early outcome next, w.applyFiles files = (outcome, next) ∧ FilesEnd disk files early outcome ∧
      Underway disk entries (fun p => made p ++ idsOf p early) next ∧ next.repository = w.repository := by
  induction files generalizing made w with
  | nil => exact ⟨[], .ok (), w, rfl, .done, by simpa [idsOf] using state, rfl⟩
  | cons f rest ih =>
    obtain ⟨entry, mem, path⟩ := fits.paths f List.mem_cons_self
    have known := fits.known
    have fresh := fits.fresh
    simp only [idsOfCons _ f rest, List.mem_append, ← List.append_assoc] at known fresh
    have first := fresh entry mem
    rw [idsOfSame path] at first
    rcases applyFileUnderway site state mem path (fun id inside => known entry mem id (.inl (idsOfSame path ▸ inside)))
      first.of_append_left with ⟨next, step, later, kept⟩ | ⟨e, refuses, step⟩
    · have fits' : Fits entries (fun p => made p ++ idsOf p [f]) rest :=
        ⟨fun g inside => fits.paths g (List.mem_cons_of_mem f inside),
          fun other mem' id inside => known other mem' id (.inr inside), fresh⟩
      obtain ⟨early, outcome, last, run, ends, final, kept'⟩ := ih later fits'
      refine ⟨f :: early, outcome, last, by simp only [applyFiles, step, run], filesEndCons f ends, ?_, kept'.trans kept⟩
      simp only [idsOfCons _ f early, ← List.append_assoc]
      exact final
    · refine ⟨[], _, w, by simp only [applyFiles, step], .closed (List.nil_append _).symm refuses, ?_, rfl⟩
      simpa [idsOf] using state

structure Plan (entries : List (Path × Generated)) (batches : List Batch) : Prop where
  paths : ∀ b ∈ batches, ∀ f ∈ b.files, ∃ entry ∈ entries, f.path = entry.1
  known : ∀ entry ∈ entries, ∀ id ∈ scheduled entry.1 batches, id ∈ entry.2.set.ids
  fresh : ∀ entry ∈ entries, (scheduled entry.1 batches).Nodup

theorem scheduledAppend (p : Path) (done : List Batch) (b : Batch) :
    scheduled p (done ++ [b]) = scheduled p done ++ idsOf p b.files := by
  simp [scheduled]

theorem planFits {entries : List (Path × Generated)} {done rest : List Batch} {b : Batch}
    (plan : Plan entries (done ++ b :: rest)) : Fits entries (scheduled · done) b.files := by
  have split : ∀ p, scheduled p (done ++ b :: rest) = scheduled p done ++ idsOf p b.files ++ scheduled p rest := by
    intro p
    simp [scheduled]
  refine ⟨plan.paths b (by simp), ?_, ?_⟩
  · intro entry mem id inside
    refine plan.known entry mem id ?_
    rw [split]
    exact List.mem_append_left _ (List.mem_append_right _ inside)
  · intro entry mem
    have fresh := plan.fresh entry mem
    rw [split] at fresh
    exact fresh.of_append_left

def Made (disk : Disk) (entries : List (Path × Generated)) (batches : List Batch) (now : Disk) : Prop :=
  ∀ entry ∈ entries, ∃ pristine, disk.read entry.1 = .ok pristine ∧
    now.read entry.1 =
      .ok (Edit.onePass pristine (entry.2.set.edits.filter fun e => e.span ∈ scheduled entry.1 batches))

theorem underwayMade {disk : Disk} {entries : List (Path × Generated)} {batches : List Batch} {w : Worksite}
    (site : Site disk entries) (state : Underway disk entries (scheduled · batches) w) :
    Made disk entries batches w.disk := by
  intro entry mem
  obtain ⟨place, pristine, home⟩ := site.homes entry mem
  obtain ⟨bytes, now, node, _, reached⟩ := state.files entry mem place pristine home
  obtain ⟨edits, accepted⟩ := home.accepted
  refine ⟨pristine, Disk.readIff.mpr ⟨place, home.located, home.file⟩, ?_⟩
  rw [EditSet.onePassSelected accepted, Disk.readIff.mpr ⟨place, stillThere state home, node⟩]
  have whole := reached.bytes
  rw [EditSet.madeFilter home.ready.named] at whole
  exact congrArg Except.ok whole

/-- The journal of a run of batches, made after those of `done`: each batch was submitted on a disk where its edits had
been made and no later ones. -/
inductive Chronicle (disk : Disk) (entries : List (Path × Generated)) :
    (done batches : List Batch) → List Git.Asked → Prop where
  | nil (done : List Batch) : Chronicle disk entries done [] []
  | batch {done rest : List Batch} {b : Batch} {exchanges : List Git.Exchange}
      {outcome : Except Git.Error (Option CommitId)} {asked : List Git.Asked} {now : Disk}
      (submitted : b.Submitted now exchanges outcome) (made : Made disk entries (done ++ [b]) now)
      (next : Chronicle disk entries (done ++ [b]) rest asked) :
      Chronicle disk entries done (b :: rest) (exchanges.map Git.Exchange.asked ++ asked)

def Logged (disk : Disk) (entries : List (Path × Generated)) (done batches : List Batch) :
    Option Git.Repository → Option Git.Repository → Prop
  | none, after => after = none
  | some r, after => ∃ asked next, after = some next ∧ next.journal = r.journal ++ asked ∧
      Chronicle disk entries done batches asked

theorem loggedNil (disk : Disk) (entries : List (Path × Generated)) (done : List Batch) (r : Option Git.Repository) :
    Logged disk entries done [] r r := by
  cases r with
  | none => rfl
  | some r => exact ⟨[], r, rfl, (List.append_nil _).symm, .nil done⟩

theorem loggedCons {disk : Disk} {entries : List (Path × Generated)} {done rest : List Batch} {b : Batch}
    {before middle after : Option Git.Repository} (first : Logged disk entries done [b] before middle)
    (next : Logged disk entries (done ++ [b]) rest middle after) : Logged disk entries done (b :: rest) before after := by
  cases before with
  | none =>
    cases first
    exact next
  | some r =>
    obtain ⟨asked, r', rfl, grown, chronicle⟩ := first
    obtain ⟨later, last, rfl, grown', chronicle'⟩ := next
    refine ⟨asked ++ later, last, rfl, by rw [grown', grown, List.append_assoc], ?_⟩
    cases chronicle with
    | batch submitted made next =>
      cases next
      rw [List.append_nil]
      exact .batch submitted made chronicle'

theorem commitUnderway {disk : Disk} {entries : List (Path × Generated)} {done : List Batch} {b : Batch}
    {w : Worksite} (site : Site disk entries) (state : Underway disk entries (scheduled · (done ++ [b])) w) :
    Underway disk entries (scheduled · (done ++ [b])) (w.commit b).2 ∧
      Logged disk entries done [b] w.repository (w.commit b).2.repository := by
  have same := commitSame w b
  refine ⟨⟨same.disk ▸ state.shape, by rw [same.disk, same.pending]; exact state.files⟩, ?_⟩
  unfold commit
  cases held : w.repository with
  | none => exact held
  | some r =>
    obtain ⟨exchanges, after, submitted, _, left, told⟩ := commitToSubmitted (Git.toldNil r) w b
    have chronicle := Chronicle.batch submitted (underwayMade site state) (.nil _)
    rw [List.append_nil] at chronicle
    exact ⟨_, after, left, told.journal, chronicle⟩

/-- A run over batches stops at their end, after a batch that git has refused, or in one with a file that refuses a
writer; `part` is then what has been made of that batch. -/
inductive Stops (disk : Disk) (todo : List Batch) {α : Type} :
    (k : Nat) → (part : List Batch) → Outcome ApplyError α → Prop where
  | done (value : α) : Stops disk todo todo.length [] (.ok value)
  | refused {k : Nat} {b : Batch} {cause : Git.Error} {e : ApplyError} (last : (todo.take k).getLast? = some b)
      (label : e.batch = b.label) (git : e.cause = .git cause) : Stops disk todo k [] (.error e)
  | closed {k : Nat} {b : Batch} {early late : List FileEdits} {f : FileEdits} {cause : OsError} {e : ApplyError}
      (next : todo[k]? = some b) (split : b.files = early ++ f :: late) (refuses : disk.Refuses f.path cause)
      (label : e.batch = b.label) (unopened : e.cause = .cannotOpen f.path cause) :
      Stops disk todo k [{ b with files := early }] (.error e)

section Stops
variable {disk : Disk} {todo part : List Batch} {k : Nat} {α β : Type} {outcome : Outcome ApplyError α}

theorem stopsMap (f : α → β) (stops : Stops disk todo k part outcome) : Stops disk todo k part (outcome.map f) := by
  cases stops with
  | done value => exact .done (f value)
  | refused last label git => exact .refused last label git
  | closed next split refuses label unopened => exact .closed next split refuses label unopened

theorem stopsCons (b : Batch) (stops : Stops disk todo k part outcome) : Stops disk (b :: todo) (k + 1) part outcome := by
  cases stops with
  | done value => exact .done value
  | refused last label git =>
    refine .refused ?_ label git
    rw [List.take_succ_cons, List.getLast?_cons, last]
    rfl
  | closed next split refuses label unopened => exact .closed next split refuses label unopened

end Stops

structure Stopped (disk : Disk) (entries : List (Path × Generated)) (done todo : List Batch) (k : Nat)
    (part : List Batch) (w : Worksite) (outcome : Outcome ApplyError (List BatchRecord)) (after : Worksite) : Prop where
  bound : k ≤ todo.length
  stops : Stops disk todo k part outcome
  state : Underway disk entries (scheduled · (done ++ (todo.take k ++ part))) after
  journal : Logged disk entries done (todo.take k) w.repository after.repository

theorem applyBatchesStopped {disk : Disk} {entries : List (Path × Generated)} {done todo : List Batch} {w : Worksite}
    (site : Site disk entries) (plan : Plan entries (done ++ todo))
    (state : Underway disk entries (scheduled · done) w) :
    ∃ k part, Stopped disk entries done todo k part w (w.applyBatches todo).1 (w.applyBatches todo).2 := by
  induction todo generalizing done w with
  | nil => exact ⟨0, [], Nat.le_refl _, .done [], by simpa [applyBatches] using state, loggedNil _ _ _ _⟩
  | cons b rest ih =>
    obtain ⟨early, outcome, edited, ran, ends, inside, kept⟩ := applyFilesUnderway site state (planFits plan)
    simp only [applyBatches, applyBatch, ran]
    cases ends with
    | closed split refuses =>
      refine ⟨0, [{ b with files := early }], Nat.zero_le _, .closed rfl split refuses rfl rfl, ?_, ?_⟩
      · simpa only [List.take_zero, List.nil_append, scheduledAppend] using inside
      · simpa [kept] using loggedNil disk entries done w.repository
    | done =>
      simp only [← scheduledAppend] at inside
      obtain ⟨later, logged⟩ := commitUnderway site inside
      rw [kept] at logged
      dsimp only
      cases committed : edited.commit b with
      | mk answer next =>
        rw [committed] at later logged
        cases answer with
        | error e =>
          -- The files were edited before git was asked, so this batch has been made as well.
          refine ⟨1, [], by simp, .refused (b := b) rfl rfl rfl, ?_, ?_⟩
          · simpa using later
          · simpa using logged
        | ok id =>
          have plan' : Plan entries ((done ++ [b]) ++ rest) := by simpa using plan
          obtain ⟨k, part, stopped⟩ := ih plan' later
          have state' := stopped.state
          rw [List.append_assoc, List.singleton_append] at state'
          exact ⟨k + 1, part, Nat.succ_le_succ stopped.bound, stopsMap _ (stopsCons b stopped.stops), state',
            loggedCons logged stopped.journal⟩

end Worksite
end KeepBlame
