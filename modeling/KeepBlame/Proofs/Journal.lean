import KeepBlame.Apply
import KeepBlame.Basics

/-! What git is asked about a batch. Its paths are staged in calls of at most 256, git says whether anything is staged,
and if so there is one commit; the first failure is the last call. Neither the files nor what is pending change. -/
namespace KeepBlame

namespace Git

namespace Call

def isAdd : Call → Bool
  | .add _ => true
  | _ => false

def isDiff : Call → Bool
  | .diff => true
  | _ => false

def isCommit : Call → Bool
  | .commit _ _ => true
  | _ => false

inductive Worded : Call → List String → Prop where
  | add (paths : List Path) : Worded (.add paths) ("add" :: "--" :: paths.map Path.text)
  | diff : Worded .diff ["diff", "--cached", "--quiet"]
  | authored (message : String) (author : Author) : Worded (.commit message (some author))
      ["commit", "--quiet", "--no-verify", "-m", message, "--author=" ++ author.name ++ " <" ++ author.email ++ ">"]
  | unauthored (message : String) :
      Worded (.commit message none) ["commit", "--quiet", "--no-verify", "-m", message]

end Call

structure Exchange where
  call : Call
  disk : Disk
  status : Nat

namespace Exchange

def asked (x : Exchange) : Asked := ⟨x.call, x.disk⟩

def Failed (x : Exchange) : Prop :=
  match x.call with
  | .diff => x.status ≠ 0 ∧ x.status ≠ 1
  | _ => x.status ≠ 0

end Exchange

namespace Script

def status (s : Script) (earlier : List Call) : Call → Nat
  | .blame revision path => ((s.blame.lookup path.text).getD (Repository.untracked revision path)).code
  | .add _ => (s.add.getD (earlier.countP Call.isAdd) {}).code
  | .diff => (s.diff.getD (earlier.countP Call.isDiff) { code := 1 }).code
  | .commit _ _ => (s.commit.getD (earlier.countP Call.isCommit) {}).reply.code

def after (s : Script) (earlier : List Call) : Script :=
  { s with
    add := s.add.drop (earlier.countP Call.isAdd)
    diff := s.diff.drop (earlier.countP Call.isDiff)
    commit := s.commit.drop (earlier.countP Call.isCommit) }

end Script

inductive Scripted (s : Script) : List Exchange → Prop where
  | nil : Scripted s []
  | snoc {early : List Exchange} {x : Exchange} (before : Scripted s early)
      (answer : x.status = s.status (early.map Exchange.call) x.call) : Scripted s (early ++ [x])

/-- A repository that has had these exchanges, and no others, since it had this journal and this script. -/
structure Told (s : Script) (journal : List Asked) (trace : List Exchange) (r : Repository) : Prop where
  scripted : Scripted s trace
  script : r.script = s.after (trace.map Exchange.call)
  journal : r.journal = journal ++ trace.map Exchange.asked

section Told
variable {s : Script} {journal : List Asked} {trace : List Exchange} {r : Repository}

theorem toldNil (r : Repository) : Told r.script r.journal [] r where
  scripted := .nil
  script := by simp [Script.after]
  journal := by simp

theorem toldSnoc {next : Repository} (told : Told s journal trace r) {x : Exchange}
    (answer : x.status = s.status (trace.map Exchange.call) x.call)
    (script : next.script = s.after (trace.map Exchange.call ++ [x.call]))
    (entered : next.journal = r.journal ++ [x.asked]) : Told s journal (trace ++ [x]) next where
  scripted := .snoc told.scripted answer
  script := by simpa using script
  journal := by simp [entered, told.journal]

theorem addTold (told : Told s journal trace r) (disk : Disk) (paths : List Path) :
    ∃ status, Told s journal (trace ++ [⟨.add paths, disk, status⟩]) (r.add disk paths).2 ∧
      ((status = 0 ∧ (r.add disk paths).1 = .ok ()) ∨
        (status ≠ 0 ∧ ∃ complaint, (r.add disk paths).1 = .error (.commandFailed (.add paths) status complaint))) := by
  have reply : r.script.add.headD {} = s.add.getD ((trace.map Exchange.call).countP Call.isAdd) {} := by
    rw [told.script]
    exact headDrop _ _ _
  refine ⟨(r.script.add.headD {}).code, toldSnoc told (congrArg Reply.code reply) ?_ rfl, ?_⟩
  · simp [Repository.add, told.script, Script.after, Call.isAdd, Call.isDiff, Call.isCommit]
  · simp only [Repository.add, Reply.succeeded, beq_iff_eq]
    split
    · rename_i zero
      exact .inl ⟨zero, rfl⟩
    · rename_i other
      exact .inr ⟨other, _, rfl⟩

theorem hasStagedTold (told : Told s journal trace r) (disk : Disk) :
    ∃ status, Told s journal (trace ++ [⟨.diff, disk, status⟩]) (r.hasStaged disk).2 ∧
      ((status = 0 ∧ (r.hasStaged disk).1 = .ok false) ∨ (status = 1 ∧ (r.hasStaged disk).1 = .ok true) ∨
        (status ≠ 0 ∧ status ≠ 1 ∧
          ∃ complaint, (r.hasStaged disk).1 = .error (.commandFailed .diff status complaint))) := by
  have reply : r.script.diff.headD { code := 1 } =
      s.diff.getD ((trace.map Exchange.call).countP Call.isDiff) { code := 1 } := by
    rw [told.script]
    exact headDrop _ _ _
  refine ⟨(r.script.diff.headD { code := 1 }).code, toldSnoc told (congrArg Reply.code reply) ?_ rfl, ?_⟩
  · simp [Repository.hasStaged, told.script, Script.after, Call.isAdd, Call.isDiff, Call.isCommit]
  · simp only [Repository.hasStaged]
    split
    · rename_i zero
      exact .inl ⟨zero, rfl⟩
    · rename_i one
      exact .inr (.inl ⟨one, rfl⟩)
    · rename_i zero one
      exact .inr (.inr ⟨zero, one, _, rfl⟩)

theorem commitTold (told : Told s journal trace r) (disk : Disk) (message : String) (author : Option Author) :
    ∃ status, Told s journal (trace ++ [⟨.commit message author, disk, status⟩]) (r.commit disk message author).2 ∧
      ((status = 0 ∧ ∃ id, (r.commit disk message author).1 = .ok id) ∨
        (status ≠ 0 ∧ ∃ complaint,
          (r.commit disk message author).1 = .error (.commandFailed (.commit message author) status complaint))) := by
  have reply : r.script.commit.headD {} = s.commit.getD ((trace.map Exchange.call).countP Call.isCommit) {} := by
    rw [told.script]
    exact headDrop _ _ _
  refine ⟨(r.script.commit.headD {}).reply.code, toldSnoc told (congrArg (·.reply.code) reply) ?_ ?_, ?_⟩
  · simp only [Repository.commit]
    split <;> simp [told.script, Script.after, Call.isAdd, Call.isDiff, Call.isCommit]
  · unfold Repository.commit
    dsimp only
    split <;> rfl
  · simp only [Repository.commit, Reply.succeeded, beq_iff_eq]
    split
    · rename_i zero
      exact .inl ⟨zero, _, rfl⟩
    · rename_i other
      exact .inr ⟨other, _, rfl⟩

def staged (disk : Disk) (paths : List Path) : Exchange := ⟨.add paths, disk, 0⟩

theorem addAllTold (told : Told s journal trace r) (disk : Disk) (chunks : List (List Path)) :
    ((r.addAll disk chunks).1 = .ok () ∧ Told s journal (trace ++ chunks.map (staged disk)) (r.addAll disk chunks).2) ∨
    ∃ early chunk late status complaint, chunks = early ++ chunk :: late ∧ status ≠ 0 ∧
      (r.addAll disk chunks).1 = .error (.commandFailed (.add chunk) status complaint) ∧
      Told s journal (trace ++ (early.map (staged disk) ++ [⟨.add chunk, disk, status⟩])) (r.addAll disk chunks).2 := by
  induction chunks generalizing trace r with
  | nil => exact .inl ⟨rfl, by simpa [Repository.addAll] using told⟩
  | cons chunk rest ih =>
    obtain ⟨status, next, answer⟩ := addTold told disk chunk
    simp only [Repository.addAll]
    cases added : r.add disk chunk with
    | mk result after =>
      rw [added] at next answer
      rcases answer with ⟨rfl, ok⟩ | ⟨bad, complaint, error⟩
      · cases ok
        rcases ih next with ⟨done, all⟩ | ⟨early, refused, late, status, complaint, split, bad, error, some⟩
        · exact .inl ⟨done, by simpa [staged] using all⟩
        · refine .inr ⟨chunk :: early, refused, late, status, complaint, congrArg (chunk :: ·) split, bad, error, ?_⟩
          simpa [staged] using some
      · cases error
        exact .inr ⟨[], chunk, rest, status, complaint, rfl, bad, rfl, next⟩

end Told

structure Chunked (paths : List Path) (chunks : List (List Path)) : Prop where
  whole : chunks.flatten = paths
  sizes : ∀ chunk ∈ chunks, 1 ≤ chunk.length ∧ chunk.length ≤ 256
  full : ∀ chunk ∈ chunks.dropLast, chunk.length = 256

theorem batchesChunked (paths : List Path) : Chunked paths (Repository.batches paths) := by
  fun_induction Repository.batches paths with
  | case1 paths empty => exact ⟨(List.isEmpty_iff.mp empty).symm, by simp, by simp⟩
  | case2 paths full ih =>
    have some : 0 < paths.length := List.length_pos_iff.mpr (by simpa using full)
    refine ⟨by rw [List.flatten_cons, ih.whole, List.take_append_drop], ?_, ?_⟩
    · intro chunk mem
      rcases List.mem_cons.mp mem with rfl | later
      · simp only [List.length_take, Repository.stageLimit]
        omega
      · exact ih.sizes chunk later
    · intro chunk mem
      cases rest : Repository.batches (paths.drop Repository.stageLimit) with
      | nil => simp [rest] at mem
      | cons next more =>
        rw [rest, List.dropLast_cons_cons] at mem
        rcases List.mem_cons.mp mem with rfl | later
        · -- There is a next call, so the limit has left paths over.
          have left : (paths.drop Repository.stageLimit).length ≠ 0 := by
            intro zero
            rw [List.length_eq_zero_iff.mp zero, Repository.batches] at rest
            simp at rest
          simp only [List.length_drop, List.length_take, Repository.stageLimit] at left ⊢
          omega
        · exact ih.full chunk (rest ▸ later)

end Git

open Git (Exchange Chunked Scripted Told staged)

def Batch.paths (b : Batch) : List Path := b.files.map FileEdits.path

inductive Batch.Submitted (b : Batch) (disk : Disk) : List Exchange → Except Git.Error (Option CommitId) → Prop where
  | unstaged {early late : List (List Path)} {chunk : List Path} {status : Nat} {complaint : String}
      (chunked : Chunked b.paths (early ++ chunk :: late)) (bad : status ≠ 0) :
      Submitted b disk (early.map (staged disk) ++ [⟨.add chunk, disk, status⟩])
        (.error (.commandFailed (.add chunk) status complaint))
  | unsure {chunks : List (List Path)} {status : Nat} {complaint : String} (chunked : Chunked b.paths chunks)
      (zero : status ≠ 0) (one : status ≠ 1) :
      Submitted b disk (chunks.map (staged disk) ++ [⟨.diff, disk, status⟩])
        (.error (.commandFailed .diff status complaint))
  | unchanged {chunks : List (List Path)} (chunked : Chunked b.paths chunks) :
      Submitted b disk (chunks.map (staged disk) ++ [⟨.diff, disk, 0⟩]) (.ok none)
  | uncommitted {chunks : List (List Path)} {status : Nat} {complaint : String} (chunked : Chunked b.paths chunks)
      (bad : status ≠ 0) :
      Submitted b disk
        (chunks.map (staged disk) ++ [⟨.diff, disk, 1⟩, ⟨.commit b.message b.author, disk, status⟩])
        (.error (.commandFailed (.commit b.message b.author) status complaint))
  | committed {chunks : List (List Path)} {id : CommitId} (chunked : Chunked b.paths chunks) :
      Submitted b disk (chunks.map (staged disk) ++ [⟨.diff, disk, 1⟩, ⟨.commit b.message b.author, disk, 0⟩])
        (.ok (some id))

section Submitted
variable {b : Batch} {disk : Disk} {exchanges : List Exchange}

theorem stagedFine (chunks : List (List Path)) : ∀ x ∈ chunks.map (staged disk), ¬ x.Failed := by
  intro x mem
  obtain ⟨chunk, _, rfl⟩ := List.mem_map.mp mem
  simp [staged, Exchange.Failed]

theorem stagedCommits (chunks : List (List Path)) : (chunks.map (staged disk)).countP (·.call.isCommit) = 0 := by
  simp [List.countP_map, staged, Function.comp_def, Git.Call.isCommit]

theorem submittedOk {id : Option CommitId} (submitted : b.Submitted disk exchanges (.ok id)) :
    (∀ x ∈ exchanges, ¬ x.Failed) ∧ exchanges.countP (·.call.isCommit) = if id.isSome then 1 else 0 := by
  cases submitted with
  | @unchanged chunks _ =>
    refine ⟨?_, by rw [List.countP_append, stagedCommits]; rfl⟩
    intro x mem
    rcases List.mem_append.mp mem with early | last
    · exact stagedFine chunks x early
    · simp_all [Exchange.Failed]
  | @committed chunks _ _ =>
    refine ⟨?_, by rw [List.countP_append, stagedCommits]; rfl⟩
    intro x mem
    rcases List.mem_append.mp mem with early | last
    · exact stagedFine chunks x early
    · rcases List.mem_cons.mp last with rfl | last
      · simp [Exchange.Failed]
      · simp_all [Exchange.Failed]

theorem submittedError {e : Git.Error} (submitted : b.Submitted disk exchanges (.error e)) :
    ∃ early x, exchanges = early ++ [x] ∧ (∀ y ∈ early, ¬ y.Failed) ∧ x.Failed := by
  cases submitted with
  | unstaged chunked bad => exact ⟨_, _, rfl, stagedFine _, bad⟩
  | unsure chunked zero one => exact ⟨_, _, rfl, stagedFine _, zero, one⟩
  | @uncommitted chunks status complaint chunked bad =>
    refine ⟨chunks.map (staged disk) ++ [⟨.diff, disk, 1⟩], ⟨.commit b.message b.author, disk, status⟩, by simp, ?_, bad⟩
    intro x mem
    rcases List.mem_append.mp mem with early | last
    · exact stagedFine chunks x early
    · simp_all [Exchange.Failed]

theorem submittedCalls {outcome : Except Git.Error (Option CommitId)} (submitted : b.Submitted disk exchanges outcome)
    {x : Exchange} (mem : x ∈ exchanges) :
    (∃ chunk, x.call = .add chunk) ∨ x.call = .diff ∨ x.call = .commit b.message b.author := by
  cases submitted <;> simp only [List.mem_append, List.mem_map, List.mem_cons, List.not_mem_nil, or_false] at mem
  all_goals grind [staged]

theorem submittedWorded {outcome : Except Git.Error (Option CommitId)} (submitted : b.Submitted disk exchanges outcome)
    {x : Exchange} (mem : x ∈ exchanges) : x.call.Worded x.call.arguments := by
  rcases submittedCalls submitted mem with ⟨chunk, call⟩ | call | call
  · rw [call]
    exact .add chunk
  · rw [call]
    exact .diff
  · rw [call]
    cases b.author with
    | none => exact .unauthored b.message
    | some author => exact .authored b.message author

end Submitted

namespace Worksite

structure SameFiles (w next : Worksite) : Prop where
  disk : next.disk = w.disk
  pending : next.pending = w.pending
  modified : next.modified = w.modified

theorem commitToSubmitted {s : Git.Script} {journal : List Git.Asked} {trace : List Exchange} {r : Git.Repository}
    (told : Told s journal trace r) (w : Worksite) (b : Batch) :
    ∃ exchanges after, b.Submitted w.disk exchanges (w.commitTo r b).1 ∧ SameFiles w (w.commitTo r b).2 ∧
      (w.commitTo r b).2.repository = some after ∧ Told s journal (trace ++ exchanges) after := by
  have chunked := Git.batchesChunked b.paths
  have stage : r.stage w.disk (b.files.map FileEdits.path) = r.addAll w.disk (Git.Repository.batches b.paths) := rfl
  have adds := Git.addAllTold told w.disk (Git.Repository.batches b.paths)
  rw [← stage] at adds
  unfold commitTo
  cases went : r.stage w.disk (b.files.map FileEdits.path) with
  | mk result asked =>
    rw [went] at adds
    rcases adds with ⟨ok, told⟩ | ⟨early, chunk, late, status, complaint, split, bad, error, told⟩
    · cases ok
      dsimp only
      obtain ⟨status, told, answer⟩ := Git.hasStagedTold told w.disk
      cases said : asked.hasStaged w.disk with
      | mk result after =>
        rw [said] at told answer
        rw [List.append_assoc] at told
        rcases answer with ⟨rfl, no⟩ | ⟨rfl, yes⟩ | ⟨zero, one, complaint, error⟩
        · cases no
          exact ⟨_, after, .unchanged chunked, ⟨rfl, rfl, rfl⟩, rfl, told⟩
        · cases yes
          dsimp only
          obtain ⟨status, told, answer⟩ := Git.commitTold told w.disk b.message b.author
          cases made : after.commit w.disk b.message b.author with
          | mk result last =>
            rw [made] at told answer
            rw [List.append_assoc, List.append_assoc] at told
            rcases answer with ⟨rfl, id, ok⟩ | ⟨bad, complaint, error⟩
            · cases ok
              exact ⟨_, last, .committed chunked, ⟨rfl, rfl, rfl⟩, rfl, told⟩
            · cases error
              exact ⟨_, last, .uncommitted chunked bad, ⟨rfl, rfl, rfl⟩, rfl, told⟩
        · cases error
          exact ⟨_, after, .unsure chunked zero one, ⟨rfl, rfl, rfl⟩, rfl, told⟩
    · cases error
      rw [split] at chunked
      exact ⟨_, asked, .unstaged chunked bad, ⟨rfl, rfl, rfl⟩, rfl, told⟩

theorem commitSame (w : Worksite) (b : Batch) : SameFiles w (w.commit b).2 := by
  unfold commit
  split
  · exact ⟨rfl, rfl, rfl⟩
  · rename_i r held
    obtain ⟨_, _, _, same, _⟩ := commitToSubmitted (Git.toldNil r) w b
    exact same

end Worksite
end KeepBlame
