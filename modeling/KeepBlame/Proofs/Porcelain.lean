import KeepBlame.Blame.Porcelain
import KeepBlame.Proofs.CommitId
import KeepBlame.Proofs.Keys

/-! The reader of blame, line by line: what each kind of line does to what has been read so far, and what every line
leaves alone. -/
namespace KeepBlame.Porcelain

def HeaderLike (line : List Char) : Prop :=
  ∃ commit number rest, line.splitOn ' ' = commit :: number :: rest ∧ CommitId.IsName commit ∧
    Text.IsNumeral Text.halfWordLimit number

theorem headerNone {line : List Char} (other : ¬ HeaderLike line) : header? line = none := by
  unfold header?
  split
  · rename_i commit number rest fields
    split
    · rename_i id n named counted
      exact absurd ⟨commit, number, rest, fields, CommitId.parseName named, Text.readNatNumeral counted⟩ other
    · rfl
  · rfl

theorem markedNotHeader {mark : List Char} (blank : ' ' ∉ mark) (short : mark.length ≠ 40) (text : List Char) :
    ¬ HeaderLike (mark ++ ' ' :: text) := by
  rintro ⟨commit, number, rest, fields, named, _⟩
  rw [List.splitOn_append_cons_self_of_not_mem blank] at fields
  exact short ((List.cons.inj fields).1 ▸ named.1)

namespace Reading

theorem stepEcho (r : Reading) (text : List Char) :
    r.step ('\t' :: text) = .ok { r with echoed := r.echoed + 1 } := if_pos rfl

theorem stepHeader {r : Reading} {line : List Char} {h : Header} (plain : line.head? ≠ some '\t')
    (is : header? line = some (.ok h)) : r.step line = .ok (r.header h) := by
  simp only [step, if_neg plain, is]

theorem stepMetadata {r : Reading} {line : List Char} {commit : CommitId} (plain : line.head? ≠ some '\t')
    (other : header? line = none) (current : r.current = some commit) :
    r.step line = .ok (r.metadata commit line) := by
  simp only [step, if_neg plain, other, current]

theorem stepCases {r next : Reading} {line : List Char} (ok : r.step line = .ok next) :
    (line.head? = some '\t' ∧ next = { r with echoed := r.echoed + 1 }) ∨
    (line.head? ≠ some '\t' ∧ ∃ h, header? line = some (.ok h) ∧ next = r.header h) ∨
    (line.head? ≠ some '\t' ∧ header? line = none ∧ ∃ commit, next = r.metadata commit line) := by
  unfold step at ok
  split at ok
  · rename_i tab
    exact .inl ⟨tab, (Except.ok.inj ok).symm⟩
  · rename_i plain
    split at ok
    · rename_i h is
      exact .inr (.inl ⟨plain, h, is, (Except.ok.inj ok).symm⟩)
    · cases ok
    · rename_i other
      split at ok
      · cases ok
      · rename_i commit _
        exact .inr (.inr ⟨plain, other, commit, (Except.ok.inj ok).symm⟩)

theorem metadataGroups (r : Reading) (commit : CommitId) (line : List Char) :
    (r.metadata commit line).groups = r.groups := by
  unfold metadata
  split
  · rfl
  · split <;> rfl

theorem metadataEchoed (r : Reading) (commit : CommitId) (line : List Char) :
    (r.metadata commit line).echoed = r.echoed := by
  unfold metadata
  split
  · rfl
  · split <;> rfl

theorem headerDeclared (r : Reading) (h : Header) : (r.header h).declared = r.declared + h.count.getD 0 := by
  unfold declared header
  induction r.groups with
  | nil => cases h.count <;> simp
  | cons g rest ih =>
    simp only [List.cons_append, List.foldr_cons, ih]
    omega

theorem signSorted {r : Reading} {commit : CommitId} {change : Signature → Signature}
    (keeps : ∀ s, (change s).commit = s.commit)
    (sorted : r.signatures.Pairwise fun a b => a.commit < b.commit) :
    (r.sign commit change).signatures.Pairwise fun a b => a.commit < b.commit :=
  Ordered.alterSorted keeps rfl sorted

theorem signFind {r : Reading} {commit : CommitId} {change : Signature → Signature}
    (keeps : ∀ s, (change s).commit = s.commit)
    (sorted : r.signatures.Pairwise fun a b => a.commit < b.commit) (other : CommitId) :
    (r.sign commit change).signatures.find? (·.commit == other) =
      if other = commit then some (change ((r.signatures.find? (·.commit == commit)).getD { commit }))
      else r.signatures.find? (·.commit == other) :=
  Ordered.alterFind keeps (show Signature.commit { commit } = commit from rfl) sorted other

def signed (r : Reading) (commit : CommitId) (author : Author) : Reading :=
  (r.sign commit fun s => { s with name := some author.name }).sign commit
    fun s => { s with email := some author.email }

theorem signedSorted {r : Reading} (sorted : r.signatures.Pairwise fun a b => a.commit < b.commit) (commit : CommitId)
    (author : Author) : (r.signed commit author).signatures.Pairwise fun a b => a.commit < b.commit :=
  signSorted (fun _ => rfl) (signSorted (fun _ => rfl) sorted)

theorem signedAuthor {r : Reading} (sorted : r.signatures.Pairwise fun a b => a.commit < b.commit)
    (commit other : CommitId) (author : Author) :
    (r.signed commit author).author? other = if other = commit then some author else r.author? other := by
  have named : (r.sign commit fun s => { s with name := some author.name }).signatures.Pairwise
      fun a b => a.commit < b.commit := signSorted (fun _ => rfl) sorted
  unfold author? signed
  by_cases here : other = commit <;> simp [signFind, named, sorted, here]

end Reading
end KeepBlame.Porcelain
