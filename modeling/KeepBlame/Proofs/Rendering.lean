import KeepBlame.Proofs.Porcelain
import Mathlib.Data.List.TakeWhile

/-! Blame as it is written: a header with a count for each hunk, what is known of a commit where it comes first, a header
without count for each further line, and each line of the file after a tab. Hunks are read back from it as they were,
whatever the lines of the file say. -/
namespace KeepBlame

namespace Text

theorem linesCons {line rest : List Char} (plain : '\n' ∉ line) :
    lines (line ++ '\n' :: rest) = dropReturn line :: lines rest := by
  unfold lines
  rw [List.splitOn_append_cons_self_of_not_mem plain]
  cases split : rest.splitOn '\n' with
  | nil => exact absurd split (List.splitOn_ne_nil _ _)
  | cons next others => rfl

theorem linesJoined {ls : List (List Char)} (plain : ∀ line ∈ ls, '\n' ∉ line) :
    lines (ls.flatMap (· ++ ['\n'])) = ls.map dropReturn := by
  induction ls with
  | nil => rfl
  | cons line rest ih =>
    rw [List.flatMap_cons, List.append_assoc, List.singleton_append, linesCons (plain line List.mem_cons_self),
      ih fun other mem => plain other (List.mem_cons_of_mem line mem), List.map_cons]

theorem dropReturnSelf {line : List Char} (full : line.getLast? ≠ some '\r') : dropReturn line = line := if_neg full

theorem dropReturnCons {c : Char} (text : List Char) (other : c ≠ '\r') : ∃ short, dropReturn (c :: text) = c :: short := by
  unfold dropReturn
  split
  · rename_i ending
    cases text with
    | nil => simp [other] at ending
    | cons d rest => exact ⟨(d :: rest).dropLast, rfl⟩
  · exact ⟨text, rfl⟩

end Text

namespace Porcelain

def headerLine (commit : CommitId) (numbers : List Nat) : List Char :=
  commit.digits ++ numbers.flatMap fun n => ' ' :: Nat.toDigits 10 n

theorem digitsHex (commit : CommitId) : ∀ c ∈ commit.digits, CommitId.isHexDigit c = true :=
  (CommitId.parseName (CommitId.parseDigits commit)).2

theorem headerWithout {commit : CommitId} {numbers : List Nat} {c : Char} (blank : c ≠ ' ')
    (other : CommitId.isHexDigit c = false) : c ∉ headerLine commit numbers := by
  intro mem
  have hex : CommitId.isHexDigit c = true := by
    rcases List.mem_append.mp mem with digit | later
    · exact digitsHex commit c digit
    · obtain ⟨n, _, inside⟩ := List.mem_flatMap.mp later
      have decimal := Nat.isDigit_of_mem_toDigits (by decide) (by decide) ((List.mem_cons.mp inside).resolve_left blank)
      simp [CommitId.isHexDigit, decimal]
  rw [other] at hex
  cases hex

theorem headerFields (commit : CommitId) (numbers : List Nat) :
    (headerLine commit numbers).splitOn ' ' = commit.digits :: numbers.map (Nat.toDigits 10) := by
  have first : ' ' ∉ commit.digits := fun mem => absurd (digitsHex commit ' ' mem) (by decide)
  unfold headerLine
  generalize commit.digits = field at first
  induction numbers generalizing field with
  | nil => simp [List.splitOn_eq_singleton first]
  | cons n rest ih =>
    have next : ' ' ∉ Nat.toDigits 10 n := fun mem =>
      absurd (Nat.isDigit_of_mem_toDigits (by decide) (by decide) mem) (by decide)
    rw [List.flatMap_cons, List.cons_append, List.splitOn_append_cons_self_of_not_mem first, ih _ next]
    rfl

theorem lineNumberDigits {n : Nat} (word : n ≤ Text.halfWordLimit) : lineNumber? (Nat.toDigits 10 n) = some n :=
  Text.readNatDigits word

theorem wordNumber (n : UInt32) : n.toNat ≤ Text.halfWordLimit := Nat.le_of_lt_succ n.toNat_lt

theorem headerNumbers (commit : CommitId) (origin : UInt32) (numbers : List Nat) :
    header? (headerLine commit (origin.toNat :: numbers)) =
      some (readNumbers (headerLine commit (origin.toNat :: numbers)) commit (numbers.map (Nat.toDigits 10))) := by
  unfold header?
  rw [headerFields, List.map_cons]
  simp only [CommitId.parseDigits, lineNumberDigits (wordNumber origin)]

theorem headerCounted (commit : CommitId) (origin : UInt32) {start count : Nat}
    (startWord : start ≤ Text.halfWordLimit) (countWord : count ≤ Text.halfWordLimit) :
    header? (headerLine commit [origin.toNat, start, count]) = some (.ok ⟨commit, start, some count⟩) := by
  rw [headerNumbers]
  simp only [readNumbers, List.map_cons, lineNumberDigits startWord, lineNumberDigits countWord]

theorem headerUncounted (commit : CommitId) (origin place : UInt32) :
    header? (headerLine commit [origin.toNat, place.toNat]) = some (.ok ⟨commit, place.toNat, none⟩) := by
  rw [headerNumbers]
  simp only [readNumbers, List.map_cons, List.map_nil, lineNumberDigits (wordNumber place)]

structure Note where
  text : List Char
  oneLine : '\n' ∉ text
  full : text.getLast? ≠ some '\r'
  untabbed : text.head? ≠ some '\t'
  unnamed : nameMark.isPrefixOf text = false
  unmailed : emailMark.isPrefixOf text = false
  headless : ¬ HeaderLike text

structure Further where
  origin : UInt32
  place : UInt32
  text : List Char
  oneLine : '\n' ∉ text

structure Printable (h : Hunk) : Prop where
  startWord : h.startLine ≤ Text.halfWordLimit
  countWord : h.lineCount ≤ Text.halfWordLimit
  nameLine : '\n' ∉ h.attribution.author.name.toList
  nameFull : h.attribution.author.name.toList.getLast? ≠ some '\r'
  emailLine : '\n' ∉ h.attribution.author.email.toList
  emailStart : h.attribution.author.email.toList.head? ≠ some '<'
  emailEnd : h.attribution.author.email.toList.getLast? ≠ some '>'

structure Passage where
  hunk : Hunk
  origin : UInt32
  text : List Char
  further : List Further
  before : List Note
  between : List Note
  after : List Note
  printable : Printable hunk
  oneLine : '\n' ∉ text
  sized : hunk.lineCount = further.length + 1

def nameLine (author : Author) : List Char := nameMark ++ author.name.toList

def emailLine (author : Author) : List Char := emailMark ++ '<' :: (author.email.toList ++ ['>'])

def Further.lines (commit : CommitId) (f : Further) : List (List Char) :=
  [headerLine commit [f.origin.toNat, f.place.toNat], '\t' :: f.text]

namespace Passage

def commit (p : Passage) : CommitId := p.hunk.attribution.commit

def author (p : Passage) : Author := p.hunk.attribution.author

def authorLines (p : Passage) : List (List Char) :=
  nameLine p.author :: (p.between.map Note.text ++ emailLine p.author :: p.after.map Note.text)

def lines (known : Bool) (p : Passage) : List (List Char) :=
  headerLine p.commit [p.origin.toNat, p.hunk.startLine, p.hunk.lineCount] ::
    (p.before.map Note.text ++ ((if known then [] else p.authorLines) ++
      ('\t' :: p.text) :: p.further.flatMap (Further.lines p.commit)))

end Passage

def linesAfter (seen : List CommitId) : List Passage → List (List Char)
  | [] => []
  | p :: rest => p.lines (seen.contains p.commit) ++ linesAfter (seen ++ [p.commit]) rest

def render (passages : List Passage) : List Char := (linesAfter [] passages).flatMap (· ++ ['\n'])

theorem furtherOneLine {commit : CommitId} {f : Further} {line : List Char} (mem : line ∈ f.lines commit) :
    '\n' ∉ line := by
  simp only [Further.lines, List.mem_cons, List.not_mem_nil, or_false] at mem
  rcases mem with rfl | rfl
  · exact headerWithout (by decide) (by decide)
  · simpa using f.oneLine

theorem notesOneLine {notes : List Note} {line : List Char} (mem : line ∈ notes.map Note.text) : '\n' ∉ line := by
  obtain ⟨note, _, rfl⟩ := List.mem_map.mp mem
  exact note.oneLine

theorem authorOneLine {p : Passage} {line : List Char} (mem : line ∈ p.authorLines) : '\n' ∉ line := by
  have nameMarkLine : '\n' ∉ nameMark := by decide
  have emailMarkLine : '\n' ∉ emailMark := by decide
  simp only [Passage.authorLines, List.mem_cons, List.mem_append] at mem
  rcases mem with rfl | note | rfl | note
  · exact List.not_mem_append nameMarkLine p.printable.nameLine
  · exact notesOneLine note
  · refine List.not_mem_append emailMarkLine (List.not_mem_cons_of_ne_of_not_mem (by decide) ?_)
    exact List.not_mem_append p.printable.emailLine (by decide)
  · exact notesOneLine note

theorem passageOneLine {known : Bool} {p : Passage} {line : List Char} (mem : line ∈ p.lines known) :
    '\n' ∉ line := by
  simp only [Passage.lines, List.mem_cons, List.mem_append, List.mem_flatMap] at mem
  rcases mem with rfl | note | author | rfl | ⟨f, _, inside⟩
  · exact headerWithout (by decide) (by decide)
  · exact notesOneLine note
  · cases known with
    | true => simp at author
    | false => exact authorOneLine author
  · simpa using p.oneLine
  · exact furtherOneLine inside

theorem linesAfterOneLine {seen : List CommitId} {passages : List Passage} {line : List Char}
    (mem : line ∈ linesAfter seen passages) : '\n' ∉ line := by
  induction passages generalizing seen with
  | nil => simp [linesAfter] at mem
  | cons p rest ih =>
    rcases List.mem_append.mp mem with here | later
    · exact passageOneLine here
    · exact ih later

def Reads (r : Reading) (ls : List (List Char)) (next : Reading) : Prop :=
  (ls.map Text.dropReturn).foldlM Reading.step r = .ok next

theorem readsAppend {r middle next : Reading} {early late : List (List Char)} (first : Reads r early middle)
    (later : Reads middle late next) : Reads r (early ++ late) next := by
  unfold Reads at *
  rw [List.map_append, List.foldlM_append, first]
  exact later

theorem readsCons {r middle next : Reading} {line : List Char} {rest : List (List Char)}
    (full : line.getLast? ≠ some '\r') (first : r.step line = .ok middle) (later : Reads middle rest next) :
    Reads r (line :: rest) next := by
  unfold Reads at *
  rw [List.map_cons, List.foldlM_cons, Text.dropReturnSelf full, first]
  exact later

theorem readsEcho {r next : Reading} {rest : List (List Char)} (text : List Char)
    (later : Reads { r with echoed := r.echoed + 1 } rest next) : Reads r (('\t' :: text) :: rest) next := by
  obtain ⟨short, tabbed⟩ := Text.dropReturnCons text (show '\t' ≠ '\r' by decide)
  unfold Reads at *
  rw [List.map_cons, List.foldlM_cons, tabbed, Reading.stepEcho]
  exact later

theorem readsHeader {r next : Reading} {commit : CommitId} {numbers : List Nat} {h : Header} {rest : List (List Char)}
    (is : header? (headerLine commit numbers) = some (.ok h)) (later : Reads (r.header h) rest next) :
    Reads r (headerLine commit numbers :: rest) next := by
  have full : (headerLine commit numbers).getLast? ≠ some '\r' := fun ending =>
    headerWithout (by decide) (by decide) (List.mem_of_getLast? ending)
  have untabbed : (headerLine commit numbers).head? ≠ some '\t' := fun tab =>
    headerWithout (by decide) (by decide) (List.mem_of_head? tab)
  exact readsCons full (Reading.stepHeader untabbed is) later

theorem readsNotes {r : Reading} {commit : CommitId} (current : r.current = some commit) (notes : List Note) :
    Reads r (notes.map Note.text) r := by
  induction notes with
  | nil => rfl
  | cons note rest ih =>
    have kept : r.metadata commit note.text = r := by
      simp only [Reading.metadata, note.unnamed, note.unmailed, Bool.false_eq_true, if_false]
    have step := Reading.stepMetadata note.untabbed (headerNone note.headless) current
    rw [kept] at step
    exact readsCons note.full step ih

theorem headerUncountedKeeps {r : Reading} {commit : CommitId} (current : r.current = some commit) (place : Nat) :
    r.header ⟨commit, place, none⟩ = r := by
  simp [Reading.header, ← current]

theorem readsFurther {r : Reading} {commit : CommitId} (current : r.current = some commit) (further : List Further) :
    Reads r (further.flatMap (Further.lines commit)) { r with echoed := r.echoed + further.length } := by
  induction further generalizing r with
  | nil => rfl
  | cons f rest ih =>
    refine readsHeader (headerUncounted commit f.origin f.place) (readsEcho f.text ?_)
    rw [headerUncountedKeeps current, List.length_cons, Nat.add_comm rest.length, ← Nat.add_assoc]
    exact @ih { r with echoed := r.echoed + 1 } current

theorem nameMarkChars : nameMark = ['a', 'u', 't', 'h', 'o', 'r', ' '] := by decide

theorem emailMarkChars : emailMark = ['a', 'u', 't', 'h', 'o', 'r', '-', 'm', 'a', 'i', 'l', ' '] := by decide

theorem nameStep {r : Reading} {commit : CommitId} (current : r.current = some commit) (author : Author) :
    r.step (nameLine author) = .ok (r.sign commit fun s => { s with name := some author.name }) := by
  have untabbed : (nameLine author).head? ≠ some '\t' := by simp [nameLine, nameMarkChars]
  have other : ¬ HeaderLike (nameLine author) := by
    rw [nameLine, nameMarkChars]
    exact markedNotHeader (show ' ' ∉ ['a', 'u', 't', 'h', 'o', 'r'] by decide) (by decide) author.name.toList
  rw [Reading.stepMetadata untabbed (headerNone other) current]
  simp [Reading.metadata, nameLine]

theorem bareEmailInside {text : List Char} (start : text.head? ≠ some '<') (ending : text.getLast? ≠ some '>') :
    bareEmail ('<' :: (text ++ ['>'])) = text := by
  have opened : ('<' :: (text ++ ['>'])).dropWhile (· == '<') = text ++ ['>'] := by
    rw [List.dropWhile_cons_of_pos (by decide)]
    refine List.dropWhile_eq_self_iff.mpr fun _ => ?_
    cases text with
    | nil => simp
    | cons d rest => simpa using start
  have closed : (text ++ ['>']).reverse.dropWhile (· == '>') = text.reverse := by
    rw [List.reverse_append, List.reverse_singleton, List.singleton_append, List.dropWhile_cons_of_pos (by decide)]
    refine List.dropWhile_eq_self_iff.mpr fun full marked => ending ?_
    rw [← List.head?_reverse, List.head?_eq_getElem?, List.getElem?_eq_getElem full, beq_iff_eq.mp marked]
  rw [bareEmail, opened, closed, List.reverse_reverse]

theorem emailStep {r : Reading} {commit : CommitId} {author : Author} (current : r.current = some commit)
    (start : author.email.toList.head? ≠ some '<') (ending : author.email.toList.getLast? ≠ some '>') :
    r.step (emailLine author) = .ok (r.sign commit fun s => { s with email := some author.email }) := by
  have untabbed : (emailLine author).head? ≠ some '\t' := by simp [emailLine, emailMarkChars]
  have other : ¬ HeaderLike (emailLine author) := by
    rw [emailLine, emailMarkChars]
    exact markedNotHeader (show ' ' ∉ ['a', 'u', 't', 'h', 'o', 'r', '-', 'm', 'a', 'i', 'l'] by decide) (by decide) _
  have notName : nameMark.isPrefixOf (emailLine author) = false := by
    rw [nameMarkChars, emailLine, emailMarkChars]
    rfl
  have isEmail : emailMark.isPrefixOf (emailLine author) = true := by simp [emailLine]
  have bare : bareEmail ((emailLine author).drop emailMark.length) = author.email.toList := by
    rw [emailLine, List.drop_left, bareEmailInside start ending]
  rw [Reading.stepMetadata untabbed (headerNone other) current]
  simp only [Reading.metadata, notName, isEmail, bare, Bool.false_eq_true, if_false, if_true, String.ofList_toList]

theorem readsAuthor {r : Reading} {p : Passage} (current : r.current = some p.commit) :
    Reads r p.authorLines (r.signed p.commit p.author) := by
  have nameFull : (nameLine p.author).getLast? ≠ some '\r' := by
    rw [nameLine, List.getLast?_append]
    cases ending : p.author.name.toList.getLast? with
    | none => decide
    | some c => exact fun same => p.printable.nameFull (ending.trans same)
  have emailFull : (emailLine p.author).getLast? ≠ some '\r' := by
    rw [emailLine, ← List.cons_append, ← List.append_assoc, List.getLast?_concat]
    decide
  have named : (r.sign p.commit fun s => { s with name := some p.author.name }).current = some p.commit := current
  refine readsCons nameFull (nameStep current p.author) (readsAppend (readsNotes named p.between) ?_)
  refine readsCons emailFull (emailStep named p.printable.emailStart p.printable.emailEnd) ?_
  exact readsNotes (r := r.signed p.commit p.author) current p.after

def Reading.pass (r : Reading) (known : Bool) (p : Passage) : Reading :=
  let opened := r.header ⟨p.commit, p.hunk.startLine, some p.hunk.lineCount⟩
  let signed := if known then opened else opened.signed p.commit p.author
  { signed with echoed := signed.echoed + p.hunk.lineCount }

theorem readsLines {r : Reading} {p : Passage} (current : r.current = some p.commit) :
    Reads r (('\t' :: p.text) :: p.further.flatMap (Further.lines p.commit))
      { r with echoed := r.echoed + p.hunk.lineCount } := by
  have count : r.echoed + p.hunk.lineCount = r.echoed + 1 + p.further.length := by
    rw [p.sized]
    omega
  rw [count]
  exact readsEcho p.text (readsFurther (r := { r with echoed := r.echoed + 1 }) current p.further)

theorem readsPassage (r : Reading) (known : Bool) (p : Passage) : Reads r (p.lines known) (r.pass known p) := by
  refine readsHeader (headerCounted p.commit p.origin p.printable.startWord p.printable.countWord) ?_
  refine readsAppend (readsNotes rfl p.before) ?_
  cases known with
  | true => exact readsLines rfl
  | false => exact readsAppend (readsAuthor rfl) (readsLines rfl)

structure Holds (r : Reading) (done : List Passage) : Prop where
  groups : r.groups = done.map fun p => ⟨p.commit, p.hunk.startLine, p.hunk.lineCount⟩
  balanced : r.declared = r.echoed
  sorted : r.signatures.Pairwise fun a b => a.commit < b.commit
  authors : ∀ p ∈ done, r.author? p.commit = some p.author

theorem holdsEmpty : Holds {} [] := ⟨rfl, rfl, List.Pairwise.nil, by simp⟩

theorem holdsPass {r : Reading} {done : List Passage} {known : Bool} {p : Passage} (holds : Holds r done)
    (oneAuthor : ∀ q ∈ done, q.commit = p.commit → q.author = p.author)
    (seen : known = true → ∃ q ∈ done, q.commit = p.commit) : Holds (r.pass known p) (done ++ [p]) := by
  obtain ⟨groups, balanced, sorted, authors⟩ := holds
  have grown := r.headerDeclared ⟨p.commit, p.hunk.startLine, some p.hunk.lineCount⟩
  cases known with
  | true =>
    obtain ⟨q, before, same⟩ := seen rfl
    refine ⟨?_, ?_, sorted, ?_⟩
    · simp [Reading.pass, Reading.header, groups]
    · exact grown.trans (congrArg (· + p.hunk.lineCount) balanced)
    · intro other mem
      rcases List.mem_append.mp mem with old | new
      · exact authors other old
      · cases List.mem_singleton.mp new
        rw [← same, ← oneAuthor q before same]
        exact authors q before
  | false =>
    refine ⟨?_, ?_, Reading.signedSorted sorted p.commit p.author, ?_⟩
    · simp [Reading.pass, Reading.header, Reading.signed, Reading.sign, groups]
    · exact grown.trans (congrArg (· + p.hunk.lineCount) balanced)
    · intro other mem
      refine (Reading.signedAuthor sorted p.commit other.commit p.author).trans ?_
      rcases List.mem_append.mp mem with old | new
      · split
        · rename_i same
          rw [oneAuthor other old same]
        · exact authors other old
      · cases List.mem_singleton.mp new
        exact if_pos rfl

def OneAuthorEach (passages : List Passage) : Prop :=
  ∀ p ∈ passages, ∀ q ∈ passages, p.commit = q.commit → p.author = q.author

theorem readsPassages {r : Reading} {done rest : List Passage} (holds : Holds r done)
    (oneAuthor : OneAuthorEach (done ++ rest)) :
    ∃ next, Reads r (linesAfter (done.map Passage.commit) rest) next ∧ Holds next (done ++ rest) := by
  -- The commits seen are those of the passages done, so an author is left out only where they were read before.
  induction rest generalizing r done with
  | nil => exact ⟨r, rfl, by rwa [List.append_nil]⟩
  | cons p rest ih =>
    have agree : ∀ q ∈ done, q.commit = p.commit → q.author = p.author := fun q before =>
      oneAuthor q (List.mem_append_left _ before) p (List.mem_append_right _ List.mem_cons_self)
    have seen : (done.map Passage.commit).contains p.commit = true → ∃ q ∈ done, q.commit = p.commit := by
      simp
    have split : done ++ p :: rest = done ++ [p] ++ rest := by rw [List.append_assoc, List.singleton_append]
    rw [split] at oneAuthor ⊢
    obtain ⟨next, reads, all⟩ := ih (holdsPass holds agree seen) oneAuthor
    rw [List.map_append] at reads
    exact ⟨next, readsAppend (readsPassage r _ p) reads, all⟩

theorem hunkOfPassage {r : Reading} {p : Passage} (known : r.author? p.commit = some p.author) :
    r.hunk ⟨p.commit, p.hunk.startLine, p.hunk.lineCount⟩ = .ok p.hunk := by
  simp only [Reading.hunk, known]
  rfl

theorem hunksHeld {r : Reading} {passages : List Passage} (holds : Holds r passages) :
    r.hunks = .ok (passages.map Passage.hunk) := by
  obtain ⟨groups, balanced, _, authors⟩ := holds
  rw [Reading.hunks, if_pos balanced, groups]
  clear groups balanced
  induction passages with
  | nil => rfl
  | cons p rest ih =>
    rw [List.map_cons, List.mapM_cons, hunkOfPassage (authors p List.mem_cons_self),
      ih fun q mem => authors q (List.mem_cons_of_mem p mem)]
    rfl

theorem readRendered (passages : List Passage) (oneAuthor : OneAuthorEach passages) :
    read (render passages) = .ok (passages.map Passage.hunk) := by
  obtain ⟨next, reads, holds⟩ := readsPassages holdsEmpty oneAuthor
  have final : ((linesAfter [] passages).map Text.dropReturn).foldlM Reading.step {} = .ok next := reads
  unfold read render
  rw [Text.linesJoined fun _ => linesAfterOneLine, final]
  exact hunksHeld holds

def summaryNote : Note where
  text := "summary author x".toList
  oneLine := by decide
  full := by decide
  untabbed := by decide
  unnamed := by decide
  unmailed := by decide
  headless := markedNotHeader (show ' ' ∉ "summary".toList by decide) (by decide) "author x".toList

def oldCommit : CommitId := ⟨List.replicate 20 0x1a, rfl⟩

def newCommit : CommitId := ⟨List.replicate 20 0xff, rfl⟩

def insertedLine : List Passage := [
  { hunk := ⟨⟨oldCommit, "A. Author", "a@x"⟩, 1, 2⟩
    origin := 7
    text := headerLine newCommit [1, 2, 3]
    further := [⟨8, 2, "author B\r".toList, by decide⟩]
    before := [summaryNote]
    between := []
    after := [summaryNote]
    printable := by constructor <;> decide
    oneLine := headerWithout (by decide) (by decide)
    sized := rfl },
  { hunk := ⟨⟨newCommit, "", ""⟩, 3, 1⟩
    origin := 3
    text := []
    further := []
    before := []
    between := [summaryNote]
    after := []
    printable := by constructor <;> decide
    oneLine := by decide
    sized := rfl },
  { hunk := ⟨⟨oldCommit, "A. Author", "a@x"⟩, 4, 1⟩
    origin := 9
    text := "author-mail <b>".toList
    further := []
    before := []
    between := []
    after := []
    printable := by constructor <;> decide
    oneLine := by decide
    sized := rfl }]

theorem insertedLineRead :
    OneAuthorEach insertedLine ∧
      read (render insertedLine) =
        .ok [⟨⟨oldCommit, "A. Author", "a@x"⟩, 1, 2⟩, ⟨⟨newCommit, "", ""⟩, 3, 1⟩,
          ⟨⟨oldCommit, "A. Author", "a@x"⟩, 4, 1⟩] := by
  have oneAuthor : OneAuthorEach insertedLine := by
    unfold OneAuthorEach
    decide
  exact ⟨oneAuthor, readRendered insertedLine oneAuthor⟩

end Porcelain
end KeepBlame
