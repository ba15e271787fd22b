import KeepBlame.Proofs.TomlTables
import KeepBlame.Settings
import Mathlib.Data.List.Basic
import Mathlib.Data.List.Nodup

/-! Settings against the document they are read from. The keys that are written take their values and the others their
defaults, in whatever order they stand; a name that is not known where it stands is refused, whatever comes after it. -/
namespace KeepBlame

open Toml (Datum Section Line Located Value Entries Statement Progress KeyWritten LinesWritten DocumentWritten Pad)

inductive FormatChoice where
  | command (s : String)
  | style (s : String)
  | extensions (items : List String)
  | maxFileKb (n : Nat)
  | copyright (s : String)

inductive CommitChoice where
  | message (s : String)
  | unattributedMessage (s : String)
  | fallbackAuthor (s : String)

def FormatChoice.field : FormatChoice → String × Datum
  | command s => ("command", .text s)
  | style s => ("style", .text s)
  | extensions items => ("extensions", .texts items)
  | maxFileKb n => ("max_file_kb", .number n)
  | copyright s => ("copyright", .text s)

def CommitChoice.field : CommitChoice → String × Datum
  | message s => ("message", .text s)
  | unattributedMessage s => ("unattributed_message", .text s)
  | fallbackAuthor s => ("fallback_author", .text s)

def FormatChoice.put : FormatChoice → FormatSettings → FormatSettings
  | command s, f => { f with command := s }
  | style s, f => { f with style := s }
  | extensions items, f => { f with extensions := items }
  | maxFileKb n, f => { f with maxFileKb := n }
  | copyright s, f => { f with copyright := some s }

def CommitChoice.put : CommitChoice → CommitSettings → CommitSettings
  | message s, c => { c with message := s }
  | unattributedMessage s, c => { c with unattributedMessage := s }
  | fallbackAuthor s, c => { c with fallbackAuthor := (Author.parse s).toOption }

structure Choices where
  command : Option String := none
  style : Option String := none
  extensions : Option (List String) := none
  maxFileKb : Option Nat := none
  copyright : Option String := none
  message : Option String := none
  unattributedMessage : Option String := none
  fallbackAuthor : Option String := none

namespace Choices

def format (c : Choices) : List FormatChoice :=
  (c.command.map .command).toList ++ (c.style.map .style).toList ++ (c.extensions.map .extensions).toList ++
    (c.maxFileKb.map .maxFileKb).toList ++ (c.copyright.map .copyright).toList

def commit (c : Choices) : List CommitChoice :=
  (c.message.map .message).toList ++ (c.unattributedMessage.map .unattributedMessage).toList ++
    (c.fallbackAuthor.map .fallbackAuthor).toList

def settings (c : Choices) (author : Option Author) : Settings where
  format := {
    command := c.command.getD "clang-format"
    style := c.style.getD "file"
    extensions := c.extensions.getD ["c", "cc", "cpp", "cxx", "h", "hh", "hpp"]
    maxFileKb := c.maxFileKb.getD 256
    copyright := c.copyright }
  commit := {
    message := c.message.getD "blamefmt: reformat and keep blame info"
    unattributedMessage := c.unattributedMessage.getD "blamefmt: format uncommitted code"
    fallbackAuthor := author }

def formatSection (keys : List FormatChoice) : Section := ("format", keys.map FormatChoice.field)

def commitSection (keys : List CommitChoice) : Section := ("commit", keys.map CommitChoice.field)

/-- The keys in any order under the header of their table, the tables in any order; a table without keys may be left
out. -/
inductive Arranged (c : Choices) : List Section → Prop where
  | neither (format : c.format = []) (commit : c.commit = []) : Arranged c []
  | format {keys : List FormatChoice} (perm : keys.Perm c.format) (commit : c.commit = []) :
      Arranged c [formatSection keys]
  | commit {keys : List CommitChoice} (perm : keys.Perm c.commit) (format : c.format = []) :
      Arranged c [commitSection keys]
  | formatFirst {first : List FormatChoice} {second : List CommitChoice} (format : first.Perm c.format)
      (commit : second.Perm c.commit) : Arranged c [formatSection first, commitSection second]
  | commitFirst {first : List CommitChoice} {second : List FormatChoice} (commit : first.Perm c.commit)
      (format : second.Perm c.format) : Arranged c [commitSection first, formatSection second]

inductive Answered (c : Choices) : Settings.Decode Settings → Prop where
  | absent (silent : c.fallbackAuthor = none) : Answered c (.ok (c.settings none))
  | known {text : String} {a : Author} (given : c.fallbackAuthor = some text) (read : Author.parse text = .ok a) :
      Answered c (.ok (c.settings (some a)))
  | refused {text : String} {cause : Author.ParseError} (given : c.fallbackAuthor = some text)
      (read : Author.parse text = .error cause) (line : Nat) : Answered c (.error ⟨line, .badAuthor text cause⟩)

theorem arrangedEither {c : Choices} {sections : List Section} (arranged : c.Arranged sections) : ∀ s ∈ sections,
    (∃ keys, keys.Perm c.format ∧ s = formatSection keys) ∨ ∃ keys, keys.Perm c.commit ∧ s = commitSection keys := by
  cases arranged with
  | neither => exact fun s mem => absurd mem List.not_mem_nil
  | format perm none => exact List.forall_mem_singleton.mpr (.inl ⟨_, perm, rfl⟩)
  | commit perm none => exact List.forall_mem_singleton.mpr (.inr ⟨_, perm, rfl⟩)
  | formatFirst left right =>
    exact List.forall_mem_cons.mpr ⟨.inl ⟨_, left, rfl⟩, List.forall_mem_singleton.mpr (.inr ⟨_, right, rfl⟩)⟩
  | commitFirst left right =>
    exact List.forall_mem_cons.mpr ⟨.inr ⟨_, left, rfl⟩, List.forall_mem_singleton.mpr (.inl ⟨_, right, rfl⟩)⟩

theorem formatOnce (c : Choices) : (c.format.map (·.field.1)).Nodup := by
  unfold format
  cases c.command <;> cases c.style <;> cases c.extensions <;> cases c.maxFileKb <;> cases c.copyright <;>
    simp [FormatChoice.field]

theorem commitOnce (c : Choices) : (c.commit.map (·.field.1)).Nodup := by
  unfold commit
  cases c.message <;> cases c.unattributedMessage <;> cases c.fallbackAuthor <;> simp [CommitChoice.field]

theorem putPerm {ι α : Type} {name : ι → String} {put : ι → α → α}
    (apart : ∀ x y s, name x ≠ name y → put y (put x s) = put x (put y s)) {keys all : List ι} (perm : keys.Perm all)
    (once : (all.map name).Nodup) (start : α) :
    keys.foldl (fun s x => put x s) start = all.foldl (fun s x => put x s) start := by
  refine perm.foldl_eq' (fun x left y right s => ?_) start
  by_cases same : name x = name y
  · rw [List.inj_on_of_nodup_map once (perm.mem_iff.mp left) (perm.mem_iff.mp right) same]
  · exact apart x y s same

theorem formatPut (c : Choices) (author : Option Author) {keys : List FormatChoice} (perm : keys.Perm c.format) :
    keys.foldl (fun s x => x.put s) {} = (c.settings author).format := by
  have apart (x y : FormatChoice) (s : FormatSettings) (other : x.field.1 ≠ y.field.1) :
      y.put (x.put s) = x.put (y.put s) := by
    cases x <;> cases y <;> simp [FormatChoice.field, FormatChoice.put] at other ⊢
  rw [putPerm apart perm c.formatOnce]
  unfold format settings
  cases c.command <;> cases c.style <;> cases c.extensions <;> cases c.maxFileKb <;> cases c.copyright <;> rfl

theorem commitPut (c : Choices) {keys : List CommitChoice} (perm : keys.Perm c.commit) :
    keys.foldl (fun s x => x.put s) {} =
      (c.settings (c.fallbackAuthor.bind fun text => (Author.parse text).toOption)).commit := by
  have apart (x y : CommitChoice) (s : CommitSettings) (other : x.field.1 ≠ y.field.1) :
      y.put (x.put s) = x.put (y.put s) := by
    cases x <;> cases y <;> simp [CommitChoice.field, CommitChoice.put] at other ⊢
  rw [putPerm apart perm c.commitOnce]
  unfold commit settings
  cases c.message <;> cases c.unattributedMessage <;> cases c.fallbackAuthor <;> rfl

end Choices

namespace Settings

theorem byNameCons {α : Type} {fields : Fields α} {e : Toml.Key × Located Value} {f : α → Located Value → Decode α}
    (found : fields.lookup e.1.name = some f) (start : α) (es : Entries) :
    byName fields start (e :: es) = (f start e.2).bind (byName fields · es) := by
  simp only [byName, List.foldlM_cons, found]
  rfl

theorem textsHeld {located : List (Located Value)} {items : List String}
    (same : located.map Located.value = items.map .text) : located.mapM text = .ok items := by
  induction items generalizing located with
  | nil =>
    cases List.map_eq_nil_iff.mp same
    rfl
  | cons s items ih =>
    obtain ⟨v, others, rfl, here, later⟩ := List.map_eq_cons_iff.mp same
    simp only [List.mapM_cons, ih later, text, here]
    rfl

theorem formatStep (x : FormatChoice) (s : FormatSettings) (v : Located Value)
    (holds : Toml.Holds x.field.2 v.value) :
    ∃ f, formatFields.lookup x.field.1 = some f ∧ f s v = .ok (x.put s) := by
  obtain ⟨line, v⟩ := v
  cases x with
  | command t | style t | copyright t =>
    cases holds
    exact ⟨_, rfl, rfl⟩
  | extensions items =>
    cases holds with
    | texts same =>
      refine ⟨_, rfl, ?_⟩
      simp only [texts, textsHeld same]
      rfl
  | maxFileKb n =>
    cases holds
    refine ⟨_, rfl, ?_⟩
    have natural : ¬ (n : Int) < 0 := by omega
    simp only [count, if_neg natural, Int.toNat_natCast]
    rfl

theorem formatKeys {keys : List FormatChoice} {es : Entries}
    (filled : List.Forall₂ Toml.Filled (keys.map FormatChoice.field) es) (start : FormatSettings) :
    byName formatFields start es = .ok (keys.foldl (fun s x => x.put s) start) := by
  induction keys generalizing es start with
  | nil =>
    cases filled
    rfl
  | cons x keys ih =>
    cases filled with
    | @cons _ e _ es here later =>
      obtain ⟨f, found, ok⟩ := formatStep x start e.2 here.2
      rw [byNameCons (here.1.symm ▸ found), ok]
      exact ih later (x.put start)

theorem commitStep (x : CommitChoice) (s : CommitSettings) (v : Located Value)
    (holds : Toml.Holds x.field.2 v.value) :
    ∃ f, commitFields.lookup x.field.1 = some f ∧
      (f s v = .ok (x.put s) ∧ (∀ t, x = .fallbackAuthor t → ∃ a, Author.parse t = .ok a) ∨
        ∃ t cause, x = .fallbackAuthor t ∧ Author.parse t = .error cause ∧
          f s v = .error ⟨v.line, .badAuthor t cause⟩) := by
  obtain ⟨line, v⟩ := v
  cases x with
  | message t | unattributedMessage t =>
    cases holds
    exact ⟨_, rfl, .inl ⟨rfl, fun _ same => by cases same⟩⟩
  | fallbackAuthor t =>
    cases holds
    refine ⟨_, rfl, ?_⟩
    cases read : Author.parse t with
    | ok a =>
      refine .inl ⟨?_, ?_⟩
      · simp only [author, text, bind, Except.bind, read, CommitChoice.put]
        rfl
      · rintro _ ⟨⟩
        exact ⟨a, read⟩
    | error cause =>
      refine .inr ⟨t, cause, rfl, read, ?_⟩
      simp only [author, text, bind, Except.bind, read]

theorem commitKeys {keys : List CommitChoice} {es : Entries}
    (filled : List.Forall₂ Toml.Filled (keys.map CommitChoice.field) es) (start : CommitSettings) :
    byName commitFields start es = .ok (keys.foldl (fun s x => x.put s) start) ∧
        (∀ t, .fallbackAuthor t ∈ keys → ∃ a, Author.parse t = .ok a) ∨
      ∃ line t cause, .fallbackAuthor t ∈ keys ∧ Author.parse t = .error cause ∧
        byName commitFields start es = .error ⟨line, .badAuthor t cause⟩ := by
  induction keys generalizing es start with
  | nil =>
    cases filled
    exact .inl ⟨rfl, by simp⟩
  | cons x keys ih =>
    cases filled with
    | @cons _ e _ es here later =>
      obtain ⟨f, found, ⟨ok, author⟩ | ⟨t, cause, rfl, read, fails⟩⟩ := commitStep x start e.2 here.2
      · rw [byNameCons (here.1.symm ▸ found), ok]
        rcases ih later (x.put start) with ⟨rest, authors⟩ | ⟨line, t, cause, mem, read, fails⟩
        · refine .inl ⟨rest, fun t mem => ?_⟩
          rcases List.mem_cons.mp mem with same | mem
          · exact author t same.symm
          · exact authors t mem
        · exact .inr ⟨line, t, cause, List.mem_cons_of_mem x mem, read, fails⟩
      · rw [byNameCons (here.1.symm ▸ found), fails]
        exact .inr ⟨e.2.line, t, cause, List.mem_cons_self, read, rfl⟩

section Tables
variable (c : Choices)

theorem formatRead (author : Option Author) {keys : List FormatChoice} (perm : keys.Perm c.format)
    {e : Toml.Key × Located Value} (tabled : Toml.Tabled (Choices.formatSection keys) e) (s : Settings) (es : Entries) :
    byName rootFields s (e :: es) = byName rootFields { s with format := (c.settings author).format } es := by
  obtain ⟨⟨title, place⟩, v⟩ := e
  obtain ⟨rfl, line, inner, rfl, filled⟩ := tabled
  have read := formatKeys filled {}
  rw [c.formatPut author perm] at read
  refine (byNameCons rfl s es).trans ?_
  simp only [readSection, read, bind, Except.bind]

theorem commitRead {keys : List CommitChoice} (perm : keys.Perm c.commit) {inner : Entries}
    (filled : List.Forall₂ Toml.Filled (keys.map CommitChoice.field) inner) :
    (∃ author, byName commitFields {} inner = .ok (c.settings author).commit ∧ c.Answered (.ok (c.settings author))) ∨
      ∃ fault, byName commitFields {} inner = .error fault ∧ c.Answered (.error fault) := by
  have given (t : String) : .fallbackAuthor t ∈ keys ↔ c.fallbackAuthor = some t := by
    rw [perm.mem_iff]
    simp [Choices.commit, eq_comm]
  rcases commitKeys filled {} with ⟨read, authors⟩ | ⟨line, t, cause, mem, refused, read⟩
  · rw [c.commitPut perm] at read
    refine .inl ⟨_, read, ?_⟩
    cases absent : c.fallbackAuthor with
    | none => exact .absent absent
    | some t =>
      obtain ⟨a, parsed⟩ := authors t ((given t).mpr absent)
      simp only [Option.bind_some, parsed, Except.toOption]
      exact .known absent parsed
  · exact .inr ⟨_, read, .refused ((given t).mp mem) refused line⟩

theorem formatAbsent (author : Option Author) (absent : c.format = []) : (c.settings author).format = {} :=
  (c.formatPut author (List.Perm.of_eq absent.symm)).symm

theorem commitAbsent (absent : c.commit = []) :
    ∃ author, (c.settings author).commit = {} ∧ c.Answered (.ok (c.settings author)) := by
  obtain ⟨author, read, answered⟩ | ⟨fault, read, _⟩ := commitRead c (List.Perm.of_eq absent.symm) .nil
  · exact ⟨author, (Except.ok.inj read).symm, answered⟩
  · cases read

theorem commitTable {keys : List CommitChoice} {e : Toml.Key × Located Value}
    (tabled : Toml.Tabled (Choices.commitSection keys) e) :
    ∃ inner, List.Forall₂ Toml.Filled (keys.map CommitChoice.field) inner ∧ ∀ s es, byName rootFields s (e :: es) =
      (byName commitFields {} inner).bind fun commit => byName rootFields { s with commit } es := by
  obtain ⟨⟨title, place⟩, v⟩ := e
  obtain ⟨rfl, line, inner, rfl, filled⟩ := tabled
  refine ⟨inner, filled, fun s es => (byNameCons rfl s es).trans ?_⟩
  simp only [readSection]
  cases byName commitFields {} inner <;> rfl

theorem arrangedAnswered {sections : List Section} (arranged : c.Arranged sections) {tables : Entries}
    (tabled : List.Forall₂ Toml.Tabled sections tables) : c.Answered (byName rootFields {} tables) := by
  cases arranged with
  | neither format commit =>
    cases tabled
    obtain ⟨author, defaults, answered⟩ := commitAbsent c commit
    have whole : c.settings author = {} := congrArg₂ Settings.mk (formatAbsent c author format) defaults
    exact whole ▸ answered
  | format perm commit =>
    obtain ⟨author, defaults, answered⟩ := commitAbsent c commit
    cases tabled with
    | cons here later =>
      cases later
      rw [formatRead c author perm here]
      have whole : c.settings author = ⟨(c.settings author).format, {}⟩ := congrArg (Settings.mk _) defaults
      exact whole ▸ answered
  | commit perm format =>
    cases tabled with
    | cons here later =>
      cases later
      obtain ⟨inner, filled, table⟩ := commitTable here
      rw [table]
      rcases commitRead c perm filled with ⟨author, read, answered⟩ | ⟨fault, read, answered⟩
      · have whole : c.settings author = ⟨{}, (c.settings author).commit⟩ :=
          congrArg (Settings.mk · _) (formatAbsent c author format)
        rw [read]
        exact whole ▸ answered
      · rw [read]
        exact answered
  | formatFirst format commit =>
    cases tabled with
    | cons first later =>
      cases later with
      | cons second later =>
        cases later
        obtain ⟨inner, filled, table⟩ := commitTable second
        rcases commitRead c commit filled with ⟨author, read, answered⟩ | ⟨fault, read, answered⟩
        · rw [formatRead c author format first, table, read]
          exact answered
        · rw [formatRead c none format first, table, read]
          exact answered
  | commitFirst commit format =>
    cases tabled with
    | cons first later =>
      cases later with
      | cons second later =>
        cases later
        obtain ⟨inner, filled, table⟩ := commitTable first
        rcases commitRead c commit filled with ⟨author, read, answered⟩ | ⟨fault, read, answered⟩
        · rw [table, read]
          change c.Answered (byName rootFields _ _)
          rw [formatRead c author format second]
          exact answered
        · rw [table, read]
          exact answered

end Tables

theorem parseArranged {c : Choices} {sections : List Section} (arranged : c.Arranged sections) {document : String}
    (written : DocumentWritten (sections.flatMap Section.lines) document.toList) : c.Answered (parse document) := by
  have titles : (sections.map Prod.fst).Nodup := by
    cases arranged <;> simp [Choices.formatSection, Choices.commitSection]
  have once : ∀ s ∈ sections, (s.2.map Prod.fst).Nodup := by
    intro s mem
    rcases Choices.arrangedEither arranged s mem with ⟨keys, perm, rfl⟩ | ⟨keys, perm, rfl⟩
    · rw [Choices.formatSection, List.map_map]
      exact (perm.map _).nodup_iff.mpr c.formatOnce
    · rw [Choices.commitSection, List.map_map]
      exact (perm.map _).nodup_iff.mpr c.commitOnce
  obtain ⟨tables, tabled, read⟩ := Toml.readSections titles once written
  rw [parse, read]
  exact arrangedAnswered c arranged tabled

theorem arrangedWritten {c : Choices} {sections : List Section} (arranged : c.Arranged sections)
    (within : ∀ n, c.maxFileKb = some n → n ≤ Toml.integerLimit) :
    ∃ document : String, DocumentWritten (sections.flatMap Section.lines) document.toList := by
  have fits : ∀ s ∈ sections, ∀ f ∈ s.2, f.2.Fits := by
    intro s mem f inside
    rcases Choices.arrangedEither arranged s mem with ⟨keys, perm, rfl⟩ | ⟨keys, perm, rfl⟩
    · obtain ⟨x, held, rfl⟩ := List.mem_map.mp inside
      cases x with
      | maxFileKb n => exact within n (by simpa [Choices.format, eq_comm] using perm.mem_iff.mp held)
      | _ => trivial
    · obtain ⟨x, held, rfl⟩ := List.mem_map.mp inside
      cases x <;> trivial
  have lines : ∀ key d, Line.field key d ∈ sections.flatMap Section.lines → d.Fits := by
    intro key d mem
    obtain ⟨s, held, line⟩ := List.mem_flatMap.mp mem
    rcases List.mem_cons.mp line with same | line
    · cases same
    · obtain ⟨f, inside, same⟩ := List.mem_map.mp line
      cases same
      exact fits s held f inside
  obtain ⟨text, written⟩ := Toml.linesSome lines
  have nothing : Toml.Remark [] := .blank (by simp [Pad])
  exact ⟨String.ofList (text ++ []), by simpa using Toml.DocumentWritten.closed written nothing⟩

def known : Option String → List String
  | none => ["format", "commit"]
  | some title =>
    if title = "format" then ["command", "style", "extensions", "max_file_kb", "copyright"]
    else if title = "commit" then ["message", "unattributed_message", "fallback_author"]
    else []

def Stands (es : Entries) (name : String) : Option String → Prop
  | none => (es.find? name).isSome = true
  | some title => ∃ line kind inner, es.find? title = some ⟨line, .table kind inner⟩ ∧
      (Entries.find? inner name).isSome = true

theorem byNameFails {α : Type} (fields : Fields α) {es : Entries} {name : String} {v : Located Value}
    (found : es.find? name = some v)
    (fails : ∀ f, fields.lookup name = some f → ∀ s, ∃ fault, f s v = .error fault) (start : α) :
    ∃ fault, byName fields start es = .error fault := by
  obtain ⟨key, mem, rfl⟩ := Entries.findMem found
  clear found
  induction es generalizing start with
  | nil => cases mem
  | cons e rest ih =>
    cases look : fields.lookup e.1.name with
    | none =>
      simp only [byName, List.foldlM_cons, look]
      exact ⟨_, rfl⟩
    | some f =>
      rw [byNameCons look]
      cases step : f start e.2 with
      | error fault => exact ⟨fault, rfl⟩
      | ok s =>
        rcases List.mem_cons.mp mem with rfl | later
        · obtain ⟨fault, no⟩ := fails f look start
          rw [step] at no
          cases no
        · exact ih s later

theorem unknownFails {α : Type} (fields : Fields α) {es : Entries} {name : String} (held : (es.find? name).isSome = true)
    (unknown : name ∉ fields.map Prod.fst) (start : α) : ∃ fault, byName fields start es = .error fault := by
  obtain ⟨v, found⟩ := Option.isSome_iff_exists.mp held
  refine byNameFails fields found (fun f look => ?_) start
  have none : fields.lookup name = none := List.lookup_eq_none_iff.mpr fun field mem => by
    simpa using fun same : name = field.1 => unknown (same ▸ List.mem_map_of_mem mem)
  rw [none] at look
  cases look

theorem strangerRefused {es : Entries} {name : String} {place : Option String} (stands : Stands es name place)
    (unknown : name ∉ known place) : ∃ fault, byName rootFields {} es = .error fault := by
  cases place with
  | none => exact unknownFails rootFields stands unknown {}
  | some title =>
    obtain ⟨line, kind, inner, found, held⟩ := stands
    by_cases format : title = "format"
    · subst format
      refine byNameFails rootFields found (fun f look s => ?_) {}
      cases look
      obtain ⟨fault, fails⟩ := unknownFails formatFields held unknown {}
      simp only [readSection, fails]
      exact ⟨fault, rfl⟩
    · by_cases commit : title = "commit"
      · subst commit
        refine byNameFails rootFields found (fun f look s => ?_) {}
        cases look
        obtain ⟨fault, fails⟩ := unknownFails commitFields held unknown {}
        simp only [readSection, fails]
        exact ⟨fault, rfl⟩
      · -- The table itself is not known.
        exact unknownFails rootFields (by rw [found]; rfl) (by simp [rootFields, format, commit]) {}

/-- After the lines comes a key or table that is not known there, or a table that they have already. -/
inductive Intruder (lines : List Line) : List Char → Prop where
  | key {name : String} {text rest : List Char} (written : KeyWritten name.toList text)
      (next : ∀ c, rest.head? = some c → Toml.isKeyChar c = false)
      (unknown : name ∉ known (lines.filterMap Line.title?).getLast?) : Intruder lines (text ++ rest)
  | table {name : String} {pad text rest : List Char} (pads : Pad pad) (written : KeyWritten name.toList text)
      (next : ∀ c, rest.head? = some c → Toml.isKeyChar c = false) (unknown : name ∉ known none) :
      Intruder lines ('[' :: (pad ++ (text ++ rest)))
  | tables {name : String} {pad text rest : List Char} (pads : Pad pad) (written : KeyWritten name.toList text)
      (next : ∀ c, rest.head? = some c → Toml.isKeyChar c = false) (unknown : name ∉ known none) :
      Intruder lines ('[' :: '[' :: (pad ++ (text ++ rest)))
  | again {title : String} {left text right : List Char} (before : Pad left) (written : KeyWritten title.toList text)
      (after : Pad right) (held : title ∈ lines.filterMap Line.title?) (rest : List Char) :
      Intruder lines ('[' :: (left ++ (text ++ (right ++ ']' :: rest))))

def Strange (titles : List String) : Statement → Prop
  | .pair path key _ => (path.head?.getD key).name ∉ known titles.getLast?
  | .header repeated path key =>
    (path.head?.getD key).name ∉ known none ∨ repeated = false ∧ path = [] ∧ key.name ∈ titles

theorem intruderStarts {lines : List Line} {text : List Char} (intruder : Intruder lines text) :
    ∃ c more, text = c :: more ∧ Toml.Starts c ∧ c ≠ Toml.byteOrderMark := by
  have bracket : Toml.Starts '[' ∧ '[' ≠ Toml.byteOrderMark := by unfold Toml.Starts; decide
  cases intruder with
  | @key name text rest written next unknown =>
    obtain ⟨c, more, rfl, starts, _⟩ := Toml.keyStarts written
    exact ⟨c, more ++ rest, rfl, starts, fun same => Toml.keyUnmarked written rest (congrArg some same)⟩
  | table pads written next unknown => exact ⟨'[', _, rfl, bracket⟩
  | tables pads written next unknown => exact ⟨'[', _, rfl, bracket⟩
  | again before written after held rest => exact ⟨'[', _, rfl, bracket⟩

theorem intruderRead {lines : List Line} {text rest : List Char} {statement : Statement} {total : Nat}
    (intruder : Intruder lines text) (read : Toml.readStatement total text = .ok (statement, rest)) :
    Strange (lines.filterMap Line.title?) statement := by
  cases intruder with
  | key written next unknown =>
    obtain ⟨path, key, v, rfl, named⟩ := Toml.readPairNamed written next read
    rw [String.ofList_toList] at named
    exact fun mem => unknown (named ▸ mem)
  | table pads written next unknown =>
    obtain ⟨path, key, rfl, named⟩ := Toml.readTableNamed written next pads read
    rw [String.ofList_toList] at named
    exact .inl fun mem => unknown (named ▸ mem)
  | tables pads written next unknown =>
    obtain ⟨path, key, rfl, named⟩ := Toml.readTablesNamed written next pads read
    rw [String.ofList_toList] at named
    exact .inl fun mem => unknown (named ▸ mem)
  | @again title left text right before written after held rest =>
    obtain ⟨line, header⟩ := Toml.readHeaderWritten total written before after rest
    obtain ⟨behind, same⟩ := Toml.readStatementHeader read
    rw [header] at same
    cases same
    exact .inr ⟨rfl, rfl, held⟩

theorem strangeAdded {titles : List String} {p next : Progress} {s : Statement} {later : Entries}
    (standing : Toml.Standing titles p) (strange : Strange titles s) (ok : p.add s = some next)
    (grows : next.entries.Grows later) : ∃ name place, Stands later name place ∧ name ∉ known place := by
  cases s with
  | header repeated path key =>
    rcases strange with unknown | ⟨rfl, rfl, held⟩
    · cases repeated with
      | false =>
        obtain ⟨es, added, same⟩ := Option.bind_eq_some_iff.mp ok
        cases same
        exact ⟨_, none, grows.names _ (Entries.addTableNamed added), unknown⟩
      | true =>
        obtain ⟨es, added, same⟩ := Option.bind_eq_some_iff.mp ok
        cases same
        exact ⟨_, none, grows.names _ (Entries.addRepeatedNamed added), unknown⟩
    · obtain ⟨line, inner, found⟩ := standing.headed key.name held
      simp only [Progress.add, Entries.addTableTwice found] at ok
      cases ok
  | pair path key v =>
    obtain ⟨es, added, same⟩ := Option.bind_eq_some_iff.mp ok
    cases same
    have current := standing.current
    refine ⟨_, titles.getLast?, ?_, strange⟩
    cases last : titles.getLast? with
    | none =>
      rw [last] at current
      rw [List.map_eq_nil_iff.mp current] at added
      exact grows.names _ (Entries.addPairNamed added)
    | some title =>
      rw [last] at current
      obtain ⟨k, others, here, rfl, alone⟩ := List.map_eq_cons_iff.mp current
      cases List.map_eq_nil_iff.mp alone
      rw [here] at added
      obtain ⟨line, inner, found⟩ := standing.headed k.name (List.mem_of_getLast? last)
      obtain ⟨more, pair, rfl⟩ := Entries.underHeaderInner found added
      obtain ⟨most, now, names⟩ := grows.headed k.name line more (by simp [Entries.findSet])
      exact ⟨line, .headed, most, now, names _ (Entries.addPairNamed pair)⟩

theorem intruderRefused {lines : List Line} {before after : List Char} (written : LinesWritten lines before)
    (intruder : Intruder lines after) {document : String} (whole : document.toList = before ++ after) :
    ∃ fault, parse document = .error fault := by
  rw [parse, whole]
  cases read : Toml.read (before ++ after) with
  | error line => exact ⟨_, rfl⟩
  | ok es =>
    obtain ⟨c, more, first, starts, mark⟩ := intruderStarts intruder
    obtain ⟨total, statement, rest, p, next, here, standing, added, grows⟩ :=
      Toml.readNext written first starts mark read
    obtain ⟨name, place, stands, unknown⟩ := strangeAdded standing (intruderRead intruder here) added grows
    exact strangerRefused stands unknown

theorem parseJustKnown :
    (∀ (c : Choices) (sections : List Section), c.Arranged sections →
      ((∀ n, c.maxFileKb = some n → n ≤ 9223372036854775807) →
        ∃ document : String, DocumentWritten (sections.flatMap Section.lines) document.toList) ∧
      ∀ document : String, DocumentWritten (sections.flatMap Section.lines) document.toList →
        c.Answered (parse document)) ∧
    (∀ (lines : List Line) (before after : List Char) (document : String), LinesWritten lines before →
      Intruder lines after → document.toList = before ++ after → ∃ fault, parse document = .error fault) ∧
    ∀ (document : String) (es : Entries) (name : String) (place : Option String), Toml.read document.toList = .ok es →
      Stands es name place → name ∉ known place → ∃ fault, parse document = .error fault := by
  refine ⟨?_, ?_, ?_⟩
  · intro c sections arranged
    exact ⟨arrangedWritten arranged, fun document written => parseArranged arranged written⟩
  · intro lines before after document written intruder whole
    exact intruderRefused written intruder whole
  · intro document es name place read stands unknown
    rw [parse, read]
    exact strangerRefused stands unknown

theorem keysTakenOrRefused :
    let document := "[commit]\nfallback_author = \"A <a>\"\n\n[format] # c\nmax_file_kb=0\n'command' = \"a\\tb\""
    parse document = .ok {
        format := { command := "a\tb", maxFileKb := 0 },
        commit := { fallbackAuthor := some ⟨"A", "a"⟩ } } ∧
    (∃ fault, parse "[format]\nmessage = 1" = .error fault) ∧ ∃ fault, parse "format.size = 1" = .error fault := by
  intro document
  obtain ⟨arranged, intruder, stranger⟩ := parseJustKnown
  have unpadded : Pad [] := by simp [Pad]
  have padded : Pad [' '] := by simp [Pad, Toml.isBlank]
  have nothing : Toml.Remark [] := .blank unpadded
  have bare (name : String) (full : name.toList ≠ []) (chars : name.toList.all Toml.isKeyChar = true) :
      KeyWritten name.toList name.toList := .bare full (List.all_eq_true.mp chars)
  refine ⟨?_, ?_, ?_⟩
  · let c : Choices := { command := some "a\tb", maxFileKb := some 0, fallbackAuthor := some "A <a>" }
    have order : c.Arranged [Choices.commitSection [.fallbackAuthor "A <a>"],
        Choices.formatSection [.maxFileKb 0, .command "a\tb"]] :=
      .commitFirst (List.Perm.refl _) (List.Perm.swap _ _ _)
    have plain (d : Char) (shown : (Toml.isVisible d && d != '"' && d != '\\') = true) : Toml.Spelling d [d] := by
      simp only [Bool.and_eq_true, bne_iff_ne] at shown
      exact .plain shown.1.1 shown.1.2 shown.2
    have name : Toml.Spelled "A <a>".toList "A <a>".toList :=
      .cons (plain 'A' rfl) (.cons (plain ' ' rfl) (.cons (plain '<' rfl) (.cons (plain 'a' rfl)
        (.cons (plain '>' rfl) .nil))))
    have tabbed : Toml.Spelled "a\tb".toList "a\\tb".toList :=
      .cons (plain 'a' rfl) (.cons (@Toml.Spelling.short _ 't' (by decide)) (.cons (plain 'b' rfl) .nil))
    have remark : Toml.Remark " # c".toList :=
      @Toml.Remark.comment [' '] " c".toList padded (List.all_eq_true.mp (by decide))
    have lines : LinesWritten [.table "commit", .field "fallback_author" (.text "A <a>"), .table "format",
        .field "max_file_kb" (.number 0)]
        "[commit]\nfallback_author = \"A <a>\"\n\n[format] # c\nmax_file_kb=0\n".toList :=
      .more .nil (.table (bare "commit" (by decide) (by decide)) unpadded unpadded) nothing .feed
        (.more .nil (.field (bare "fallback_author" (by decide) (by decide)) padded padded (.text name)) nothing .feed
          (.more (.line .feed .nil) (.table (bare "format" (by decide) (by decide)) unpadded unpadded) remark .feed
            (.more .nil (.field (bare "max_file_kb" (by decide) (by decide)) unpadded unpadded (.number (by decide)))
              nothing .feed (.done .nil))))
    have last : Toml.LineWritten (.field "command" (.text "a\tb")) "'command' = \"a\\tb\"".toList :=
      .field (.literal (List.all_eq_true.mp (by decide)) (by decide)) padded padded (.text tabbed)
    have whole : document.toList = "[commit]\nfallback_author = \"A <a>\"\n\n[format] # c\nmax_file_kb=0\n".toList ++
        ("'command' = \"a\\tb\"".toList ++ []) := by decide
    have answered := (arranged c _ order).2 document (by rw [whole]; exact .cut lines last nothing)
    have parsed : Author.parse "A <a>" = .ok ⟨"A", "a"⟩ := by decide
    generalize parse document = answer at answered
    cases answered with
    | absent silent => cases silent
    | known given read =>
      cases given
      cases parsed.symm.trans read
      rfl
    | refused given read line =>
      cases given
      cases parsed.symm.trans read
  · refine intruder [.table "format"] "[format]\n".toList "message = 1".toList _ ?_ ?_ (by decide)
    · exact .more .nil (.table (bare "format" (by decide) (by decide)) unpadded unpadded) nothing .feed (.done .nil)
    · exact @Intruder.key _ "message" "message".toList " = 1".toList (bare "message" (by decide) (by decide))
        (by simp; decide) (by decide)
  · have read : Toml.read "format.size = 1".toList =
        .ok [(⟨"format", 1⟩, ⟨1, .table .dotted [(⟨"size", 1⟩, ⟨1, .integer 1⟩)]⟩)] := by rfl
    exact stranger _ _ "size" (some "format") read ⟨_, _, _, rfl, rfl⟩ (by decide)

end Settings
end KeepBlame
