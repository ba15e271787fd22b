import KeepBlame.Blame.LineMap
import KeepBlame.Ordered
import KeepBlame.Text.Lines
import KeepBlame.Text.Numeral

/-!
Line-by-line blame as text. A group of lines opens with a header: the commit, a line number there, the line number here
and the size of the group. The other lines of the group have a header without the size. What is known of a commit
follows its first header, and each line of the file is echoed after a tab.
-/
namespace KeepBlame.Porcelain

inductive ReadError where
  | noFinalLine (line : List Char)
  | badCount (line : List Char)
  | earlyMetadata (line : List Char)
  | echoMismatch (declared echoed : Nat)
  | noAuthor (commit : CommitId)
  deriving DecidableEq, Repr

def ReadError.message : ReadError → String
  | noFinalLine line => "header without numeric final line: " ++ String.ofList (Text.quote line)
  | badCount line => "header with non-numeric count: " ++ String.ofList (Text.quote line)
  | earlyMetadata line => "metadata before first header: " ++ String.ofList (Text.quote line)
  | echoMismatch declared echoed => s!"headers declare {declared} line(s) but {echoed} were echoed"
  | noAuthor commit => s!"no author recorded for {commit.text}"

structure Header where
  commit : CommitId
  finalLine : Nat
  count : Option Nat
  deriving DecidableEq, Repr

def lineNumber? (cs : List Char) : Option Nat := Text.readNat? Text.halfWordLimit cs

def readNumbers (line : List Char) (commit : CommitId) : List (List Char) → Except ReadError Header
  | [] => .error (.noFinalLine line)
  | final :: rest =>
    match lineNumber? final with
    | none => .error (.noFinalLine line)
    | some finalLine =>
      match rest with
      | [] => .ok ⟨commit, finalLine, none⟩
      | count :: _ =>
        match lineNumber? count with
        | none => .error (.badCount line)
        | some n => .ok ⟨commit, finalLine, some n⟩

def header? (line : List Char) : Option (Except ReadError Header) :=
  match line.splitOn ' ' with
  | commit :: number :: rest =>
    match CommitId.parse (String.ofList commit), lineNumber? number with
    | .ok id, some _ => some (readNumbers line id rest)
    | _, _ => none
  | _ => none

structure Signature where
  commit : CommitId
  name : Option String := none
  email : Option String := none
  deriving DecidableEq, Repr

structure LineGroup where
  commit : CommitId
  startLine : Nat
  lineCount : Nat
  deriving DecidableEq, Repr

structure Reading where
  groups : List LineGroup := []
  signatures : List Signature := []
  current : Option CommitId := none
  echoed : Nat := 0
  deriving DecidableEq, Repr

def Reading.sign (r : Reading) (commit : CommitId) (change : Signature → Signature) : Reading :=
  { r with signatures := Ordered.alter Signature.commit commit { commit } change r.signatures }

def nameMark : List Char := "author ".toList

def emailMark : List Char := "author-mail ".toList

def bareEmail (cs : List Char) : List Char :=
  ((cs.dropWhile (· == '<')).reverse.dropWhile (· == '>')).reverse

def Reading.metadata (r : Reading) (commit : CommitId) (line : List Char) : Reading :=
  if nameMark.isPrefixOf line then
    r.sign commit fun s => { s with name := some (String.ofList (line.drop nameMark.length)) }
  else if emailMark.isPrefixOf line then
    r.sign commit fun s => { s with email := some (String.ofList (bareEmail (line.drop emailMark.length))) }
  else r

def Reading.header (r : Reading) (h : Header) : Reading :=
  { r with
    groups := r.groups ++ (h.count.map fun n => ⟨h.commit, h.finalLine, n⟩).toList
    current := some h.commit }

def Reading.step (r : Reading) (line : List Char) : Except ReadError Reading :=
  if line.head? = some '\t' then .ok { r with echoed := r.echoed + 1 }
  else
    match header? line with
    | some (.ok h) => .ok (r.header h)
    | some (.error e) => .error e
    | none =>
      match r.current with
      | none => .error (.earlyMetadata line)
      | some commit => .ok (r.metadata commit line)

def Reading.author? (r : Reading) (commit : CommitId) : Option Author := do
  let s ← r.signatures.find? (·.commit == commit)
  return ⟨← s.name, ← s.email⟩

def Reading.hunk (r : Reading) (g : LineGroup) : Except ReadError Hunk :=
  match r.author? g.commit with
  | some author => .ok ⟨⟨g.commit, author⟩, g.startLine, g.lineCount⟩
  | none => .error (.noAuthor g.commit)

def Reading.declared (r : Reading) : Nat := r.groups.foldr (fun g n => g.lineCount + n) 0

def Reading.hunks (r : Reading) : Except ReadError (List Hunk) :=
  if r.declared = r.echoed then r.groups.mapM r.hunk else .error (.echoMismatch r.declared r.echoed)

def read (text : List Char) : Except ReadError (List Hunk) := do
  let r ← (Text.lines text).foldlM Reading.step {}
  r.hunks

end KeepBlame.Porcelain
