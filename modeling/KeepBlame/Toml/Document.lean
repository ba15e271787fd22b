import KeepBlame.Toml.Scalar

/-!
TOML documents, read statement by statement: headers and keys with their values. Reading gives the entries of the
outermost table, or the line of the first mistake.
-/
namespace KeepBlame.Toml

def depthLimit : Nat := 80

def lineOf (total : Nat) (place : Place) : Nat := total + 1 - place.count '\n'

def skipBlanks (cs : List Char) : List Char := cs.dropWhile isBlank

def skipGap (inComment : Bool) : List Char → Except Place (List Char)
  | [] => .ok []
  | c :: rest =>
    if c = '\n' then skipGap false rest
    else if c = '\r' then if rest.head? = some '\n' then skipGap false rest else .error (c :: rest)
    else if inComment then if isVisible c then skipGap true rest else .error (c :: rest)
    else if isBlank c then skipGap false rest
    else if c = '#' then skipGap true rest
    else .ok (c :: rest)

def endLine (cs : List Char) : Except Place (List Char) :=
  let cs := skipBlanks cs
  let rest := if cs.head? = some '#' then cs.dropWhile isVisible else cs
  match rest with
  | [] => .ok []
  | rest => (newline? rest).elim (.error rest) .ok

def isKeyChar (c : Char) : Bool := c.isAlphanum || c == '_' || c == '-'

def readKey (total : Nat) (cs : List Char) : Except Place (Read Key) := do
  let line := lineOf total cs
  match cs with
  | '"' :: rest =>
    let (name, rest) ← openedAt cs (readBasic rest)
    .ok (⟨String.ofList name, line⟩, rest)
  | '\'' :: rest =>
    let (name, rest) ← openedAt cs (readLiteral rest)
    .ok (⟨String.ofList name, line⟩, rest)
  | cs =>
    let name := cs.takeWhile isKeyChar
    if name.isEmpty then .error cs else .ok (⟨String.ofList name, line⟩, cs.drop name.length)

def readPath (total : Nat) (depth : Nat) (cs : List Char) : Except Place (Read (List Key × Key)) :=
  match depth with
  | 0 => .error cs
  | depth + 1 => do
    let (key, rest) ← readKey total (skipBlanks cs)
    match skipBlanks rest with
    | '.' :: rest =>
      let ((path, last), rest) ← readPath total depth rest
      .ok ((key :: path, last), rest)
    | rest => .ok (([], key), rest)

-- The items of an array after the bracket. `bound` is at least the number of characters left.
def readItems (item : List Char → Except Place (Read (Located Value))) (cs : List Char) :
    Nat → Except Place (Read (List (Located Value)))
  | 0 => .error cs
  | bound + 1 => do
    match ← skipGap false cs with
    | ']' :: rest => .ok ([], rest)
    | cs =>
      let (v, rest) ← item cs
      match ← skipGap false rest with
      | ',' :: rest =>
        let (vs, rest) ← readItems item rest bound
        .ok (v :: vs, rest)
      | ']' :: rest => .ok ([v], rest)
      | rest => .error rest

def readPair (total : Nat) (item : List Char → Except Place (Read (Located Value))) (cs : List Char) :
    Except Place (Read ((List Key × Key) × Located Value)) := do
  let (path, rest) ← readPath total (depthLimit - 1) cs
  match skipBlanks rest with
  | '=' :: rest =>
    let (v, rest) ← item (skipBlanks rest)
    .ok ((path, v), rest)
  | rest => .error rest

def readFields (total : Nat) (item : List Char → Except Place (Read (Located Value))) (cs : List Char) :
    Nat → Except Place (Read (List ((List Key × Key) × Located Value)))
  | 0 => .error cs
  | bound + 1 => do
    let (pair, rest) ← readPair total item cs
    match skipBlanks rest with
    | ',' :: rest =>
      let (pairs, rest) ← readFields total item rest bound
      .ok (pair :: pairs, rest)
    | '}' :: rest => .ok ([pair], rest)
    | rest => .error rest

def entriesOf (pairs : List ((List Key × Key) × Located Value)) : Option Entries :=
  pairs.foldlM (fun entries ((path, key), v) => entries.addPair path key v) []

def readArray (item : List Char → Except Place (Read (Located Value))) (cs : List Char) : Except Place (Read Value) := do
  let (items, rest) ← readItems item cs cs.length
  .ok (.array items, rest)

def readTable (total : Nat) (item : List Char → Except Place (Read (Located Value))) (opening cs : List Char) :
    Except Place (Read Value) :=
  match skipBlanks cs with
  | '}' :: rest => .ok (.table .braced [], rest)
  | cs => do
    let (pairs, rest) ← openedAt opening (readFields total item cs cs.length)
    match entriesOf pairs with
    | some entries => .ok (.table .braced entries, rest)
    | none => .error opening

def readValue (total : Nat) : Nat → List Char → Except Place (Read (Located Value))
  | 0, cs => .error cs
  | depth + 1, cs => do
    let (v, rest) ← match cs with
      | '"' :: _ | '\'' :: _ => do
        let (s, rest) ← readString cs
        .ok (.text (String.ofList s), rest)
      | '[' :: rest => if depth = 0 then .error cs else openedAt cs (readArray (readValue total depth) rest)
      | '{' :: rest => if depth = 0 then .error cs else readTable total (readValue total depth) cs rest
      | cs => readWord cs
    .ok (⟨lineOf total cs, v⟩, rest)

inductive Statement where
  | header (repeated : Bool) (path : List Key) (key : Key)
  | pair (path : List Key) (key : Key) (value : Located Value)

def Statement.line : Statement → Nat
  | header _ path key => (path.head?.getD key).line
  | pair path key _ => (path.head?.getD key).line

def readHeader (total : Nat) (cs : List Char) : Except Place (Read Statement) := do
  match cs with
  | '[' :: rest =>
    let ((path, key), rest) ← readPath total (depthLimit - 1) rest
    match rest with
    | ']' :: ']' :: rest => .ok (.header true path key, rest)
    | rest => .error rest
  | cs =>
    let ((path, key), rest) ← readPath total (depthLimit - 1) cs
    match rest with
    | ']' :: rest => .ok (.header false path key, rest)
    | rest => .error rest

def readStatement (total : Nat) (cs : List Char) : Except Place (Read Statement) := do
  let (statement, rest) ← match cs with
    | '[' :: rest => readHeader total rest
    | cs => do
      let (((path, key), v), rest) ← readPair total (readValue total depthLimit) cs
      .ok (.pair path key v, rest)
  .ok (statement, ← endLine rest)

-- The statements before the first mistake, and its place. `bound` is more than the number of characters left.
def readStatements (total : Nat) (cs : List Char) : Nat → List Statement × Option Place
  | 0 => ([], none)
  | bound + 1 =>
    match skipGap false cs with
    | .error place => ([], some place)
    | .ok [] => ([], none)
    | .ok cs =>
      match readStatement total cs with
      | .error place => ([], some place)
      | .ok (statement, rest) =>
        let (statements, mistake) := readStatements total rest bound
        (statement :: statements, mistake)

structure Progress where
  entries : Entries := []
  current : List Key := []

def Progress.add (p : Progress) : Statement → Option Progress
  | .header false path key => do some ⟨← p.entries.addTable path key, path ++ [key]⟩
  | .header true path key => do some ⟨← p.entries.addRepeated path key, path ++ [key]⟩
  | .pair path key value => do
    some { p with entries := ← p.entries.underHeaders p.current (·.addPair path key value) }

def build (p : Progress) : List Statement → Except Nat Progress
  | [] => .ok p
  | s :: rest =>
    match p.add s with
    | some p => build p rest
    | none => .error s.line

def byteOrderMark : Char := Char.ofNat 0xFEFF

def read (document : List Char) : Except Nat Entries := do
  let cs := if document.head? = some byteOrderMark then document.drop 1 else document
  let total := cs.count '\n'
  let (statements, mistake) := readStatements total cs (cs.length + 1)
  let p ← build {} statements
  match mistake with
  | some place => .error (lineOf total place)
  | none => .ok p.entries

end KeepBlame.Toml
