import KeepBlame.Text.Search

/-!
Configuration of a repository. Sections hold keys, a section may have a subsection in quotes; names of sections and keys
do not tell upper from lower case. Of several values the last counts, and a key that stands alone has none.
-/
namespace KeepBlame.Git.Config

structure Title where
  name : List Char := []
  subsection : Option (List Char) := none
  deriving DecidableEq, Repr

structure Section where
  title : Title
  entries : List (List Char × Option (List Char))
  deriving DecidableEq, Repr

def lower (cs : List Char) : List Char := cs.map Char.toLower

def isGap (c : Char) : Bool := c == ' ' || c == '\t'

def isNameChar (c : Char) : Bool := c.isAlphanum || c == '-'

def isComment (c : Char) : Bool := c == ';' || c == '#'

def dropLine (cs : List Char) : List Char := cs.dropWhile (· != '\n')

def escaped? (c : Char) : Option Char :=
  match c with
  | 'n' => some '\n'
  | 't' => some '\t'
  | 'b' => some (Char.ofNat 8)
  | '"' => some '"'
  | '\\' => some '\\'
  | _ => none

-- Reads a value up to the end of its line. `gap` holds blanks that count only if more of the value follows.
def readValue (quoted : Bool) (gap : List Char) : List Char → Option (List Char × List Char)
  | [] => if quoted then none else some ([], [])
  | '\\' :: '\r' :: '\n' :: rest => readValue quoted gap rest
  | '\\' :: '\n' :: rest => readValue quoted gap rest
  | '\\' :: c :: rest => do
    let e ← escaped? c
    let (value, rest) ← readValue quoted [] rest
    return (gap ++ e :: value, rest)
  | ['\\'] => none
  | '"' :: rest => do
    let (value, rest) ← readValue (!quoted) [] rest
    return (gap ++ value, rest)
  | '\n' :: rest => if quoted then none else some ([], '\n' :: rest)
  | c :: rest =>
    if quoted then do
      let (value, rest) ← readValue quoted [] rest
      return (gap ++ c :: value, rest)
    else if isComment c then some ([], dropLine rest)
    else if isGap c || c == '\r' then readValue quoted (gap ++ [c]) rest
    else do
      let (value, rest) ← readValue quoted [] rest
      return (gap ++ c :: value, rest)

theorem readValueLength {quoted : Bool} {gap cs value rest : List Char}
    (h : readValue quoted gap cs = some (value, rest)) : rest.length ≤ cs.length := by
  fun_induction readValue quoted gap cs generalizing value with
  | case1 => simp at h
  | case2 =>
    cases h
    simp
  | case3 quoted gap cs ih =>
    have := ih h
    simp only [List.length_cons]
    omega
  | case4 quoted gap cs ih =>
    have := ih h
    simp only [List.length_cons]
    omega
  | case5 quoted gap c cs _ _ ih =>
    simp only [Option.bind_eq_bind, Option.bind_eq_some_iff, Option.pure_def, Option.some.injEq] at h
    obtain ⟨e, _, ⟨v, r⟩, hr, last⟩ := h
    cases last
    have : r.length ≤ cs.length := ih hr
    simp only [List.length_cons]
    omega
  | case6 => simp at h
  | case7 quoted gap cs ih =>
    simp only [Option.bind_eq_bind, Option.bind_eq_some_iff, Option.pure_def, Option.some.injEq] at h
    obtain ⟨⟨v, r⟩, hr, last⟩ := h
    cases last
    have : r.length ≤ cs.length := ih hr
    simp only [List.length_cons]
    omega
  | case8 => simp at h
  | case9 =>
    cases h
    simp
  | case10 gap c cs _ _ _ _ _ _ ih =>
    simp only [Option.bind_eq_bind, Option.bind_eq_some_iff, Option.pure_def, Option.some.injEq] at h
    obtain ⟨⟨v, r⟩, hr, last⟩ := h
    cases last
    have : r.length ≤ cs.length := ih hr
    simp only [List.length_cons]
    omega
  | case11 quoted gap c cs =>
    cases h
    have := (List.dropWhile_sublist (l := cs) (· != '\n')).length_le
    simp only [dropLine, List.length_cons]
    omega
  | case12 quoted gap c cs _ _ _ _ _ _ _ _ _ ih =>
    have := ih h
    simp only [List.length_cons]
    omega
  | case13 quoted gap c cs _ _ _ _ _ _ _ _ _ ih =>
    simp only [Option.bind_eq_bind, Option.bind_eq_some_iff, Option.pure_def, Option.some.injEq] at h
    obtain ⟨⟨v, r⟩, hr, last⟩ := h
    cases last
    have : r.length ≤ cs.length := ih hr
    simp only [List.length_cons]
    omega

def readQuoted : List Char → Option (List Char × List Char)
  | [] => none
  | '"' :: rest => some ([], rest)
  | '\n' :: _ => none
  | '\\' :: c :: rest => do
    let (text, rest) ← readQuoted rest
    return (c :: text, rest)
  | c :: rest => do
    let (text, rest) ← readQuoted rest
    return (c :: text, rest)

theorem readQuotedLength {cs text rest : List Char} (h : readQuoted cs = some (text, rest)) :
    rest.length ≤ cs.length := by
  fun_induction readQuoted cs generalizing text with
  | case1 => simp at h
  | case2 =>
    cases h
    simp
  | case3 => simp at h
  | case4 c cs ih =>
    simp only [Option.bind_eq_bind, Option.bind_eq_some_iff, Option.pure_def, Option.some.injEq] at h
    obtain ⟨⟨v, r⟩, hr, last⟩ := h
    cases last
    have : r.length ≤ cs.length := ih hr
    simp only [List.length_cons]
    omega
  | case5 c cs _ _ _ ih =>
    simp only [Option.bind_eq_bind, Option.bind_eq_some_iff, Option.pure_def, Option.some.injEq] at h
    obtain ⟨⟨v, r⟩, hr, last⟩ := h
    cases last
    have : r.length ≤ cs.length := ih hr
    simp only [List.length_cons]
    omega

def isTitleChar (c : Char) : Bool := isNameChar c || c == '.'

def plainTitle (cs : List Char) : Title :=
  let name := cs.takeWhile (· != '.')
  ⟨name, if name.length = cs.length then none else some (cs.drop (name.length + 1))⟩

def readSubsection (name cs : List Char) : Option (Title × List Char) :=
  match cs.dropWhile isGap with
  | '"' :: quoted =>
    match readQuoted quoted with
    | some (subsection, ']' :: rest) => some (⟨name, some subsection⟩, rest)
    | _ => none
  | _ => none

theorem readSubsectionLength {name cs rest : List Char} {title : Title}
    (h : readSubsection name cs = some (title, rest)) : rest.length ≤ cs.length := by
  unfold readSubsection at h
  have dropped := (List.dropWhile_sublist (l := cs) isGap).length_le
  split at h
  · rename_i quoted hd
    split at h
    · rename_i found hq
      cases h
      have := readQuotedLength hq
      simp only [hd, List.length_cons] at *
      omega
    · simp at h
  · simp at h

def readTitle (cs : List Char) : Option (Title × List Char) :=
  let name := cs.takeWhile isTitleChar
  match cs.dropWhile isTitleChar with
  | ']' :: rest => if name.isEmpty then none else some (plainTitle name, rest)
  | rest => readSubsection name rest

theorem readTitleLength {cs rest : List Char} {title : Title} (h : readTitle cs = some (title, rest)) :
    rest.length ≤ cs.length := by
  simp only [readTitle] at h
  have dropped := (List.dropWhile_sublist (l := cs) isTitleChar).length_le
  split at h
  · rename_i found hd
    split at h
    · simp at h
    · cases h
      simp only [hd, List.length_cons] at dropped
      omega
  · have := readSubsectionLength h
    omega

def readSetting (cs : List Char) : Option (Option (List Char) × List Char) :=
  match cs.dropWhile isGap with
  | [] => some (none, [])
  | c :: rest =>
    if c == '=' then (readValue false [] (rest.dropWhile isGap)).map fun (value, rest) => (some value, rest)
    else if c == '\n' || c == '\r' then some (none, rest)
    else if isComment c then some (none, dropLine rest)
    else none

theorem readSettingLength {cs rest : List Char} {value : Option (List Char)}
    (h : readSetting cs = some (value, rest)) : rest.length ≤ cs.length := by
  unfold readSetting at h
  have dropped := (List.dropWhile_sublist (l := cs) isGap).length_le
  split at h
  · cases h
    simp
  · rename_i c found hd
    simp only [hd, List.length_cons] at dropped
    split at h
    · obtain ⟨⟨v, r⟩, hv, last⟩ := Option.map_eq_some_iff.1 h
      cases last
      have := readValueLength hv
      have := (List.dropWhile_sublist (l := found) isGap).length_le
      omega
    · split at h
      · cases h
        omega
      · split at h
        · cases h
          have := (List.dropWhile_sublist (l := found) (· != '\n')).length_le
          simp only [dropLine]
          omega
        · simp at h

def addEntry (entry : List Char × Option (List Char)) : List Section → Option (List Section)
  | [] => none
  | [s] => some [{ s with entries := s.entries ++ [entry] }]
  | s :: rest => (s :: ·) <$> addEntry entry rest

def readFrom (sections : List Section) : List Char → Option (List Section)
  | [] => some sections
  | c :: rest =>
    if isGap c || c == '\n' || c == '\r' then readFrom sections rest
    else if isComment c then readFrom sections (dropLine rest)
    else if c == '[' then
      match _h : readTitle rest with
      | none => none
      | some (title, rest) => readFrom (sections ++ [⟨title, []⟩]) rest
    else if c.isAlpha then
      match _h : readSetting (rest.dropWhile isNameChar) with
      | none => none
      | some (value, after) =>
        match addEntry (c :: rest.takeWhile isNameChar, value) sections with
        | none => none
        | some sections => readFrom sections after
    else none
termination_by cs => cs.length
decreasing_by
  · simp
  · have := (List.dropWhile_sublist (l := rest) (· != '\n')).length_le
    simp only [dropLine, List.length_cons]
    omega
  · have := readTitleLength _h
    simp only [List.length_cons]
    omega
  · have := readSettingLength _h
    have := (List.dropWhile_sublist (l := rest) isNameChar).length_le
    simp only [List.length_cons]
    omega

def read (text : String) : Option (List Section) := readFrom [] text.toList

def splitKey (key : List Char) : Option (Title × List Char) :=
  let last := (key.reverse.takeWhile (· != '.')).reverse
  if last.length = key.length then none
  else some (plainTitle (key.take (key.length - last.length - 1)), last)

def Title.same (a b : Title) : Bool := lower a.name == lower b.name && a.subsection == b.subsection

def Section.value? (s : Section) (key : List Char) : Option (List Char) := do
  let entry ← s.entries.reverse.find? fun e => lower e.1 == lower key
  entry.2

def value? (sections : List Section) (key : String) : Option String := do
  let (title, last) ← splitKey key.toList
  let value ← sections.reverse.findSome? fun s => if s.title.same title then s.value? last else none
  return String.ofList value

end KeepBlame.Git.Config
