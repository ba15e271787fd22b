import KeepBlame.Proofs.TomlScalar
import KeepBlame.Toml.Document
import Mathlib.Data.List.Forall2

/-! TOML as text. A document of headers of tables and of keys with strings, whole numbers or arrays of strings is read back
statement by statement, whatever blanks, comments and empty lines it has and in whichever way its keys are quoted. -/
namespace KeepBlame.Toml

def Pad (cs : List Char) : Prop := ∀ c ∈ cs, isBlank c = true

inductive Newline : List Char → Prop where
  | feed : Newline ['\n']
  | returned : Newline ['\r', '\n']

inductive Gap : List Char → Prop where
  | nil : Gap []
  | blank {c : Char} {gap : List Char} (blank : isBlank c = true) (later : Gap gap) : Gap (c :: gap)
  | line {ending gap : List Char} (newline : Newline ending) (later : Gap gap) : Gap (ending ++ gap)
  | comment {text ending gap : List Char} (visible : ∀ c ∈ text, isVisible c = true) (newline : Newline ending)
      (later : Gap gap) : Gap ('#' :: (text ++ (ending ++ gap)))

inductive Remark : List Char → Prop where
  | blank {pad : List Char} (pads : Pad pad) : Remark pad
  | comment {pad text : List Char} (pads : Pad pad) (visible : ∀ c ∈ text, isVisible c = true) :
      Remark (pad ++ '#' :: text)

inductive Ending (left : List Char) : List Char → Prop where
  | newline {ending : List Char} (newline : Newline ending) : Ending left (ending ++ left)
  | last (done : left = []) : Ending left []

theorem blankIff {c : Char} : isBlank c = true ↔ c = ' ' ∨ c = '\t' := by simp [isBlank]

theorem visibleOneLine {c : Char} (visible : isVisible c = true) : c ≠ '\n' ∧ c ≠ '\r' := by
  constructor <;> (rintro rfl; revert visible; decide)

theorem skipPad {pad rest : List Char} (pads : Pad pad) (next : ∀ c, rest.head? = some c → isBlank c = false) :
    skipBlanks (pad ++ rest) = rest := (cutRun pads next).2

theorem skipPadTo {pad : List Char} {c : Char} (pads : Pad pad) (other : isBlank c = false) (rest : List Char) :
    skipBlanks (pad ++ c :: rest) = c :: rest :=
  skipPad pads fun _ head => Option.some.inj head ▸ other

theorem skipNewline {ending : List Char} (newline : Newline ending) (rest : List Char) (inComment : Bool) :
    skipGap inComment (ending ++ rest) = skipGap false rest := by
  cases newline with
  | feed => simp [skipGap]
  | returned => simp [skipGap]

theorem skipComment {text ending rest : List Char} (visible : ∀ c ∈ text, isVisible c = true)
    (newline : Newline ending) : skipGap true (text ++ (ending ++ rest)) = skipGap false rest := by
  induction text with
  | nil => exact skipNewline newline rest true
  | cons c more ih =>
    have here := visible c List.mem_cons_self
    obtain ⟨feed, returned⟩ := visibleOneLine here
    rw [List.cons_append, skipGap, if_neg feed, if_neg returned, if_pos rfl, if_pos here]
    exact ih fun d mem => visible d (List.mem_cons_of_mem c mem)

theorem skipGapOver {gap : List Char} (between : Gap gap) (rest : List Char) :
    skipGap false (gap ++ rest) = skipGap false rest := by
  induction between with
  | nil => rfl
  | @blank c gap blank later ih =>
    have other : c ≠ '\n' ∧ c ≠ '\r' := by rcases blankIff.mp blank with rfl | rfl <;> decide
    rw [List.cons_append, skipGap, if_neg other.1, if_neg other.2, if_neg (by decide), if_pos blank]
    exact ih
  | line newline later ih => rw [List.append_assoc, skipNewline newline, ih]
  | comment visible newline later ih =>
    rw [List.cons_append, List.append_assoc, List.append_assoc, skipGap, if_neg (by decide), if_neg (by decide),
      if_neg (by decide), if_neg (by decide), if_pos rfl, skipComment visible newline, ih]

def Starts (c : Char) : Prop := c ≠ '\n' ∧ c ≠ '\r' ∧ isBlank c = false ∧ c ≠ '#'

theorem skipNothing {c : Char} (starts : Starts c) (rest : List Char) : skipGap false (c :: rest) = .ok (c :: rest) := by
  obtain ⟨feed, returned, blank, hash⟩ := starts
  simp [skipGap, feed, returned, blank, hash]

theorem endingHead {left rest : List Char} (ends : Ending left rest) {c : Char} (head : rest.head? = some c) :
    c = '\n' ∨ c = '\r' := by
  cases ends with
  | newline newline =>
    cases newline with
    | feed => exact .inl (Option.some.inj head).symm
    | returned => exact .inr (Option.some.inj head).symm
  | last => cases head

theorem endLineWritten {remark left rest : List Char} (remarks : Remark remark) (ends : Ending left rest) :
    endLine (remark ++ rest) = .ok left := by
  have closes : rest = [] ∧ left = [] ∨ rest ≠ [] ∧ newline? rest = some left := by
    cases ends with
    | newline newline => cases newline <;> simp [newline?]
    | last done => exact .inl ⟨rfl, done⟩
  have next : ∀ c, rest.head? = some c → isBlank c = false ∧ c ≠ '#' ∧ isVisible c = false := by
    intro c head
    rcases endingHead ends head with rfl | rfl <;> decide
  cases remarks with
  | blank pads =>
    have plain : rest.head? ≠ some '#' := fun head => (next _ head).2.1 rfl
    rw [endLine, skipPad pads fun c head => (next c head).1]
    rcases closes with ⟨rfl, rfl⟩ | ⟨full, read⟩
    · rfl
    · simp [plain, read]
  | @comment pad text pads visible =>
    have skipped : skipBlanks (pad ++ ('#' :: (text ++ rest))) = '#' :: (text ++ rest) :=
      skipPadTo pads (by decide) _
    have shown : ∀ d ∈ '#' :: text, isVisible d = true := by
      intro d mem
      rcases List.mem_cons.mp mem with rfl | later
      · decide
      · exact visible d later
    have dropped : ('#' :: (text ++ rest)).dropWhile isVisible = rest := (cutRun shown fun c head => (next c head).2.2).2
    rw [List.append_assoc, List.cons_append, endLine, skipped]
    simp only [List.head?_cons, if_true, dropped]
    rcases closes with ⟨rfl, rfl⟩ | ⟨full, read⟩
    · rfl
    · simp [read]

theorem skipRemark {remark : List Char} (remarks : Remark remark) : skipGap false remark = .ok [] := by
  have blanks {pad : List Char} (pads : Pad pad) (rest : List Char) :
      skipGap false (pad ++ rest) = skipGap false rest := by
    induction pad with
    | nil => rfl
    | cons c more ih =>
      have here := pads c List.mem_cons_self
      exact (skipGapOver (.blank here .nil) (more ++ rest)).trans (ih fun d mem => pads d (List.mem_cons_of_mem c mem))
  have comments {text : List Char} (visible : ∀ c ∈ text, isVisible c = true) : skipGap true text = .ok [] := by
    induction text with
    | nil => rfl
    | cons c more ih =>
      have here := visible c List.mem_cons_self
      obtain ⟨feed, returned⟩ := visibleOneLine here
      rw [skipGap, if_neg feed, if_neg returned, if_pos rfl, if_pos here]
      exact ih fun d mem => visible d (List.mem_cons_of_mem c mem)
  cases remarks with
  | blank pads => exact (List.append_nil remark) ▸ (blanks pads [])
  | comment pads visible =>
    rw [blanks pads, skipGap, if_neg (by decide), if_neg (by decide), if_neg (by decide), if_neg (by decide), if_pos rfl,
      comments visible]

inductive KeyWritten (name : List Char) : List Char → Prop where
  | bare (full : name ≠ []) (chars : ∀ c ∈ name, isKeyChar c = true) : KeyWritten name name
  | quoted {text : List Char} (spelled : Spelled name text) : KeyWritten name ('"' :: (text ++ ['"']))
  | literal (visible : ∀ c ∈ name, isVisible c = true) (quote : '\'' ∉ name) :
      KeyWritten name ('\'' :: (name ++ ['\'']))

theorem readLiteralWritten {name : List Char} (visible : ∀ c ∈ name, isVisible c = true) (quote : '\'' ∉ name)
    (rest : List Char) : readLiteral (name ++ '\'' :: rest) = .ok (name, rest) := by
  induction name with
  | nil => simp [readLiteral]
  | cons c more ih =>
    obtain ⟨other, later⟩ := not_or.mp fun mem => quote (List.mem_cons.mpr mem)
    rw [List.cons_append, readLiteral, if_neg (Ne.symm other), if_pos (visible c List.mem_cons_self),
      ih (fun d mem => visible d (List.mem_cons_of_mem c mem)) later]
    rfl

theorem keyStarts {name text : List Char} (written : KeyWritten name text) :
    ∃ c more, text = c :: more ∧ Starts c ∧ c ≠ '[' := by
  cases written with
  | bare full chars =>
    obtain ⟨c, more, rfl⟩ := List.exists_cons_of_ne_nil full
    have char := chars c List.mem_cons_self
    have other : ∀ d, isKeyChar d = false → c ≠ d := by
      rintro d no rfl
      rw [char] at no
      cases no
    refine ⟨c, more, rfl, ⟨other _ (by decide), other _ (by decide), ?_, other _ (by decide)⟩, other _ (by decide)⟩
    simp [isBlank, other ' ' (by decide), other '\t' (by decide)]
  | quoted spelled => exact ⟨'"', _, rfl, by unfold Starts; decide, by decide⟩
  | literal visible quote => exact ⟨'\'', _, rfl, by unfold Starts; decide, by decide⟩

theorem keyUnmarked {name text : List Char} (written : KeyWritten name text) (rest : List Char) :
    (text ++ rest).head? ≠ some byteOrderMark := by
  cases written with
  | bare full chars =>
    obtain ⟨c, more, rfl⟩ := List.exists_cons_of_ne_nil full
    have char := chars c List.mem_cons_self
    intro head
    rw [Option.some.inj head] at char
    exact absurd char (by decide)
  | quoted spelled => exact fun head => absurd (Option.some.inj head) (by decide)
  | literal visible quote => exact fun head => absurd (Option.some.inj head) (by decide)

theorem skipToKey {name text pad : List Char} (written : KeyWritten name text) (pads : Pad pad) (rest : List Char) :
    skipBlanks (pad ++ (text ++ rest)) = text ++ rest := by
  obtain ⟨c, more, rfl, starts, _⟩ := keyStarts written
  exact skipPadTo pads starts.2.2.1 _

section Key
variable {name text : List Char} (written : KeyWritten name text) {rest : List Char}
  (next : ∀ c, rest.head? = some c → isKeyChar c = false) {pad : List Char} (pads : Pad pad) (total : Nat)
include written next

theorem readKeyWritten : ∃ line, readKey total (text ++ rest) = .ok (⟨String.ofList name, line⟩, rest) := by
  refine ⟨lineOf total (text ++ rest), ?_⟩
  cases written with
  | bare full chars =>
    have taken : (name ++ rest).takeWhile isKeyChar = name := (cutRun chars next).1
    have quotes : ∀ quote, isKeyChar quote = false → ∀ more, name ++ rest ≠ quote :: more := by
      intro quote no more same
      obtain ⟨c, others, rfl⟩ := List.exists_cons_of_ne_nil full
      have char := chars c List.mem_cons_self
      rw [(List.cons.inj same).1, no] at char
      cases char
    unfold readKey
    split
    · rename_i same
      exact absurd same (quotes _ (by decide) _)
    · rename_i same
      exact absurd same (quotes _ (by decide) _)
    · simp [taken, full]
  | quoted spelled =>
    have read := readBasicSpelled spelled rest
    simp [readKey, read, openedAt, bind, Except.bind]
  | literal visible quote =>
    have read := readLiteralWritten visible quote rest
    simp [readKey, read, openedAt, bind, Except.bind]

include pads

theorem readPathNamed {depth : Nat} {path : List Key} {last : Key} {left : List Char}
    (ok : readPath total depth (pad ++ (text ++ rest)) = .ok ((path, last), left)) :
    (path.head?.getD last).name = String.ofList name := by
  obtain ⟨line, read⟩ := readKeyWritten written next total
  cases depth with
  | zero => cases ok
  | succ depth =>
    simp only [readPath, skipToKey written pads, read, bind, Except.bind] at ok
    split at ok
    · split at ok
      · cases ok
      · cases ok
        rfl
    · cases ok
      rfl

theorem readPathWritten {c : Char} {more : List Char} (skipped : skipBlanks rest = c :: more) (dot : c ≠ '.')
    (depth : Nat) : ∃ line, readPath total (depth + 1) (pad ++ (text ++ rest)) =
      .ok (([], ⟨String.ofList name, line⟩), c :: more) := by
  obtain ⟨line, read⟩ := readKeyWritten written next total
  refine ⟨line, ?_⟩
  simp only [readPath, skipToKey written pads, read, bind, Except.bind, skipped]
  split
  · rename_i same
    exact absurd (List.cons.inj same).1 dot
  · rfl

end Key

inductive Datum where
  | text (s : String)
  | texts (items : List String)
  | number (n : Nat)

inductive ItemsWritten : List String → List Char → Prop where
  | none {gap : List Char} (between : Gap gap) : ItemsWritten [] (gap ++ [']'])
  | last {s : String} {text before after : List Char} (spelled : Spelled s.toList text) (left : Gap before)
      (right : Gap after) : ItemsWritten [s] (before ++ '"' :: (text ++ '"' :: (after ++ [']'])))
  | more {s : String} {items : List String} {text before after others : List Char} (spelled : Spelled s.toList text)
      (left : Gap before) (right : Gap after) (later : ItemsWritten items others) :
      ItemsWritten (s :: items) (before ++ '"' :: (text ++ '"' :: (after ++ ',' :: others)))

inductive DatumWritten : Datum → List Char → Prop where
  | text {s : String} {text : List Char} (spelled : Spelled s.toList text) :
      DatumWritten (.text s) ('"' :: (text ++ ['"']))
  | texts {items : List String} {text : List Char} (written : ItemsWritten items text) :
      DatumWritten (.texts items) ('[' :: text)
  | number {n : Nat} (within : n ≤ integerLimit) : DatumWritten (.number n) (Nat.toDigits 10 n)

inductive Holds : Datum → Value → Prop where
  | text (s : String) : Holds (.text s) (.text s)
  | texts {items : List String} {located : List (Located Value)}
      (same : located.map Located.value = items.map .text) : Holds (.texts items) (.array located)
  | number (n : Nat) : Holds (.number n) (.integer n)

theorem itemsSome (items : List String) : ∃ text, ItemsWritten items text := by
  induction items with
  | nil => exact ⟨_, .none .nil⟩
  | cons s items ih =>
    obtain ⟨text, spelled⟩ := spelledSome s.toList
    obtain ⟨others, later⟩ := ih
    exact ⟨_, .more spelled .nil .nil later⟩

def Datum.Fits : Datum → Prop
  | text _ => True
  | texts _ => True
  | number n => n ≤ integerLimit

theorem datumSome {d : Datum} (fits : d.Fits) : ∃ text, DatumWritten d text := by
  cases d with
  | text s =>
    obtain ⟨text, spelled⟩ := spelledSome s.toList
    exact ⟨_, .text spelled⟩
  | texts items =>
    obtain ⟨text, written⟩ := itemsSome items
    exact ⟨_, .texts written⟩
  | number n => exact ⟨_, .number fits⟩

theorem gapFirst {gap rest : List Char} {c : Char} (between : Gap gap) (starts : Starts c)
    (next : rest.head? ≠ some c) : (gap ++ rest).head? ≠ some c := by
  obtain ⟨feed, returned, blank, hash⟩ := starts
  cases between with
  | nil => exact next
  | @blank d gap blanks later =>
    intro head
    rw [Option.some.inj head, blank] at blanks
    cases blanks
  | line newline later =>
    cases newline with
    | feed => exact fun head => feed (Option.some.inj head).symm
    | returned => exact fun head => returned (Option.some.inj head).symm
  | comment visible newline later => exact fun head => hash (Option.some.inj head).symm

section Value
variable (total : Nat)

theorem readText {s : String} {text rest : List Char} (spelled : Spelled s.toList text) (next : rest.head? ≠ some '"')
    (depth : Nat) : ∃ line, readValue total (depth + 1) ('"' :: (text ++ '"' :: rest)) = .ok (⟨line, .text s⟩, rest) := by
  refine ⟨lineOf total ('"' :: (text ++ '"' :: rest)), ?_⟩
  rw [readValue]
  simp only [readStringSpelled spelled next, bind, Except.bind, String.ofList_toList]

section Items
variable {item : List Char → Except Place (Read (Located Value))} {before text rest others : List Char} {c : Char}
  {v : Located Value} (left : Gap before) (starts : Starts c) (bracket : c ≠ ']')
  (read : item (c :: text) = .ok (v, rest))
include left starts bracket read

theorem readItemsLast (closing : skipGap false rest = .ok (']' :: others)) (bound : Nat) :
    readItems item (before ++ c :: text) (bound + 1) = .ok ([v], others) := by
  rw [readItems, skipGapOver left, skipNothing starts]
  simp only [bind, Except.bind]
  split
  · rename_i same
    exact absurd (List.cons.inj same).1 bracket
  · simp only [read, closing]

theorem readItemsMore (comma : skipGap false rest = .ok (',' :: others)) {bound : Nat} {vs : List (Located Value)}
    {final : List Char} (later : readItems item others bound = .ok (vs, final)) :
    readItems item (before ++ c :: text) (bound + 1) = .ok (v :: vs, final) := by
  rw [readItems, skipGapOver left, skipNothing starts]
  simp only [bind, Except.bind]
  split
  · rename_i same
    exact absurd (List.cons.inj same).1 bracket
  · simp only [read, comma, later]

end Items

theorem readItemsWritten {items : List String} {text : List Char} (written : ItemsWritten items text) (rest : List Char)
    (depth : Nat) {bound : Nat} (enough : text.length ≤ bound) :
    ∃ located, readItems (readValue total (depth + 1)) (text ++ rest) bound = .ok (located, rest) ∧
      located.map Located.value = items.map .text := by
  have starts : Starts '"' ∧ Starts ']' ∧ Starts ',' := by unfold Starts; decide
  induction written generalizing bound with
  | @none gap between =>
    obtain ⟨bound, rfl⟩ := Nat.exists_eq_add_one.mpr (Nat.lt_of_lt_of_le (by simp) enough)
    refine ⟨[], ?_, rfl⟩
    rw [readItems, List.append_assoc, skipGapOver between, List.singleton_append, skipNothing starts.2.1]
    rfl
  | @last s text before after spelled left right =>
    have positive : 0 < bound := by
      simp only [List.length_append, List.length_cons] at enough
      omega
    obtain ⟨bound, rfl⟩ := Nat.exists_eq_add_one.mpr positive
    have next : (after ++ ']' :: rest).head? ≠ some '"' := gapFirst right starts.1 (by simp)
    obtain ⟨line, read⟩ := readText total spelled next depth
    refine ⟨[⟨line, .text s⟩], ?_, rfl⟩
    simp only [List.append_assoc, List.cons_append, List.nil_append]
    exact readItemsLast left starts.1 (by decide) read ((skipGapOver right _).trans (skipNothing starts.2.1 _)) bound
  | @more s items text before after others spelled left right later ih =>
    have positive : 0 < bound := by
      simp only [List.length_append, List.length_cons] at enough
      omega
    obtain ⟨bound, rfl⟩ := Nat.exists_eq_add_one.mpr positive
    have next : (after ++ ',' :: (others ++ rest)).head? ≠ some '"' := gapFirst right starts.1 (by simp)
    obtain ⟨line, read⟩ := readText total spelled next depth
    have fewer : others.length ≤ bound := by
      simp only [List.length_append, List.length_cons] at enough
      omega
    obtain ⟨located, reads, values⟩ := ih fewer
    refine ⟨⟨line, .text s⟩ :: located, ?_, by simp [values]⟩
    simp only [List.append_assoc, List.cons_append]
    exact readItemsMore left starts.1 (by decide) read ((skipGapOver right _).trans (skipNothing starts.2.2 _)) reads

theorem readValueWritten {d : Datum} {text rest : List Char} (written : DatumWritten d text)
    (next : ∀ c, rest.head? = some c → isWordChar c = false ∧ c ≠ '"') :
    ∃ line v, readValue total depthLimit (text ++ rest) = .ok (⟨line, v⟩, rest) ∧ Holds d v := by
  have quote : rest.head? ≠ some '"' := fun same => (next _ same).2 rfl
  cases written with
  | @text s text spelled =>
    obtain ⟨line, read⟩ := readText total spelled quote 79
    refine ⟨line, .text s, ?_, .text s⟩
    rw [List.cons_append, List.append_assoc]
    exact read
  | @texts items text written =>
    obtain ⟨located, read, values⟩ := readItemsWritten total written rest 78 (Nat.le_add_right text.length rest.length)
    refine ⟨lineOf total ('[' :: text ++ rest), .array located, ?_, .texts values⟩
    rw [← List.length_append] at read
    have array : readArray (readValue total 79) (text ++ rest) = .ok (.array located, rest) := by
      simp only [readArray, read, bind, Except.bind]
    change readValue total (79 + 1) ('[' :: (text ++ rest)) = _
    rw [readValue]
    simp only [array]
    rfl
  | @number n within =>
    have read := readWordWritten within fun c same => (next c same).1
    refine ⟨lineOf total (Nat.toDigits 10 n ++ rest), .integer n, ?_, .number n⟩
    have other {c : Char} (mark : c.isDigit = false) (more : List Char) : Nat.toDigits 10 n ++ rest ≠ c :: more := by
      obtain ⟨d, later, split, digit⟩ := decimalCons n
      rw [split]
      intro same
      rw [(List.cons.inj same).1, mark] at digit
      cases digit
    change readValue total (79 + 1) _ = _
    unfold readValue
    simp only [bind, Except.bind]
    split
    · rename_i same
      exact absurd same (other (by decide) _)
    · rename_i same
      exact absurd same (other (by decide) _)
    · rename_i same
      exact absurd same (other (by decide) _)
    · rename_i same
      exact absurd same (other (by decide) _)
    · rw [read]

end Value

inductive Line where
  | table (title : String)
  | field (key : String) (value : Datum)

inductive LineWritten : Line → List Char → Prop where
  | table {title : String} {text left right : List Char} (key : KeyWritten title.toList text) (before : Pad left)
      (after : Pad right) : LineWritten (.table title) ('[' :: (left ++ (text ++ (right ++ [']']))))
  | field {key : String} {d : Datum} {text left right value : List Char} (written : KeyWritten key.toList text)
      (before : Pad left) (after : Pad right) (datum : DatumWritten d value) :
      LineWritten (.field key d) (text ++ (left ++ '=' :: (right ++ value)))

inductive Reads : Line → Statement → Prop where
  | table (title : String) (line : Nat) : Reads (.table title) (.header false [] ⟨title, line⟩)
  | field {key : String} {d : Datum} {v : Value} (line place : Nat) (holds : Holds d v) :
      Reads (.field key d) (.pair [] ⟨key, line⟩ ⟨place, v⟩)

inductive LinesWritten : List Line → List Char → Prop where
  | done {gap : List Char} (between : Gap gap) : LinesWritten [] gap
  | more {l : Line} {lines : List Line} {gap text remark ending later : List Char} (between : Gap gap)
      (here : LineWritten l text) (remarks : Remark remark) (newline : Newline ending) (others : LinesWritten lines later) :
      LinesWritten (l :: lines) (gap ++ (text ++ (remark ++ (ending ++ later))))

inductive DocumentWritten : List Line → List Char → Prop where
  | closed {lines : List Line} {text remark : List Char} (written : LinesWritten lines text) (remarks : Remark remark) :
      DocumentWritten lines (text ++ remark)
  | cut {lines : List Line} {l : Line} {text last remark : List Char} (written : LinesWritten lines text)
      (here : LineWritten l last) (remarks : Remark remark) : DocumentWritten (lines ++ [l]) (text ++ (last ++ remark))

theorem linesSome {lines : List Line} (fits : ∀ key d, .field key d ∈ lines → d.Fits) :
    ∃ text, LinesWritten lines text := by
  induction lines with
  | nil => exact ⟨_, .done .nil⟩
  | cons l lines ih =>
    have unpadded : Pad [] := by simp [Pad]
    obtain ⟨later, others⟩ := ih fun key d mem => fits key d (List.mem_cons_of_mem l mem)
    have here : ∃ text, LineWritten l text := by
      cases l with
      | table title =>
        obtain ⟨name, spelled⟩ := spelledSome title.toList
        exact ⟨_, .table (.quoted spelled) unpadded unpadded⟩
      | field key d =>
        obtain ⟨name, spelled⟩ := spelledSome key.toList
        obtain ⟨value, datum⟩ := datumSome (fits key d List.mem_cons_self)
        exact ⟨_, .field (.quoted spelled) unpadded unpadded datum⟩
    obtain ⟨text, line⟩ := here
    exact ⟨_, .more .nil line (.blank unpadded) .feed others⟩

theorem padHead {pad rest : List Char} (pads : Pad pad) {c : Char} (head : (pad ++ rest).head? = some c) :
    isBlank c = true ∨ rest.head? = some c := by
  cases pad with
  | nil => exact .inr head
  | cons d more =>
    cases head
    exact .inl (pads c List.mem_cons_self)

theorem remarkHead {remark left rest : List Char} (remarks : Remark remark) (ends : Ending left rest) {c : Char}
    (head : (remark ++ rest).head? = some c) : isWordChar c = false ∧ c ≠ '"' := by
  have blank (b : isBlank c = true) : isWordChar c = false ∧ c ≠ '"' := by
    rcases blankIff.mp b with rfl | rfl <;> decide
  cases remarks with
  | blank pads =>
    rcases padHead pads head with b | next
    · exact blank b
    · rcases endingHead ends next with rfl | rfl <;> decide
  | comment pads visible =>
    rw [List.append_assoc] at head
    rcases padHead pads head with b | next
    · exact blank b
    · cases next
      decide

theorem keyBefore {pad more : List Char} {mark : Char} (pads : Pad pad) (other : isKeyChar mark = false) {c : Char}
    (head : (pad ++ mark :: more).head? = some c) : isKeyChar c = false := by
  rcases padHead pads head with blank | next
  · rcases blankIff.mp blank with rfl | rfl <;> decide
  · cases next
    exact other

theorem datumHead {d : Datum} {text : List Char} (written : DatumWritten d text) (rest : List Char) {c : Char}
    (head : (text ++ rest).head? = some c) : isBlank c = false := by
  cases written with
  | text spelled =>
    cases head
    decide
  | texts written =>
    cases head
    decide
  | @number n within =>
    obtain ⟨d, later, split, digit⟩ := decimalCons n
    rw [split] at head
    cases head
    cases blank : isBlank c with
    | false => rfl
    | true => rcases blankIff.mp blank with rfl | rfl <;> simp at digit

section Line
variable (total : Nat)

theorem readHeaderSingle {name text pad : List Char} (key : KeyWritten name text) (pads : Pad pad) (rest : List Char) :
    readHeader total (pad ++ (text ++ rest)) = (do
      let ((path, key), rest) ← readPath total (depthLimit - 1) (pad ++ (text ++ rest))
      match rest with
      | ']' :: rest => .ok (.header false path key, rest)
      | rest => .error rest) := by
  unfold readHeader
  split
  · rename_i same
    cases pad with
    | nil =>
      obtain ⟨c, more, rfl, _, bracket⟩ := keyStarts key
      exact absurd (List.cons.inj same).1 bracket
    | cons d others =>
      have blank := pads d List.mem_cons_self
      rw [(List.cons.inj same).1] at blank
      exact absurd blank (by decide)
  · rfl

theorem readHeaderWritten {title : String} {text left right : List Char} (key : KeyWritten title.toList text)
    (before : Pad left) (after : Pad right) (rest : List Char) :
    ∃ line, readHeader total (left ++ (text ++ (right ++ ']' :: rest))) = .ok (.header false [] ⟨title, line⟩, rest) := by
  have skipped : skipBlanks (right ++ ']' :: rest) = ']' :: rest := skipPadTo after (by decide) rest
  obtain ⟨line, path⟩ := readPathWritten key (fun c => keyBefore after (by decide)) before total skipped (by decide) 78
  refine ⟨line, ?_⟩
  rw [readHeaderSingle total key before, show depthLimit - 1 = 78 + 1 from rfl, path]
  simp only [bind, Except.bind, String.ofList_toList]

theorem readPairWritten {key : String} {d : Datum} {text left right value rest : List Char}
    (written : KeyWritten key.toList text) (before : Pad left) (after : Pad right) (datum : DatumWritten d value)
    (next : ∀ c, rest.head? = some c → isWordChar c = false ∧ c ≠ '"') :
    ∃ line place v, readPair total (readValue total depthLimit) (text ++ (left ++ '=' :: (right ++ (value ++ rest)))) =
      .ok ((([], ⟨key, line⟩), ⟨place, v⟩), rest) ∧ Holds d v := by
  have equals : skipBlanks (left ++ '=' :: (right ++ (value ++ rest))) = '=' :: (right ++ (value ++ rest)) :=
    skipPadTo before (by decide) _
  have unpadded : Pad [] := by simp [Pad]
  obtain ⟨line, path⟩ :=
    readPathWritten written (fun c => keyBefore before (by decide)) unpadded total equals (by decide) 78
  obtain ⟨place, v, read, holds⟩ := readValueWritten total datum next
  have behind : skipBlanks (right ++ (value ++ rest)) = value ++ rest := skipPad after fun c => datumHead datum rest
  have again : skipBlanks ('=' :: (right ++ (value ++ rest))) = '=' :: (right ++ (value ++ rest)) :=
    skipPadTo unpadded (by decide) _
  refine ⟨line, place, v, ?_, holds⟩
  rw [List.nil_append] at path
  rw [readPair, show depthLimit - 1 = 78 + 1 from rfl, path]
  simp only [bind, Except.bind, String.ofList_toList]
  rw [again]
  simp only [behind, read]

theorem readStatementWritten {l : Line} {text remark left rest : List Char} (written : LineWritten l text)
    (remarks : Remark remark) (ends : Ending left rest) :
    ∃ statement, readStatement total (text ++ (remark ++ rest)) = .ok (statement, left) ∧ Reads l statement := by
  have ended := endLineWritten remarks ends
  have next : ∀ c, (remark ++ rest).head? = some c → isWordChar c = false ∧ c ≠ '"' := fun c => remarkHead remarks ends
  generalize remark ++ rest = behind at ended next
  cases written with
  | @table title text before after key pads others =>
    obtain ⟨line, header⟩ := readHeaderWritten total key pads others behind
    refine ⟨.header false [] ⟨title, line⟩, ?_, .table title line⟩
    simp only [List.cons_append, List.append_assoc, List.nil_append]
    unfold readStatement
    simp only [header, bind, Except.bind, ended]
  | @field key d text before after value written pads others datum =>
    obtain ⟨line, place, v, pair, holds⟩ := readPairWritten total written pads others datum next
    refine ⟨.pair [] ⟨key, line⟩ ⟨place, v⟩, ?_, .field line place holds⟩
    simp only [List.append_assoc, List.cons_append]
    obtain ⟨c, more, rfl, _, bracket⟩ := keyStarts written
    unfold readStatement
    split
    · rename_i same
      exact absurd (List.cons.inj same).1 bracket
    · simp only [pair, bind, Except.bind, ended]

theorem lineStarts {l : Line} {text : List Char} (written : LineWritten l text) :
    ∃ c more, text = c :: more ∧ Starts c := by
  cases written with
  | table key before after => exact ⟨'[', _, rfl, by unfold Starts; decide⟩
  | field written before after datum =>
    obtain ⟨c, more, rfl, starts, _⟩ := keyStarts written
    exact ⟨c, _, rfl, starts⟩

theorem lineUnmarked {l : Line} {text : List Char} (written : LineWritten l text) (rest : List Char) :
    (text ++ rest).head? ≠ some byteOrderMark := by
  cases written with
  | table key before after => exact fun head => absurd (Option.some.inj head) (by decide)
  | field written before after datum =>
    rw [List.append_assoc]
    exact keyUnmarked written _

theorem linesUnmarked {lines : List Line} {text rest : List Char} (written : LinesWritten lines text)
    (next : rest.head? ≠ some byteOrderMark) : (text ++ rest).head? ≠ some byteOrderMark := by
  have starts : Starts byteOrderMark := by unfold Starts; decide
  cases written with
  | done between => exact gapFirst between starts next
  | more between here remarks newline others =>
    rw [List.append_assoc, List.append_assoc]
    exact gapFirst between starts (lineUnmarked here _)

theorem readStatementsGap {gap : List Char} (between : Gap gap) (rest : List Char) (bound : Nat) :
    readStatements total (gap ++ rest) (bound + 1) = readStatements total rest (bound + 1) := by
  simp only [readStatements, skipGapOver between]

theorem readStatementsNext {c : Char} {text rest : List Char} {statement : Statement} (starts : Starts c)
    (read : readStatement total (c :: text) = .ok (statement, rest)) (bound : Nat) :
    readStatements total (c :: text) (bound + 1) =
      (statement :: (readStatements total rest bound).1, (readStatements total rest bound).2) := by
  simp only [readStatements, skipNothing starts, read]

theorem readStatementsWritten {lines : List Line} {text : List Char} (written : LinesWritten lines text)
    (rest : List Char) {bound : Nat} (enough : text.length < bound) :
    ∃ statements left, List.Forall₂ Reads lines statements ∧
      readStatements total (text ++ rest) bound =
        (statements ++ (readStatements total rest (left + 1)).1, (readStatements total rest (left + 1)).2) := by
  induction written generalizing bound with
  | done between =>
    obtain ⟨bound, rfl⟩ := Nat.exists_eq_add_one.mpr (Nat.zero_lt_of_lt enough)
    exact ⟨[], bound, .nil, readStatementsGap total between rest bound⟩
  | @more l lines gap text remark ending later between here remarks newline others ih =>
    obtain ⟨bound, rfl⟩ := Nat.exists_eq_add_one.mpr (Nat.zero_lt_of_lt enough)
    obtain ⟨statement, read, reads⟩ := readStatementWritten total here remarks (@Ending.newline (later ++ rest) _ newline)
    obtain ⟨c, more, rfl, starts⟩ := lineStarts here
    have fewer : later.length < bound := by
      simp only [List.length_append, List.length_cons] at enough
      omega
    obtain ⟨statements, left, all, rests⟩ := ih fewer
    refine ⟨statement :: statements, left, .cons reads all, ?_⟩
    simp only [List.append_assoc]
    rw [readStatementsGap total between]
    exact (readStatementsNext total starts read bound).trans (by rw [rests]; rfl)

theorem readDocumentWritten {lines : List Line} {text : List Char} (written : DocumentWritten lines text) {bound : Nat}
    (enough : text.length < bound) :
    ∃ statements, List.Forall₂ Reads lines statements ∧ readStatements total text bound = (statements, none) := by
  cases written with
  | @closed _ text remark written remarks =>
    have fewer : text.length < bound := by
      simp only [List.length_append] at enough
      omega
    obtain ⟨statements, left, all, read⟩ := readStatementsWritten total written remark fewer
    refine ⟨statements, all, read.trans ?_⟩
    simp [readStatements, skipRemark remarks]
  | @cut lines l text last remark written here remarks =>
    have fewer : text.length < bound := by
      simp only [List.length_append] at enough
      omega
    obtain ⟨statements, left, all, read⟩ := readStatementsWritten total written (last ++ remark) fewer
    obtain ⟨statement, next, reads⟩ := readStatementWritten total here remarks (.last rfl)
    obtain ⟨c, more, rfl, starts⟩ := lineStarts here
    rw [List.append_nil, List.cons_append] at next
    have nothing : readStatements total [] left = ([], none) := by cases left <;> rfl
    refine ⟨statements ++ [statement], List.rel_append all (.cons reads .nil), read.trans ?_⟩
    rw [List.cons_append, readStatementsNext total starts next, nothing]

theorem documentUnmarked {lines : List Line} {text : List Char} (written : DocumentWritten lines text) :
    text.head? ≠ some byteOrderMark := by
  cases written with
  | closed written remarks =>
    refine linesUnmarked written ?_
    cases remarks with
    | @blank pad pads =>
      intro head
      have blank := pads _ (List.mem_of_mem_head? head)
      exact absurd blank (by decide)
    | @comment pad text pads visible =>
      intro head
      rcases padHead pads head with blank | next
      · exact absurd blank (by decide)
      · exact absurd (Option.some.inj next) (by decide)
  | cut written here remarks => exact linesUnmarked written (lineUnmarked here _)

end Line

theorem readStatementHeader {total : Nat} {cs left : List Char} {statement : Statement}
    (ok : readStatement total ('[' :: cs) = .ok (statement, left)) :
    ∃ behind, readHeader total cs = .ok (statement, behind) := by
  cases read : readHeader total cs with
  | error place =>
    simp only [readStatement, read, bind, Except.bind] at ok
    cases ok
  | ok r =>
    simp only [readStatement, read, bind, Except.bind] at ok
    split at ok
    · cases ok
    · cases ok
      exact ⟨r.2, rfl⟩

section Named
variable {name text : List Char} (written : KeyWritten name text) {rest : List Char}
  (next : ∀ c, rest.head? = some c → isKeyChar c = false) {pad : List Char} (pads : Pad pad) {total : Nat}
  {statement : Statement} {left : List Char}
include written next

theorem readPairNamed (ok : readStatement total (text ++ rest) = .ok (statement, left)) :
    ∃ path key v, statement = .pair path key v ∧ (path.head?.getD key).name = String.ofList name := by
  have named := @readPathNamed _ _ written _ next [] (by simp [Pad]) total (depthLimit - 1)
  rw [List.nil_append] at named
  obtain ⟨c, more, rfl, _, bracket⟩ := keyStarts written
  unfold readStatement at ok
  split at ok
  · rename_i same
    exact absurd (List.cons.inj same).1 bracket
  · unfold readPair at ok
    cases read : readPath total (depthLimit - 1) (c :: more ++ rest) with
    | error place =>
      simp only [read, bind, Except.bind] at ok
      cases ok
    | ok r =>
      obtain ⟨⟨path, key⟩, behind⟩ := r
      have first := named read
      simp only [read, bind, Except.bind] at ok
      grind

include pads

theorem readTableNamed (ok : readStatement total ('[' :: (pad ++ (text ++ rest))) = .ok (statement, left)) :
    ∃ path key, statement = .header false path key ∧ (path.head?.getD key).name = String.ofList name := by
  obtain ⟨behind, header⟩ := readStatementHeader ok
  rw [readHeaderSingle total written pads] at header
  cases read : readPath total (depthLimit - 1) (pad ++ (text ++ rest)) with
  | error place =>
    rw [read] at header
    cases header
  | ok r =>
    obtain ⟨⟨path, key⟩, closing⟩ := r
    have first := readPathNamed written next pads total read
    simp only [read, bind, Except.bind] at header
    split at header
    · cases header
      exact ⟨path, key, rfl, first⟩
    · cases header

theorem readTablesNamed (ok : readStatement total ('[' :: '[' :: (pad ++ (text ++ rest))) = .ok (statement, left)) :
    ∃ path key, statement = .header true path key ∧ (path.head?.getD key).name = String.ofList name := by
  obtain ⟨behind, header⟩ := readStatementHeader ok
  cases read : readPath total (depthLimit - 1) (pad ++ (text ++ rest)) with
  | error place =>
    simp only [readHeader, read, bind, Except.bind] at header
    cases header
  | ok r =>
    obtain ⟨⟨path, key⟩, closing⟩ := r
    have first := readPathNamed written next pads total read
    simp only [readHeader, read, bind, Except.bind] at header
    split at header
    · cases header
      exact ⟨path, key, rfl, first⟩
    · cases header

end Named

end KeepBlame.Toml
