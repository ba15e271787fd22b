import KeepBlame.Basics
import KeepBlame.Proofs.Printed

/-! Documents of replacements that break off. Wherever the text ends, in a tag, a reference or the content of an element,
there is an error unless it ends between two elements; then the edits before that place are read and no others. -/
namespace KeepBlame

theorem Text.cutAtSplit {α : Type} [BEq α] [LawfulBEq α] {pattern xs before after : List α}
    (cut : cutAt pattern xs = some (before, after)) : xs = before ++ (pattern ++ after) := by
  fun_induction cutAt pattern xs generalizing before with
  | case1 => cases cut
  | case2 x rest here =>
    cases cut
    obtain ⟨after, split⟩ := List.isPrefixOf_iff_prefix.mp here
    rw [← split, List.drop_left]
    rfl
  | case3 => cases cut
  | case4 x rest _ b a found ih =>
    cases cut
    rw [ih found]
    rfl

namespace Markup
variable {opened : List (List Char)} {cut : List Char}

theorem cutTagQuoted {quote : Char} {value more : List Char} (inside : quote ∉ value)
    (broken : ∃ e, cutTag none more = .error e) : ∃ e, cutTag (some quote) (value ++ quote :: more) = .error e := by
  obtain ⟨e, broken⟩ := broken
  refine ⟨e, ?_⟩
  induction value with
  | nil => simp [cutTag, quoteAfter, broken]
  | cons c rest ih =>
    simp only [List.mem_cons, not_or] at inside
    simp [cutTag, quoteAfter, Ne.symm inside.1, ih inside.2]

theorem cutTagUnquoted {quote : Char} {value : List Char} (inside : quote ∉ value) :
    cutTag (some quote) value = .error (.unclosedValue quote) := by
  induction value with
  | nil => rfl
  | cons c rest ih =>
    simp only [List.mem_cons, not_or] at inside
    simp [cutTag, quoteAfter, Ne.symm inside.1, ih inside.2]

theorem cutTagBroken {text : List Char} (balanced : Balanced text) (part : cut <+: text) :
    ∃ e, cutTag none cut = .error e := by
  induction balanced generalizing cut with
  | nil =>
    cases List.prefix_nil.mp part
    exact ⟨_, rfl⟩
  | @plain c text other next ih =>
    rcases List.prefix_cons_iff.mp part with rfl | ⟨more, rfl, within⟩
    · exact ⟨_, rfl⟩
    · obtain ⟨e, broken⟩ := ih within
      have outside : quoteAfter c none = none := by simp [quoteAfter, other]
      refine ⟨e, ?_⟩
      rw [cutTag, outside, broken]
      simp [other]
  | @quoted quote value text mark inside next ih =>
    rcases List.prefix_cons_iff.mp part with rfl | ⟨more, rfl, within⟩
    · exact ⟨_, rfl⟩
    · have opens : quoteAfter quote none = some quote := by simp [quoteAfter, mark]
      have other : quote ≠ '>' := by
        rcases mark with rfl | rfl <;> decide
      have broken : ∃ e, cutTag (some quote) more = .error e := by
        rcases prefixSplit within with early | ⟨late, rfl, behind⟩
        · exact ⟨_, cutTagUnquoted fun mem => inside (early.subset mem)⟩
        · rcases List.prefix_cons_iff.mp behind with rfl | ⟨rest, rfl, later⟩
          · rw [List.append_nil]
            exact ⟨_, cutTagUnquoted inside⟩
          · exact cutTagQuoted inside (ih later)
      obtain ⟨e, broken⟩ := broken
      refine ⟨e, ?_⟩
      rw [cutTag, opens, broken]
      simp [other]

theorem readTagBroken (broken : ∃ e, cutTag none cut = .error e) : ∃ e, readTag opened cut = .error e := by
  obtain ⟨e, broken⟩ := broken
  exact ⟨e, by rw [readTag, broken]⟩

theorem stepNothing : ∃ e, readStep opened '<' [] = .error e := ⟨.unclosedTag, rfl⟩

theorem stepTagBroken {text : List Char} (balanced : Balanced text)
    (first : ∃ c more, text = c :: more ∧ c ≠ '!' ∧ c ≠ '/' ∧ c ≠ '?') (part : cut <+: text) :
    ∃ e, readStep opened '<' cut = .error e := by
  have broken := @readTagBroken opened cut (cutTagBroken balanced part)
  obtain ⟨c, more, rfl, other⟩ := first
  rcases List.prefix_cons_iff.mp part with rfl | ⟨rest, rfl, _⟩
  · exact broken
  · rw [readStepTag other]
    exact broken

theorem cutAtAbsent {pattern cs : List Char} (last : '>' ∈ pattern) (plain : '>' ∉ cs) : Text.cutAt pattern cs = none := by
  cases found : Text.cutAt pattern cs with
  | none => rfl
  | some pair =>
    have split := Text.cutAtSplit found
    exact absurd (split ▸ List.mem_append_right _ (List.mem_append_left _ last)) plain

theorem stepEndBroken {name : List Char} (plain : '>' ∉ name) (part : cut <+: '/' :: name) :
    ∃ e, readStep opened '<' cut = .error e := by
  rcases List.prefix_cons_iff.mp part with rfl | ⟨rest, rfl, within⟩
  · exact stepNothing
  · have absent : Text.cutAt ['>'] rest = none := cutAtAbsent (by decide) fun mem => plain (within.subset mem)
    exact ⟨.unclosedTag, by simp [readStep, readEnd, absent]⟩

theorem stepInstructionBroken {body : List Char} (plain : '>' ∉ body) (part : cut <+: '?' :: body) :
    ∃ e, readStep opened '<' cut = .error e := by
  rcases List.prefix_cons_iff.mp part with rfl | ⟨rest, rfl, within⟩
  · exact stepNothing
  · have absent : Text.cutAt "?>".toList ('?' :: rest) = none := by
      refine cutAtAbsent (by decide) fun mem => ?_
      rcases List.mem_cons.mp mem with same | later
      · cases same
      · exact plain (within.subset later)
    have instruction : readStep opened '<' ('?' :: rest) = readInstruction opened rest := by simp [readStep]
    simp only [instruction, readInstruction, absent]
    repeat' split
    all_goals exact ⟨_, rfl⟩

theorem stepReferenceBroken {c : Char} {name : List Char} (named : Named c name) (part : cut <+: name) :
    ∃ e, readStep opened '&' cut = .error e := by
  have inside : ∀ d ∈ cut, (d != ';' && d != '&' && d != '<') = true := fun d mem => namedPlain named d (part.subset mem)
  have reference : readStep opened '&' cut = readReference opened cut := by simp [readStep]
  have nothing : (cut ++ []).dropWhile (fun d => d != ';' && d != '&' && d != '<') = [] :=
    List.dropWhile_append_of_pos inside
  rw [List.append_nil] at nothing
  exact ⟨.unclosedReference, by rw [reference, readReference, nothing]⟩

end Markup

namespace Replacements
open Markup (Named)

structure Piece (p : Progress) (opened : List (List Char)) (text : List Char) (q : Progress) (left : List (List Char)) :
    Prop where
  whole : ∀ rest, resume p opened (text ++ rest) = resume q left rest
  torn : ∀ cut, cut <+: text → cut ≠ [] → cut ≠ text → ∃ e, resume p opened cut = .error e

/-- However short the text is cut, there is an error or the first of these edits are read. -/
def Safe (edits : List Edit) (p : Progress) (opened : List (List Char)) (text : List Char) : Prop :=
  ∀ cut, cut <+: text → (∃ e, resume p opened cut = .error e) ∨ ∃ done, done <+: edits ∧ resume p opened cut = .ok done

section Safe
variable {edits : List Edit} {p q : Progress} {opened left : List (List Char)} {text rest : List Char}

theorem safeClosed (closed : p.current = none) (kept : p.edits <+: edits) : Safe edits p opened [] := by
  intro cut part
  cases List.prefix_nil.mp part
  exact .inr ⟨p.edits, kept, resumeEnd closed⟩

theorem safeOpen (current : p.current.isSome = true) : Safe edits p opened [] := by
  intro cut part
  cases List.prefix_nil.mp part
  refine .inl ⟨.unterminated, ?_⟩
  simp [resume, Markup.readEvents, finish, current, bind, Except.bind, pure, Except.pure]

theorem safeBefore (piece : Piece p opened text q left) (start : Safe edits p opened []) (next : Safe edits q left rest) :
    Safe edits p opened (text ++ rest) := by
  intro cut part
  have behind {more : List Char} (within : more <+: rest) := piece.whole more ▸ next more within
  rcases prefixSplit part with early | ⟨more, rfl, within⟩
  · by_cases empty : cut = []
    · rw [empty]
      exact start [] List.nil_prefix
    · by_cases full : cut = text
      · have ended := behind List.nil_prefix
        rw [List.append_nil] at ended
        rw [full]
        exact ended
      · exact .inl (piece.torn cut early empty full)
  · exact behind within

end Safe

section Pieces
variable {p q : Progress} {opened left : List (List Char)}

theorem resumeMistake {c : Char} {rest : List Char} (failed : ∃ e, Markup.readStep opened c rest = .error e) :
    ∃ e, resume p opened (c :: rest) = .error e := by
  obtain ⟨e, failed⟩ := failed
  refine ⟨.badMarkup e, ?_⟩
  have events : Markup.readEvents opened (c :: rest) = ([], some e) := by
    rw [Markup.readEvents]
    split
    · rename_i found
      rw [failed] at found
      cases found
      rfl
    · rename_i found
      rw [failed] at found
      cases found
  simp only [resume, events]
  rfl

theorem markupPiece {c last : Char} {text body : List Char} (written : text = c :: (body ++ [last]))
    (whole : ∀ rest, resume p opened (text ++ rest) = resume q left rest)
    (broken : ∀ cut, cut <+: body → ∃ e, Markup.readStep opened c cut = .error e) : Piece p opened text q left := by
  refine ⟨whole, ?_⟩
  intro cut part begun short
  rw [written] at part short
  rcases List.prefix_cons_iff.mp part with rfl | ⟨more, rfl, within⟩
  · exact absurd rfl begun
  -- The whole is read in one step, and without its last character that step fails.
  · rcases List.prefix_concat_iff.mp within with rfl | early
    · exact absurd rfl short
    · exact resumeMistake (broken more early)

theorem textPiece {c : Char} (text : Markup.isTextChar c = true) : Piece p opened [c] (p.extend [c]) opened := by
  refine ⟨fun rest => resumeText text, ?_⟩
  intro cut part begun short
  rcases List.prefix_cons_iff.mp part with rfl | ⟨more, rfl, within⟩
  · exact absurd rfl begun
  · cases List.prefix_nil.mp within
    exact absurd rfl short

theorem referencePiece {c : Char} {name : List Char} (named : Named c name) :
    Piece p opened ('&' :: (name ++ [';'])) (p.extend [c]) opened := by
  refine markupPiece rfl (fun rest => ?_) fun cut => Markup.stepReferenceBroken named
  rw [List.cons_append, List.append_assoc, List.singleton_append]
  exact resumeReference named

theorem tagPiece {name tail text : List Char} {attrs : List (List Char × List Char)} (named : Markup.PlainName name)
    (plain : ∀ a ∈ attrs, Markup.Plain a) (ending : Markup.Balanced tail)
    (written : text = '<' :: (Markup.tagText name attrs ++ tail ++ ['>']))
    (whole : ∀ rest, resume p opened (text ++ rest) = resume q left rest) : Piece p opened text q left := by
  have balanced := Markup.tagBalanced named plain ending
  have first : ∃ c more, Markup.tagText name attrs ++ tail = c :: more ∧ c ≠ '!' ∧ c ≠ '/' ∧ c ≠ '?' := by
    obtain ⟨c, more, rfl, other⟩ := named.first
    exact ⟨c, _, rfl, other⟩
  exact markupPiece written whole fun cut => Markup.stepTagBroken balanced first

theorem startPiece {s : Span} (fits : ¬ Text.wordLimit < s.start + s.size) :
    Piece p opened (spanTag s ++ ['>']) { p with current := some ⟨s, []⟩ } ("replacement".toList :: opened) := by
  refine tagPiece replacementName (spanLiteral s).plain .nil (by rw [spanTagText, List.append_nil]; rfl) fun rest => ?_
  rw [List.append_assoc, List.singleton_append, resumeFull, if_neg fits]

theorem emptyPiece {s : Span} (fits : ¬ Text.wordLimit < s.start + s.size) :
    Piece p opened (spanTag s ++ ['/', '>']) { p with edits := p.edits ++ [⟨s, []⟩] } opened := by
  have slash : Markup.Balanced ['/'] := .plain (by decide) .nil
  refine tagPiece replacementName (spanLiteral s).plain slash (by rw [spanTagText, List.append_assoc]; rfl) fun rest => ?_
  rw [List.append_assoc]
  exact resumeEmpty.trans (if_neg fits)

theorem rootPiece {root : List Char} (is : Root root) : Piece p opened root p ("replacements".toList :: opened) := by
  obtain ⟨attrs, _, literal, written⟩ := rootTag is
  exact tagPiece rootName literal.plain .nil (by rw [written, List.append_nil]) fun rest => resumeRoot is p opened rest

theorem closingPiece {name text : List Char} (written : text = '<' :: '/' :: (name ++ ['>'])) (plain : '>' ∉ name)
    (ended : Markup.endName name = name) (went : step p (.closing name) = .ok q) :
    Piece p (name :: opened) text q opened := by
  have split : text = '<' :: ('/' :: name ++ ['>']) := written
  exact markupPiece split (fun _ => resumeClosing written plain ended went) fun _ => Markup.stepEndBroken plain

theorem endPiece {e : Edit} (current : p.current = some e) :
    Piece p ("replacement".toList :: opened) endTag ⟨p.edits ++ [e], none⟩ opened := by
  have went : step p (.closing "replacement".toList) = .ok ⟨p.edits ++ [e], none⟩ := by
    simp only [step, if_true, current]
  exact closingPiece (by decide) (by decide) (by decide) went

theorem rootEndPiece : Piece p ("replacements".toList :: opened) rootEnd p opened := by
  have other : "replacements".toList ≠ "replacement".toList := by decide
  have went : step p (.closing "replacements".toList) = .ok p := by
    simp only [step, if_neg other]
  exact closingPiece (by decide) (by decide) (by decide) went

theorem declarationPiece : Piece p opened declaration p opened := by
  have written : declaration = '<' :: ('?' :: "xml version='1.0'?".toList ++ ['>']) := by decide
  exact markupPiece written (fun rest => resumeDeclaration p opened rest) fun _ =>
    Markup.stepInstructionBroken (by decide)

end Pieces

section Documents
variable {edits : List Edit} {p : Progress} {opened : List (List Char)} {rest : List Char}

theorem safeGap {gap : List Char} (closed : p.current = none) (kept : p.edits <+: edits) (blank : Blank gap)
    (next : Safe edits p opened rest) : Safe edits p opened (gap ++ rest) := by
  have text := blankText blank
  induction gap with
  | nil => exact next
  | cons c gap ih =>
    have piece := @textPiece p opened c (text c List.mem_cons_self)
    rw [extendClosed closed] at piece
    change Safe edits p opened ([c] ++ (gap ++ rest))
    refine safeBefore piece (safeClosed closed kept) (ih ?_ ?_)
    · exact fun d mem => blank d (List.mem_cons_of_mem c mem)
    · exact fun d mem => text d (List.mem_cons_of_mem c mem)

theorem safeContent {cs text : List Char} (content : Content cs text) (current : p.current.isSome = true)
    (next : Safe edits (p.extend cs) opened rest) : Safe edits p opened (text ++ rest) := by
  induction content generalizing p with
  | nil =>
    rw [extendNil] at next
    exact next
  | @cons c cs text more first later ih =>
    have still : (p.extend [c]).current.isSome = true := by simpa [Progress.extend] using current
    have behind : Safe edits (p.extend [c]) opened (more ++ rest) := by
      refine ih still ?_
      rw [extendAppend]
      exact next
    rw [List.append_assoc]
    refine safeBefore ?_ (safeOpen current) behind
    cases first with
    | raw ampersand angle => exact textPiece (by simp [Markup.isTextChar, ampersand, angle])
    | reference named => exact referencePiece named

theorem safeElement {e : Edit} {text : List Char} {early : List Edit} (element : Element e text)
    (fits : ¬ Text.wordLimit < e.span.start + e.span.size) (kept : early <+: edits)
    (next : Safe edits ⟨early ++ [e], none⟩ opened rest) : Safe edits ⟨early, none⟩ opened (text ++ rest) := by
  cases element with
  | @full s cs text content =>
    have closing : Safe edits ⟨early, some ⟨s, Utf8.encode cs⟩⟩ ("replacement".toList :: opened) (endTag ++ rest) :=
      safeBefore (endPiece rfl) (safeOpen rfl) next
    have inside : Safe edits ⟨early, some ⟨s, []⟩⟩ ("replacement".toList :: opened) (text ++ (endTag ++ rest)) :=
      safeContent content rfl closing
    have opening : Piece ⟨early, none⟩ opened (spanTag s ++ ['>']) ⟨early, some ⟨s, []⟩⟩ ("replacement".toList :: opened) :=
      startPiece fits
    simpa using safeBefore opening (safeClosed rfl kept) inside
  | empty s => exact safeBefore (emptyPiece fits) (safeClosed rfl kept) next

theorem safeElements {some : List Edit} {text : List Char} {early : List Edit} (elements : Elements some text)
    (fits : ∀ e ∈ some, ¬ Text.wordLimit < e.span.start + e.span.size) (kept : early ++ some <+: edits)
    (next : Safe edits ⟨early ++ some, none⟩ opened rest) : Safe edits ⟨early, none⟩ opened (text ++ rest) := by
  induction elements generalizing early with
  | nil =>
    rw [List.append_nil] at next
    exact next
  | @cons e later text gap more first blank _ ih =>
    have split : early ++ e :: later = early ++ [e] ++ later := by simp
    have start : early ++ [e] <+: edits := (List.prefix_append _ later).trans (split ▸ kept)
    have behind : Safe edits ⟨early ++ [e], none⟩ opened (more ++ rest) :=
      ih (fun x mem => fits x (List.mem_cons_of_mem e mem)) (split ▸ kept) (split ▸ next)
    rw [List.append_assoc, List.append_assoc]
    exact safeElement first (fits e List.mem_cons_self) ((List.prefix_append _ _).trans kept) (safeGap rfl start blank behind)

theorem safeDocument {text : List Char} (document : Document edits text)
    (fits : ∀ e ∈ edits, ¬ Text.wordLimit < e.span.start + e.span.size) : Safe edits {} [] text := by
  cases document with
  | @intro first root before body last declared is start elements closed =>
    have nothing : ([] : List Edit) <+: edits := List.nil_prefix
    have ending : Safe edits ⟨edits, none⟩ [] (last ++ []) :=
      safeGap rfl List.prefix_rfl closed (safeClosed rfl List.prefix_rfl)
    rw [List.append_nil] at ending
    have rootEnds : Safe edits ⟨edits, none⟩ ["replacements".toList] (rootEnd ++ last) :=
      safeBefore rootEndPiece (safeClosed rfl List.prefix_rfl) ending
    have inside : Safe edits {} ["replacements".toList] (body ++ (rootEnd ++ last)) :=
      safeElements elements fits List.prefix_rfl rootEnds
    have rooted := safeBefore (rootPiece is) (safeClosed rfl nothing) (safeGap rfl nothing start inside)
    exact safeBefore declarationPiece (safeClosed rfl nothing) (safeGap rfl nothing declared rooted)

theorem readStart {cut more : List Char} (part : cut <+: declaration ++ more) : read cut = resume {} [] cut := by
  have written : declaration ++ more = '<' :: ("?xml version='1.0'?>".toList ++ more) := by
    rw [← List.cons_append]
    congr 1
  rw [written] at part
  refine readResume ?_
  rcases List.prefix_cons_iff.mp part with rfl | ⟨_, rfl, _⟩
  · simp
  · simp [Markup.byteOrderMark]

theorem readCut {text cut : List Char} (document : Document edits text)
    (fits : ∀ e ∈ edits, ¬ Text.wordLimit < e.span.start + e.span.size) (part : cut <+: text) :
    (∃ e, read cut = .error e) ∨ ∃ done, done <+: edits ∧ read cut = .ok done := by
  have safe := safeDocument document fits cut part
  cases document
  rw [readStart part]
  exact safe

theorem readPart {done : List Edit} {first root before body : List Char} (declared : Blank first) (is : Root root)
    (start : Blank before) (elements : Elements done body) (fits : done.find? overflows = none) :
    read (declaration ++ (first ++ (root ++ (before ++ body)))) = .ok done := by
  have inside := resumeElements elements [] ["replacements".toList] []
  rw [List.append_nil, fits] at inside
  rw [readStart List.prefix_rfl, resumeDeclaration, resumeGap rfl (blankText declared), resumeRoot is,
    resumeGap rfl (blankText start)]
  -- The outer element is still open here, and nothing asks for its end.
  exact inside.trans (resumeEnd rfl)

end Documents

def IsText (bs : Bytes) : Prop := ∃ cs, bs = Utf8.encode cs

theorem encodeAppend (cs ds : List Char) : Utf8.encode (cs ++ ds) = Utf8.encode cs ++ Utf8.encode ds := List.flatMap_append

theorem textAppend {early late : Bytes} (first : IsText early) (next : IsText late) : IsText (early ++ late) := by
  obtain ⟨cs, rfl⟩ := first
  obtain ⟨ds, rfl⟩ := next
  exact ⟨cs ++ ds, (encodeAppend cs ds).symm⟩

theorem printContentHigh {run : Bytes} (high : ∀ b ∈ run, 128 ≤ b.toNat) : printContent run = run := by
  induction run with
  | nil => rfl
  | cons b run ih =>
    obtain ⟨first, later⟩ := List.forall_mem_cons.mp high
    have split : printContent (b :: run) = printByte b ++ printContent run := List.flatMap_cons
    rw [split, printByteHigh first, ih later, List.singleton_append]

theorem printedContentText (cs : List Char) : IsText (printContent (Utf8.encode cs)) := by
  induction cs with
  | nil => exact ⟨[], rfl⟩
  | cons c cs ih =>
    have split : printContent (Utf8.encode (c :: cs)) =
        printContent (String.utf8EncodeChar c) ++ printContent (Utf8.encode cs) := List.flatMap_append
    rw [split]
    refine textAppend ?_ ih
    by_cases small : c.toNat < 128
    · have code : c.toNat.toUInt8.toNat = c.toNat := Utf8.byteNat (by omega)
      obtain ⟨d, ds, printed, _⟩ := @printByteLow c.toNat.toUInt8 (by omega)
      rw [Utf8.encodeAscii small, printContent, List.flatMap_singleton]
      exact ⟨d :: ds, printed⟩
    · rw [printContentHigh (Utf8.encodeHigh small)]
      exact ⟨[c], (List.append_nil _).symm⟩

theorem printedEditsText {edits : List Edit} (texts : ∀ e ∈ edits, IsText e.content) :
    IsText (edits.flatMap printEdit) := by
  induction edits with
  | nil => exact ⟨[], rfl⟩
  | cons e edits ih =>
    obtain ⟨⟨cs, content⟩, later⟩ := List.forall_mem_cons.mp texts
    have element : IsText (printEdit e) := by
      rw [printEdit, content]
      exact textAppend ⟨_, rfl⟩ (textAppend (printedContentText cs) ⟨_, rfl⟩)
    exact textAppend element (ih later)

def printPart (root : List Char) (done : List Edit) : Bytes :=
  Utf8.encode (declaration ++ '\n' :: (root ++ ['\n'])) ++ done.flatMap printEdit

theorem printedPart (root : List Char) (done late : List Edit) :
    ∃ rest, printDocument root (done ++ late) = printPart root done ++ rest := by
  refine ⟨late.flatMap printEdit ++ Utf8.encode (rootEnd ++ ['\n']), ?_⟩
  simp only [printDocument, printPart, List.flatMap_append, List.append_assoc]

theorem partRead {root : List Char} (opened : Root root) {done : List Edit} (texts : ∀ e ∈ done, IsText e.content)
    (fits : done.find? overflows = none) : ∃ cut, Utf8.encode cut = printPart root done ∧ read cut = .ok done := by
  obtain ⟨body, written⟩ := printedEditsText texts
  obtain ⟨same, elements, decoded⟩ := decodeEdits done (Utf8.encode [])
  rw [lossySame.mpr texts] at elements
  rw [Utf8.decodeWritten, written, Utf8.decodeEncoded, Utf8.decodeWritten, List.append_nil, List.append_nil] at decoded
  refine ⟨declaration ++ (['\n'] ++ (root ++ (['\n'] ++ body))), ?_, ?_⟩
  · rw [printPart, written, ← encodeAppend]
    simp
  · rw [decoded]
    exact readPart newlineBlank opened newlineBlank elements fits

theorem prefixWritten {cut text : List Char} {rest : Bytes} (written : Utf8.encode text = Utf8.encode cut ++ rest) :
    cut <+: text := by
  have read := congrArg Utf8.decodeLossy written
  rw [Utf8.decodeWritten, Utf8.decodeEncoded] at read
  exact ⟨_, read.symm⟩

section CutShort
variable {root : List Char} {edits : List Edit} (opened : Root root) (texts : ∀ e ∈ edits, IsText e.content)
  (fits : ∀ e ∈ edits, e.span.start + e.span.size < 0x10000000000000000)
include opened texts fits

theorem cutShortReadsFirst : ∃ text, Utf8.encode text = printDocument root edits ∧
    (∀ cut, cut <+: text → (∃ e, read cut = .error e) ∨ ∃ done, done <+: edits ∧ read cut = .ok done) ∧
    ∀ done, done <+: edits → ∃ cut, cut <+: text ∧ Utf8.encode cut = printPart root done ∧ read cut = .ok done := by
  have small : ∀ e ∈ edits, ¬ Text.wordLimit < e.span.start + e.span.size := fun e mem =>
    Nat.not_lt.mpr (Nat.le_of_lt_succ (fits e mem))
  obtain ⟨text, written⟩ : IsText (printDocument root edits) :=
    textAppend ⟨_, rfl⟩ (textAppend (printedEditsText texts) ⟨_, rfl⟩)
  have document := documentPrinted opened edits
  rw [lossySame.mpr texts, written, Utf8.decodeWritten] at document
  refine ⟨text, written.symm, fun cut part => readCut document small part, ?_⟩
  intro done front
  have none : done.find? overflows = none :=
    List.find?_eq_none.mpr fun e mem large => small e (front.subset mem) (of_decide_eq_true large)
  obtain ⟨cut, encoded, result⟩ := partRead opened (fun e mem => texts e (front.subset mem)) none
  obtain ⟨late, rfl⟩ := front
  obtain ⟨rest, split⟩ := printedPart root done late
  rw [written, ← encoded] at split
  exact ⟨cut, prefixWritten split, encoded, result⟩

end CutShort

def greeting : List Edit := [⟨⟨3, 1⟩, Utf8.encode ['é', '<', '\n']⟩, ⟨⟨17, 0⟩, []⟩]

def outerTag : List Char := "<replacements xml:space='preserve' incomplete_format='false'>".toList

theorem greetingCutShort : Root outerTag ∧ (∀ e ∈ greeting, IsText e.content) ∧
    (∀ e ∈ greeting, e.span.start + e.span.size < 0x10000000000000000) ∧
    ∃ text, Utf8.encode text = printDocument outerTag greeting ∧
      (∀ cut, cut <+: text → (∃ e, read cut = .error e) ∨ ∃ done, done <+: greeting ∧ read cut = .ok done) ∧
      ∃ cut, cut <+: text ∧ read cut = .ok (greeting.take 1) := by
  have texts : ∀ e ∈ greeting, IsText e.content := by
    simp only [greeting, List.forall_mem_cons]
    exact ⟨⟨_, rfl⟩, ⟨[], rfl⟩, by simp⟩
  have fits : ∀ e ∈ greeting, e.span.start + e.span.size < 0x10000000000000000 := by decide
  obtain ⟨text, written, safe, reached⟩ := cutShortReadsFirst .complete texts fits
  obtain ⟨cut, part, _, result⟩ := reached (greeting.take 1) (List.take_prefix 1 greeting)
  exact ⟨.complete, texts, fits, text, written, safe, cut, part, result⟩

end Replacements
end KeepBlame
