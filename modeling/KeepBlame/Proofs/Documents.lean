import KeepBlame.Proofs.References
import KeepBlame.Proofs.Tags
import KeepBlame.Replacements
import KeepBlame.Text.Blank

/-! Documents of replacements, in every way they can be written. A character of the content stands for itself or is
referred to by name or number, an element without content may be one tag, and there may be space between the elements;
the edits are read back as they are. -/
namespace KeepBlame.Replacements

open Markup (Named)

def finish (mistake : Option Markup.Mistake) (p : Progress) : Except ReadError (List Edit) :=
  match mistake with
  | some e => .error (.badMarkup e)
  | none => if p.current.isSome then .error .unterminated else .ok p.edits

/-- What comes of a document of which `cs` is left, with this progress and these tags open. -/
def resume (p : Progress) (opened : List (List Char)) (cs : List Char) : Except ReadError (List Edit) :=
  (Markup.readEvents opened cs).1.foldlM step p >>= finish (Markup.readEvents opened cs).2

theorem readResume {document : List Char} (unmarked : document.head? ≠ some Markup.byteOrderMark) :
    read document = resume {} [] document := by
  simp only [read, Markup.events, if_neg unmarked]
  rfl

section Resume
variable {p : Progress} {opened : List (List Char)} {rest : List Char}

theorem resumeEnd (closed : p.current = none) : resume p opened [] = .ok p.edits := by
  simp [resume, Markup.readEvents, finish, closed, bind, Except.bind, pure, Except.pure]

theorem resumeSkip {o : List (List Char)} {c : Char} {r : List Char}
    (read : Markup.readStep opened c rest = .ok (none, o, r)) : resume p opened (c :: rest) = resume p o r := by
  simp only [resume, Markup.readEventsStep read, Option.toList_none, List.nil_append]

theorem resumeStep {o : List (List Char)} {c : Char} {r : List Char} {event : Markup.Event}
    (read : Markup.readStep opened c rest = .ok (some event, o, r)) :
    resume p opened (c :: rest) = (step p event).bind fun next => resume next o r := by
  simp only [resume, Markup.readEventsStep read, Option.toList_some, List.singleton_append, List.foldlM_cons]
  cases step p event <;> rfl

theorem resumeNext {o : List (List Char)} {c : Char} {r : List Char} {event : Markup.Event} {next : Progress}
    (read : Markup.readStep opened c rest = .ok (some event, o, r)) (went : step p event = .ok next) :
    resume p opened (c :: rest) = resume next o r := by
  rw [resumeStep read, went]
  rfl

theorem extendNil (p : Progress) : p.extend [] = p := by
  obtain ⟨edits, current⟩ := p
  cases current <;> simp [Progress.extend, Utf8.encode]

theorem extendAppend (p : Progress) (early late : List Char) : (p.extend early).extend late = p.extend (early ++ late) := by
  obtain ⟨edits, current⟩ := p
  cases current <;> simp [Progress.extend, Utf8.encode]

theorem extendClosed (closed : p.current = none) (cs : List Char) : p.extend cs = p := by
  obtain ⟨edits, current⟩ := p
  cases closed
  rfl

theorem resumeRun (cs : List Char) : resume p opened cs =
    resume (p.extend (cs.takeWhile Markup.isTextChar)) opened (cs.dropWhile Markup.isTextChar) := by
  cases cs with
  | nil => simp [extendNil]
  | cons c rest =>
    by_cases text : Markup.isTextChar c = true
    · have other : c ≠ '<' ∧ c ≠ '&' := by simpa [Markup.isTextChar] using text
      have read : Markup.readStep opened c rest =
          .ok (some (.text (c :: rest.takeWhile Markup.isTextChar)), opened, rest.dropWhile Markup.isTextChar) := by
        simp [Markup.readStep, other]
      rw [resumeNext read rfl, List.takeWhile_cons_of_pos text, List.dropWhile_cons_of_pos text]
    · rw [List.takeWhile_cons_of_neg text, List.dropWhile_cons_of_neg text, extendNil]

theorem resumeText {c : Char} (text : Markup.isTextChar c = true) :
    resume p opened (c :: rest) = resume (p.extend [c]) opened rest := by
  rw [resumeRun, @resumeRun (p.extend [c]), extendAppend, List.takeWhile_cons_of_pos text,
    List.dropWhile_cons_of_pos text]
  rfl

theorem resumeGap {gap : List Char} (closed : p.current = none) (text : ∀ c ∈ gap, Markup.isTextChar c = true) :
    resume p opened (gap ++ rest) = resume p opened rest := by
  induction gap with
  | nil => rfl
  | cons c gap ih =>
    rw [List.cons_append, resumeText (text c List.mem_cons_self), extendClosed closed]
    exact ih fun d mem => text d (List.mem_cons_of_mem c mem)

theorem resumeReference {c : Char} {name : List Char} (named : Named c name) :
    resume p opened ('&' :: (name ++ ';' :: rest)) = resume (p.extend [c]) opened rest := by
  have went : step p (.reference name) = .ok (p.extend [c]) := by
    simp only [step, Markup.resolveNamed named]
    split
    · rename_i none
      rw [extendClosed (Option.isNone_iff_eq_none.mp none)]
    · rfl
  exact resumeNext (Markup.readReferenceNamed named opened rest) went

end Resume

inductive Spelled (c : Char) : List Char → Prop where
  | raw (ampersand : c ≠ '&') (angle : c ≠ '<') : Spelled c [c]
  | reference {name : List Char} (named : Named c name) : Spelled c ('&' :: (name ++ [';']))

inductive Content : List Char → List Char → Prop where
  | nil : Content [] []
  | cons {c : Char} {cs text rest : List Char} (first : Spelled c text) (next : Content cs rest) :
      Content (c :: cs) (text ++ rest)

theorem resumeContent {cs text : List Char} (content : Content cs text) (p : Progress) (opened : List (List Char))
    (rest : List Char) : resume p opened (text ++ rest) = resume (p.extend cs) opened rest := by
  induction content generalizing p with
  | nil => rw [List.nil_append, extendNil]
  | @cons c cs text more first next ih =>
    rw [← List.singleton_append, ← extendAppend, ← ih, List.append_assoc]
    cases first with
    | raw ampersand angle => exact resumeText (by simp [Markup.isTextChar, ampersand, angle])
    | @reference name named =>
      rw [List.cons_append, List.append_assoc, List.singleton_append]
      exact resumeReference named

theorem unescapePlain {value : List Char} (plain : '&' ∉ value) (total : Nat) :
    Markup.unescapeFrom total value = .ok value := by
  induction value with
  | nil => rw [Markup.unescapeFrom]
  | cons c rest ih =>
    simp only [List.mem_cons, not_or] at plain
    rw [Markup.unescapeFrom, if_neg (Ne.symm plain.1), ih plain.2]
    rfl

structure Literal (attrs : List (List Char × List Char)) : Prop where
  plain : ∀ a ∈ attrs, Markup.Plain a
  distinct : (attrs.map Prod.fst).Nodup
  unreferring : ∀ a ∈ attrs, '&' ∉ a.2

section Tags
variable {name : List Char} {attrs : List (List Char × List Char)} (named : Markup.PlainName name)
  (literal : Literal attrs)
include named literal

theorem valueWritten (key : String) : valueOf? ⟨Markup.tagText name attrs⟩ key = .ok (attrs.lookup key.toList) := by
  obtain ⟨found, find, value⟩ := Markup.tagFindWritten named literal.plain literal.distinct key.toList
  rw [valueOf?, find, ← value]
  cases found with
  | none => rfl
  | some a =>
    obtain ⟨early, late, split, _⟩ := List.lookup_eq_some_iff.mp value.symm
    have mem : (key.toList, a.value) ∈ attrs := split ▸ List.mem_append_right early List.mem_cons_self
    simp only [Markup.unescape, unescapePlain (literal.unreferring _ mem), Option.map_some]

theorem numberWritten {key : String} {n : Nat} (value : attrs.lookup key.toList = some (Nat.toDigits 10 n))
    (within : n ≤ Text.wordLimit) : number ⟨Markup.tagText name attrs⟩ key = .ok n := by
  simp only [number, valueWritten named literal, value, bind, Except.bind, Text.readNatDigits within]

end Tags

def spanAttributes (s : Span) : List (List Char × List Char) :=
  [("offset".toList, Nat.toDigits 10 s.start), ("length".toList, Nat.toDigits 10 s.size)]

theorem digitsWithout {c : Char} (other : c.isDigit = false) (n : Nat) : c ∉ Nat.toDigits 10 n := by
  intro mem
  have digit := Nat.isDigit_of_mem_toDigits (by decide) (by decide) mem
  rw [other] at digit
  cases digit

theorem literalNil : Literal [] := ⟨by simp, by simp, by simp⟩

theorem literalSnoc {attrs : List (List Char × List Char)} {key value : List Char} (literal : Literal attrs)
    (plain : Markup.Plain (key, value)) (fresh : key ∉ attrs.map Prod.fst) (unreferring : '&' ∉ value) :
    Literal (attrs ++ [(key, value)]) := by
  have apart : ∀ k ∈ attrs.map Prod.fst, ∀ other ∈ [key], k ≠ other := by
    intro k mem other here same
    cases List.mem_singleton.mp here
    exact fresh (same ▸ mem)
  have distinct : ((attrs ++ [(key, value)]).map Prod.fst).Nodup := by
    rw [List.map_append]
    exact List.nodup_append.mpr ⟨literal.distinct, by simp, apart⟩
  exact ⟨List.forall_mem_append.mpr ⟨literal.plain, List.forall_mem_singleton.mpr plain⟩, distinct,
    List.forall_mem_append.mpr ⟨literal.unreferring, List.forall_mem_singleton.mpr unreferring⟩⟩

theorem plainDigits {key : List Char} (named : key ≠ []) (inside : key.all Markup.isNameChar = true) (n : Nat) :
    Markup.Plain (key, Nat.toDigits 10 n) :=
  ⟨named, inside, digitsWithout (by decide) n⟩

theorem spanLiteral (s : Span) : Literal (spanAttributes s) := by
  have offset : Literal ([] ++ [("offset".toList, Nat.toDigits 10 s.start)]) :=
    literalSnoc literalNil (plainDigits (by decide) (by decide) s.start) (by decide) (digitsWithout (by decide) s.start)
  have fresh : "length".toList ∉ ["offset".toList] := by decide
  exact literalSnoc offset (plainDigits (by decide) (by decide) s.size) fresh (digitsWithout (by decide) s.size)

theorem replacementName : Markup.PlainName "replacement".toList :=
  ⟨⟨'r', "eplacement".toList, by decide, by decide⟩, by decide⟩

theorem startWritten (s : Span) : start ⟨Markup.tagText "replacement".toList (spanAttributes s)⟩ =
    if Text.wordLimit < s.start + s.size then .error (.overflow s.start s.size) else .ok ⟨s, []⟩ := by
  have keys : ("offset".toList == "offset".toList) = true ∧ ("length".toList == "offset".toList) = false ∧
      ("length".toList == "length".toList) = true := by
    decide
  have offset : (spanAttributes s).lookup "offset".toList = some (Nat.toDigits 10 s.start) := by
    rw [spanAttributes, List.lookup_cons, keys.1]
  have length : (spanAttributes s).lookup "length".toList = some (Nat.toDigits 10 s.size) := by
    rw [spanAttributes, List.lookup_cons, keys.2.1, List.lookup_cons, keys.2.2]
  have before := numberWritten replacementName (spanLiteral s) offset (Nat.le_of_lt_succ s.offset.toNat_lt)
  have size := numberWritten replacementName (spanLiteral s) length (Nat.le_of_lt_succ s.length.toNat_lt)
  have same : Edit.ofNats s.start s.size [] = ⟨s, []⟩ := by
    simp [Edit.ofNats, Span.start, Span.size]
  simp only [start, before, size, bind, Except.bind, same]

def spanTag (s : Span) : List Char :=
  "<replacement offset='".toList ++ (Nat.toDigits 10 s.start ++ ("' length='".toList ++ (Nat.toDigits 10 s.size ++ ['\''])))

theorem spanTagText (s : Span) : spanTag s = '<' :: Markup.tagText "replacement".toList (spanAttributes s) := by
  -- Over lists that are not literals: what unfolds a literal takes long.
  have shape {first second name offset length : List Char} (before size : List Char)
      (one : first = '<' :: (name ++ ' ' :: (offset ++ ['=', '\''])))
      (two : second = '\'' :: ' ' :: (length ++ ['=', '\''])) :
      first ++ (before ++ (second ++ (size ++ ['\'']))) = '<' :: Markup.tagText name [(offset, before), (length, size)] := by
    simp [one, two, Markup.tagText, Markup.attributeText]
  exact shape _ _ (by decide) (by decide)

def endTag : List Char := "</replacement>".toList

section Element
variable {p : Progress} {opened : List (List Char)} {rest : List Char} {s : Span}

theorem resumeFull : resume p opened (spanTag s ++ '>' :: rest) =
    if Text.wordLimit < s.start + s.size then .error (.overflow s.start s.size)
    else resume { p with current := some ⟨s, []⟩ } ("replacement".toList :: opened) rest := by
  have read := @Markup.readStepOpening _ _ replacementName opened rest (spanLiteral s).plain (List.cons_ne_nil _ _)
  rw [spanTagText, List.cons_append, resumeStep read]
  simp only [step, Markup.tagNameWritten replacementName, if_true, startWritten]
  split <;> rfl

theorem resumeEmpty : resume p opened (spanTag s ++ '/' :: '>' :: rest) =
    if Text.wordLimit < s.start + s.size then .error (.overflow s.start s.size)
    else resume { p with edits := p.edits ++ [⟨s, []⟩] } opened rest := by
  have read := @Markup.readStepEmpty _ _ replacementName opened rest (spanLiteral s).plain
  rw [spanTagText, List.cons_append, resumeStep read]
  simp only [step, Markup.tagNameWritten replacementName, if_true, startWritten]
  split <;> rfl

theorem resumeClosing {name text : List Char} {next : Progress} (written : text = '<' :: '/' :: (name ++ ['>']))
    (plain : '>' ∉ name) (ended : Markup.endName name = name) (went : step p (.closing name) = .ok next) :
    resume p (name :: opened) (text ++ rest) = resume next opened rest := by
  have read : Markup.readStep (name :: opened) '<' ('/' :: (name ++ '>' :: rest)) =
      .ok (some (.closing name), opened, rest) :=
    Markup.readStepEnd plain ended
  rw [written, List.cons_append, List.cons_append, List.append_assoc, List.singleton_append]
  exact resumeNext read went

theorem resumeEndTag {e : Edit} (current : p.current = some e) :
    resume p ("replacement".toList :: opened) (endTag ++ rest) = resume ⟨p.edits ++ [e], none⟩ opened rest := by
  have went : step p (.closing "replacement".toList) = .ok ⟨p.edits ++ [e], none⟩ := by
    simp only [step, if_true, current]
  exact resumeClosing (by decide) (by decide) (by decide) went

end Element

inductive Element : Edit → List Char → Prop where
  | full (s : Span) {cs text : List Char} (content : Content cs text) :
      Element ⟨s, Utf8.encode cs⟩ (spanTag s ++ '>' :: (text ++ endTag))
  | empty (s : Span) : Element ⟨s, []⟩ (spanTag s ++ ['/', '>'])

def Blank (gap : List Char) : Prop := ∀ c ∈ gap, Text.isBlank c = true

theorem blankText {gap : List Char} (blank : Blank gap) : ∀ c ∈ gap, Markup.isTextChar c = true := by
  have marks : Text.isBlank '<' = false ∧ Text.isBlank '&' = false := by decide
  intro c mem
  have here := blank c mem
  have angle : c ≠ '<' := by
    rintro rfl
    simp [marks] at here
  have ampersand : c ≠ '&' := by
    rintro rfl
    simp [marks] at here
  simp [Markup.isTextChar, angle, ampersand]

inductive Elements : List Edit → List Char → Prop where
  | nil : Elements [] []
  | cons {e : Edit} {edits : List Edit} {text gap rest : List Char} (first : Element e text) (blank : Blank gap)
      (next : Elements edits rest) : Elements (e :: edits) (text ++ (gap ++ rest))

def overflows (e : Edit) : Bool := Text.wordLimit < e.span.start + e.span.size

theorem resumeElement {e : Edit} {text : List Char} (element : Element e text) (edits : List Edit)
    (opened : List (List Char)) (rest : List Char) : resume ⟨edits, none⟩ opened (text ++ rest) =
      if overflows e then .error (.overflow e.span.start e.span.size) else resume ⟨edits ++ [e], none⟩ opened rest := by
  cases element with
  | @full s cs text content =>
    have inside : resume ⟨edits, some ⟨s, []⟩⟩ ("replacement".toList :: opened) (text ++ (endTag ++ rest)) =
        resume ⟨edits ++ [⟨s, Utf8.encode cs⟩], none⟩ opened rest := by
      rw [resumeContent content, resumeEndTag rfl]
      rfl
    rw [List.append_assoc, List.cons_append, List.append_assoc, resumeFull, inside]
    simp [overflows]
  | empty s =>
    rw [List.append_assoc]
    refine resumeEmpty.trans ?_
    simp [overflows]

theorem resumeElements {edits : List Edit} {text : List Char} (elements : Elements edits text) (early : List Edit)
    (opened : List (List Char)) (rest : List Char) : resume ⟨early, none⟩ opened (text ++ rest) =
      match edits.find? overflows with
      | some e => .error (.overflow e.span.start e.span.size)
      | none => resume ⟨early ++ edits, none⟩ opened rest := by
  induction elements generalizing early with
  | nil => rw [List.append_nil, List.nil_append, List.find?_nil]
  | @cons e edits text gap more first blank next ih =>
    rw [List.append_assoc, List.append_assoc, resumeElement first, List.find?_cons]
    cases overflows e with
    | true => rfl
    | false =>
      simp only [Bool.false_eq_true, if_false]
      rw [resumeGap rfl (blankText blank), ih, List.append_assoc, List.singleton_append]

def declaration : List Char := "<?xml version='1.0'?>".toList

inductive Root : List Char → Prop where
  | complete : Root "<replacements xml:space='preserve' incomplete_format='false'>".toList
  | incomplete : Root "<replacements xml:space='preserve' incomplete_format='true'>".toList
  | incompleteAt (line : Nat) : Root
      ("<replacements xml:space='preserve' incomplete_format='true' line='".toList ++ (Nat.toDigits 10 line ++ ['\'', '>']))

def rootEnd : List Char := "</replacements>".toList

inductive Document (edits : List Edit) : List Char → Prop where
  | intro {first root before body last : List Char} (declared : Blank first) (opened : Root root) (start : Blank before)
      (elements : Elements edits body) (closed : Blank last) :
      Document edits (declaration ++ (first ++ (root ++ (before ++ (body ++ (rootEnd ++ last))))))

def rootAttributes (flag : String) : List (List Char × List Char) :=
  [("xml:space".toList, "preserve".toList), ("incomplete_format".toList, flag.toList)]

theorem rootName : Markup.PlainName "replacements".toList :=
  ⟨⟨'r', "eplacements".toList, by decide, by decide⟩, by decide⟩

theorem rootLiteral {flag : String} (quote : '\'' ∉ flag.toList) (ampersand : '&' ∉ flag.toList) :
    Literal (rootAttributes flag) := by
  have space : Literal ([] ++ [("xml:space".toList, "preserve".toList)]) :=
    literalSnoc literalNil ⟨by decide, by decide, by decide⟩ (by decide) (by decide)
  have fresh : "incomplete_format".toList ∉ ["xml:space".toList] := by decide
  have named : "incomplete_format".toList ≠ [] ∧ "incomplete_format".toList.all Markup.isNameChar = true := by decide
  exact literalSnoc space ⟨named.1, named.2, quote⟩ fresh ampersand

theorem rootTag {root : List Char} (opened : Root root) :
    ∃ attrs, attrs ≠ [] ∧ Literal attrs ∧ root = '<' :: (Markup.tagText "replacements".toList attrs ++ ['>']) := by
  cases opened with
  | complete => exact ⟨rootAttributes "false", List.cons_ne_nil _ _, rootLiteral (by decide) (by decide), by decide⟩
  | incomplete => exact ⟨rootAttributes "true", List.cons_ne_nil _ _, rootLiteral (by decide) (by decide), by decide⟩
  | incompleteAt line =>
    have shape {first name key : List Char} {attrs : List (List Char × List Char)} (digits : List Char)
        (one : first = '<' :: (Markup.tagText name attrs ++ ' ' :: (key ++ ['=', '\'']))) :
        first ++ (digits ++ ['\'', '>']) = '<' :: (Markup.tagText name (attrs ++ [(key, digits)]) ++ ['>']) := by
      simp [one, Markup.tagText, Markup.attributeText]
    have flagged : Literal (rootAttributes "true") := rootLiteral (by decide) (by decide)
    have fresh : "line".toList ∉ ["xml:space".toList, "incomplete_format".toList] := by decide
    have attributes : Literal (rootAttributes "true" ++ [("line".toList, Nat.toDigits 10 line)]) :=
      literalSnoc flagged (plainDigits (by decide) (by decide) line) fresh (digitsWithout (by decide) line)
    have opening : "<replacements xml:space='preserve' incomplete_format='true' line='".toList =
        '<' :: (Markup.tagText "replacements".toList (rootAttributes "true") ++ ' ' :: ("line".toList ++ ['=', '\''])) := by
      decide
    exact ⟨_, List.cons_ne_nil _ _, attributes, shape _ opening⟩

theorem resumeRoot {root : List Char} (opened : Root root) (p : Progress) (tags : List (List Char)) (rest : List Char) :
    resume p tags (root ++ rest) = resume p ("replacements".toList :: tags) rest := by
  obtain ⟨attrs, full, literal, rfl⟩ := rootTag opened
  have read := @Markup.readStepOpening _ _ rootName tags rest literal.plain full
  have other : "replacements".toList ≠ "replacement".toList := by decide
  have went : step p (.opening ⟨Markup.tagText "replacements".toList attrs⟩) = .ok p := by
    simp only [step, Markup.tagNameWritten rootName, if_neg other, if_true, valueWritten rootName literal]
    rfl
  rw [List.cons_append, List.append_assoc, List.singleton_append]
  exact resumeNext read went

theorem resumeRootEnd (p : Progress) (opened : List (List Char)) (rest : List Char) :
    resume p ("replacements".toList :: opened) (rootEnd ++ rest) = resume p opened rest := by
  have other : "replacements".toList ≠ "replacement".toList := by decide
  have went : step p (.closing "replacements".toList) = .ok p := by
    simp only [step, if_neg other]
  exact resumeClosing (by decide) (by decide) (by decide) went

theorem resumeDeclaration (p : Progress) (opened : List (List Char)) (rest : List Char) :
    resume p opened (declaration ++ rest) = resume p opened rest := by
  have written : declaration = '<' :: '?' :: 'x' :: ("ml version='1.0'".toList ++ ['?', '>']) := by decide
  have read : Markup.readStep opened '<' ('?' :: 'x' :: ("ml version='1.0'".toList ++ '?' :: '>' :: rest)) =
      .ok (none, opened, rest) :=
    Markup.readStepInstruction (by decide) (by decide)
  rw [written, List.cons_append, List.cons_append, List.cons_append, List.append_assoc]
  exact resumeSkip read

theorem readWritten {edits : List Edit} {text : List Char} (document : Document edits text) : read text =
    match edits.find? overflows with
    | some e => .error (.overflow e.span.start e.span.size)
    | none => .ok edits := by
  cases document with
  | @intro first root before body last declared opened start elements closed =>
    have marked (rest : List Char) : (declaration ++ rest).head? ≠ some Markup.byteOrderMark := by
      have head : declaration.head? = some '<' ∧ '<' ≠ Markup.byteOrderMark := by decide
      simp [List.head?_append, head]
    have ending : resume ⟨edits, none⟩ [] last = .ok edits := by
      have gap := @resumeGap ⟨edits, none⟩ [] [] last rfl (blankText closed)
      rw [List.append_nil] at gap
      rw [gap, resumeEnd rfl]
    rw [readResume (marked _), resumeDeclaration, resumeGap rfl (blankText declared), resumeRoot opened,
      resumeGap rfl (blankText start), resumeElements elements, List.nil_append, resumeRootEnd, ending]

theorem readDocument {edits : List Edit} {text : List Char} (document : Document edits text)
    (fits : ∀ e ∈ edits, e.span.start + e.span.size < 0x10000000000000000) : read text = .ok edits := by
  have none : edits.find? overflows = none := by
    rw [List.find?_eq_none]
    intro e mem large
    have small : e.span.start + e.span.size ≤ Text.wordLimit := Nat.le_of_lt_succ (fits e mem)
    have beyond : Text.wordLimit < e.span.start + e.span.size := of_decide_eq_true large
    omega
  rw [readWritten document, none]

def mixedText : List Char :=
  ["<?xml version='1.0'?>\n", "<replacements xml:space='preserve' ", "incomplete_format='true' line='7'>\n  ",
    "<replacement offset='4' length='1'>", "&#10;&amp;é &#x3c;&#x003C;</replacement>\n",
    "<replacement offset='18446744073709551614' length='1'/>", "</replacements>\n"].flatMap String.toList

def mixedEdits : List Edit :=
  [⟨⟨4, 1⟩, Utf8.encode ['\n', '&', 'é', ' ', '<', '<']⟩, ⟨⟨18446744073709551614, 1⟩, []⟩]

theorem mixedDocument : Document mixedEdits mixedText := by
  have newline : Text.Digits 10 ['1', '0'] 10 := @Text.digitsPair 10 1 0 (by decide) (by decide)
  have angle : Text.Digits 16 ['3', 'c'] 60 := @Text.digitsPair 16 3 12 (by decide) (by decide)
  have zeros : Text.Digits 16 ['0', '0'] 0 := @Text.digitsPair 16 0 0 (by decide) (by decide)
  have padded : Text.Digits 16 ['0', '0', '3', 'C'] 60 :=
    .more (d := 12) (.more (d := 3) zeros (by decide) (.inl rfl)) (by decide) (.inr rfl)
  have ampersand : Named '&' "amp".toList := .entity (by decide)
  have content : Content ['\n', '&', 'é', ' ', '<', '<'] _ :=
    .cons (.reference (.decimal newline)) (.cons (.reference ampersand) (.cons (.raw (by decide) (by decide))
      (.cons (.raw (by decide) (by decide)) (.cons (.reference (.hexadecimal angle))
        (.cons (.reference (.hexadecimal padded)) .nil)))))
  have newlineSpace : Blank ['\n'] := List.all_eq_true.mp (by decide)
  have indented : Blank ['\n', ' ', ' '] := List.all_eq_true.mp (by decide)
  have nothing : Blank [] := List.all_eq_true.mp (by decide)
  have elements : Elements mixedEdits _ := .cons (.full ⟨4, 1⟩ content) newlineSpace (.cons (.empty ⟨_, 1⟩) nothing .nil)
  have reads {text : List Char} (document : Document mixedEdits text) (same : text = mixedText) :
      Document mixedEdits mixedText := same ▸ document
  exact reads (.intro newlineSpace (.incompleteAt 7) indented elements newlineSpace) (by decide +kernel)

theorem mixedRead : Document mixedEdits mixedText ∧
    (∀ e ∈ mixedEdits, e.span.start + e.span.size < 0x10000000000000000) ∧ read mixedText = .ok mixedEdits := by
  have fits : ∀ e ∈ mixedEdits, e.span.start + e.span.size < 0x10000000000000000 := by decide
  exact ⟨mixedDocument, fits, readDocument mixedDocument fits⟩

end KeepBlame.Replacements
