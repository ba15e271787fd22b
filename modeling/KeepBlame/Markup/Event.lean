import KeepBlame.Markup.Tag

/-!
Markup as a list of events: tags, text and references, up to the first mistake. Comments, character data, processing
instructions and document types leave no event. End tags must name the last tag left open; tags that are still open
at the end of the text are no mistake.
-/
namespace KeepBlame.Markup

inductive Event where
  | opening (tag : Tag)
  | empty (tag : Tag)
  | closing (name : List Char)
  | text (cs : List Char)
  | reference (name : List Char)
  deriving DecidableEq, Repr

inductive Mistake where
  | unclosedTag
  | unclosedValue (quote : Char)
  | unclosedComment
  | unclosedData
  | unclosedDoctype
  | unclosedInstruction
  | unclosedDeclaration
  | unknownMarkup
  | mismatchedEnd (expected found : List Char)
  | unmatchedEnd (name : List Char)
  | unclosedReference
  | namelessDoctype
  deriving DecidableEq, Repr

def Mistake.message : Mistake → String
  | unclosedTag => "syntax error: tag not closed: `>` not found before end of input"
  | unclosedValue quote =>
    s!"syntax error: attribute value not closed: `{String.ofList [quote]}` not found before end of input"
  | unclosedComment => "syntax error: comment not closed: `-->` not found before end of input"
  | unclosedData => "syntax error: CDATA not closed: `]]>` not found before end of input"
  | unclosedDoctype => "syntax error: DOCTYPE not closed: `>` not found before end of input"
  | unclosedInstruction =>
    "syntax error: processing instruction not closed: `?>` not found before end of input"
  | unclosedDeclaration => "syntax error: XML declaration not closed: `?>` not found before end of input"
  | unknownMarkup => "syntax error: unknown or missed symbol in markup"
  | mismatchedEnd expected found =>
    s!"ill-formed document: expected `</{String.ofList expected}>`, but `</{String.ofList found}>` was found"
  | unmatchedEnd name =>
    s!"ill-formed document: close tag `</{String.ofList name}>` does not match any open tag"
  | unclosedReference =>
    "ill-formed document: entity or character reference not closed: `;` not found before end of input"
  | namelessDoctype =>
    "ill-formed document: `<!DOCTYPE>` declaration does not contain a name of a document type"

def quoteAfter (c : Char) : Option Char → Option Char
  | none => if c = '"' ∨ c = '\'' then some c else none
  | some quote => if c = quote then none else some quote

def cutTag : Option Char → List Char → Except Mistake (List Char × List Char)
  | none, [] => .error .unclosedTag
  | some quote, [] => .error (.unclosedValue quote)
  | none, '>' :: rest => .ok ([], rest)
  | quote, c :: rest =>
    match cutTag (quoteAfter c quote) rest with
    | .error e => .error e
    | .ok (before, after) => .ok (c :: before, after)

inductive DoctypePlace where
  | outside
  | inside
  | markup (quote : Option Char)
  | comment
  | instruction
  deriving DecidableEq, Repr

def DoctypePlace.next (c : Char) (rest : List Char) : DoctypePlace → DoctypePlace
  | outside => if c = '[' then inside else outside
  | inside =>
    if c = ']' then outside
    else if c ≠ '<' then inside
    else if "!--".toList.isPrefixOf rest then comment
    else if "?".toList.isPrefixOf rest then instruction
    else markup none
  | markup none => if c = '>' then inside else markup (quoteAfter c none)
  | markup (some quote) => markup (quoteAfter c (some quote))
  | comment => if c = '-' ∧ "->".toList.isPrefixOf rest then markup none else comment
  | instruction => if c = '?' ∧ ">".toList.isPrefixOf rest then markup none else instruction

def cutDoctype : DoctypePlace → List Char → Option (List Char × List Char)
  | _, [] => none
  | .outside, '>' :: rest => some ([], rest)
  | place, c :: rest =>
    match cutDoctype (place.next c rest) rest with
    | none => none
    | some (before, after) => some (c :: before, after)

/-- What one step of reading gives: an event or none, the names of the open tags, the last first, and the rest. -/
abbrev Step := Option Event × List (List Char) × List Char

def readDeclaration (opened : List (List Char)) (cs : List Char) : Except Mistake Step :=
  match cs with
  | '-' :: rest =>
    match rest with
    | '-' :: body =>
      match Text.cutAt "-->".toList body with
      | some (_, rest) => .ok (none, opened, rest)
      | none => .error .unclosedComment
    | _ => .error .unclosedComment
  | '[' :: rest =>
    if "CDATA[".toList.isPrefixOf rest then
      match Text.cutAt "]]>".toList (rest.drop 6) with
      | some (_, rest) => .ok (none, opened, rest)
      | none => .error .unclosedData
    else .error .unclosedData
  | c :: rest =>
    if c = 'D' ∨ c = 'd' then
      match cutDoctype .outside rest with
      | none => .error .unclosedDoctype
      | some (body, rest) =>
        if (c :: body.take 6).map Char.toUpper = "DOCTYPE".toList then
          if (body.drop 6).all isSpace then .error .namelessDoctype else .ok (none, opened, rest)
        else .error .unclosedDoctype
    else .error .unknownMarkup
  | [] => .error .unknownMarkup

def readInstruction (opened : List (List Char)) (cs : List Char) : Except Mistake Step :=
  match Text.cutAt "?>".toList ('?' :: cs) with
  | some ([], _) => .error .unclosedInstruction
  | some (_, rest) => .ok (none, opened, rest)
  | none =>
    match cs with
    | 'x' :: 'm' :: 'l' :: rest =>
      if rest.head?.all fun c => isSpace c || c == '?' then .error .unclosedDeclaration
      else .error .unclosedInstruction
    | _ => .error .unclosedInstruction

def endName (cs : List Char) : List Char :=
  if cs.all isSpace then cs else (cs.reverse.dropWhile isSpace).reverse

def readEnd (opened : List (List Char)) (cs : List Char) : Except Mistake Step :=
  match Text.cutAt ['>'] cs with
  | none => .error .unclosedTag
  | some (before, rest) =>
    match opened with
    | [] => .error (.unmatchedEnd (endName before))
    | expected :: opened =>
      if endName before = expected then .ok (some (.closing expected), opened, rest)
      else .error (.mismatchedEnd expected (endName before))

def readTag (opened : List (List Char)) (cs : List Char) : Except Mistake Step :=
  match cutTag none cs with
  | .error e => .error e
  | .ok (text, rest) =>
    if text.getLast? = some '/' then .ok (some (.empty ⟨text.dropLast⟩), opened, rest)
    else .ok (some (.opening ⟨text⟩), (Tag.mk text).name :: opened, rest)

def readReference (opened : List (List Char)) (cs : List Char) : Except Mistake Step :=
  let inName (c : Char) := c != ';' && c != '&' && c != '<'
  match cs.dropWhile inName with
  | ';' :: rest => .ok (some (.reference (cs.takeWhile inName)), opened, rest)
  | _ => .error .unclosedReference

def isTextChar (c : Char) : Bool := c != '<' && c != '&'

def readStep (opened : List (List Char)) (c : Char) (rest : List Char) : Except Mistake Step :=
  if c = '<' then
    match rest with
    | '!' :: rest => readDeclaration opened rest
    | '/' :: rest => readEnd opened rest
    | '?' :: rest => readInstruction opened rest
    | rest => readTag opened rest
  else if c = '&' then readReference opened rest
  else .ok (some (.text (c :: rest.takeWhile isTextChar)), opened, rest.dropWhile isTextChar)

theorem cutTagLength {quote : Option Char} {cs before after : List Char}
    (h : cutTag quote cs = .ok (before, after)) : after.length ≤ cs.length := by
  fun_induction cutTag quote cs generalizing before with
  | case1 => cases h
  | case2 => cases h
  | case3 => cases h; simp
  | case4 => cases h
  | case5 _ _ _ _ _ _ hr ih =>
    cases h
    have := ih hr
    simp only [List.length_cons]
    omega

theorem cutDoctypeLength {place : DoctypePlace} {cs before after : List Char}
    (h : cutDoctype place cs = some (before, after)) : after.length ≤ cs.length := by
  fun_induction cutDoctype place cs generalizing before with
  | case1 => cases h
  | case2 => cases h; simp
  | case3 => cases h
  | case4 _ _ _ _ _ _ hr ih =>
    cases h
    have := ih hr
    simp only [List.length_cons]
    omega

theorem readDeclarationLength {opened o : List (List Char)} {cs r : List Char} {e : Option Event}
    (h : readDeclaration opened cs = .ok (e, o, r)) : r.length ≤ cs.length := by
  unfold readDeclaration at h
  repeat' split at h
  all_goals cases h
  all_goals rename_i hc
  · have := Text.cutAtLength hc
    simp only [List.length_cons]
    omega
  · have := Text.cutAtLength hc
    simp only [List.length_cons, List.length_drop] at *
    omega
  · have := cutDoctypeLength hc
    simp only [List.length_cons]
    omega

theorem readInstructionLength {opened o : List (List Char)} {cs r : List Char} {e : Option Event}
    (h : readInstruction opened cs = .ok (e, o, r)) : r.length ≤ cs.length + 1 := by
  unfold readInstruction at h
  repeat' split at h
  all_goals cases h
  rename_i hc
  have := Text.cutAtLength hc
  simpa using this

theorem readEndLength {opened o : List (List Char)} {cs r : List Char} {e : Option Event}
    (h : readEnd opened cs = .ok (e, o, r)) : r.length ≤ cs.length := by
  unfold readEnd at h
  repeat' split at h
  all_goals cases h
  exact Text.cutAtLength (by assumption)

theorem readTagLength {opened o : List (List Char)} {cs r : List Char} {e : Option Event}
    (h : readTag opened cs = .ok (e, o, r)) : r.length ≤ cs.length := by
  unfold readTag at h
  repeat' split at h
  all_goals cases h
  all_goals exact cutTagLength (by assumption)

theorem readReferenceLength {opened o : List (List Char)} {cs r : List Char} {e : Option Event}
    (h : readReference opened cs = .ok (e, o, r)) : r.length ≤ cs.length := by
  simp only [readReference] at h
  split at h
  · rename_i rest hr
    cases h
    have := (List.dropWhile_sublist (l := cs) fun c => c != ';' && c != '&' && c != '<').length_le
    simp only [hr, List.length_cons] at this
    omega
  · cases h

theorem readStepLength {opened o : List (List Char)} {c : Char} {cs r : List Char} {e : Option Event}
    (h : readStep opened c cs = .ok (e, o, r)) : r.length ≤ cs.length := by
  unfold readStep at h
  split at h
  · split at h
    · have := readDeclarationLength h
      simp only [List.length_cons]
      omega
    · have := readEndLength h
      simp only [List.length_cons]
      omega
    · simpa using readInstructionLength h
    · exact readTagLength h
  · split at h
    · exact readReferenceLength h
    · cases h
      exact (List.dropWhile_sublist _).length_le

def readEvents (opened : List (List Char)) : List Char → List Event × Option Mistake
  | [] => ([], none)
  | c :: rest =>
    match _h : readStep opened c rest with
    | .error e => ([], some e)
    | .ok (event, opened, rest) =>
      let (events, mistake) := readEvents opened rest
      (event.toList ++ events, mistake)
termination_by cs => cs.length
decreasing_by
  have := readStepLength _h
  simp only [List.length_cons]
  omega

def byteOrderMark : Char := Char.ofNat 0xFEFF

def events (cs : List Char) : List Event × Option Mistake :=
  let cs := if cs.head? = some byteOrderMark then cs.drop 1 else cs
  readEvents [] cs

end KeepBlame.Markup
