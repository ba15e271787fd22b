import KeepBlame.Formatter
import KeepBlame.Proofs.Decoding
import KeepBlame.Proofs.Documents

/-! Replacements as a formatter prints them, over bytes that need not be text. Content is printed byte by byte, so a
character may break off in it; reading puts the replacement character there and reports nothing. -/
namespace KeepBlame

namespace Replacements
open Markup (Named)

def escapes : List (UInt8 × String) := [(0x26, "&amp;"), (0x3C, "&lt;"), (0x0A, "&#10;"), (0x0D, "&#13;")]

def printByte (b : UInt8) : Bytes :=
  match escapes.lookup b with
  | some reference => Utf8.ofText reference
  | none => [b]

def printContent (content : Bytes) : Bytes := content.flatMap printByte

theorem escapesNamed : ∀ e ∈ escapes, e.1.toNat < 128 ∧
    ∃ name, e.2.toList = '&' :: (name ++ [';']) ∧ Named (Char.ofNat e.1.toNat) name := by
  have newline : Text.Digits 10 ['1', '0'] 10 := @Text.digitsPair 10 1 0 (by decide) (by decide)
  have carriage : Text.Digits 10 ['1', '3'] 13 := @Text.digitsPair 10 1 3 (by decide) (by decide)
  have ampersand : Named '&' "amp".toList := .entity (by decide)
  have angle : Named '<' "lt".toList := .entity (by decide)
  simp only [escapes, List.forall_mem_cons]
  refine ⟨⟨by decide, "amp".toList, by decide, ampersand⟩, ⟨by decide, "lt".toList, by decide, angle⟩,
    ⟨by decide, "#10".toList, by decide, .decimal newline⟩, ⟨by decide, "#13".toList, by decide, .decimal carriage⟩, ?_⟩
  simp

theorem printByteHigh {b : UInt8} (high : 128 ≤ b.toNat) : printByte b = [b] := by
  have absent : escapes.lookup b = none := by
    rw [List.lookup_eq_none_iff]
    intro e mem
    have small := (escapesNamed e mem).1
    rw [bne_iff_ne]
    intro same
    rw [same] at high
    omega
  rw [printByte, absent]

theorem printByteLow {b : UInt8} (low : b.toNat < 128) :
    ∃ c cs, printByte b = Utf8.encode (c :: cs) ∧ c.toNat < 128 ∧ Spelled (Char.ofNat b.toNat) (c :: cs) := by
  cases found : escapes.lookup b with
  | some reference =>
    obtain ⟨early, late, split, _⟩ := List.lookup_eq_some_iff.mp found
    have mem : (b, reference) ∈ escapes := split ▸ List.mem_append_right early List.mem_cons_self
    obtain ⟨_, name, written, named⟩ := escapesNamed _ mem
    refine ⟨'&', name ++ [';'], ?_, by decide, .reference named⟩
    rw [printByte, found]
    exact congrArg Utf8.encode written
  | none =>
    have other (mark : UInt8) (known : mark ∈ escapes.map Prod.fst) : b ≠ mark := by
      rintro rfl
      obtain ⟨e, mem, rfl⟩ := List.mem_map.mp known
      simpa using List.lookup_eq_none_iff.mp found e mem
    have code : (Char.ofNat b.toNat).toNat = b.toNat := Utf8.codeOfNat (.inl (by omega))
    have ampersand : Char.ofNat b.toNat ≠ '&' := fun same =>
      other 0x26 (by decide) (UInt8.toNat_inj.mp (code.symm.trans (congrArg Char.toNat same)))
    have angle : Char.ofNat b.toNat ≠ '<' := fun same =>
      other 0x3C (by decide) (UInt8.toNat_inj.mp (code.symm.trans (congrArg Char.toNat same)))
    refine ⟨Char.ofNat b.toNat, [], ?_, by omega, .raw ampersand angle⟩
    rw [printByte, found, Utf8.encodeLow low]

theorem contentAppend {cs ds early late : List Char} (first : Content cs early) (next : Content ds late) :
    Content (cs ++ ds) (early ++ late) := by
  induction first with
  | nil => exact next
  | cons spelled _ ih =>
    rw [List.cons_append, List.append_assoc]
    exact .cons spelled ih

theorem contentRaw {cs : List Char} (ampersand : '&' ∉ cs) (angle : '<' ∉ cs) : Content cs cs := by
  induction cs with
  | nil => exact .nil
  | cons c cs ih =>
    simp only [List.mem_cons, not_or] at ampersand angle
    exact .cons (.raw (Ne.symm ampersand.1) (Ne.symm angle.1)) (ih ampersand.2 angle.2)

-- What is printed is read as the text of the content, each character in one of its spellings. The high bytes at the
-- end of what was printed so far are kept apart, because the next bytes may belong to their last character.
theorem contentPrinted {run : Bytes} (high : ∀ b ∈ run, 128 ≤ b.toNat) (content : Bytes) :
    Content (Utf8.decodeLossy (run ++ content)) (Utf8.decodeLossy (run ++ printContent content)) := by
  have raw {run : Bytes} (high : ∀ b ∈ run, 128 ≤ b.toNat) : Content (Utf8.decodeLossy run) (Utf8.decodeLossy run) :=
    contentRaw (Utf8.decodeHigh high (by decide) (by decide)) (Utf8.decodeHigh high (by decide) (by decide))
  induction content generalizing run with
  | nil =>
    rw [printContent, List.flatMap_nil, List.append_nil]
    exact raw high
  | cons b rest ih =>
    have split : printContent (b :: rest) = printByte b ++ printContent rest := List.flatMap_cons
    by_cases low : b.toNat < 128
    · obtain ⟨c, cs, printed, small, spelled⟩ := printByteLow low
      have byte : run ++ b :: rest = run ++ (Utf8.encode [Char.ofNat b.toNat] ++ rest) := by
        rw [Utf8.encodeLow low, List.singleton_append]
      have code : (Char.ofNat b.toNat).toNat = b.toNat := Utf8.codeOfNat (.inl (by omega))
      have later := @ih [] (by simp)
      rw [byte, split, printed, Utf8.decodeBefore (by omega), Utf8.decodeBefore small]
      exact contentAppend (raw high) (.cons spelled later)
    · have longer : ∀ d ∈ run ++ [b], 128 ≤ d.toNat :=
        List.forall_mem_append.mpr ⟨high, List.forall_mem_singleton.mpr (Nat.not_lt.mp low)⟩
      have later := ih longer
      rw [List.append_assoc, List.append_assoc, List.singleton_append, List.singleton_append] at later
      rw [split, printByteHigh (Nat.not_lt.mp low), List.singleton_append]
      exact later

def printEdit (e : Edit) : Bytes :=
  Utf8.encode (spanTag e.span ++ ['>']) ++ (printContent e.content ++ Utf8.encode (endTag ++ ['\n']))

def printDocument (root : List Char) (edits : List Edit) : Bytes :=
  Utf8.encode (declaration ++ '\n' :: (root ++ ['\n'])) ++ (edits.flatMap printEdit ++ Utf8.encode (rootEnd ++ ['\n']))

def lossy (e : Edit) : Edit := { e with content := Utf8.encode (Utf8.decodeLossy e.content) }

theorem decodeEdit (e : Edit) (rest : Bytes) : ∃ text, Element (lossy e) text ∧
    Utf8.decodeLossy (printEdit e ++ rest) = text ++ '\n' :: Utf8.decodeLossy rest := by
  have content := @contentPrinted [] (by simp) e.content
  refine ⟨_, .full e.span content, ?_⟩
  have written : endTag ++ ['\n'] = '<' :: "/replacement>\n".toList := by decide
  rw [printEdit, List.append_assoc, List.append_assoc, Utf8.decodeEncoded, written, Utf8.decodeBefore (by decide), ← written]
  simp

theorem newlineBlank : Blank ['\n'] := List.all_eq_true.mp (by decide)

theorem decodeEdits (edits : List Edit) (rest : Bytes) : ∃ text, Elements (edits.map lossy) text ∧
    Utf8.decodeLossy (edits.flatMap printEdit ++ rest) = text ++ Utf8.decodeLossy rest := by
  induction edits with
  | nil => exact ⟨[], .nil, rfl⟩
  | cons e edits ih =>
    obtain ⟨more, elements, later⟩ := ih
    obtain ⟨text, element, here⟩ := decodeEdit e (edits.flatMap printEdit ++ rest)
    refine ⟨_, .cons element newlineBlank elements, ?_⟩
    rw [List.flatMap_cons, List.append_assoc, here, later]
    simp

theorem documentPrinted {root : List Char} (opened : Root root) (edits : List Edit) :
    Document (edits.map lossy) (Utf8.decodeLossy (printDocument root edits)) := by
  obtain ⟨body, elements, decoded⟩ := decodeEdits edits (Utf8.encode (rootEnd ++ ['\n']))
  have text : Utf8.decodeLossy (printDocument root edits) =
      declaration ++ (['\n'] ++ (root ++ (['\n'] ++ (body ++ (rootEnd ++ ['\n']))))) := by
    rw [printDocument, Utf8.decodeEncoded, decoded, Utf8.decodeWritten]
    simp
  rw [text]
  exact .intro newlineBlank opened newlineBlank elements newlineBlank

theorem lossyOverflows (edits : List Edit) : (edits.map lossy).find? overflows = (edits.find? overflows).map lossy := by
  rw [List.find?_map]
  rfl

theorem lossySame {edits : List Edit} : edits.map lossy = edits ↔ ∀ e ∈ edits, ∃ cs, e.content = Utf8.encode cs := by
  have one (e : Edit) : lossy e = e ↔ ∃ cs, e.content = Utf8.encode cs := by
    rw [← Utf8.decodeExactIff]
    constructor
    · intro same
      exact congrArg Edit.content same
    · intro exact
      rw [lossy, exact]
  have all := @List.map_inj_left _ _ edits lossy id
  rw [List.map_id] at all
  simp only [all, id_eq, one]

end Replacements

namespace FormatCommand
open Replacements (Root printDocument overflows lossy)

section Printed
variable {c : FormatCommand} {tools : Toolbox} {p : Path} {root : List Char} {edits : List Edit}
  (found : c.program ∈ tools.names) (exited : (tools.reply p).code = 0) (opened : Root root)
  (printed : (tools.reply p).out = printDocument root edits)
include found exited opened printed

theorem replacementsPrinted : c.replacements tools p =
    match edits.find? overflows with
    | some e => .error (.output (.overflow e.span.start e.span.size))
    | none => .ok (edits.map lossy) := by
  have known : tools.names.contains c.program = true := List.contains_iff_mem.mpr found
  have succeeded : (tools.reply p).succeeded = true := beq_iff_eq.mpr exited
  have output : c.output tools (tools.reply p) = .ok (Utf8.decodeLossy (printDocument root edits)) := by
    simp [FormatCommand.output, succeeded, found, Reply.text, printed]
  have read := Replacements.readWritten (Replacements.documentPrinted opened edits)
  rw [replacements, output]
  dsimp only
  rw [read, Replacements.lossyOverflows]
  cases edits.find? overflows <;> rfl

/-- The contents come back as they were printed, or there is an error, just where every content is text or some span is
too large to be read; otherwise the contents that are not text are altered and nothing is reported. -/
theorem keptWhereText :
    c.replacements tools p =
      (match edits.find? overflows with
      | some e => .error (.output (.overflow e.span.start e.span.size))
      | none => .ok (edits.map lossy)) ∧
    ((c.replacements tools p = .ok edits ∨ ∃ e, c.replacements tools p = .error e) ↔
      (∃ e ∈ edits, 0x10000000000000000 ≤ e.span.start + e.span.size) ∨ ∀ e ∈ edits, ∃ cs, e.content = Utf8.encode cs) := by
  have result := replacementsPrinted found exited opened printed
  have large (e : Edit) : overflows e = true ↔ 0x10000000000000000 ≤ e.span.start + e.span.size := decide_eq_true_iff
  refine ⟨result, ?_⟩
  rw [result]
  cases first : edits.find? overflows with
  | some e =>
    have big := (large e).mp (List.find?_some first)
    exact iff_of_true (.inr ⟨_, rfl⟩) (.inl ⟨e, List.mem_of_find?_eq_some first, big⟩)
  | none =>
    have small : ¬ ∃ e ∈ edits, 0x10000000000000000 ≤ e.span.start + e.span.size := by
      intro some
      obtain ⟨e, mem, big⟩ := some
      exact List.find?_eq_none.mp first e mem ((large e).mpr big)
    rw [or_iff_right small, ← Replacements.lossySame]
    constructor
    · intro kept
      rcases kept with same | failed
      · exact Except.ok.inj same
      · obtain ⟨e, failed⟩ := failed
        cases failed
    · intro same
      exact .inl (congrArg Except.ok same)

end Printed

def command : FormatCommand := ⟨"clang-format", "file"⟩

def printing (edits : List Edit) : Toolbox :=
  ⟨["clang-format"], {}, fun _ =>
    ⟨printDocument "<replacements xml:space='preserve' incomplete_format='false'>".toList edits, [], 0⟩⟩

def accented : List Edit := [⟨⟨3, 1⟩, [0xC3, 0xA9, 0x3C, 0x0A]⟩, ⟨⟨7, 0⟩, []⟩]

theorem accentedKept : command.program ∈ (printing accented).names ∧ ((printing accented).reply ⟨"/w/a.c"⟩).code = 0 ∧
    command.replacements (printing accented) ⟨"/w/a.c"⟩ = .ok accented := by
  have found : command.program ∈ (printing accented).names := List.mem_singleton.mpr rfl
  have kept := keptWhereText found (p := ⟨"/w/a.c"⟩) rfl .complete rfl
  have none : accented.find? overflows = none := by decide
  have same : accented.map lossy = accented := by
    refine Replacements.lossySame.mpr ?_
    simp only [accented, List.forall_mem_cons]
    exact ⟨⟨['é', '<', '\n'], by decide⟩, ⟨[], rfl⟩, by simp⟩
  rw [none, same] at kept
  exact ⟨found, rfl, kept.1⟩

def broken : List Edit := [⟨⟨0, 1⟩, [0xFF]⟩]

theorem brokenAltered : command.replacements (printing broken) ⟨"/w/a.c"⟩ = .ok [⟨⟨0, 1⟩, [0xEF, 0xBF, 0xBD]⟩] ∧
    [⟨⟨0, 1⟩, [0xEF, 0xBF, 0xBD]⟩] ≠ broken := by
  have found : command.program ∈ (printing broken).names := List.mem_singleton.mpr rfl
  have read := replacementsPrinted found (p := ⟨"/w/a.c"⟩) rfl .complete rfl
  have none : broken.find? overflows = none := by decide
  have altered : broken.map lossy = [⟨⟨0, 1⟩, [0xEF, 0xBF, 0xBD]⟩] := by decide +kernel
  rw [none, altered] at read
  exact ⟨read, by decide⟩

end FormatCommand
end KeepBlame
