import KeepBlame.Author
import Mathlib.Data.List.TakeWhile

/-! Authors as text. A text is read as an author just where, without the white space around it, it is a name and an email
in angle brackets, and an author is read back from its own text. Reading by byte positions, where a position outside the
text or inside a character gives nothing, comes to the same. -/
namespace KeepBlame

namespace Text

structure Stripped (cs core : List Char) : Prop where
  split : ∃ before after, cs = before ++ (core ++ after) ∧ (∀ c ∈ before, isBlank c = true) ∧
    ∀ c ∈ after, isBlank c = true
  first : ∀ c, core.head? = some c → isBlank c = false
  last : ∀ c, core.getLast? = some c → isBlank c = false

theorem trimStripped (cs : List Char) : Stripped cs (trim cs) := by
  have early := List.takeWhile_append_dropWhile (p := isBlank) (l := cs)
  have late := List.takeWhile_append_dropWhile (p := isBlank) (l := (trimStart cs).reverse)
  have whole : trimStart cs = trim cs ++ ((trimStart cs).reverse.takeWhile isBlank).reverse := by
    rw [trim, trimEnd, ← List.reverse_append, late, List.reverse_reverse]
  refine ⟨⟨cs.takeWhile isBlank, ((trimStart cs).reverse.takeWhile isBlank).reverse, ?_, ?_, ?_⟩, ?_, ?_⟩
  · rw [← whole]
    exact early.symm
  · exact fun c mem => List.all_eq_true.mp List.all_takeWhile c mem
  · exact fun c mem => List.all_eq_true.mp List.all_takeWhile c (List.mem_reverse.mp mem)
  · intro c head
    have found : (trimStart cs).head? = some c := by
      rw [whole, List.head?_append, head]
      rfl
    have shown := List.head?_dropWhile_not isBlank cs
    rw [show (cs.dropWhile isBlank).head? = some c from found] at shown
    exact shown
  · intro c final
    have found : ((trimStart cs).reverse.dropWhile isBlank).head? = some c := by
      simpa [trim, trimEnd] using final
    have shown := List.head?_dropWhile_not isBlank (trimStart cs).reverse
    rw [found] at shown
    exact shown

theorem trimOfStripped {cs core : List Char} (stripped : Stripped cs core) : trim cs = core := by
  obtain ⟨⟨before, after, rfl, early, late⟩, first, last⟩ := stripped
  have backwards : core.reverse.dropWhile isBlank = core.reverse := by
    refine List.dropWhile_eq_self_iff.mpr fun full => ?_
    have ends : core.getLast? = some core.reverse[0] := by
      rw [← List.head?_reverse, List.head?_eq_getElem?, List.getElem?_eq_getElem full]
    rw [last _ ends]
    decide
  unfold trim trimEnd trimStart
  rw [List.dropWhile_append_of_pos early]
  cases core with
  | nil =>
    simp [List.dropWhile_eq_nil_iff.mpr late]
  | cons c rest =>
    have starts : (c :: rest ++ after).dropWhile isBlank = c :: rest ++ after :=
      List.dropWhile_cons_of_neg (by simpa using first)
    rw [starts, List.reverse_append, List.dropWhile_append_of_pos fun d mem => late d (List.mem_reverse.mp mem),
      backwards, List.reverse_reverse]

theorem trimMem {c : Char} (visible : isBlank c = false) {cs : List Char} : c ∈ trim cs ↔ c ∈ cs := by
  obtain ⟨before, after, split, early, late⟩ := (trimStripped cs).split
  have apart : c ∉ before ∧ c ∉ after :=
    ⟨fun mem => by simp [early c mem] at visible, fun mem => by simp [late c mem] at visible⟩
  conv => rhs; rw [split]
  simp [apart]

theorem trimEmptyIff {cs : List Char} : trim cs = [] ↔ ∀ c ∈ cs, isBlank c = true := by
  constructor
  · intro empty c mem
    cases blank : isBlank c with
    | true => rfl
    | false => simpa [empty] using (trimMem blank).mpr mem
  · exact fun all => trimOfStripped ⟨⟨cs, [], by simp, all, by simp⟩, by simp, by simp⟩

theorem trimAgain (cs : List Char) : Stripped (trim cs) (trim cs) :=
  ⟨⟨[], [], by simp, by simp, by simp⟩, (trimStripped cs).first, (trimStripped cs).last⟩

def byteSize : List Char → Nat
  | [] => 0
  | c :: rest => c.utf8Size + byteSize rest

def byteOf? (c : Char) : List Char → Option Nat
  | [] => none
  | d :: rest => if d = c then some 0 else (byteOf? c rest).map (d.utf8Size + ·)

def splitAtByte? (position : Nat) : List Char → Option (List Char × List Char)
  | [] => if position = 0 then some ([], []) else none
  | c :: rest =>
    if position = 0 then some ([], c :: rest)
    else if position < c.utf8Size then none
    else (splitAtByte? (position - c.utf8Size) rest).map fun (before, after) => (c :: before, after)

theorem splitAtByteSize (before after : List Char) :
    splitAtByte? (byteSize before) (before ++ after) = some (before, after) := by
  induction before with
  | nil => cases after <;> simp [byteSize, splitAtByte?]
  | cons c rest ih =>
    have positive := c.utf8Size_pos
    have there : ¬ c.utf8Size + byteSize rest = 0 := by omega
    have behind : ¬ c.utf8Size + byteSize rest < c.utf8Size := by omega
    simp only [byteSize, List.cons_append, splitAtByte?, if_neg there, if_neg behind, Nat.add_sub_cancel_left, ih]
    rfl

theorem byteOfAbsent {c : Char} {cs : List Char} (absent : c ∉ cs) : byteOf? c cs = none := by
  induction cs with
  | nil => rfl
  | cons d rest ih =>
    obtain ⟨other, later⟩ := not_or.mp fun mem => absent (List.mem_cons.mpr mem)
    simp [byteOf?, Ne.symm other, ih later]

theorem byteOfFirst {c : Char} {before after : List Char} (absent : c ∉ before) :
    byteOf? c (before ++ c :: after) = some (byteSize before) := by
  induction before with
  | nil => simp [byteOf?, byteSize]
  | cons d rest ih =>
    obtain ⟨other, later⟩ := not_or.mp fun mem => absent (List.mem_cons.mpr mem)
    simp [byteOf?, byteSize, Ne.symm other, ih later]

theorem byteSizeSnoc (cs : List Char) (c : Char) : byteSize (cs ++ [c]) = byteSize cs + c.utf8Size := by
  induction cs with
  | nil => simp [byteSize]
  | cons d rest ih =>
    simp only [List.cons_append, byteSize, ih]
    omega

end Text

namespace Author
open Text (Stripped trim isBlank)

/-- Reading by byte positions: the position of the first `<` in the text cuts off the name, and the position behind it
cuts off the email in the text without its last `>`. Nothing is given where such a cut cannot be made. -/
def parseAtBytes (s : String) : Option (Except ParseError Author) :=
  let cs := trim s.toList
  match Text.byteOf? '<' cs with
  | none => some (.error .noEmail)
  | some opening =>
    if cs.getLast? ≠ some '>' then some (.error .unclosedEmail)
    else do
      let (name, _) ← Text.splitAtByte? opening cs
      if (trim name).isEmpty then some (.error .emptyName)
      else do
        let (_, email) ← Text.splitAtByte? (opening + 1) cs.dropLast
        if (trim email).any fun c => c == '<' || c == '>' then some (.error .bracketInEmail)
        else some (.ok ⟨String.ofList (trim name), String.ofList (trim email)⟩)

inductive Form (cs : List Char) : Prop where
  | bare (absent : '<' ∉ cs)
  | unclosed {name rest : List Char} (split : cs = name ++ '<' :: rest) (first : '<' ∉ name)
      (ending : cs.getLast? ≠ some '>')
  | closed {name email : List Char} (split : cs = name ++ '<' :: email ++ ['>']) (first : '<' ∉ name)

theorem form (cs : List Char) : Form cs := by
  by_cases opened : '<' ∈ cs
  · obtain ⟨name, rest, split, first⟩ := List.eq_append_cons_of_mem opened
    by_cases ending : cs.getLast? = some '>'
    · rcases List.eq_nil_or_concat rest with rfl | ⟨email, last, rfl⟩
      · simp [split] at ending
      · rw [List.concat_eq_append, ← List.cons_append, ← List.append_assoc] at split
        rw [split, List.getLast?_concat] at ending
        cases ending
        exact .closed split first
    · exact .unclosed split first ending
  · exact .bare opened

theorem nameTaken {name rest : List Char} (first : '<' ∉ name) :
    (name ++ '<' :: rest).takeWhile (· != '<') = name := by
  have other : ∀ c ∈ name, (c != '<') = true := fun c mem => bne_iff_ne.mpr fun same => first (same ▸ mem)
  rw [List.takeWhile_append_of_pos other]
  simp

section Closed
variable {name email : List Char}

theorem closedName (first : '<' ∉ name) : (name ++ '<' :: email ++ ['>']).takeWhile (· != '<') = name := by
  rw [List.append_assoc]
  exact nameTaken first

theorem closedInner : (name ++ '<' :: email ++ ['>']).dropLast = (name ++ ['<']) ++ email := by
  rw [List.dropLast_concat, List.append_assoc]
  rfl

theorem parseClosed {s : String} (split : trim s.toList = name ++ '<' :: email ++ ['>']) (first : '<' ∉ name) :
    parse s =
      if (trim name).isEmpty then .error .emptyName
      else if (trim email).any fun c => c == '<' || c == '>' then .error .bracketInEmail
      else .ok ⟨String.ofList (trim name), String.ofList (trim email)⟩ := by
  have shorter : name.length ≠ (name ++ '<' :: email ++ ['>']).length := by simp
  have closing : ¬ (name ++ '<' :: email ++ ['>']).getLast? ≠ some '>' :=
    not_not.mpr List.getLast?_concat
  have after : ((name ++ ['<']) ++ email).drop (name.length + 1) = email := List.drop_left' (by simp)
  unfold parse
  simp only [split, closedName first, if_neg shorter, if_neg closing, closedInner, after]

theorem parseAtBytesClosed {s : String} (split : trim s.toList = name ++ '<' :: email ++ ['>']) (first : '<' ∉ name) :
    parseAtBytes s = some (parse s) := by
  have found : Text.byteOf? '<' (name ++ '<' :: email ++ ['>']) = some (Text.byteSize name) := by
    rw [List.append_assoc]
    exact Text.byteOfFirst first
  have closing : ¬ (name ++ '<' :: email ++ ['>']).getLast? ≠ some '>' :=
    not_not.mpr List.getLast?_concat
  have named : Text.splitAtByte? (Text.byteSize name) (name ++ '<' :: email ++ ['>']) =
      some (name, '<' :: email ++ ['>']) := by
    rw [List.append_assoc]
    exact Text.splitAtByteSize name _
  -- Behind the `<`, which takes one byte, the text without its last character still has a place.
  have mailed : Text.splitAtByte? (Text.byteSize name + 1) ((name ++ ['<']) ++ email) = some (name ++ ['<'], email) := by
    rw [show Text.byteSize name + 1 = Text.byteSize (name ++ ['<']) from (Text.byteSizeSnoc name '<').symm]
    exact Text.splitAtByteSize _ email
  rw [parseClosed split first]
  simp only [parseAtBytes, split, found, if_neg closing, named, closedInner, mailed, bind, Option.bind]
  split
  · rfl
  · split <;> rfl

end Closed

theorem parseBare {s : String} (absent : '<' ∉ trim s.toList) : parse s = .error .noEmail := by
  have all : (trim s.toList).takeWhile (· != '<') = trim s.toList :=
    List.takeWhile_eq_self_iff.mpr fun c mem => bne_iff_ne.mpr fun same => absent (same ▸ mem)
  simp [parse, all]

theorem parseUnclosed {s : String} {name rest : List Char} (split : trim s.toList = name ++ '<' :: rest)
    (first : '<' ∉ name) (ending : (trim s.toList).getLast? ≠ some '>') : parse s = .error .unclosedEmail := by
  have shorter : name.length ≠ (trim s.toList).length := by simp [split]
  have taken : (trim s.toList).takeWhile (· != '<') = name := split ▸ nameTaken first
  unfold parse
  simp only [taken, if_neg shorter, if_pos ending]

theorem parseAtBytesSame (s : String) : parseAtBytes s = some (parse s) := by
  rcases form (trim s.toList) with absent | ⟨split, first, ending⟩ | @⟨name, email, split, first⟩
  · simp [parseAtBytes, parseBare absent, Text.byteOfAbsent absent]
  · rw [parseUnclosed split first ending]
    simp only [parseAtBytes, if_pos ending]
    rw [split, Text.byteOfFirst first]
  · exact parseAtBytesClosed split first

structure Spelled (cs name email : List Char) : Prop where
  split : cs = name ++ '<' :: email ++ ['>']
  opening : '<' ∉ name
  visible : ∃ c ∈ name, isBlank c = false
  inside : '<' ∉ email ∧ '>' ∉ email

theorem parseOkIff {s : String} {a : Author} :
    parse s = .ok a ↔ ∃ name email, Spelled (trim s.toList) name email ∧
      a.name.toList = trim name ∧ a.email.toList = trim email := by
  have angles : isBlank '<' = false ∧ isBlank '>' = false := by decide
  constructor
  · intro ok
    rcases form (trim s.toList) with absent | ⟨split, first, ending⟩ | @⟨name, email, split, first⟩
    · simp [parseBare absent] at ok
    · simp [parseUnclosed split first ending] at ok
    · rw [parseClosed split first] at ok
      split at ok
      · cases ok
      · rename_i full
        split at ok
        · cases ok
        · rename_i plain
          cases ok
          have named : ¬ ∀ c ∈ name, isBlank c = true := fun all => full (by simp [Text.trimEmptyIff.mpr all])
          simp only [List.any_eq_true, Bool.or_eq_true, beq_iff_eq, not_exists, not_and, not_or] at plain
          refine ⟨name, email, ⟨split, first, by simpa using named, ?_⟩, by simp, by simp⟩
          exact ⟨fun mem => (plain _ ((Text.trimMem angles.1).mpr mem)).1 rfl,
            fun mem => (plain _ ((Text.trimMem angles.2).mpr mem)).2 rfl⟩
  · rintro ⟨name, email, ⟨split, first, visible, inside⟩, named, mailed⟩
    have full : ¬ (trim name).isEmpty = true := by
      obtain ⟨c, mem, shown⟩ := visible
      have kept := (Text.trimMem shown).mpr mem
      intro empty
      simp [List.isEmpty_iff.mp empty] at kept
    have plain : ¬ ((trim email).any fun c => c == '<' || c == '>') = true := by
      simp only [List.any_eq_true, Bool.or_eq_true, beq_iff_eq, not_exists, not_and, not_or]
      refine fun c mem => ⟨?_, ?_⟩
      · rintro rfl
        exact inside.1 ((Text.trimMem angles.1).mp mem)
      · rintro rfl
        exact inside.2 ((Text.trimMem angles.2).mp mem)
    rw [parseClosed split first, if_neg full, if_neg plain, ← named, ← mailed]
    simp

theorem identChars (a : Author) :
    a.ident.toList = (a.name.toList ++ [' ']) ++ '<' :: a.email.toList ++ ['>'] := by
  simp [ident, toString]

theorem parseIdent {a : Author} (full : a.name ≠ "") (opening : '<' ∉ a.name.toList)
    (name : Stripped a.name.toList a.name.toList) (inside : '<' ∉ a.email.toList ∧ '>' ∉ a.email.toList)
    (email : Stripped a.email.toList a.email.toList) : parse a.ident = .ok a := by
  obtain ⟨c, rest, starts⟩ := List.exists_cons_of_ne_nil fun empty => full (String.toList_eq_nil_iff.mp empty)
  have shown : isBlank c = false := name.first c (by rw [starts]; rfl)
  have whole : trim a.ident.toList = a.ident.toList := by
    refine Text.trimOfStripped ⟨⟨[], [], by simp, by simp, by simp⟩, ?_, ?_⟩
    · intro d head
      rw [identChars, starts] at head
      cases head
      exact shown
    · intro d final
      rw [identChars, List.getLast?_concat] at final
      cases final
      decide
  have spaced : trim (a.name.toList ++ [' ']) = a.name.toList :=
    Text.trimOfStripped ⟨⟨[], [' '], by simp, by simp, List.forall_mem_singleton.mpr (by decide)⟩, name.first, name.last⟩
  refine parseOkIff.mpr ⟨a.name.toList ++ [' '], a.email.toList, ⟨whole.trans (identChars a), ?_, ?_, inside⟩,
    spaced.symm, (Text.trimOfStripped email).symm⟩
  · simp [opening]
  · exact ⟨c, by simp [starts], shown⟩

theorem readsJustSpelled (s : String) :
    parseAtBytes s = some (parse s) ∧
    (∀ a, parse s = .ok a ↔ ∃ core name email, Stripped s.toList core ∧ Spelled core name email ∧
      Stripped name a.name.toList ∧ Stripped email a.email.toList) ∧
    (∀ a, parse s = .ok a → parse a.ident = .ok a) ∧
    ∀ a : Author, a.name ≠ "" → '<' ∉ a.name.toList → Stripped a.name.toList a.name.toList →
      '<' ∉ a.email.toList → '>' ∉ a.email.toList → Stripped a.email.toList a.email.toList →
      parse a.ident = .ok a := by
  refine ⟨parseAtBytesSame s, ?_, ?_, ?_⟩
  · intro a
    constructor
    · intro ok
      obtain ⟨name, email, spelled, named, mailed⟩ := parseOkIff.mp ok
      exact ⟨_, name, email, Text.trimStripped _, spelled, named ▸ Text.trimStripped name,
        mailed ▸ Text.trimStripped email⟩
    · rintro ⟨core, name, email, stripped, spelled, named, mailed⟩
      rw [← Text.trimOfStripped stripped] at spelled
      exact parseOkIff.mpr ⟨name, email, spelled, (Text.trimOfStripped named).symm, (Text.trimOfStripped mailed).symm⟩
  · intro a ok
    obtain ⟨name, email, spelled, named, mailed⟩ := parseOkIff.mp ok
    have angles : isBlank '<' = false ∧ isBlank '>' = false := by decide
    obtain ⟨c, mem, shown⟩ := spelled.visible
    refine parseIdent ?_ ?_ (named ▸ Text.trimAgain name) ?_ (mailed ▸ Text.trimAgain email)
    · intro empty
      have kept := (Text.trimMem shown).mpr mem
      simp [← named, empty] at kept
    · rw [named, Text.trimMem angles.1]
      exact spelled.opening
    · rw [mailed, Text.trimMem angles.1, Text.trimMem angles.2]
      exact spelled.inside
  · exact fun a full opening name left right email => parseIdent full opening name ⟨left, right⟩ email

theorem wideBlanksRead :
    let s := "\u00a0\u3000a > b\u2003< c >\u0085"
    let a : Author := ⟨"a > b", "c"⟩
    let silent : Author := ⟨"a > b", ""⟩
    parseAtBytes s = some (.ok a) ∧ parse a.ident = .ok a ∧ parse silent.ident = .ok silent := by
  intro s a silent
  have read : parse s = .ok a := by decide
  have trimmed : trim silent.name.toList = silent.name.toList := by decide
  have name : Stripped silent.name.toList silent.name.toList := trimmed ▸ Text.trimAgain silent.name.toList
  have email : Stripped silent.email.toList silent.email.toList := Text.trimAgain []
  obtain ⟨same, _, again, ident⟩ := readsJustSpelled s
  exact ⟨same.trans (congrArg some read), again a read,
    ident silent (by decide) (by decide) name (by decide) (by decide) email⟩

end Author
end KeepBlame
