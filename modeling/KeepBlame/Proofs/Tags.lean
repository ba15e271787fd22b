import KeepBlame.Markup.Event

/-! Tags read back. A tag is cut at the `>` that closes it, its name is what stands before the first space, and its
attributes are found by their keys with the values that were written. -/
namespace KeepBlame.Markup

inductive Balanced : List Char → Prop where
  | nil : Balanced []
  | plain {c : Char} {rest : List Char} (other : c ≠ '>' ∧ c ≠ '"' ∧ c ≠ '\'') (next : Balanced rest) : Balanced (c :: rest)
  | quoted {quote : Char} {value rest : List Char} (mark : quote = '"' ∨ quote = '\'') (inside : quote ∉ value)
      (next : Balanced rest) : Balanced (quote :: (value ++ quote :: rest))

theorem balancedPlain {text rest : List Char} (other : ∀ c ∈ text, c ≠ '>' ∧ c ≠ '"' ∧ c ≠ '\'') (next : Balanced rest) :
    Balanced (text ++ rest) := by
  induction text with
  | nil => exact next
  | cons c text ih =>
    exact .plain (other c List.mem_cons_self) (ih fun d mem => other d (List.mem_cons_of_mem c mem))

theorem cutTagInside {quote : Char} {value more before after : List Char} (inside : quote ∉ value)
    (cut : cutTag none more = .ok (before, after)) :
    cutTag (some quote) (value ++ quote :: more) = .ok (value ++ quote :: before, after) := by
  induction value with
  | nil => simp [cutTag, quoteAfter, cut]
  | cons c rest ih =>
    simp only [List.mem_cons, not_or] at inside
    obtain ⟨other, later⟩ := inside
    simp [cutTag, quoteAfter, Ne.symm other, ih later]

theorem cutTagBalanced {text : List Char} (balanced : Balanced text) (rest : List Char) :
    cutTag none (text ++ '>' :: rest) = .ok (text, rest) := by
  induction balanced with
  | nil => rw [List.nil_append, cutTag]
  | @plain c text other next ih =>
    have outside : quoteAfter c none = none := by simp [quoteAfter, other]
    rw [List.cons_append, cutTag, outside, ih]
    simp [other]
  | @quoted quote value text mark inside next ih =>
    have within : quoteAfter quote none = some quote := by simp [quoteAfter, mark]
    have other : quote ≠ '>' := by
      rcases mark with rfl | rfl <;> decide
    have split : quote :: (value ++ quote :: text) ++ '>' :: rest =
        quote :: (value ++ quote :: (text ++ '>' :: rest)) := by
      simp
    rw [split, cutTag, within, cutTagInside inside ih]
    simp [other]

section Step
variable {opened : List (List Char)} {text rest : List Char} {c : Char}

theorem readStepTag (first : c ≠ '!' ∧ c ≠ '/' ∧ c ≠ '?') :
    readStep opened '<' (c :: text) = readTag opened (c :: text) := by
  simp [readStep, first]

theorem readTagOpening (balanced : Balanced text) (full : text.getLast? ≠ some '/') :
    readTag opened (text ++ '>' :: rest) = .ok (some (.opening ⟨text⟩), (Tag.mk text).name :: opened, rest) := by
  simp [readTag, cutTagBalanced balanced, full]

theorem readTagEmpty (balanced : Balanced (text ++ ['/'])) :
    readTag opened (text ++ '/' :: '>' :: rest) = .ok (some (.empty ⟨text⟩), opened, rest) := by
  have cut := cutTagBalanced balanced rest
  rw [List.append_assoc, List.singleton_append] at cut
  simp [readTag, cut]

theorem cutAtEnd {name : List Char} (plain : '>' ∉ name) : Text.cutAt ['>'] (name ++ '>' :: rest) = some (name, rest) := by
  induction name with
  | nil => simp [Text.cutAt]
  | cons d name ih =>
    simp only [List.mem_cons, not_or] at plain
    simp [Text.cutAt, plain.1, ih plain.2]

theorem readStepEnd {name : List Char} (plain : '>' ∉ name) (ended : endName name = name) :
    readStep (name :: opened) '<' ('/' :: (name ++ '>' :: rest)) = .ok (some (.closing name), opened, rest) := by
  simp [readStep, readEnd, cutAtEnd plain, ended]

theorem cutAtInstruction {body : List Char} (plain : '?' ∉ body) :
    Text.cutAt ['?', '>'] (body ++ '?' :: '>' :: rest) = some (body, rest) := by
  induction body with
  | nil => simp [Text.cutAt]
  | cons d body ih =>
    simp only [List.mem_cons, not_or] at plain
    simp [Text.cutAt, plain.1, ih plain.2]

theorem readStepInstruction {body : List Char} (first : c ≠ '>') (plain : '?' ∉ c :: body) :
    readStep opened '<' ('?' :: c :: (body ++ '?' :: '>' :: rest)) = .ok (none, opened, rest) := by
  have inner : Text.cutAt ['?', '>'] (c :: (body ++ '?' :: '>' :: rest)) = some (c :: body, rest) := cutAtInstruction plain
  have cut : Text.cutAt ['?', '>'] ('?' :: c :: (body ++ '?' :: '>' :: rest)) = some ('?' :: c :: body, rest) := by
    rw [Text.cutAt, inner]
    simp [Ne.symm first]
  simp [readStep, readInstruction, cut]

end Step

def attributeText (a : List Char × List Char) : List Char := ' ' :: (a.1 ++ '=' :: '\'' :: (a.2 ++ ['\'']))

def isNameChar (c : Char) : Bool := !isSpace c && c != '>' && c != '"' && c != '\'' && c != '='

theorem nameChar {c : Char} (is : isNameChar c = true) :
    isSpace c = false ∧ (c ≠ '>' ∧ c ≠ '"' ∧ c ≠ '\'') ∧ c ≠ '=' := by
  simpa [isNameChar, and_assoc] using is

theorem nameChars {name : List Char} (inside : name.all isNameChar = true) {c : Char} (mem : c ∈ name) :
    isSpace c = false ∧ (c ≠ '>' ∧ c ≠ '"' ∧ c ≠ '\'') ∧ c ≠ '=' :=
  nameChar (List.all_eq_true.mp inside c mem)

structure Plain (a : List Char × List Char) : Prop where
  named : a.1 ≠ []
  key : a.1.all isNameChar = true
  value : '\'' ∉ a.2

theorem attributesBalanced {attrs : List (List Char × List Char)} (plain : ∀ a ∈ attrs, Plain a) {rest : List Char}
    (next : Balanced rest) : Balanced (attrs.flatMap attributeText ++ rest) := by
  induction attrs with
  | nil => exact next
  | cons a attrs ih =>
    have here := plain a List.mem_cons_self
    have quoted := Balanced.quoted (.inr rfl) here.value (ih fun b mem => plain b (List.mem_cons_of_mem a mem))
    have equals : Balanced ('=' :: '\'' :: (a.2 ++ '\'' :: (attrs.flatMap attributeText ++ rest))) :=
      .plain (by decide) quoted
    have keyed := balancedPlain (fun c mem => (nameChars here.key mem).2.1) equals
    have spaced : Balanced (' ' :: (a.1 ++ '=' :: '\'' :: (a.2 ++ '\'' :: (attrs.flatMap attributeText ++ rest)))) :=
      .plain (by decide) keyed
    simpa [attributeText] using spaced

theorem readKeyWritten {key : List Char} (named : key ≠ []) (plain : ∀ c ∈ key, c ≠ '=' ∧ isSpace c = false)
    (total : Nat) (rest : List Char) : readKey total (key ++ '=' :: rest) = .ok (key, rest) := by
  cases key with
  | nil => exact absurd rfl named
  | cons k ks =>
    have inside : ∀ c ∈ ks, (c != '=' && !isSpace c) = true := by
      intro c mem
      simp [plain c (List.mem_cons_of_mem k mem)]
    have outside : ('=' != '=' && !isSpace '=') = false := by decide
    simp only [readKey, List.cons_append, List.take_succ_cons, List.take_zero, List.drop_succ_cons, List.drop_zero,
      List.takeWhile_append_of_pos inside, List.dropWhile_append_of_pos inside, List.takeWhile_cons, List.dropWhile_cons,
      outside, Bool.false_eq_true, if_false, List.append_nil]
    rw [if_neg (by decide)]
    simp

theorem readValueWritten {value : List Char} (plain : '\'' ∉ value) (total : Nat) (rest : List Char) :
    readValue total ('\'' :: (value ++ '\'' :: rest)) = .ok (value, rest) := by
  have inside : ∀ c ∈ value, (c != '\'') = true := by
    intro c mem
    exact bne_iff_ne.mpr fun same => plain (same ▸ mem)
  have quote : isSpace '\'' = false := by decide
  simp [readValue, quote, List.takeWhile_append_of_pos inside, List.dropWhile_append_of_pos inside]

theorem readAttributeWritten {a : List Char × List Char} (plain : Plain a) {seen : List Attribute}
    (fresh : a.1 ∉ seen.map Attribute.key) (total : Nat) (rest : List Char) :
    ∃ place, readAttribute total seen (attributeText a ++ rest) = .ok (some (⟨place, a.1, a.2⟩, rest)) := by
  have absent : seen.find? (·.key == a.1) = none := by
    simpa using fresh
  have written : (attributeText a ++ rest).dropWhile isSpace = a.1 ++ '=' :: '\'' :: (a.2 ++ '\'' :: rest) := by
    have spaced : attributeText a ++ rest = ' ' :: (a.1 ++ '=' :: '\'' :: (a.2 ++ '\'' :: rest)) := by simp [attributeText]
    rw [spaced, List.dropWhile_cons_of_pos (by decide)]
    cases key : a.1 with
    | nil => exact absurd key plain.named
    | cons k ks =>
      have first := (nameChars plain.key (key ▸ List.mem_cons_self : k ∈ a.1)).1
      simp [first]
  have keyed := readKeyWritten plain.named (fun c mem => ⟨(nameChars plain.key mem).2.2, (nameChars plain.key mem).1⟩) total
    ('\'' :: (a.2 ++ '\'' :: rest))
  unfold readAttribute
  split
  · rename_i empty
    simp [written] at empty
  · rename_i c cs text
    rw [← text, written, keyed]
    simp only [bind, Except.bind, absent, readValueWritten plain.value]
    exact ⟨_, rfl⟩

theorem readAttributesWritten {attrs : List (List Char × List Char)} (plain : ∀ a ∈ attrs, Plain a)
    {seen : List Attribute} (distinct : (seen.map Attribute.key ++ attrs.map Prod.fst).Nodup) (total : Nat) :
    ∃ found, readAttributes total seen (attrs.flatMap attributeText) = (seen ++ found, none) ∧
      found.map (fun a => (a.key, a.value)) = attrs := by
  induction attrs generalizing seen with
  | nil =>
    refine ⟨[], ?_, rfl⟩
    rw [List.flatMap_nil, readAttributes]
    simp [readAttribute]
  | cons a rest ih =>
    have fresh : a.1 ∉ seen.map Attribute.key := fun mem =>
      (List.nodup_append.mp distinct).2.2 a.1 mem a.1 List.mem_cons_self rfl
    obtain ⟨place, read⟩ := readAttributeWritten (plain a List.mem_cons_self) fresh total (rest.flatMap attributeText)
    have later : ((seen ++ [Attribute.mk place a.1 a.2]).map Attribute.key ++ rest.map Prod.fst).Nodup := by
      simpa using distinct
    obtain ⟨found, all, same⟩ := ih (fun b mem => plain b (List.mem_cons_of_mem a mem)) later
    refine ⟨⟨place, a.1, a.2⟩ :: found, ?_, by simp [same]⟩
    rw [List.flatMap_cons, readAttributes]
    split
    · rename_i failed
      rw [read] at failed
      cases failed
    · rename_i failed
      rw [read] at failed
      cases failed
    · rename_i b tail went
      rw [read] at went
      cases went
      rw [all, List.append_assoc, List.singleton_append]

def tagText (name : List Char) (attrs : List (List Char × List Char)) : List Char := name ++ attrs.flatMap attributeText

structure PlainName (name : List Char) : Prop where
  first : ∃ c more, name = c :: more ∧ c ≠ '!' ∧ c ≠ '/' ∧ c ≠ '?'
  inside : name.all isNameChar = true

section Tag
variable {name : List Char} {attrs : List (List Char × List Char)} (named : PlainName name)
include named

theorem tagNameWritten : (Tag.mk (tagText name attrs)).name = name := by
  have inside : ∀ c ∈ name, (!isSpace c) = true := by
    intro c mem
    simp [(nameChars named.inside mem).1]
  have space : isSpace ' ' = true := by decide
  rw [Tag.name, tagText, List.takeWhile_append_of_pos inside]
  cases attrs <;> simp [attributeText, space]

theorem tagAttributesWritten (plain : ∀ a ∈ attrs, Plain a) (distinct : (attrs.map Prod.fst).Nodup) :
    ∃ list, (Tag.mk (tagText name attrs)).attributes = (list, none) ∧ list.map (fun a => (a.key, a.value)) = attrs := by
  have inside : ∀ c ∈ name, (!isSpace c) = true := by
    intro c mem
    simp [(nameChars named.inside mem).1]
  have space : isSpace ' ' = true := by decide
  have rest : (tagText name attrs).dropWhile (!isSpace ·) = attrs.flatMap attributeText := by
    rw [tagText, List.dropWhile_append_of_pos inside]
    cases attrs <;> simp [attributeText, space]
  obtain ⟨list, all, same⟩ := @readAttributesWritten attrs plain [] distinct (width (tagText name attrs))
  refine ⟨list, ?_, same⟩
  rw [Tag.attributes, rest, all, List.nil_append]

theorem tagFindWritten (plain : ∀ a ∈ attrs, Plain a) (distinct : (attrs.map Prod.fst).Nodup) (key : List Char) :
    ∃ found, (Tag.mk (tagText name attrs)).find? key = .ok found ∧ found.map Attribute.value = attrs.lookup key := by
  obtain ⟨list, whole, same⟩ := tagAttributesWritten named plain distinct
  refine ⟨list.find? (·.key == key), ?_, ?_⟩
  · simp only [Tag.find?, whole]
    cases list.find? (·.key == key) <;> rfl
  · rw [← same]
    clear same whole
    induction list with
    | nil => rfl
    | cons a list ih =>
      simp only [List.find?_cons, List.map_cons, List.lookup_cons, BEq.comm (a := key)]
      cases a.key == key <;> simp [ih]

theorem tagBalanced (plain : ∀ a ∈ attrs, Plain a) {rest : List Char} (next : Balanced rest) :
    Balanced (tagText name attrs ++ rest) := by
  rw [tagText, List.append_assoc]
  exact balancedPlain (fun c mem => (nameChars named.inside mem).2.1) (attributesBalanced plain next)

variable {opened : List (List Char)} {rest : List Char} (plain : ∀ a ∈ attrs, Plain a)
include plain

theorem readStepOpening (full : attrs ≠ []) : readStep opened '<' (tagText name attrs ++ '>' :: rest) =
    .ok (some (.opening ⟨tagText name attrs⟩), name :: opened, rest) := by
  have balanced : Balanced (tagText name attrs) := by
    simpa using tagBalanced named plain .nil
  have quote : (tagText name attrs).getLast? = some '\'' := by
    have last (a : List Char × List Char) : attributeText a = ' ' :: (a.1 ++ '=' :: '\'' :: a.2) ++ ['\''] := by
      simp [attributeText]
    rw [tagText, ← List.dropLast_concat_getLast full, List.flatMap_append, List.flatMap_singleton, last,
      ← List.append_assoc, ← List.append_assoc, List.getLast?_concat]
  have read : readTag opened (tagText name attrs ++ '>' :: rest) =
      .ok (some (.opening ⟨tagText name attrs⟩), name :: opened, rest) := by
    rw [readTagOpening balanced (by rw [quote]; decide), tagNameWritten named]
  obtain ⟨c, more, rfl, other⟩ := named.first
  rw [← read]
  exact readStepTag other

theorem readStepEmpty : readStep opened '<' (tagText name attrs ++ '/' :: '>' :: rest) =
    .ok (some (.empty ⟨tagText name attrs⟩), opened, rest) := by
  have balanced : Balanced (tagText name attrs ++ ['/']) := tagBalanced named plain (.plain (by decide) .nil)
  have read : readTag opened (tagText name attrs ++ '/' :: '>' :: rest) =
      .ok (some (.empty ⟨tagText name attrs⟩), opened, rest) := readTagEmpty balanced
  obtain ⟨c, more, rfl, other⟩ := named.first
  rw [← read]
  exact readStepTag other

end Tag
end KeepBlame.Markup
