import KeepBlame.Basics
import KeepBlame.Proofs.Documents

/-! Start tags and their end tags. The events of a text are nested: each end tag closes the tag opened last. A reader of
replacements holds one open edit at a time, so a tag inside another puts an end to the edit of the outer one, and the
document is read to its end although that tag is never closed. -/
namespace KeepBlame.Markup

namespace Event

def isLeaf : Event → Bool
  | opening _ | closing _ => false
  | _ => true

def opens (name : List Char) : Event → Bool
  | opening tag => tag.name == name
  | _ => false

def closes (name : List Char) : Event → Bool
  | closing closed => closed == name
  | _ => false

def isWhole (name : List Char) : Event → Bool
  | empty tag => tag.name == name
  | _ => false

end Event

/-- The events that lead from the first tags left open to the last ones; an end tag closes the tag opened last. -/
inductive Nesting : List (List Char) → List Event → List (List Char) → Prop where
  | nil {opened} : Nesting opened [] opened
  | leaf {opened event rest left} (plain : event.isLeaf = true) (next : Nesting opened rest left) :
      Nesting opened (event :: rest) left
  | opening {opened tag rest left} (next : Nesting (tag.name :: opened) rest left) :
      Nesting opened (.opening tag :: rest) left
  | closing {opened name rest left} (next : Nesting opened rest left) : Nesting (name :: opened) (.closing name :: rest) left

theorem nestingAppend {opened left : List (List Char)} {xs ys : List Event} :
    Nesting opened (xs ++ ys) left ↔ ∃ middle, Nesting opened xs middle ∧ Nesting middle ys left := by
  constructor
  · intro nest
    induction xs generalizing opened with
    | nil => exact ⟨opened, .nil, nest⟩
    | cons x xs ih =>
      cases nest with
      | leaf plain next =>
        obtain ⟨middle, before, after⟩ := ih next
        exact ⟨middle, .leaf plain before, after⟩
      | opening next =>
        obtain ⟨middle, before, after⟩ := ih next
        exact ⟨middle, .opening before, after⟩
      | closing next =>
        obtain ⟨middle, before, after⟩ := ih next
        exact ⟨middle, .closing before, after⟩
  · rintro ⟨middle, before, after⟩
    induction before with
    | nil => exact after
    | leaf plain _ ih => exact .leaf plain (ih after)
    | opening _ ih => exact .opening (ih after)
    | closing _ ih => exact .closing (ih after)

theorem nestingUnique {opened left left' : List (List Char)} {events : List Event} (nest : Nesting opened events left)
    (other : Nesting opened events left') : left = left' := by
  induction nest with
  | nil =>
    cases other
    rfl
  | leaf plain _ ih =>
    cases other with
    | leaf _ next => exact ih next
    | opening => cases plain
    | closing => cases plain
  | opening _ ih =>
    cases other with
    | leaf plain => cases plain
    | opening next => exact ih next
  | closing _ ih =>
    cases other with
    | leaf plain => cases plain
    | closing next => exact ih next

section Step
variable {opened o : List (List Char)} {cs r : List Char} {event : Option Event}

theorem declarationNested (read : readDeclaration opened cs = .ok (event, o, r)) : Nesting opened event.toList o := by
  unfold readDeclaration at read
  repeat' split at read
  all_goals cases read
  all_goals exact .nil

theorem instructionNested (read : readInstruction opened cs = .ok (event, o, r)) : Nesting opened event.toList o := by
  unfold readInstruction at read
  repeat' split at read
  all_goals cases read
  exact .nil

theorem endNested (read : readEnd opened cs = .ok (event, o, r)) : Nesting opened event.toList o := by
  unfold readEnd at read
  repeat' split at read
  all_goals cases read
  exact .closing .nil

theorem tagNested (read : readTag opened cs = .ok (event, o, r)) : Nesting opened event.toList o := by
  unfold readTag at read
  repeat' split at read
  all_goals cases read
  · exact .leaf rfl .nil
  · exact .opening .nil

theorem referenceNested (read : readReference opened cs = .ok (event, o, r)) : Nesting opened event.toList o := by
  simp only [readReference] at read
  split at read
  · cases read
    exact .leaf rfl .nil
  · cases read

theorem stepNested {c : Char} (read : readStep opened c cs = .ok (event, o, r)) : Nesting opened event.toList o := by
  unfold readStep at read
  split at read
  · split at read
    · exact declarationNested read
    · exact endNested read
    · exact instructionNested read
    · exact tagNested read
  · split at read
    · exact referenceNested read
    · cases read
      exact .leaf rfl .nil

end Step

theorem eventsNest (opened : List (List Char)) (cs : List Char) : ∃ left, Nesting opened (readEvents opened cs).1 left := by
  fun_induction readEvents opened cs with
  | case1 opened => exact ⟨opened, .nil⟩
  | case2 opened => exact ⟨opened, .nil⟩
  | case3 opened c rest event o r read events mistake found ih =>
    rw [found] at ih
    obtain ⟨left, nest⟩ := ih
    exact ⟨left, nestingAppend.mpr ⟨o, stepNested read, nest⟩⟩

def HasEnd (tag : Tag) (after : List Event) : Prop :=
  ∃ inner rest, after = inner ++ .closing tag.name :: rest ∧ Nesting [] inner []

theorem nestingBelow {top opened left : List (List Char)} {events : List Event} (nest : Nesting (top ++ opened) events left) :
    (∃ new, left = new ++ opened ∧ Nesting top events new) ∨
      ∃ name under inner rest, opened = name :: under ∧ events = inner ++ .closing name :: rest ∧ Nesting top inner [] := by
  generalize all : top ++ opened = stack at nest
  induction nest generalizing top with
  | nil => exact .inl ⟨top, all.symm, .nil⟩
  | @leaf _ event _ _ plain _ ih =>
    rcases ih all with ⟨new, is, inside⟩ | ⟨name, under, inner, rest, below, split, inside⟩
    · exact .inl ⟨new, is, .leaf plain inside⟩
    · exact .inr ⟨name, under, event :: inner, rest, below, by rw [split]; rfl, .leaf plain inside⟩
  | @opening _ tag _ _ _ ih =>
    have longer := @ih (tag.name :: top) (by rw [← all]; rfl)
    rcases longer with ⟨new, is, inside⟩ | ⟨name, under, inner, rest, below, split, inside⟩
    · exact .inl ⟨new, is, .opening inside⟩
    · exact .inr ⟨name, under, .opening tag :: inner, rest, below, by rw [split]; rfl, .opening inside⟩
  | @closing _ name rest _ _ ih =>
    cases top with
    | nil => exact .inr ⟨name, _, [], rest, all, rfl, .nil⟩
    | cons _ top =>
      cases all
      rcases @ih top rfl with ⟨new, is, inside⟩ | ⟨other, under, inner, rest, below, split, inside⟩
      · exact .inl ⟨new, is, .closing inside⟩
      · exact .inr ⟨other, under, .closing name :: inner, rest, below, by rw [split]; rfl, .closing inside⟩

theorem nestingOrigin {opened new under : List (List Char)} {name : List Char} {events : List Event}
    (nest : Nesting opened events (new ++ name :: under)) :
    (∃ top, opened = top ++ name :: under ∧ Nesting top events new) ∨
      ∃ before tag after, events = before ++ .opening tag :: after ∧ tag.name = name ∧ Nesting opened before under ∧
        Nesting [] after new := by
  generalize all : new ++ name :: under = left at nest
  induction nest with
  | nil => exact .inl ⟨new, all.symm, .nil⟩
  | @leaf _ event _ _ plain _ ih =>
    rcases ih all with ⟨top, is, inside⟩ | ⟨before, tag, after, split, named, start, inside⟩
    · exact .inl ⟨top, is, .leaf plain inside⟩
    · exact .inr ⟨event :: before, tag, after, by rw [split]; rfl, named, .leaf plain start, inside⟩
  | @opening _ tag rest _ _ ih =>
    rcases ih all with ⟨top, is, inside⟩ | ⟨before, other, after, split, named, start, inside⟩
    · cases top with
      | nil =>
        cases is
        exact .inr ⟨[], tag, rest, rfl, rfl, .nil, inside⟩
      | cons _ top =>
        cases is
        exact .inl ⟨top, rfl, .opening inside⟩
    · exact .inr ⟨.opening tag :: before, other, after, by rw [split]; rfl, named, .opening start, inside⟩
  | @closing _ closed _ _ _ ih =>
    rcases ih all with ⟨top, is, inside⟩ | ⟨before, tag, after, split, named, start, inside⟩
    · exact .inl ⟨closed :: top, by rw [is]; rfl, .closing inside⟩
    · exact .inr ⟨.closing closed :: before, tag, after, by rw [split]; rfl, named, .closing start, inside⟩

def Unclosed (name : List Char) (events : List Event) : Prop :=
  ∃ before tag after, events = before ++ .opening tag :: after ∧ tag.name = name ∧ ¬ HasEnd tag after

theorem unclosedIff {events : List Event} {left : List (List Char)} (nest : Nesting [] events left) (name : List Char) :
    Unclosed name events ↔ name ∈ left := by
  constructor
  · rintro ⟨before, tag, after, rfl, rfl, unended⟩
    obtain ⟨under, _, rest⟩ := nestingAppend.mp nest
    cases rest with
    | leaf plain => cases plain
    | opening next =>
      rcases @nestingBelow [] (tag.name :: under) _ _ next with ⟨new, rfl, _⟩ | ⟨other, _, inner, more, same, split, inside⟩
      · exact List.mem_append_right _ List.mem_cons_self
      · cases same
        exact absurd ⟨inner, more, split, inside⟩ unended
  · intro mem
    obtain ⟨new, under, rfl⟩ := List.append_of_mem mem
    rcases nestingOrigin nest with ⟨top, is, _⟩ | ⟨before, tag, after, split, named, _, inside⟩
    · simp at is
    · refine ⟨before, tag, after, split, named, ?_⟩
      rintro ⟨inner, rest, rfl, whole⟩
      obtain ⟨middle, first, second⟩ := nestingAppend.mp inside
      cases nestingUnique whole first
      cases second with
      | leaf plain => cases plain

theorem nestingCount {opened left : List (List Char)} {events : List Event} (nest : Nesting opened events left)
    (name : List Char) :
    left.count name + events.countP (Event.closes name) = opened.count name + events.countP (Event.opens name) := by
  induction nest with
  | nil => rfl
  | @leaf _ event _ _ plain _ ih =>
    cases event with
    | opening => cases plain
    | closing => cases plain
    | _ => simpa [List.countP_cons, Event.closes, Event.opens] using ih
  | @opening _ tag _ _ _ ih =>
    by_cases same : tag.name = name
    · simp [Event.closes, Event.opens, same] at ih ⊢
      omega
    · simpa [Event.closes, Event.opens, same] using ih
  | @closing _ closed _ _ _ ih =>
    by_cases same : closed = name
    · simp [Event.closes, Event.opens, same] at ih ⊢
      omega
    · simpa [Event.closes, Event.opens, same] using ih

end KeepBlame.Markup

namespace KeepBlame.Replacements
open Markup (Event Nesting HasEnd Unclosed eventsNest nestingAppend nestingUnique nestingCount unclosedIff)

def element : List Char := "replacement".toList

def Progress.held (p : Progress) : Nat := p.current.toList.length

structure Stepped (p q : Progress) (event : Event) : Prop where
  made : q.edits.length =
    p.edits.length + (if event.closes element then 1 else 0) + (if event.isWhole element then 1 else 0)
  opened : event.opens element = true → q.held = 1
  closed : event.closes element = true → p.held = 1 ∧ q.held = 0
  other : event.opens element = false → event.closes element = false → q.held = p.held

theorem heldExtend (p : Progress) (cs : List Char) : (p.extend cs).held = p.held := by
  obtain ⟨edits, current⟩ := p
  cases current <;> rfl

theorem passedBy {p q : Progress} {tag : Markup.Tag} (ok : (if tag.name = "replacements".toList then do
    let _ ← valueOf? tag "incomplete_format"
    .ok p
  else .ok p) = Except.ok q) : p = q := by
  split at ok
  · obtain ⟨_, _, went⟩ := bindOk ok
    exact Except.ok.inj went
  · exact Except.ok.inj ok

theorem steppedBetween {p q : Progress} {event : Event} (opens : event.opens element = false)
    (closes : event.closes element = false)
    (made : q.edits.length = p.edits.length + if event.isWhole element then 1 else 0) (held : q.held = p.held) :
    Stepped p q event where
  made := by
    rw [made, closes]
    rfl
  opened is := by cases opens.symm.trans is
  closed is := by cases closes.symm.trans is
  other _ _ := held

theorem stepStepped {p q : Progress} {event : Event} (ok : step p event = .ok q) : Stepped p q event := by
  cases event with
  | opening tag =>
    simp only [step] at ok
    split at ok
    · rename_i named
      obtain ⟨e, _, went⟩ := bindOk ok
      cases went
      have is : (tag.name == element) = true := beq_iff_eq.mpr named
      exact {
        made := rfl
        opened := fun _ => rfl
        closed := fun closes => by cases closes
        other := fun opens _ => by cases is.symm.trans opens }
    · rename_i named
      cases passedBy ok
      exact steppedBetween (beq_false_of_ne named) rfl rfl rfl
  | empty tag =>
    simp only [step] at ok
    split at ok
    · rename_i named
      obtain ⟨e, _, went⟩ := bindOk ok
      cases went
      have is : (tag.name == element) = true := beq_iff_eq.mpr named
      exact steppedBetween rfl rfl (by simp [Event.isWhole, is]) rfl
    · rename_i named
      cases passedBy ok
      have other : (tag.name == element) = false := beq_false_of_ne named
      exact steppedBetween rfl rfl (by simp [Event.isWhole, other]) rfl
  | closing name =>
    simp only [step] at ok
    split at ok
    · rename_i named
      have is : (name == element) = true := beq_iff_eq.mpr named
      split at ok
      · cases ok
      · rename_i e current
        cases ok
        exact {
          made := by simp [Event.closes, Event.isWhole, is]
          opened := fun opens => by cases opens
          closed := fun _ => ⟨by simp [Progress.held, current], rfl⟩
          other := fun _ closes => by cases is.symm.trans closes }
    · rename_i named
      cases ok
      exact steppedBetween rfl (beq_false_of_ne named) rfl rfl
  | text cs =>
    cases ok
    exact steppedBetween rfl rfl rfl (heldExtend p cs)
  | reference name =>
    simp only [step] at ok
    split at ok
    · cases ok
      exact steppedBetween rfl rfl rfl rfl
    · split at ok
      · cases ok
        exact steppedBetween rfl rfl rfl (heldExtend p _)
      · cases ok

inductive Moved (opened middle : List (List Char)) (p q : Progress) : Event → Prop where
  | opened {tag} (named : tag.name = element) (tags : middle = element :: opened) (held : q.held = 1) :
      Moved opened middle p q (.opening tag)
  | closed {event} (tags : opened = element :: middle) (held : p.held = 1) (released : q.held = 0) :
      Moved opened middle p q event
  | other {event} (tags : middle.count element = opened.count element) (held : q.held = p.held) :
      Moved opened middle p q event

theorem steppedMoved {opened middle : List (List Char)} {p q : Progress} {event : Event}
    (nest : Nesting opened [event] middle) (stepped : Stepped p q event) : Moved opened middle p q event := by
  cases nest with
  | leaf plain next =>
    cases next
    refine .other rfl ?_
    cases event with
    | opening => cases plain
    | closing => cases plain
    | _ => exact stepped.other rfl rfl
  | @opening _ tag _ _ next =>
    cases next
    by_cases named : tag.name = element
    · exact .opened named (by rw [named]) (stepped.opened (beq_iff_eq.mpr named))
    · exact .other (List.count_cons_of_ne named) (stepped.other (beq_false_of_ne named) rfl)
  | @closing under name _ _ next =>
    cases next
    by_cases named : name = element
    · obtain ⟨held, released⟩ := stepped.closed (beq_iff_eq.mpr named)
      exact .closed (by rw [named]) held released
    · exact .other (List.count_cons_of_ne named).symm (stepped.other rfl (beq_false_of_ne named))

section Run
variable {p q : Progress} {events : List Event}

theorem runCons {event : Event} (ok : (event :: events).foldlM step p = .ok q) :
    ∃ next, Stepped p next event ∧ events.foldlM step next = .ok q := by
  rw [List.foldlM_cons] at ok
  obtain ⟨next, went, later⟩ := bindOk ok
  exact ⟨next, stepStepped went, later⟩

theorem runMade (ok : events.foldlM step p = .ok q) : q.edits.length =
    p.edits.length + (events.countP (Event.closes element) + events.countP (Event.isWhole element)) := by
  induction events generalizing p with
  | nil =>
    cases Except.ok.inj ok
    rfl
  | cons event rest ih =>
    obtain ⟨next, stepped, later⟩ := runCons ok
    have made := stepped.made
    have all := ih later
    simp only [List.countP_cons]
    omega

variable {opened left : List (List Char)}

theorem runMoved {event : Event} (nest : Nesting opened (event :: events) left)
    (ok : (event :: events).foldlM step p = .ok q) :
    ∃ middle next, Nesting opened [event] middle ∧ Nesting middle events left ∧ Moved opened middle p next event ∧
      events.foldlM step next = .ok q := by
  obtain ⟨next, stepped, later⟩ := runCons ok
  obtain ⟨middle, one, rest⟩ := @nestingAppend opened left [event] events |>.mp nest
  exact ⟨middle, next, one, rest, steppedMoved one stepped, later⟩

theorem runLost (nest : Nesting opened events left) (ok : events.foldlM step p = .ok q) :
    opened.count element + q.held ≤ left.count element + p.held := by
  induction events generalizing p opened with
  | nil =>
    cases Except.ok.inj ok
    cases nest
    exact Nat.le_refl _
  | cons event rest ih =>
    obtain ⟨middle, next, _, nest, moved, later⟩ := runMoved nest ok
    have all := ih nest later
    cases moved with
    | opened _ tags held =>
      rw [tags, List.count_cons_self] at all
      omega
    | closed tags held released =>
      rw [tags, List.count_cons_self]
      omega
    | other tags held => omega

def Apart (opened : List (List Char)) (events : List Event) : Prop :=
  ∀ before tag after under, events = before ++ .opening tag :: after → tag.name = element → Nesting opened before under →
    element ∉ under

theorem runApart (apart : Apart opened events) (start : opened.count element = p.held)
    (nest : Nesting opened events left) (ok : events.foldlM step p = .ok q) : left.count element = q.held := by
  induction events generalizing p opened with
  | nil =>
    cases Except.ok.inj ok
    cases nest
    exact start
  | cons event rest ih =>
    obtain ⟨middle, next, one, nest, moved, later⟩ := runMoved nest ok
    have apart' : Apart middle rest := by
      intro before tag after under split named early
      refine apart (event :: before) tag after under (by rw [split]; rfl) named ?_
      exact (@nestingAppend opened under [event] before).mpr ⟨middle, one, early⟩
    refine ih apart' ?_ nest later
    cases moved with
    | opened named tags held =>
      have none := List.count_eq_zero.mpr (apart [] _ rest opened rfl named .nil)
      rw [tags, List.count_cons_self]
      omega
    | closed tags held released =>
      rw [tags, List.count_cons_self] at start
      omega
    | other tags held => omega

theorem apartOfKept (nest : Nesting opened events left) (ok : events.foldlM step p = .ok q)
    (kept : left.count element ≤ q.held) : Apart opened events := by
  rintro before tag after under rfl named early
  rw [List.foldlM_append] at ok
  obtain ⟨middle, _, later⟩ := bindOk ok
  obtain ⟨under', early', rest⟩ := nestingAppend.mp nest
  cases nestingUnique early early'
  obtain ⟨next, stepped, later⟩ := runCons later
  have held := stepped.opened (beq_iff_eq.mpr named)
  cases rest with
  | leaf plain _ => cases plain
  | opening nest =>
    have lost := runLost nest later
    rw [named, List.count_cons_self] at lost
    exact List.count_eq_zero.mp (by omega)

end Run

def Interrupted (events : List Event) : Prop :=
  ∃ before tag middle inner after, events = before ++ .opening tag :: (middle ++ .opening inner :: after) ∧
    tag.name = element ∧ inner.name = element ∧ ¬ HasEnd tag middle

theorem apartIff {events : List Event} {left : List (List Char)} (nest : Nesting [] events left) :
    Apart [] events ↔ ¬ Interrupted events := by
  constructor
  · rintro apart ⟨before, tag, middle, inner, after, rfl, outer, named, unended⟩
    have split : before ++ .opening tag :: (middle ++ .opening inner :: after) =
        (before ++ .opening tag :: middle) ++ .opening inner :: after := by
      simp
    rw [split] at nest apart
    obtain ⟨under, early, _⟩ := nestingAppend.mp nest
    have lost : Unclosed element (before ++ .opening tag :: middle) := ⟨before, tag, middle, rfl, outer, unended⟩
    exact apart _ inner after under rfl named early ((unclosedIff early element).mp lost)
  · rintro none before inner after under rfl named early mem
    obtain ⟨first, tag, middle, rfl, outer, unended⟩ := (unclosedIff early element).mpr mem
    exact none ⟨first, tag, middle, inner, after, by simp, outer, named, unended⟩

theorem documentNests (document : List Char) : ∃ left, Nesting [] (Markup.events document).1 left :=
  eventsNest [] _

theorem readOk {document : List Char} {edits : List Edit} (ok : read document = .ok edits) :
    ∃ p, (Markup.events document).1.foldlM step {} = .ok p ∧ p.held = 0 ∧ p.edits = edits := by
  simp only [read] at ok
  obtain ⟨p, went, done⟩ := bindOk ok
  split at done
  · cases done
  · split at done
    · cases done
    · rename_i closed
      refine ⟨p, went, ?_, Except.ok.inj done⟩
      simpa [Progress.held] using closed

/-- A document that is read has an edit for each end tag and for each element that is one tag. Those are all its
replacements unless one is opened inside another; then the outer one has no end tag, and yet there is no error. -/
theorem editForEachTagIff (document : List Char) :
    (∀ edits, read document = .ok edits →
      edits.length = (Markup.events document).1.countP (Event.closes element) +
        (Markup.events document).1.countP (Event.isWhole element) ∧
      (edits.length = (Markup.events document).1.countP (Event.opens element) +
        (Markup.events document).1.countP (Event.isWhole element) ↔ ¬ Interrupted (Markup.events document).1) ∧
      (Unclosed element (Markup.events document).1 ↔ Interrupted (Markup.events document).1)) ∧
    (Unclosed element (Markup.events document).1 → ¬ Interrupted (Markup.events document).1 →
      ∃ e, read document = .error e) := by
  obtain ⟨left, nest⟩ := documentNests document
  have unclosed : Unclosed element (Markup.events document).1 ↔ left.count element ≠ 0 := by
    rw [unclosedIff nest, ← List.count_pos_iff, Nat.pos_iff_ne_zero]
  have kept {edits : List Edit} (ok : read document = .ok edits) :
      left.count element = 0 ↔ ¬ Interrupted (Markup.events document).1 := by
    obtain ⟨p, went, closed, _⟩ := readOk ok
    rw [← apartIff nest]
    constructor
    · intro all
      exact apartOfKept nest went (by omega)
    · intro apart
      rw [runApart apart rfl nest went, closed]
  refine ⟨fun edits ok => ?_, fun lost apart => ?_⟩
  · have made : edits.length = (Markup.events document).1.countP (Event.closes element) +
        (Markup.events document).1.countP (Event.isWhole element) := by
      obtain ⟨p, went, _, rfl⟩ := readOk ok
      simpa using runMade went
    refine ⟨made, ?_, by rw [unclosed, Ne, kept ok, Classical.not_not]⟩
    have counted := nestingCount nest element
    rw [List.count_nil] at counted
    rw [← kept ok, made]
    omega
  · cases result : read document with
    | error e => exact ⟨e, rfl⟩
    | ok edits => exact absurd ((kept result).mpr apart) (unclosed.mp lost)

def nestedText : List Char :=
  ["<replacements>", "<replacement offset='0' length='1'>a", "<replacement offset='2' length='1'>b",
    "</replacement>"].flatMap String.toList

theorem outerEditLost : read nestedText = .ok [.ofNats 2 1 [98]] ∧
    (Markup.events nestedText).1.countP (Event.opens element) = 2 ∧ Unclosed element (Markup.events nestedText).1 := by
  have starts : (Markup.events nestedText).1.countP (Event.opens element) = 2 := by decide +kernel
  have ends : (Markup.events nestedText).1.countP (Event.closes element) = 1 := by decide +kernel
  have result : (read nestedText).toOption = some [.ofNats 2 1 [98]] := by decide +kernel
  have ok : read nestedText = .ok [.ofNats 2 1 [98]] := by
    cases is : read nestedText with
    | error e => simp [is, Except.toOption] at result
    | ok edits =>
      rw [is] at result
      exact congrArg Except.ok (Option.some.inj result)
  refine ⟨ok, starts, ?_⟩
  obtain ⟨left, nest⟩ := documentNests nestedText
  have counted := nestingCount nest element
  rw [unclosedIff nest, ← List.count_pos_iff]
  rw [List.count_nil] at counted
  omega

end KeepBlame.Replacements
