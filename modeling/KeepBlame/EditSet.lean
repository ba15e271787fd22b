import KeepBlame.Edit
import KeepBlame.Outcome
import KeepBlame.Stream

/-!
The edits of one file that are still to be made. An edit keeps the span it was proposed with as its name; its own
span moves along when an edit before it is made, so that edits can be made one at a time and in any order.
-/
namespace KeepBlame

inductive EditError where
  | overlap (first second : Span)
  | outOfBounds (span : Span) (size : Nat)
  | unknownEdit (id : Span)
  | rebase (id : Span) (delta : Int)
  deriving DecidableEq, Repr

def EditError.message : EditError → String
  | overlap first second => s!"edits {first.text} and {second.text} overlap"
  | outOfBounds span size => s!"edit {span.text} extends past end of file ({size} bytes)"
  | unknownEdit id => s!"no pending edit {id.text}"
  | rebase id delta => s!"shifting edit {id.text} by {delta} byte(s) moves it before the start of the file"

def Stream.splice (e : Edit) (s : Stream) : Except EditError Int × Stream :=
  let s := s.seekEnd
  if e.span.stop > s.size then (.error (.outOfBounds e.span s.size), s)
  else
    let (tail, s) := (s.seek e.span.stop).readToEnd
    let s := ((s.seek e.span.start).write e.content).write tail
    (.ok e.delta, s.truncate s.position)

structure Pending where
  id : Span
  edit : Edit
  deriving DecidableEq, Repr

structure EditSet where
  pending : List Pending
  deriving DecidableEq, Repr

namespace EditSet

def clash (a b : Pending) : Bool := a.id == b.id || a.edit.span.stop > b.edit.span.start

def firstClash : List Pending → Option (Span × Span)
  | a :: b :: rest => if clash a b then some (a.id, b.id) else firstClash (b :: rest)
  | _ => none

def arrange (edits : List Edit) : List Pending :=
  Ordered.sortBy Pending.id ((edits.filter (!·.isNoop)).map fun e => ⟨e.span, e⟩)

def ofEdits (edits : List Edit) : Except EditError EditSet :=
  match firstClash (arrange edits) with
  | some (first, second) => .error (.overlap first second)
  | none => .ok ⟨arrange edits⟩

def ids (set : EditSet) : List Span := set.pending.map Pending.id

def edits (set : EditSet) : List Edit := set.pending.map Pending.edit

def isEmpty (set : EditSet) : Bool := set.pending.isEmpty

def get? (set : EditSet) (id : Span) : Option Edit := (set.pending.find? (·.id == id)).map Pending.edit

def shiftAll (delta : Int) : List Pending → List Pending × Option EditError
  | [] => ([], none)
  | p :: rest =>
    match p.edit.span.shift? delta with
    | none => (p :: rest, some (.rebase p.id delta))
    | some span =>
      let (rest, failure) := shiftAll delta rest
      ({ p with edit := { p.edit with span } } :: rest, failure)

def inOrder : List Pending → Bool
  | a :: b :: rest => a.edit.span.stop ≤ b.edit.span.start && inOrder (b :: rest)
  | _ => true

/-- What has become of a call. One that panics leaves no set, and the target as it was by then. -/
inductive Step (α : Type) where
  | made (value : α) (set : EditSet) (target : Stream)
  | refused (cause : EditError) (set : EditSet) (target : Stream)
  | panicked (panic : Panic) (target : Stream)
  deriving DecidableEq, Repr

namespace Step
variable {α : Type}

def result : Step α → Outcome EditError α
  | made value _ _ => .ok value
  | refused cause _ _ => .error cause
  | panicked panic _ => .panic panic

def set? : Step α → Option EditSet
  | made _ set _ => some set
  | refused _ set _ => some set
  | panicked _ _ => none

def target : Step α → Stream
  | made _ _ target => target
  | refused _ _ target => target
  | panicked _ target => target

end Step

-- An edit whose successors cannot all move along has been made nevertheless.
def shiftAfter (before after : List Pending) (delta : Int) (target : Stream) : Step Int :=
  if delta = 0 then .made delta ⟨before ++ after⟩ target
  else
    match shiftAll delta after with
    | (after, some failure) => .refused failure ⟨before ++ after⟩ target
    | (after, none) =>
      if inOrder (before ++ after) then .made delta ⟨before ++ after⟩ target
      else .panicked (.editsOutOfOrder delta) target

def apply (id : Span) (set : EditSet) (target : Stream) : Step Int :=
  let before := set.pending.takeWhile (·.id != id)
  match set.pending.drop before.length with
  | [] => .refused (.unknownEdit id) set target
  | p :: after =>
    match target.splice p.edit with
    | (.error e, target) => .refused e set target
    | (.ok delta, target) => shiftAfter before after delta target

end EditSet
end KeepBlame
