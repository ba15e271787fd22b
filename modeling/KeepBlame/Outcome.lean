/-!
How a call ends. An error is for the caller to handle. A panic is an assertion that does not hold: nobody handles it, and
nothing is called after it.
-/
namespace KeepBlame

inductive Panic where
  | editsOutOfOrder (delta : Int)
  | hunksOutOfOrder
  deriving DecidableEq, Repr

def Panic.message : Panic → String
  | editsOutOfOrder delta => s!"pending edits out of order after shifting by {delta}"
  | hunksOutOfOrder => "blame hunks out of order"

inductive Outcome (ε α : Type) where
  | ok (value : α)
  | error (cause : ε)
  | panic (panic : Panic)
  deriving DecidableEq, Repr

namespace Outcome
variable {ε φ α β : Type}

def map (f : α → β) : Outcome ε α → Outcome ε β
  | ok value => ok (f value)
  | error cause => error cause
  | panic p => panic p

theorem mapOkIff {f : α → β} {outcome : Outcome ε α} {b : β} :
    outcome.map f = ok b ↔ ∃ a, outcome = ok a ∧ f a = b := by
  cases outcome <;> simp [map]

theorem mapErrorIff {f : α → β} {outcome : Outcome ε α} {e : ε} : outcome.map f = error e ↔ outcome = error e := by
  cases outcome <;> simp [map]

theorem mapPanicIff {f : α → β} {outcome : Outcome ε α} {p : Panic} : outcome.map f = panic p ↔ outcome = panic p := by
  cases outcome <;> simp [map]

def mapError (f : ε → φ) : Outcome ε α → Outcome φ α
  | ok value => ok value
  | error cause => error (f cause)
  | panic p => panic p

end Outcome
end KeepBlame
