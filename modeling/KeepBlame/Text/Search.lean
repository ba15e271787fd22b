/-! Whether and where one sequence stands inside another. -/
namespace KeepBlame.Text

variable {α : Type} [BEq α]

def occurs (pattern : List α) : List α → Bool
  | [] => pattern.isEmpty
  | x :: rest => pattern.isPrefixOf (x :: rest) || occurs pattern rest

def cutAt (pattern : List α) : List α → Option (List α × List α)
  | [] => none
  | x :: rest =>
    if pattern.isPrefixOf (x :: rest) then some ([], (x :: rest).drop pattern.length)
    else
      match cutAt pattern rest with
      | none => none
      | some (before, after) => some (x :: before, after)

theorem cutAtLength {pattern xs before after : List α} (h : cutAt pattern xs = some (before, after)) :
    after.length ≤ xs.length := by
  fun_induction cutAt pattern xs generalizing before with
  | case1 => simp at h
  | case2 x rest _ =>
    cases h
    simp
  | case3 => simp at h
  | case4 x rest _ b a hr ih =>
    cases h
    have := ih hr
    simp only [List.length_cons]
    omega

end KeepBlame.Text
