/-! Lists kept in ascending order of a key. -/
namespace KeepBlame.Ordered

variable {α κ : Type} [LT κ] [DecidableLT κ]

def insertBy (key : α → κ) (x : α) : List α → List α
  | [] => [x]
  | y :: rest => if key y < key x then y :: insertBy key x rest else x :: y :: rest

def sortBy (key : α → κ) (xs : List α) : List α := xs.foldr (insertBy key) []

/-- Changes the entry of key `k` in a list of ascending keys; where there is none, `fresh` is changed and put in
its place. -/
def alter (key : α → κ) (k : κ) (fresh : α) (change : α → α) : List α → List α
  | [] => [change fresh]
  | y :: rest =>
    if key y < k then y :: alter key k fresh change rest
    else if k < key y then change fresh :: y :: rest
    else change y :: rest

def insertNew (x : κ) (xs : List κ) : List κ := alter id x x id xs

end KeepBlame.Ordered
