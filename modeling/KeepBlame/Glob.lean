import KeepBlame.Text.Search

/-!
Patterns over whole paths. `?` is any character and `*` any run of them, slashes included; `[…]` is one of its members
and `[!…]` none of them; `**` is a whole component and stands for any number of components.
-/
namespace KeepBlame

structure CharRange where
  first : Char
  last : Char
  deriving DecidableEq, Repr

inductive GlobToken where
  | char (c : Char)
  | anyChar
  | anyRun
  | anyComponents
  | oneOf (negated : Bool) (members : List CharRange)
  deriving DecidableEq, Repr

def CharRange.holds (r : CharRange) (c : Char) : Bool := r.first ≤ c && c ≤ r.last

def GlobToken.admits (c : Char) : GlobToken → Bool
  | char d => c == d
  | anyChar => true
  | oneOf negated members => members.any (·.holds c) != negated
  | anyRun => false
  | anyComponents => false

structure Glob where
  text : String
  tokens : List GlobToken
  deriving DecidableEq, Repr

namespace Glob

inductive Mistake where
  | tooManyStars
  | partialComponent
  | badRange
  deriving DecidableEq, Repr

def Mistake.message : Mistake → String
  | tooManyStars => "wildcards are either regular `*` or recursive `**`"
  | partialComponent => "recursive wildcards must form a single path component"
  | badRange => "invalid range pattern"

structure PatternError where
  position : Nat
  mistake : Mistake
  deriving DecidableEq, Repr

def PatternError.message (e : PatternError) : String :=
  s!"Pattern syntax error near position {e.position}: {e.mistake.message}"

def members : List Char → List CharRange
  | first :: '-' :: last :: rest => ⟨first, last⟩ :: members rest
  | c :: rest => ⟨c, c⟩ :: members rest
  | [] => []

def readMembers (negated : Bool) : List Char → Option (GlobToken × List Char)
  | [] => none
  | first :: rest =>
    match Text.cutAt [']'] rest with
    | none => none
    | some (inside, after) => some (.oneOf negated (members (first :: inside)), after)

theorem readMembersLength {negated : Bool} {cs after : List Char} {token : GlobToken}
    (h : readMembers negated cs = some (token, after)) : after.length ≤ cs.length := by
  cases cs with
  | nil => simp [readMembers] at h
  | cons first rest =>
    simp only [readMembers] at h
    split at h
    · simp at h
    · rename_i inside found hc
      cases h
      have := Text.cutAtLength hc
      simp only [List.length_cons]
      omega

def readClass : List Char → Option (GlobToken × List Char)
  | '!' :: rest => readMembers true rest
  | cs => readMembers false cs

theorem readClassLength {cs after : List Char} {token : GlobToken}
    (h : readClass cs = some (token, after)) : after.length ≤ cs.length := by
  unfold readClass at h
  split at h
  · have := readMembersLength h
    simp only [List.length_cons]
    omega
  · exact readMembersLength h

def startsComponent (before : Option Char) : Bool := before.isNone || before == some '/'

/-- `size` is the length of the whole pattern and `before` the character in front of what is left of it. -/
def readTokens (size : Nat) (before : Option Char) : List Char → Except PatternError (List GlobToken)
  | [] => .ok []
  | '*' :: '*' :: '*' :: rest => .error ⟨size - (rest.length + 1), .tooManyStars⟩
  | '*' :: '*' :: rest =>
    if startsComponent before then
      match rest with
      | [] => .ok [.anyComponents]
      | '/' :: rest => (.anyComponents :: ·) <$> readTokens size (some '/') rest
      | rest => .error ⟨size - rest.length, .partialComponent⟩
    else .error ⟨size - (rest.length + 3), .partialComponent⟩
  | '*' :: rest => (.anyRun :: ·) <$> readTokens size (some '*') rest
  | '?' :: rest => (.anyChar :: ·) <$> readTokens size (some '?') rest
  | '[' :: rest =>
    match _h : readClass rest with
    | none => .error ⟨size - (rest.length + 1), .badRange⟩
    | some (token, after) => (token :: ·) <$> readTokens size (some ']') after
  | c :: rest => (.char c :: ·) <$> readTokens size (some c) rest
termination_by cs => cs.length
decreasing_by
  all_goals simp only [List.length_cons]
  · omega
  · omega
  · omega
  · have := readClassLength _h
    omega
  · omega

def parse (text : String) : Except PatternError Glob :=
  match readTokens text.toList.length none text.toList with
  | .ok tokens => .ok ⟨text, tokens⟩
  | .error e => .error e

def escape (cs : List Char) : List Char :=
  cs.flatMap fun c => if c == '?' || c == '*' || c == '[' || c == ']' then ['[', c, ']'] else [c]

def suffixes : List Char → List (List Char)
  | [] => [[]]
  | c :: rest => (c :: rest) :: suffixes rest

def afterSlashes : List Char → List (List Char)
  | [] => [[]]
  | c :: rest => if c = '/' then rest :: afterSlashes rest else afterSlashes rest

def matchTokens : List GlobToken → List Char → Bool
  | [], cs => cs.isEmpty
  | .anyRun :: rest, cs => (suffixes cs).any fun s => matchTokens rest s
  | .anyComponents :: rest, cs => (cs :: afterSlashes cs).any fun s => matchTokens rest s
  | _ :: _, [] => false
  | token :: rest, c :: cs => token.admits c && matchTokens rest cs

def matchText (g : Glob) (text : String) : Bool := matchTokens g.tokens text.toList

end Glob
end KeepBlame
