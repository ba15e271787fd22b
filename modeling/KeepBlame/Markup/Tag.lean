import KeepBlame.Markup.Reference
import KeepBlame.Text.Search

/-!
Tags: the text between `<` and `>`. A tag's name runs to the first space; attributes follow, read one by one up to
the first mistake. Places are counted in bytes from the start of the tag.
-/
namespace KeepBlame.Markup

def isSpace (c : Char) : Bool := c == ' ' || c == '\t' || c == '\n' || c == '\r'

inductive AttributeError where
  | expectedEquals (place : Nat)
  | expectedValue (place : Nat)
  | unquotedValue (place : Nat)
  | unclosedQuote (place : Nat) (quote : Char)
  | duplicated (place earlier : Nat)
  deriving DecidableEq, Repr

def AttributeError.message : AttributeError → String
  | expectedEquals place => s!"position {place}: attribute key must be directly followed by `=` or space"
  | expectedValue place => s!"position {place}: `=` must be followed by an attribute value"
  | unquotedValue place => s!"position {place}: attribute value must be enclosed in `\"` or `'`"
  | unclosedQuote place quote =>
    s!"position {place}: missing closing quote `{String.ofList [quote]}` in attribute value"
  | duplicated place earlier =>
    s!"position {place}: duplicated attribute, previous declaration at position {earlier}"

structure Attribute where
  place : Nat
  key : List Char
  value : List Char
  deriving DecidableEq, Repr

def readKey (total : Nat) (cs : List Char) : Except AttributeError (List Char × List Char) :=
  let key := cs.take 1 ++ (cs.drop 1).takeWhile fun c => c != '=' && !isSpace c
  match ((cs.drop 1).dropWhile fun c => c != '=' && !isSpace c).dropWhile isSpace with
  | '=' :: rest => .ok (key, rest)
  | rest => .error (.expectedEquals (total - width rest))

def readValue (total : Nat) (cs : List Char) : Except AttributeError (List Char × List Char) :=
  match cs.dropWhile isSpace with
  | [] => .error (.expectedValue total)
  | quote :: rest =>
    if quote = '"' ∨ quote = '\'' then
      match rest.dropWhile (· != quote) with
      | _ :: after => .ok (rest.takeWhile (· != quote), after)
      | [] => .error (.unclosedQuote total quote)
    else .error (.unquotedValue (total - width (quote :: rest)))

def readAttribute (total : Nat) (seen : List Attribute) (cs : List Char) :
    Except AttributeError (Option (Attribute × List Char)) :=
  match cs.dropWhile isSpace with
  | [] => .ok none
  | c :: cs => do
    let place := total - width (c :: cs)
    let (key, rest) ← readKey total (c :: cs)
    match seen.find? (·.key == key) with
    | some earlier => .error (.duplicated place earlier.place)
    | none =>
      let (value, rest) ← readValue total rest
      .ok (some (⟨place, key, value⟩, rest))

theorem readKeyLength {total : Nat} {cs key rest : List Char} (h : readKey total cs = .ok (key, rest)) :
    rest.length < cs.length ∨ cs = [] := by
  unfold readKey at h
  split at h
  · rename_i r hr
    cases h
    have h₁ := (List.dropWhile_sublist (l := (cs.drop 1).dropWhile fun c => c != '=' && !isSpace c) isSpace).length_le
    have h₂ := (List.dropWhile_sublist (l := cs.drop 1) fun c => c != '=' && !isSpace c).length_le
    simp only [hr, List.length_cons, List.length_drop] at h₁ h₂
    omega
  · cases h

theorem readValueLength {total : Nat} {cs value rest : List Char} (h : readValue total cs = .ok (value, rest)) :
    rest.length ≤ cs.length := by
  unfold readValue at h
  have h₁ := (List.dropWhile_sublist (l := cs) isSpace).length_le
  split at h
  · cases h
  · rename_i quote tail ht
    have h₂ := (List.dropWhile_sublist (l := tail) (· != quote)).length_le
    split at h
    · split at h
      · rename_i hd
        cases h
        simp only [ht, hd, List.length_cons] at h₁ h₂
        omega
      · cases h
    · cases h

theorem readAttributeLength {total : Nat} {seen : List Attribute} {cs rest : List Char} {a : Attribute}
    (h : readAttribute total seen cs = .ok (some (a, rest))) : rest.length < cs.length := by
  unfold readAttribute at h
  have h₁ := (List.dropWhile_sublist (l := cs) isSpace).length_le
  split at h
  · cases h
  · rename_i c tail hc
    simp only [bind, Except.bind] at h
    split at h
    · cases h
    · rename_i kr hk
      have h₂ := readKeyLength hk
      split at h
      · cases h
      · split at h
        · cases h
        · rename_i vr hv
          have h₃ := readValueLength hv
          cases h
          simp only [hc, List.length_cons] at h₁ h₂
          rcases h₂ with h₂ | h₂
          · omega
          · cases h₂

def readAttributes (total : Nat) (seen : List Attribute) (cs : List Char) :
    List Attribute × Option AttributeError :=
  match _h : readAttribute total seen cs with
  | .error e => (seen, some e)
  | .ok none => (seen, none)
  | .ok (some (a, rest)) => readAttributes total (seen ++ [a]) rest
termination_by cs.length
decreasing_by exact readAttributeLength _h

structure Tag where
  text : List Char
  deriving DecidableEq, Repr

namespace Tag

def name (t : Tag) : List Char := t.text.takeWhile (!isSpace ·)

def attributes (t : Tag) : List Attribute × Option AttributeError :=
  readAttributes (width t.text) [] (t.text.dropWhile (!isSpace ·))

def find? (t : Tag) (key : List Char) : Except AttributeError (Option Attribute) :=
  match t.attributes.1.find? (·.key == key), t.attributes.2 with
  | some a, _ => .ok (some a)
  | none, some e => .error e
  | none, none => .ok none

end Tag
end KeepBlame.Markup
