import KeepBlame.Text.Numeral
import KeepBlame.Text.Utf8

/-!
Character references of markup: five named characters, and characters by number. Inside an attribute value the
number has no sign and is not zero.
-/
namespace KeepBlame.Markup

def namedCharacter? (name : List Char) : Option Char :=
  if name = "lt".toList then some '<'
  else if name = "gt".toList then some '>'
  else if name = "amp".toList then some '&'
  else if name = "apos".toList then some '\''
  else if name = "quot".toList then some '"'
  else none

def characterOf? (code : Nat) : Option Char :=
  if code.isValidChar then some (Char.ofNat code) else none

inductive ReferenceError where
  | unknownEntity (name : List Char)
  | badNumber (name : List Char)
  | badCodePoint (name : List Char)
  deriving DecidableEq, Repr

def ReferenceError.message : ReferenceError → String
  | unknownEntity name => s!"unknown entity &{String.ofList name};"
  | badNumber name => s!"bad character reference &{String.ofList name};"
  | badCodePoint name => s!"invalid code point in &{String.ofList name};"

def readCode (digits : List Char) : Except Text.NumeralError Nat :=
  match digits with
  | 'x' :: rest | 'X' :: rest => Text.readUnsigned 16 Text.halfWordLimit rest
  | rest => Text.readUnsigned 10 Text.halfWordLimit rest

def resolve (name : List Char) : Except ReferenceError Char :=
  match namedCharacter? name, name with
  | some c, _ => .ok c
  | none, '#' :: digits =>
    match readCode digits with
    | .error _ => .error (.badNumber name)
    | .ok code =>
      match characterOf? code with
      | some c => .ok c
      | none => .error (.badCodePoint name)
  | none, _ => .error (.unknownEntity name)

inductive ValueError where
  | unknownEntity (first last : Nat) (name : List Char)
  | unclosed (first last : Nat)
  | signedNumber
  | badNumber (cause : Text.NumeralError)
  | nul
  | badCodePoint (code : Nat)
  deriving DecidableEq, Repr

def ValueError.message : ValueError → String
  | unknownEntity first last name => s!"at {first}..{last}: unrecognized entity `{String.ofList name}`"
  | unclosed first last => s!"Error while escaping character at range {first}..{last}: Cannot find ';' after '&'"
  | signedNumber => "invalid character reference: unexpected number sign"
  | badNumber cause => s!"invalid character reference: {cause.message}"
  | nul => "invalid character reference: 0x0 character is not permitted in XML"
  | badCodePoint code => s!"invalid character reference: `{code}` is not a valid codepoint"

def valueCode (digits : List Char) : Except ValueError Char :=
  let (radix, digits) := match digits with
    | 'x' :: rest => (16, rest)
    | rest => (10, rest)
  if digits.head? = some '+' ∨ digits.head? = some '-' then .error .signedNumber
  else
    match Text.readUnsigned radix Text.halfWordLimit digits with
    | .error cause => .error (.badNumber cause)
    | .ok 0 => .error .nul
    | .ok code =>
      match characterOf? code with
      | some c => .ok c
      | none => .error (.badCodePoint code)

def width (cs : List Char) : Nat := cs.foldr (fun c n => c.utf8Size + n) 0

def resolveInValue (first : Nat) (name : List Char) : Except ValueError Char :=
  match namedCharacter? name, name with
  | some c, _ => .ok c
  | none, '#' :: digits => valueCode digits
  | none, _ => .error (.unknownEntity first (first + width name) name)

def inValueName (c : Char) : Bool := c != ';' && c != '&'

-- An attribute value with its references resolved. `total` is the size of the whole value, so that the place of
-- what is left to read is known.
def unescapeFrom (total : Nat) : List Char → Except ValueError (List Char)
  | [] => .ok []
  | c :: rest =>
    if c = '&' then
      let first := total - width rest
      match h : rest.dropWhile inValueName with
      | ';' :: after => do
        let c ← resolveInValue first (rest.takeWhile inValueName)
        let cs ← unescapeFrom total after
        .ok (c :: cs)
      | _ => .error (.unclosed (first - 1) total)
    else do
      let cs ← unescapeFrom total rest
      .ok (c :: cs)
termination_by cs => cs.length
decreasing_by
  · have := (List.dropWhile_sublist (l := rest) inValueName).length_le
    simp only [h, List.length_cons] at this ⊢
    omega
  · simp

def unescape (value : List Char) : Except ValueError (List Char) := unescapeFrom (width value) value

end KeepBlame.Markup
