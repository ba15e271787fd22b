import KeepBlame.Text.Numeral
import KeepBlame.Toml.Value

/-!
Scalars of TOML: strings in four spellings, and words, that is numbers, booleans, dates and times. A reader gives back
what it read and the text that is left, or the text that was left at the mistake; a mistake at the end of the text is
placed where the string was opened.
-/
namespace KeepBlame.Toml

abbrev Place := List Char

abbrev Read (α : Type) := α × List Char

def openedAt {α : Type} (opening : List Char) : Except Place α → Except Place α
  | .error [] => .error opening
  | r => r

def isVisible (c : Char) : Bool := c == '\t' || (0x20 ≤ c.toNat && c.toNat != 0x7F)

def isBlank (c : Char) : Bool := c == ' ' || c == '\t'

def shortEscape? (c : Char) : Option Char :=
  match c with
  | 'b' => some (Char.ofNat 8)
  | 't' => some '\t'
  | 'n' => some '\n'
  | 'f' => some (Char.ofNat 12)
  | 'r' => some '\r'
  | '"' => some '"'
  | '\\' => some '\\'
  | _ => none

def codeEscape? (size : Nat) (cs : List Char) : Option Char :=
  let digits := cs.take size
  if digits.length = size then
    match Text.readDigits 16 Text.halfWordLimit 0 digits with
    | .ok code => if code.isValidChar then some (Char.ofNat code) else none
    | .error _ => none
  else none

def escape? (cs : List Char) : Option (Char × Nat) :=
  match cs with
  | [] => none
  | 'u' :: rest => (codeEscape? 4 rest).map (·, 5)
  | 'U' :: rest => (codeEscape? 8 rest).map (·, 9)
  | c :: _ => (shortEscape? c).map (·, 1)

def readBasic : List Char → Except Place (Read (List Char))
  | [] => .error []
  | c :: rest =>
    if c = '"' then .ok ([], rest)
    else if c = '\\' then
      match escape? rest with
      | none => .error rest
      | some (e, size) => do
        let (cs, rest) ← readBasic (rest.drop size)
        .ok (e :: cs, rest)
    else if isVisible c then do
      let (cs, rest) ← readBasic rest
      .ok (c :: cs, rest)
    else .error (c :: rest)
termination_by cs => cs.length

def readLiteral : List Char → Except Place (Read (List Char))
  | [] => .error []
  | c :: rest =>
    if c = '\'' then .ok ([], rest)
    else if isVisible c then do
      let (cs, rest) ← readLiteral rest
      .ok (c :: cs, rest)
    else .error (c :: rest)

def newline? : List Char → Option (List Char)
  | '\n' :: rest => some rest
  | '\r' :: '\n' :: rest => some rest
  | _ => none

def joinedLine? (cs : List Char) : Option (List Char) :=
  match newline? (cs.dropWhile isBlank) with
  | some rest => some (rest.dropWhile fun c => isBlank c || c == '\n' || c == '\r')
  | none => none

/-- Three quotes end a long string, and may follow one or two that belong to it. What is given is the number of quotes
that belong to it and whether it ends. -/
def quoteRun (quote : Char) (cs : List Char) : Nat × Bool :=
  let size := (cs.takeWhile (· == quote)).length
  if size < 3 then (size, false) else (min (size - 3) 2, true)

theorem newlineLength {cs rest : List Char} (h : newline? cs = some rest) : rest.length < cs.length := by
  unfold newline? at h
  split at h
  · cases h
    simp
  · cases h
    simp only [List.length_cons]
    omega
  · cases h

theorem joinedLineLength {cs rest : List Char} (h : joinedLine? cs = some rest) : rest.length ≤ cs.length := by
  unfold joinedLine? at h
  split at h
  · rename_i tail ht
    cases h
    have h₁ := newlineLength ht
    have h₂ := (List.dropWhile_sublist (l := cs) isBlank).length_le
    have h₃ := (List.dropWhile_sublist (l := tail) fun c => isBlank c || c == '\n' || c == '\r').length_le
    omega
  · cases h

def readLong (quote : Char) (escapes : Bool) : List Char → Except Place (Read (List Char))
  | [] => .error []
  | c :: rest =>
    if c = quote then
      match quoteRun quote (c :: rest) with
      | (size, true) => .ok (List.replicate size quote, rest.drop (size + 2))
      | (size, false) => do
        let (cs, rest) ← readLong quote escapes (rest.drop (size - 1))
        .ok (List.replicate size quote ++ cs, rest)
    else if escapes ∧ c = '\\' then
      match _h : joinedLine? rest with
      | some rest => readLong quote escapes rest
      | none =>
        match escape? rest with
        | none => .error rest
        | some (e, size) => do
          let (cs, rest) ← readLong quote escapes (rest.drop size)
          .ok (e :: cs, rest)
    else
      match _h : newline? (c :: rest) with
      | some rest => do
        let (cs, rest) ← readLong quote escapes rest
        .ok ('\n' :: cs, rest)
      | none =>
        if isVisible c then do
          let (cs, rest) ← readLong quote escapes rest
          .ok (c :: cs, rest)
        else .error (c :: rest)
termination_by cs => cs.length
decreasing_by
  · simp only [List.length_drop, List.length_cons]
    omega
  · have := joinedLineLength _h
    simp only [List.length_cons]
    omega
  · simp only [List.length_drop, List.length_cons]
    omega
  · simpa using newlineLength _h
  · simp

def readString (cs : List Char) : Except Place (Read (List Char)) :=
  openedAt cs <|
    match cs with
    | '"' :: '"' :: '"' :: rest => readLong '"' true ((newline? rest).getD rest)
    | '\'' :: '\'' :: '\'' :: rest => readLong '\'' false ((newline? rest).getD rest)
    | '"' :: rest => readBasic rest
    | '\'' :: rest => readLiteral rest
    | _ => .error cs

def isWordChar (c : Char) : Bool :=
  c.isAlphanum || c == '_' || c == '+' || c == '-' || c == '.' || c == ':'

def digitGroups? (isDigit : Char → Bool) (cs : List Char) : Option (List Char) :=
  let groups := cs.splitOn '_'
  if groups.all fun g => !g.isEmpty && g.all isDigit then some groups.flatten else none

def natOf (radix : Nat) (digits : List Char) : Nat :=
  digits.foldl (fun n c => n * radix + (Text.digitValue? radix c).getD 0) 0

def isDigitIn (radix : Nat) (c : Char) : Bool := (Text.digitValue? radix c).isSome

def unsign : List Char → Bool × List Char
  | '-' :: rest => (true, rest)
  | '+' :: rest => (false, rest)
  | cs => (false, cs)

def wholeNumber? (cs : List Char) : Option (List Char) := do
  let digits ← digitGroups? Char.isDigit cs
  if digits.length > 1 ∧ digits.head? = some '0' then none else some digits

def integerLimit : Nat := 0x7fffffffffffffff

def radixInteger? (radix : Nat) (cs : List Char) : Option Value := do
  let digits ← digitGroups? (isDigitIn radix) cs
  if natOf radix digits ≤ integerLimit then some (.integer (natOf radix digits)) else none

def integer? (cs : List Char) : Option Value := do
  let (negative, cs) := unsign cs
  let n := natOf 10 (← wholeNumber? cs)
  if negative then if n ≤ integerLimit + 1 then some (.integer (-n)) else none
  else if n ≤ integerLimit then some (.integer n) else none

def splitAt? (p : Char → Bool) (cs : List Char) : List Char × Option (List Char) :=
  let before := cs.takeWhile (!p ·)
  (before, if before.length < cs.length then some (cs.drop (before.length + 1)) else none)

def float? (cs : List Char) : Option Value := do
  let (mantissa, exponent) := splitAt? (fun c => c == 'e' || c == 'E') cs
  let (whole, fraction) := splitAt? (· == '.') mantissa
  if exponent.isNone ∧ fraction.isNone then none
  else do
    let (negative, whole) := unsign whole
    let whole ← wholeNumber? whole
    let fraction ← fraction.elim (some []) (digitGroups? Char.isDigit)
    let (downwards, exponent) := unsign (exponent.getD ['0'])
    let exponent ← digitGroups? Char.isDigit exponent
    let power : Int := natOf 10 exponent
    let power := (if downwards then -power else power) - fraction.length
    let x := Decimal.ofDecimal negative (natOf 10 (whole ++ fraction)) power
    if x = .infinite false then none else some (.float x)

def named? (cs : List Char) : Option Value :=
  if cs = "true".toList then some (.boolean true)
  else if cs = "false".toList then some (.boolean false)
  else
    let (negative, rest) := unsign cs
    if rest = "inf".toList then some (.float (.infinite negative))
    else if rest = "nan".toList then some (.float .nan)
    else none

def field? (size low high : Nat) (cs : List Char) : Option Nat :=
  if cs.length = size ∧ cs.all Char.isDigit then
    let n := natOf 10 cs
    if low ≤ n ∧ n ≤ high then some n else none
  else none

def daysIn (year month : Nat) : Nat :=
  if month = 2 then if year % 4 = 0 ∧ (year % 100 ≠ 0 ∨ year % 400 = 0) then 29 else 28
  else if month = 4 ∨ month = 6 ∨ month = 9 ∨ month = 11 then 30
  else 31

def isDate (cs : List Char) : Bool :=
  match cs.splitOn '-' with
  | [year, month, day] =>
    match field? 4 0 9999 year, field? 2 1 12 month with
    | some y, some m => (field? 2 1 (daysIn y m) day).isSome
    | _, _ => false
  | _ => false

def isTime (cs : List Char) : Bool :=
  match cs.splitOn ':' with
  | [hour, minute, second] =>
    let (second, fraction) := splitAt? (· == '.') second
    (field? 2 0 23 hour).isSome && (field? 2 0 59 minute).isSome && (field? 2 0 60 second).isSome &&
      fraction.all fun f => !f.isEmpty && f.all Char.isDigit
  | _ => false

def isOffset (cs : List Char) : Bool :=
  match cs with
  | ['Z'] | ['z'] => true
  | sign :: rest =>
    (sign == '+' || sign == '-') &&
      match rest.splitOn ':' with
      | [hour, minute] => (field? 2 0 23 hour).isSome && (field? 2 0 59 minute).isSome
      | _ => false
  | [] => false

def isTimeOfDate (cs : List Char) : Bool :=
  isTime cs ||
    let time := cs.takeWhile fun c => c.isDigit || c == ':' || c == '.'
    isTime time && isOffset (cs.drop time.length)

def isMoment (cs : List Char) : Bool :=
  isTime cs || isDate cs ||
    (isDate (cs.take 10) &&
      match cs.drop 10 with
      | c :: rest => (c == 'T' || c == 't' || c == ' ') && isTimeOfDate rest
      | [] => false)

def word? (cs : List Char) : Option Value :=
  match cs with
  | '0' :: 'x' :: digits => radixInteger? 16 digits
  | '0' :: 'o' :: digits => radixInteger? 8 digits
  | '0' :: 'b' :: digits => radixInteger? 2 digits
  | cs => named? cs <|> (if isMoment cs then some .moment else none) <|> float? cs <|> integer? cs

def wordAt (cs : List Char) : List Char :=
  let word := cs.takeWhile isWordChar
  if isDate word then
    match cs.drop word.length with
    | ' ' :: rest =>
      let time := rest.takeWhile isWordChar
      if isTimeOfDate time then word ++ ' ' :: time else word
    | _ => word
  else word

def readWord (cs : List Char) : Except Place (Read Value) :=
  match word? (wordAt cs) with
  | some v => .ok (v, cs.drop (wordAt cs).length)
  | none => .error cs

end KeepBlame.Toml
