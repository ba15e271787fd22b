import KeepBlame.Decimal.Shortest

/-!
Values of a TOML document. Every key and value knows the line it was written on; the entries of a table stand in the
order of the document.
-/
namespace KeepBlame.Toml

structure Key where
  name : String
  line : Nat
  deriving DecidableEq, Repr

structure Located (α : Type) where
  line : Nat
  value : α

/-- How a table came about: on the way to another table's header, on the way to a dotted key, by its own header, or
between braces. -/
inductive TableKind where
  | implied
  | dotted
  | headed
  | braced
  deriving DecidableEq, Repr

inductive Value where
  | text (s : String)
  | integer (n : Int)
  | float (x : Decimal.Binary)
  | boolean (b : Bool)
  | moment
  | array (items : List (Located Value))
  | table (kind : TableKind) (entries : List (Key × Located Value))
  | tables (items : List (Located (List (Key × Located Value))))

abbrev Entries := List (Key × Located Value)

namespace Entries

def find? (entries : Entries) (name : String) : Option (Located Value) :=
  (List.find? (fun e => e.1.name == name) entries).map Prod.snd

def set (entries : Entries) (key : Key) (value : Located Value) : Entries :=
  if entries.any fun e => e.1.name == key.name then
    entries.map fun e => if e.1.name == key.name then (e.1, value) else e
  else entries ++ [(key, value)]

def erase (entries : Entries) (name : String) : Entries := entries.filter fun e => e.1.name != name

/-- Follows a path through tables and changes the entries of the last one. Tables that are missing are made, of kind
`made`; `enter` says which tables may be entered. Of repeated tables the last is meant. -/
def alterAt (made : TableKind) (enter : TableKind → Bool) (change : TableKind → Entries → Option Entries)
    (kind : TableKind) (entries : Entries) : List Key → Option Entries
  | [] => change kind entries
  | key :: path =>
    match find? entries key.name with
    | none => do
      let inner ← alterAt made enter change made [] path
      some (set entries key ⟨key.line, .table made inner⟩)
    | some ⟨line, .table kind inner⟩ =>
      if enter kind then do
        let inner ← alterAt made enter change kind inner path
        some (set entries key ⟨line, .table kind inner⟩)
      else none
    | some ⟨line, .tables items⟩ =>
      match items.getLast? with
      | none => none
      | some last => do
        let inner ← alterAt made enter change .headed last.value path
        some (set entries key ⟨line, .tables (items.dropLast ++ [⟨last.line, inner⟩])⟩)
    | some _ => none

def addPair (entries : Entries) (path : List Key) (key : Key) (value : Located Value) : Option Entries :=
  let add (kind : TableKind) (inner : Entries) : Option Entries :=
    if (!path.isEmpty && kind != .dotted) || (find? inner key.name).isSome then none
    else some (inner ++ [(key, value)])
  alterAt .dotted (fun kind => kind == .implied || kind == .dotted) add .headed entries path

def underHeaders (entries : Entries) (path : List Key) (change : Entries → Option Entries) : Option Entries :=
  alterAt .implied (· != .braced) (fun _ inner => change inner) .headed entries path

def addTable (entries : Entries) (path : List Key) (key : Key) : Option Entries :=
  underHeaders entries path fun inner =>
    match find? inner key.name with
    | none => some (inner ++ [(key, ⟨key.line, .table .headed []⟩)])
    | some ⟨_, .table .implied old⟩ => some (erase inner key.name ++ [(key, ⟨key.line, .table .headed old⟩)])
    | some _ => none

def addRepeated (entries : Entries) (path : List Key) (key : Key) : Option Entries :=
  underHeaders entries path fun inner =>
    match find? inner key.name with
    | none => some (inner ++ [(key, ⟨key.line, .tables [⟨key.line, []⟩]⟩)])
    | some ⟨line, .tables items⟩ => some (set inner key ⟨line, .tables (items ++ [⟨key.line, []⟩])⟩)
    | some _ => none

end Entries
end KeepBlame.Toml
