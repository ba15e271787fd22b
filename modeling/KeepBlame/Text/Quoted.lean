import KeepBlame.Text.Unprintable

/-! Text in double quotes, as messages show it: every character stands for itself or has one escape. -/
namespace KeepBlame.Text

def hexDigits (n : Nat) : List Char := Nat.toDigits 16 n

def escape (c : Char) : List Char :=
  match c with
  | '"' => ['\\', '"']
  | '\\' => ['\\', '\\']
  | '\n' => ['\\', 'n']
  | '\r' => ['\\', 'r']
  | '\t' => ['\\', 't']
  | c =>
    if c.toNat = 0 then ['\\', '0']
    else if isPrintable c then [c]
    else "\\u\x7b".toList ++ hexDigits c.toNat ++ ['\x7d']

def quote (cs : List Char) : List Char := '"' :: cs.flatMap escape ++ ['"']

def quoted (s : String) : String := String.ofList (quote s.toList)

end KeepBlame.Text
