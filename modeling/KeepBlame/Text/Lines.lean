/-! Lines of a text: a line ends at `\n`, a `\r` just before it belongs to the end, and an empty last line is none. -/
namespace KeepBlame.Text

def dropReturn (line : List Char) : List Char := if line.getLast? = some '\r' then line.dropLast else line

def linesOf : List (List Char) → List (List Char)
  | [] => []
  | [last] => if last.isEmpty then [] else [last]
  | line :: rest => dropReturn line :: linesOf rest

def lines (cs : List Char) : List (List Char) := linesOf (cs.splitOn '\n')

end KeepBlame.Text
