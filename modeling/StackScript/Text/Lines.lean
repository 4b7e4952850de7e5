import StackScript.Text.Blank

namespace StackScript.Text

/-! Division of a text into lines, and padding of columns. -/

/-- A carriage return at the end of a line belongs to the line break. -/
def dropReturn (line : List Char) : List Char :=
  match line.getLast? with
  | some '\r' => line.dropLast
  | _ => line

/-- The lines of a text. Every piece but the last ended in a line feed and loses one carriage
return before it; the last piece counts as a line only if it is not empty. -/
def lines (text : List Char) : List (List Char) :=
  let all := splitAll '\n' text
  let ended := all.dropLast.map dropReturn
  match all.getLast? with
  | some [] => ended
  | some last => ended ++ [last]
  | none => ended

/-- A text filled up on the left to at least `width` characters. -/
def padLeft (fill : Char) (width : Nat) (text : String) : String :=
  String.ofList (List.replicate (width - text.length) fill) ++ text

def spaces (count : Nat) : String :=
  String.ofList (List.replicate count ' ')

end StackScript.Text
