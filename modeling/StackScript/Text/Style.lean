namespace StackScript.Text

/-! Text with terminal attributes. -/

/-- A text in which something is inserted behind every sequence that resets the attributes. -/
def insertAfterResets (inserted : List Char) : List Char → List Char
  | [] => []
  | '\x1b' :: '[' :: '0' :: 'm' :: rest =>
      '\x1b' :: '[' :: '0' :: 'm' :: (inserted ++ insertAfterResets inserted rest)
  | c :: rest => c :: insertAfterResets inserted rest

@[simp] theorem insertAfterResets_nil (text : List Char) : insertAfterResets [] text = text := by
  fun_induction insertAfterResets [] text <;> simp_all

/-- The text between an escape sequence for the attributes and one that resets them, or the bare
text if there is no colour. A reset inside the text does not end the attributes. -/
def styled (color : Bool) (codes text : String) : String :=
  if color then
    let start := s!"\x1b[{codes}m"
    start ++ String.ofList (insertAfterResets start.toList text.toList) ++ "\x1b[0m"
  else text

@[simp] theorem styled_false (codes text : String) : styled false codes text = text := rfl

end StackScript.Text
