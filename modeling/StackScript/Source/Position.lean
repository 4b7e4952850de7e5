namespace StackScript

/-! Places in a source text. -/

/-- Lines, columns and offsets count from zero; columns and offsets count bytes. -/
structure Position where
  line : Nat
  column : Nat
  offset : Nat
  deriving DecidableEq, Repr, Inhabited

def Position.start : Position where
  line := 0
  column := 0
  offset := 0

def Position.advance (p : Position) (c : Char) : Position :=
  if c = '\n' then { line := p.line + 1, column := 0, offset := p.offset + 1 }
  else { p with column := p.column + c.utf8Size, offset := p.offset + c.utf8Size }

end StackScript
