import StackScript.Fault
import StackScript.Source.Position
import StackScript.Text.Lines
import StackScript.Text.Style

namespace StackScript

/-! Reports of errors for people, with an excerpt of the source around the place. -/

structure Report where
  kind : ErrorKind
  message : String
  /-- Line and column count from one here; line zero means that there is no place. -/
  position : Position
  file : String
  help : Option String
  source : List String

namespace Report

def sourceLines (source : String) : List String :=
  (Text.lines source.toList).map String.ofList

/-- Terminal attributes of the pieces of a report. -/
inductive Style where
  | kind
  | message
  | caret
  | help
  | errorGutter
  | gutter
  deriving DecidableEq, Repr

def Style.codes : Style → String
  | .kind | .caret => "1;31"
  | .message => "1;37"
  | .help => "1;36"
  | .errorGutter => "31"
  | .gutter => "2"

def paint (color : Bool) (style : Style) (text : String) : String :=
  Text.styled color style.codes text

def place (r : Report) : String :=
  if r.position.line = 0 then r.file
  else s!"{r.file}:{r.position.line}:{r.position.column}"

def header (r : Report) (color : Bool) : String :=
  let kind := paint color .kind r.kind.name
  let message := paint color .message r.message
  s!"{kind}: {message} at {r.place}\n"

/-- A source line behind its number; the line of the error has a caret line below it. -/
def excerptLine (r : Report) (color : Bool) (number : Nat) (content : String) : String :=
  let gutter := Text.padLeft ' ' 4 (toString number) ++ " |"
  if number = r.position.line then
    paint color .errorGutter gutter ++ " " ++ content ++ "\n" ++
      Text.spaces (6 + r.position.column) ++ paint color .caret "^" ++ "\n"
  else paint color .gutter gutter ++ " " ++ content ++ "\n"

/-- The line of the error with its two neighbours, if the source has that line. -/
def excerpt (r : Report) (color : Bool) : String :=
  let line := r.position.line
  if 0 < line && line ≤ r.source.length then
    let first := if 1 < line then line - 1 else 1
    let shown := (r.source.drop (first - 1)).take (line + 2 - first)
    "\n" ++ String.join (shown.mapIdx fun i content => r.excerptLine color (first + i) content)
  else ""

def helpLine (r : Report) (color : Bool) : String :=
  match r.help with
  | some help => "\n      " ++ paint color .help "Help" ++ ": " ++ help ++ "\n"
  | none => ""

def render (r : Report) (color : Bool) : String :=
  r.header color ++ r.excerpt color ++ r.helpLine color

/-- The report of a fault, which has no place in the source. -/
def ofFault (fault : Fault) (file : String) : Report where
  kind := fault.errorKind
  message :=
    match fault with
    | .divisionByZero _ => "Division by zero"
    | fault => fault.message
  position := .start
  file := file
  help := some fault.name
  source := []

end Report

end StackScript
