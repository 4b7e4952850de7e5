import StackScript.Text.Lines

namespace StackScript.Json

/-! JSON texts, on one line or indented by two spaces. -/

inductive Document where
  | null
  | bool (b : Bool)
  /-- A number that is written out already. -/
  | number (text : String)
  | string (s : String)
  | list (items : List Document)
  | object (fields : List (String × Document))

def hexDigit (n : Nat) : Char :=
  if n < 10 then Char.ofNat ('0'.toNat + n) else Char.ofNat ('a'.toNat + (n - 10))

/-- Quotes, backslashes and control characters are escaped, and nothing else. -/
def escapeChar (c : Char) : List Char :=
  match c with
  | '"' => ['\\', '"']
  | '\\' => ['\\', '\\']
  | '\n' => ['\\', 'n']
  | '\t' => ['\\', 't']
  | '\r' => ['\\', 'r']
  | c =>
      if c.toNat = 8 then ['\\', 'b']
      else if c.toNat = 12 then ['\\', 'f']
      else if c.toNat < 0x20 then
        ['\\', 'u', '0', '0', hexDigit (c.toNat / 16), hexDigit (c.toNat % 16)]
      else [c]

def quote (s : String) : String :=
  String.ofList ('"' :: s.toList.flatMap escapeChar ++ ['"'])

def leftBrace : String := "\x7b"

def rightBrace : String := "\x7d"

namespace Document

mutual

def compact : Document → String
  | .null => "null"
  | .bool b => if b then "true" else "false"
  | .number text => text
  | .string s => quote s
  | .list items => "[" ++ ",".intercalate (compactItems items) ++ "]"
  | .object fields => leftBrace ++ ",".intercalate (compactFields fields) ++ rightBrace

def compactItems : List Document → List String
  | [] => []
  | item :: rest => compact item :: compactItems rest

def compactFields : List (String × Document) → List String
  | [] => []
  | (name, value) :: rest => (quote name ++ ":" ++ compact value) :: compactFields rest

end

/-- Pieces on lines of their own between two brackets; without pieces there is no line break. -/
def enclose (level : Nat) (left right : String) (items : List String) : String :=
  if items.isEmpty then left ++ right
  else
    let indent := Text.spaces (2 * (level + 1))
    left ++ "\n" ++ ",\n".intercalate (items.map (indent ++ ·)) ++ "\n" ++
      Text.spaces (2 * level) ++ right

mutual

def pretty : (level : Nat) → Document → String
  | _, .null => "null"
  | _, .bool b => if b then "true" else "false"
  | _, .number text => text
  | _, .string s => quote s
  | level, .list items => enclose level "[" "]" (prettyItems (level + 1) items)
  | level, .object fields =>
      enclose level leftBrace rightBrace (prettyFields (level + 1) fields)

def prettyItems : (level : Nat) → List Document → List String
  | _, [] => []
  | level, item :: rest => pretty level item :: prettyItems level rest

def prettyFields : (level : Nat) → List (String × Document) → List String
  | _, [] => []
  | level, (name, value) :: rest =>
      (quote name ++ ": " ++ pretty level value) :: prettyFields level rest

end

end Document

end StackScript.Json
