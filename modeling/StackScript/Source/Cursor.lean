import StackScript.Source.Position

namespace StackScript

/-! A place in a source text with the text that follows it, and the words that can be read there. -/

structure Cursor where
  rest : List Char
  position : Position
  deriving DecidableEq, Repr

namespace Cursor

def ofSource (source : String) : Cursor where
  rest := source.toList
  position := .start

def peek? (c : Cursor) : Option Char :=
  c.rest.head?

def isAt (c : Cursor) (char : Char) : Bool :=
  c.peek? = some char

def advance (c : Cursor) : Cursor :=
  match c.rest with
  | [] => c
  | char :: rest => { rest, position := c.position.advance char }

def advanceBy (c : Cursor) : Nat → Cursor
  | 0 => c
  | n + 1 => c.advance.advanceBy n

/-- Characters in front for which a test holds. -/
def wordOf (p : Char → Bool) (c : Cursor) : List Char :=
  c.rest.takeWhile p

/-- Passes over the characters in front for which a test holds. -/
def skipWhile (p : Char → Bool) (c : Cursor) : Cursor :=
  c.advanceBy (c.wordOf p).length

def isSpace (char : Char) : Bool :=
  char = ' ' || char = '\t' || char = '\r' || char = '\n'

def skipSpace (c : Cursor) : Cursor :=
  c.skipWhile isSpace

/-- Characters at which a word ends. -/
def isTerminalChar (char : Char) : Bool :=
  isSpace char ||
    [',', '+', '-', '*', '/', '(', ')', '[', ']', '\x7b', '\x7d', '.', '<', '>', '!', '=', '?',
      ':'].contains char

/-- Whether a word ends in front of a text. -/
def isTerminal (rest : List Char) : Bool :=
  match rest with
  | [] => true
  | char :: _ => isTerminalChar char

/-- Behind the spaces and a character, if it comes next. -/
def symbol? (char : Char) (c : Cursor) : Option Cursor :=
  let c := c.skipSpace
  if c.isAt char then some c.advance else none

/-- Behind the spaces and an operator, if it comes next. -/
def operator? (text : List Char) (c : Cursor) : Option Cursor :=
  let c := c.skipSpace
  if text.isPrefixOf c.rest then some (c.advanceBy text.length) else none

/-- Behind the spaces and a keyword in any case of letters, if it comes next as a whole word. -/
def keyword? (word : List Char) (c : Cursor) : Option Cursor :=
  let c := c.skipSpace
  let front := c.rest.take word.length
  if front.map Char.toLower = word && isTerminal (c.rest.drop word.length) then
    some (c.advanceBy word.length)
  else none

/-- The first of several alternatives that comes next. -/
def firstOf? {α : Type} (read : List Char → Cursor → Option Cursor) (c : Cursor) :
    List (List Char × α) → Option (α × Cursor)
  | [] => none
  | (text, result) :: others =>
      match read text c with
      | some c' => some (result, c')
      | none => firstOf? read c others

end Cursor

end StackScript
