import StackScript.Decimal.Reader
import StackScript.Grammar.Rule
import StackScript.Tree.Basic

namespace StackScript.Grammar

/-! Words: names, literals and types. -/

/-- Words that cannot be names, in any case of letters. -/
def reservedWords : List String :=
  ["and", "or", "not", "int", "float", "string", "boolean", "array", "of", "function", "true",
    "false"]

def isNameStart (c : Char) : Bool :=
  c.isAlpha || c = '_'

def isNameChar (c : Char) : Bool :=
  c.isAlphanum || c = '_'

/-- A name, with the symbol that it stands for if there is one. -/
def identifier (scope : Scope) (lookup : Lookup) : Rule (String × Option Nat) :=
  Body.close do
    let start ← cursor
    skipSpace
    let c ← cursor
    if (c.peek?.map isNameStart).getD false then
      let word := c.wordOf isNameChar
      moveTo (c.skipWhile isNameChar)
      if Cursor.isTerminal (← cursor).rest then
        if reservedWords.contains (String.ofList (word.map Char.toLower)) then
          Body.pass .identifier [.leaf start.position .identifierReservedWord]
        else
          let name := String.ofList word
          pure (name, (← registry).find? name scope lookup)
      else Body.pass .identifier []
    else Body.pass .identifier []

/-- The text up to the quote that ends a literal. A backslash keeps a quote or a backslash after
it from its meaning, and stays in the text. -/
def quotedText? : List Char → Option (List Char)
  | [] => none
  | '"' :: _ => some []
  | '\\' :: '"' :: rest => (quotedText? rest).map fun text => '\\' :: '"' :: text
  | '\\' :: '\\' :: rest => (quotedText? rest).map fun text => '\\' :: '\\' :: text
  | c :: rest => (quotedText? rest).map fun text => c :: text

def stringLiteral : Rule String :=
  Body.close do
    skipSpace
    let c ← cursor
    if c.isAt '"' then
      match quotedText? c.advance.rest with
      | none => Body.fail .stringExpression []
      | some text =>
          moveTo (c.advanceBy (text.length + 2))
          if Cursor.isTerminal (← cursor).rest then pure (String.ofList text)
          else Body.fail .stringExpression []
    else Body.pass .stringExpression []

def floatLiteral : Rule UInt64 :=
  Body.close do
    skipSpace
    let c ← cursor
    let whole := c.wordOf Char.isDigit
    let afterWhole := c.skipWhile Char.isDigit
    if whole.isEmpty || !afterWhole.isAt '.' then Body.pass .unsignedFloat []
    else
      let fraction := afterWhole.advance.wordOf Char.isDigit
      let afterFraction := afterWhole.advance.skipWhile Char.isDigit
      moveTo afterFraction
      if fraction.isEmpty || !Cursor.isTerminal afterFraction.rest then
        Body.fail .unsignedFloat []
      else
        match Decimal.readFloat (whole ++ '.' :: fraction) with
        | .ok bits => pure bits
        | .error _ => Body.fail .unsignedFloat []

def integerLiteral : Rule Int64 :=
  Body.close do
    skipSpace
    let c ← cursor
    let digits := c.wordOf Char.isDigit
    moveTo (c.skipWhile Char.isDigit)
    if digits.isEmpty || !Cursor.isTerminal (← cursor).rest then Body.pass .unsignedInteger []
    else
      match Decimal.readInteger digits with
      | .ok n => pure n
      | .error _ => Body.fail .unsignedInteger []

/-- A truth value; its failure is a leaf without children. -/
def booleanLiteral : Rule Bool := do
  let start ← cursor
  match ← acceptOne fun c => c.firstOf? Cursor.keyword?
      [("true".toList, true), ("false".toList, false)] with
  | some b => pure b
  | none =>
      throw { signal := .unmatched, nodes := [.leaf start.position .booleanValue] }

def literal : Rule Literal :=
  Body.close <|
    Rule.orPass
      (Rule.or (Literal.str <$> stringLiteral) <|
        Rule.or (Literal.float <$> floatLiteral) <|
        Rule.or (Literal.int <$> integerLiteral) (Literal.bool <$> booleanLiteral))
      .literals

def scalarWords : List (List Char × Scalar) :=
  [("int".toList, .int), ("float".toList, .float), ("string".toList, .str),
    ("boolean".toList, .bool)]

def acceptScalar {ε : Type} : EStateM ε ParseState (Option Scalar) :=
  acceptOne fun c => c.firstOf? Cursor.keyword? scalarWords

/-- Scalar types between commas, in at most `fuel` rounds. -/
def indexTypesLoop : (fuel : Nat) → Body (List Scalar)
  | 0 => Body.fail .indexTypeDeclaration []
  | fuel + 1 => do
      match ← acceptScalar with
      | none => Body.fail .indexTypeDeclaration []
      | some s =>
          if ← acceptSymbol ',' then
            let rest ← indexTypesLoop fuel
            pure (s :: rest)
          else pure [s]

def indexTypes : Rule (List Scalar) :=
  Body.close do indexTypesLoop ((← remaining) + 1)

/-- A type in at most `fuel` levels of arrays. -/
def typeWithin : (fuel : Nat) → Rule Ty
  | 0 => Body.close (Body.pass .typeDeclaration [])
  | fuel + 1 =>
      Body.close do
        match ← acceptScalar with
        | some s => pure (.scalar s)
        | none =>
            if ← acceptKeyword "array".toList then
              if ← acceptSymbol '[' then
                let index ← indexTypes.orFail .typeDeclaration
                if ← acceptSymbol ']' then
                  if ← acceptKeyword "of".toList then
                    let element ← (typeWithin fuel).orFail .typeDeclaration
                    pure (.array index element)
                  else Body.fail .typeDeclarationMissingOf []
                else Body.fail .typeDeclarationMissingClosingBracket []
              else Body.fail .typeDeclarationMissingOpeningBracket []
            else Body.pass .typeDeclaration []

def typeName : Rule Ty := do
  typeWithin ((← remaining) + 1)

end StackScript.Grammar
