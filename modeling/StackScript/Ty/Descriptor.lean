import StackScript.Text.Blank
import StackScript.Ty.Basic

namespace StackScript

/-! Type descriptors: one letter for a scalar and `a [i,s] f` for an array. -/

def Scalar.letter : Scalar → Char
  | .int => 'i'
  | .float => 'f'
  | .str => 's'
  | .bool => 'b'

def Scalar.ofLetter? : Char → Option Scalar
  | 'i' => some .int
  | 'f' => some .float
  | 's' => some .str
  | 'b' => some .bool
  | _ => none

@[simp] theorem Scalar.ofLetter?_letter (s : Scalar) : ofLetter? s.letter = some s := by
  cases s <;> rfl

namespace Ty

def letter : Ty → Char
  | .scalar s => s.letter
  | .array _ _ => 'a'

/-- Characters with `mark` between the pieces. -/
def joinLetters (mark : Char) : List Scalar → List Char
  | [] => []
  | [s] => [s.letter]
  | s :: rest => s.letter :: mark :: joinLetters mark rest

def descriptorChars : Ty → List Char
  | .scalar s => [s.letter]
  | .array index element =>
      ['a', ' ', '['] ++ joinLetters ',' index ++ [']', ' '] ++ descriptorChars element

def descriptor (ty : Ty) : String :=
  String.ofList ty.descriptorChars

/-- Descriptors of a parameter or argument list. -/
def descriptors (tys : List Ty) : String :=
  ",".intercalate (tys.map descriptor)

/-- Why a text is no type descriptor; each cause quotes the part that it is about. -/
inductive DescriptorError where
  | trailing (part : String)
  | expectedBracket (part : String)
  | missingBracket (part : String)
  | unknown (part : String)
  deriving DecidableEq, Repr

def DescriptorError.message : DescriptorError → String
  | .trailing part => s!"Trailing characters in type descriptor '{part}'"
  | .expectedBracket part => s!"Expected '[' in array descriptor '{part}'"
  | .missingBracket part => s!"Missing ']' in array descriptor '{part}'"
  | .unknown part => s!"Unknown type descriptor '{part}'"

/-- One position of an index list. An array is no index type, and as the list was cut at its first
closing bracket an array descriptor is never complete in it. -/
def readIndexPart (text : List Char) : Except DescriptorError Scalar :=
  let part := Text.trim text
  let quoted := String.ofList part
  match part with
  | [] => .error (.unknown quoted)
  | c :: rest =>
      match Scalar.ofLetter? c with
      | some s => if (Text.trim rest).isEmpty then .ok s else .error (.trailing quoted)
      | none =>
          if c = 'a' then
            match Text.trimStart rest with
            | '[' :: _ => .error (.missingBracket quoted)
            | _ => .error (.expectedBracket quoted)
          else .error (.unknown quoted)

/-- A type at the front of a text and what follows it. -/
def readDescriptor : (fuel : Nat) → List Char → Except DescriptorError (Ty × List Char)
  | 0, text => .error (.unknown (String.ofList text))
  | fuel + 1, text =>
      match text with
      | [] => .error (.unknown "")
      | c :: rest =>
          match Scalar.ofLetter? c with
          | some s => .ok (.scalar s, rest)
          | none =>
              if c = 'a' then
                match Text.trimStart rest with
                | '[' :: list =>
                    match Text.splitOnce ']' list with
                    | none => .error (.missingBracket (String.ofList text))
                    | some (inside, after) => do
                        let index ← (Text.splitAll ',' inside).mapM readIndexPart
                        let (element, rest) ← readDescriptor fuel (Text.trimStart after)
                        pure (.array index element, rest)
                | _ => .error (.expectedBracket (String.ofList text))
              else .error (.unknown (String.ofList text))

/-- The type that a descriptor denotes, with blanks around it ignored. -/
def ofDescriptor (text : String) : Except DescriptorError Ty := do
  let chars := text.toList
  let (ty, rest) ← readDescriptor (chars.length + 1) (Text.trim chars)
  if (Text.trim rest).isEmpty then pure ty else .error (.trailing text)

end Ty

end StackScript
