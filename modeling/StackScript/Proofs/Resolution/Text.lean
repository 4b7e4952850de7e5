import Mathlib.Logic.Relation
import StackScript.Proofs.Grammar.Naming

namespace StackScript

/-! Where names occur in a source text. A text is read up to what comes behind it, so that a word
cannot end in the middle of a longer one. Nothing here looks at types or at the registry. -/

/-- A name that stands for a declaration: the scope of the block or function body that it occurs in,
the dots in front of it, the dots in front of the names in whose index or argument lists it occurs,
and what is declared before it. -/
structure Occurrence where
  scope : Scope
  dots : Nat
  around : Nat
  word : String
  declared : List Declaration

/-- The only declaration of a name that is visible from a scope, or the innermost one. -/
structure Innermost (declared : List Declaration) (scope : Scope) (word : String) (index : Nat)
    (outer : Scope) : Prop where
  found : declared[index]? = some (outer, word)
  visible : scope.within outer = true
  deepest : ∀ {index' : Nat} {outer' : Scope}, declared[index']? = some (outer', word) →
    scope.within outer' = true → index' ≠ index → outer'.depth < outer.depth

/-- All dots count, those in front of the name and those in front of the names around it. -/
def Occurrence.Denotes (name : Occurrence) (index : Nat) : Prop :=
  ∃ outer, Innermost name.declared (Grammar.reduceBy name.scope (name.dots + name.around)) name.word
    index outer

namespace Source

open Grammar

def IsReserved (word : List Char) : Prop :=
  reservedWords.contains (String.ofList (word.map Char.toLower)) = true

instance : DecidablePred IsReserved := fun _ => inferInstanceAs (Decidable (_ = true))

/-- A word that can be a name, in front of a text that does not go on with it. -/
structure Names (word rest : List Char) : Prop where
  shape : isName word = true
  free : ¬ IsReserved word
  ends : Cursor.isTerminal rest = true

def Blank (gap : List Char) : Prop :=
  ∀ c ∈ gap, Cursor.isSpace c = true

instance : DecidablePred Blank := List.decidableBAll fun c => Cursor.isSpace c = true

/-- One of some words, in any case of letters. -/
inductive Keyword (words : List String) : List Char → List Char → Prop
  | word {word rest : List Char} (member : String.ofList (word.map Char.toLower) ∈ words)
      (ends : Cursor.isTerminal rest = true) : Keyword words (word ++ rest) rest

inductive Token (marks : List Char) (words : List String) : List Char → List Char → Prop
  | space {c : Char} {rest : List Char} (space : Cursor.isSpace c = true) :
      Token marks words (c :: rest) rest
  | mark {c : Char} {rest : List Char} (member : c ∈ marks) : Token marks words (c :: rest) rest
  | keyword {before rest : List Char} (keyword : Keyword words before rest) :
      Token marks words before rest

/-- What stands in front of an operand. -/
def Signs : List Char → List Char → Prop :=
  Relation.ReflTransGen (Token ['-'] ["not"])

def operatorMarks : List Char :=
  [',', '+', '-', '*', '/', '<', '>', '!', '=', '?', ':']

/-- What stands between two operands, which is more than spaces. -/
inductive Operators : List Char → List Char → Prop
  | mark {gap rest after : List Char} {c : Char} (blank : Blank gap) (member : c ∈ operatorMarks)
      (more : Relation.ReflTransGen (Token operatorMarks []) rest after) :
      Operators (gap ++ c :: rest) after
  | keyword {gap mid rest : List Char} (blank : Blank gap)
      (keyword : Keyword ["and", "or"] mid rest) : Operators (gap ++ mid) rest

/-- Parts of types and of parameter lists. -/
def Heading : List Char → List Char → Prop :=
  Relation.ReflTransGen
    (Token [',', '(', ')', '[', ']'] ["int", "float", "string", "boolean", "array", "of"])

inductive Constant : List Char → List Char → Prop
  | integer {digits rest : List Char} (nonempty : digits ≠ [])
      (all : ∀ c ∈ digits, c.isDigit = true) (ends : Cursor.isTerminal rest = true) :
      Constant (digits ++ rest) rest
  | decimal {whole fraction rest : List Char} (nonempty : whole ≠ [])
      (whole_all : ∀ c ∈ whole, c.isDigit = true) (fraction_nonempty : fraction ≠ [])
      (fraction_all : ∀ c ∈ fraction, c.isDigit = true) (ends : Cursor.isTerminal rest = true) :
      Constant (whole ++ '.' :: (fraction ++ rest)) rest
  | quoted {body rest : List Char} (whole : quotedText? (body ++ ['"']) = some body)
      (ends : Cursor.isTerminal rest = true) : Constant ('"' :: (body ++ '"' :: rest)) rest
  | truth {before rest : List Char} (keyword : Keyword ["true", "false"] before rest) :
      Constant before rest

/-- What may be read next of an expression. -/
inductive Portion where
  /-- A name that is not called, with its index lists. -/
  | place
  | indexLists
  | arguments
  /-- An operand and all behind it. -/
  | operand
  /-- What is behind an operand. -/
  | operator

/-- A part of an expression, with the names in it in the order in which code is emitted for them:
a variable before its indexes, a function behind its arguments. -/
inductive Phrase (scope : Scope) (declared : List Declaration) :
    Portion → (around : Nat) → List Char → List Occurrence → List Char → Prop
  | place {around dots : Nat} {front gap word behind after : List Char} {inside : List Occurrence}
      (blank : Blank front) (blank' : Blank gap) (named : Names word behind)
      (indexes : Phrase scope declared .indexLists (dots + around) behind inside after) :
      Phrase scope declared .place around
        (front ++ (List.replicate dots '.' ++ (gap ++ (word ++ behind))))
        ({ scope, dots, around, word := String.ofList word, declared } :: inside) after
  | noIndexes {around : Nat} {text : List Char} :
      Phrase scope declared .indexLists around text [] text
  | indexList {around : Nat} {inner text after : List Char} {inside names : List Occurrence}
      (indexes : Phrase scope declared .operand around inner inside (']' :: text))
      (rest : Phrase scope declared .indexLists around text names after) :
      Phrase scope declared .indexLists around ('[' :: inner) (inside ++ names) after
  | noArguments {around : Nat} {gap text : List Char} (blank : Blank gap) :
      Phrase scope declared .arguments around (gap ++ text) [] text
  | someArguments {around : Nat} {before after : List Char} {names : List Occurrence}
      (arguments : Phrase scope declared .operand around before names after) :
      Phrase scope declared .arguments around before names after
  | signs {around : Nat} {before text after : List Char} {names : List Occurrence}
      (tokens : Signs before text) (rest : Phrase scope declared .operand around text names after) :
      Phrase scope declared .operand around before names after
  | constant {around : Nat} {before text after : List Char} {names : List Occurrence}
      (token : Constant before text)
      (rest : Phrase scope declared .operator around text names after) :
      Phrase scope declared .operand around before names after
  | group {around : Nat} {inner text after : List Char} {inside names : List Occurrence}
      (grouped : Phrase scope declared .operand around inner inside (')' :: text))
      (rest : Phrase scope declared .operator around text names after) :
      Phrase scope declared .operand around ('(' :: inner) (inside ++ names) after
  | read {around : Nat} {before text after : List Char} {own names : List Occurrence}
      (place : Phrase scope declared .place around before own text)
      (rest : Phrase scope declared .operator around text names after) :
      Phrase scope declared .operand around before (own ++ names) after
  | call {around dots : Nat} {gap word behind text after : List Char}
      {inside names : List Occurrence} (blank : Blank gap) (named : Names word ('(' :: behind))
      (arguments : Phrase scope declared .arguments (dots + around) behind inside (')' :: text))
      (rest : Phrase scope declared .operator around text names after) :
      Phrase scope declared .operand around
        (List.replicate dots '.' ++ (gap ++ (word ++ '(' :: behind)))
        (inside ++
          { scope, dots, around, word := String.ofList word, declared } :: names) after
  | operators {around : Nat} {before text after : List Char} {names : List Occurrence}
      (tokens : Operators before text)
      (rest : Phrase scope declared .operand around text names after) :
      Phrase scope declared .operator around before names after
  | done {around : Nat} {gap text : List Char} (blank : Blank gap) :
      Phrase scope declared .operator around (gap ++ text) [] text

/-- A name right behind one of some words. -/
inductive Naming (words : List String) : List Char → (word : List Char) → List Char → Prop
  | naming {before mid gap word after : List Char} (heading : Heading before mid)
      (keyword : Keyword words mid (gap ++ (word ++ after))) (blank : Blank gap)
      (named : Names word after) : Naming words before word after

/-- All types end with one of these words. -/
def scalarNames : List String :=
  ["int", "float", "string", "boolean"]

/-- The parameters of a function, each behind its type. -/
inductive Parameters : List Char → List String → List Char → Prop
  | done {before text : List Char} (heading : Heading before text) : Parameters before [] text
  | parameter {before word text after : List Char} {words : List String}
      (naming : Naming scalarNames before word text) (rest : Parameters text words after) :
      Parameters before (String.ofList word :: words) after

/-- Statements of a block or function body in which so many scopes are opened already: what they
declare, the names in the code that runs in line, and the names in functions. A function declares
its parameters, itself, and then what its body declares. -/
inductive Passage : (scope : Scope) → (opened : Nat) → (declared : List Declaration) →
    List Char → List Declaration → (inline functions : List Occurrence) → List Char → Prop
  | done {scope : Scope} {opened : Nat} {declared : List Declaration} {gap text : List Char}
      (blank : Blank gap) : Passage scope opened declared (gap ++ text) [] [] [] text
  | assignment {scope : Scope} {opened : Nat} {declared added : List Declaration}
      {before mid mid' text after : List Char} {own names inline functions : List Occurrence}
      (target : Phrase scope declared .place 0 before own mid) (update : Operators mid mid')
      (value : Phrase scope declared .operand 0 mid' names text)
      (rest : Passage scope opened declared text added inline functions after) :
      Passage scope opened declared before added (own ++ names ++ inline) functions after
  | declaration {scope : Scope} {opened : Nat} {declared added : List Declaration}
      {before word text after : List Char} {inline functions : List Occurrence}
      (naming : Naming scalarNames before word text)
      (rest : Passage scope opened (declared ++ [(scope, String.ofList word)]) text added inline
        functions after) :
      Passage scope opened declared before ((scope, String.ofList word) :: added) inline functions
        after
  | block {scope : Scope} {opened : Nat} {declared own added : List Declaration}
      {gap body text after : List Char}
      {names defined inline functions : List Occurrence} (blank : Blank gap)
      (inside : Passage (scope.child (toString opened)) 0 declared body own names defined
        ('\x7d' :: text))
      (rest : Passage scope (opened + 1) (declared ++ own) text added inline functions after) :
      Passage scope opened declared (gap ++ '\x7b' :: body) (own ++ added) (names ++ inline)
        (defined ++ functions) after
  | function {scope : Scope} {opened : Nat} {declared own added : List Declaration}
      {before word signature heading body text after : List Char} {params : List String}
      {names defined inline functions : List Occurrence}
      (naming : Naming ["function"] before word signature)
      (parameters : Parameters signature params heading)
      (result : Heading heading ('\x7b' :: body))
      (inside : Passage (scope.child (String.ofList word)) 0
        (declared ++ (params.map (scope.child (String.ofList word), ·) ++
          [(scope, String.ofList word)])) body own names defined ('\x7d' :: text))
      (rest : Passage scope (opened + 1)
        (declared ++ (params.map (scope.child (String.ofList word), ·) ++
          (scope, String.ofList word) :: own)) text added inline functions after) :
      Passage scope opened declared before
        (params.map (scope.child (String.ofList word), ·) ++
          (scope, String.ofList word) :: own ++ added)
        inline (names ++ defined ++ functions) after

/-! Nothing is longer behind what is read. -/

section Length

variable {marks : List Char} {words : List String} {before after : List Char}

theorem Keyword.length_le (keyword : Keyword words before after) :
    after.length ≤ before.length := by
  cases keyword
  rw [List.length_append]
  omega

theorem Token.length_le (token : Token marks words before after) :
    after.length ≤ before.length := by
  cases token with
  | space => exact Nat.le_succ _
  | mark => exact Nat.le_succ _
  | keyword keyword => exact keyword.length_le

theorem tokens_length_le (tokens : Relation.ReflTransGen (Token marks words) before after) :
    after.length ≤ before.length := by
  induction tokens with
  | refl => exact Nat.le_refl _
  | tail _ token induction => exact Nat.le_trans token.length_le induction

theorem Operators.length_le (operators : Operators before after) :
    after.length ≤ before.length := by
  cases operators with
  | mark _ _ more =>
      have length := tokens_length_le more
      simp only [List.length_append, List.length_cons]
      omega
  | keyword _ keyword =>
      have length := keyword.length_le
      rw [List.length_append]
      omega

theorem Constant.length_le (constant : Constant before after) : after.length ≤ before.length := by
  cases constant with
  | truth keyword => exact keyword.length_le
  | _ =>
      simp only [List.length_append, List.length_cons]
      omega

theorem Names.length_pos {word rest : List Char} (named : Names word rest) : 0 < word.length := by
  cases word with
  | nil => cases named.shape
  | cons c word => exact Nat.succ_pos _

theorem Phrase.length_le {scope : Scope} {declared : List Declaration} {portion : Portion}
    {around : Nat} {names : List Occurrence}
    (phrase : Phrase scope declared portion around before names after) :
    after.length ≤ before.length := by
  induction phrase with
  | noIndexes => exact Nat.le_refl _
  | someArguments _ induction => exact induction
  | signs tokens _ induction => exact Nat.le_trans induction (tokens_length_le tokens)
  | constant token _ induction => exact Nat.le_trans induction token.length_le
  | operators tokens _ induction => exact Nat.le_trans induction tokens.length_le
  | read _ _ inside rest => exact Nat.le_trans rest inside
  | _ =>
      simp only [List.length_append, List.length_cons] at *
      omega

/-- A place has a name in it. -/
theorem Phrase.place_length_lt {scope : Scope} {declared : List Declaration} {around : Nat}
    {names : List Occurrence} (phrase : Phrase scope declared .place around before names after) :
    after.length < before.length := by
  cases phrase with
  | place _ _ named indexes =>
      have length := indexes.length_le
      have positive := named.length_pos
      simp only [List.length_append]
      omega

theorem Naming.length_lt {word : List Char} (naming : Naming words before word after) :
    after.length < before.length := by
  obtain ⟨heading, keyword, -, named⟩ := naming
  have first := tokens_length_le heading
  have second := keyword.length_le
  have positive := named.length_pos
  simp only [List.length_append] at second
  omega

theorem Parameters.length_le {params : List String} (read : Parameters before params after) :
    after.length ≤ before.length := by
  induction read with
  | done heading => exact tokens_length_le heading
  | parameter naming _ induction => exact Nat.le_trans induction (Nat.le_of_lt naming.length_lt)

end Length

end Source

end StackScript
