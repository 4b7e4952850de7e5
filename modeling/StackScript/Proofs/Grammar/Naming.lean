import StackScript.Grammar.Statement
import StackScript.Proofs.Grammar.Reading
import StackScript.Proofs.Symbol.Registry

namespace StackScript.Grammar

/-! Names and scalar types in front of a known text, and the declaration of a variable. -/

variable {r : Registry} {text rest word : List Char} {scope : Scope} {lookup : Lookup}

/-- What a name looks like. -/
def isName (word : List Char) : Bool :=
  (word.head?.map isNameStart).getD false && word.all isNameChar

theorem isTerminal_space : Cursor.isTerminal (' ' :: rest) = true :=
  rfl

theorem isNameChar_of_isTerminalChar {c : Char} (terminal : Cursor.isTerminalChar c = true) :
    isNameChar c = false := by
  have others : [' ', '\t', '\r', '\n', ',', '+', '-', '*', '/', '(', ')', '[', ']', '\x7b',
      '\x7d', '.', '<', '>', '!', '=', '?', ':'].all (!isNameChar ·) = true := by
    decide
  rw [← Bool.not_eq_true']
  apply List.all_eq_true.mp others
  simpa [Cursor.isTerminalChar, Cursor.isSpace, or_assoc] using terminal

theorem takeWhile_name (named : isName word = true) (ends : Cursor.isTerminal rest = true) :
    (word ++ rest).takeWhile isNameChar = word ∧ (word ++ rest).dropWhile isNameChar = rest := by
  rw [isName, Bool.and_eq_true, List.all_eq_true] at named
  rw [List.takeWhile_append_of_pos named.2, List.dropWhile_append_of_pos named.2]
  cases rest with
  | nil => exact ⟨List.append_nil word, rfl⟩
  | cons c more =>
      have other := isNameChar_of_isTerminalChar ends
      simp [other]

theorem startsName (named : isName word = true) (rest : List Char) :
    ((word ++ rest).head?.map isNameStart).getD false = true := by
  cases word with
  | nil => cases named
  | cons first more =>
      rw [isName, Bool.and_eq_true] at named
      exact named.1

theorem name_plain (named : isName word = true) (rest : List Char) :
    (word ++ rest).dropWhile Cursor.isSpace = word ++ rest ∧ (word ++ rest).head? ≠ some '.' := by
  cases word with
  | nil => cases named
  | cons first more =>
      rw [isName, Bool.and_eq_true] at named
      have start : isNameStart first = true := named.1
      constructor
      · cases space : Cursor.isSpace first with
        | false => rw [List.cons_append, List.dropWhile_cons, space, if_neg Bool.false_ne_true]
        | true =>
            simp only [Cursor.isSpace, Bool.or_eq_true, decide_eq_true_eq] at space
            rcases space with ((rfl | rfl) | rfl) | rfl <;> cases start
      · rintro same
        cases same
        cases start

theorem identifier_gives (unspaced : text.dropWhile Cursor.isSpace = word ++ rest)
    (named : isName word = true)
    (free : reservedWords.contains (String.ofList (word.map Char.toLower)) = false)
    (ends : Cursor.isTerminal rest = true) :
    Gives Rejection.IsDeep r (identifier scope lookup) text rest
      (String.ofList word, r.find? (String.ofList word) scope lookup) True := by
  obtain ⟨taken, left⟩ := takeWhile_name named ends
  refine .close (.after_cursor fun start _ => .after_skip unspaced (.after_cursor fun c same => ?_))
  rw [Cursor.peek?, same, startsName named, if_pos rfl]
  have behind : (c.skipWhile isNameChar).rest = rest := by
    rw [Cursor.rest_skipWhile, same, left]
  refine .after_move behind (.after_cursor fun c' same' => ?_)
  rw [same', if_pos ends, Cursor.wordOf, same, taken, free, if_neg Bool.false_ne_true]
  refine .after (fun _ => registry_at) ?_
  exact .pure

theorem identifier_passes (unspaced : text.dropWhile Cursor.isSpace = word ++ ' ' :: rest)
    (named : isName word = true)
    (reserved : reservedWords.contains (String.ofList (word.map Char.toLower)) = true) :
    Passes r (identifier scope lookup) text := by
  obtain ⟨taken, left⟩ := takeWhile_name named (@isTerminal_space rest)
  refine .close (.after_cursor fun start _ => .after_skip unspaced (.after_cursor fun c same => ?_))
  rw [Cursor.peek?, same, startsName named, if_pos rfl]
  have behind : (c.skipWhile isNameChar).rest = ' ' :: rest := by
    rw [Cursor.rest_skipWhile, same, left]
  refine .after_move behind (.after_cursor fun c' same' => ?_)
  rw [same', if_pos isTerminal_space, Cursor.wordOf, same, taken, reserved, if_pos rfl]
  exact .pass

/-! Types. -/

def scalarWord : Scalar → List Char
  | .int => ['i', 'n', 't']
  | .float => ['f', 'l', 'o', 'a', 't']
  | .str => ['s', 't', 'r', 'i', 'n', 'g']
  | .bool => ['b', 'o', 'o', 'l', 'e', 'a', 'n']

theorem isName_scalarWord (s : Scalar) : isName (scalarWord s) = true := by
  cases s <;> rfl

theorem reserved_scalarWord (s : Scalar) :
    reservedWords.contains (String.ofList ((scalarWord s).map Char.toLower)) = true := by
  cases s <;> decide

theorem scalarWords_eq :
    scalarWords = [Scalar.int, .float, .str, .bool].map fun s => (scalarWord s, s) :=
  rfl

theorem mem_scalarWords {entry : List Char × Scalar} :
    entry ∈ scalarWords ↔ ∃ s, (scalarWord s, s) = entry := by
  rw [scalarWords_eq, List.mem_map]
  constructor
  · exact fun ⟨s, _, same⟩ => ⟨s, same⟩
  · exact fun ⟨s, same⟩ => ⟨s, by cases s <;> decide, same⟩

/-- The words of the scalar types differ in their first letters. -/
def scalarLetter : Scalar → Char
  | .int => 'i'
  | .float => 'f'
  | .str => 's'
  | .bool => 'b'

theorem scalarWord_cons (s : Scalar) : ∃ more, scalarWord s = scalarLetter s :: more := by
  cases s <;> exact ⟨_, rfl⟩

theorem scalarLetter_injective : Function.Injective scalarLetter := by
  intro s s' same
  cases s <;> cases s' <;> first | rfl | exact absurd same (by decide)

theorem exists_first {front : List Char} {s : Scalar}
    (spelled : front.map Char.toLower = scalarWord s) :
    ∃ first more, front = first :: more ∧ first.toLower = scalarLetter s := by
  obtain ⟨others, letters⟩ := scalarWord_cons s
  rw [letters] at spelled
  obtain ⟨first, more, rfl, same, -⟩ := List.map_eq_cons_iff.mp spelled
  exact ⟨first, more, rfl, same⟩

theorem scalar_misses {s : Scalar} (other : ∀ c, (text.dropWhile Cursor.isSpace).head? = some c →
    c.toLower ≠ scalarLetter s) : Misses (Cursor.keyword? (scalarWord s)) text := by
  obtain ⟨more, letters⟩ := scalarWord_cons s
  rw [letters]
  exact keyword?_misses other

theorem scalar_finds {front : List Char} {s : Scalar}
    (unspaced : text.dropWhile Cursor.isSpace = front ++ rest)
    (spelled : front.map Char.toLower = scalarWord s) (ends : Cursor.isTerminal rest = true) :
    Finds (fun c : Cursor => c.firstOf? Cursor.keyword? scalarWords) text s rest := by
  apply firstOf?_finds (mem_scalarWords.mpr ⟨s, rfl⟩)
  · exact keyword?_takes unspaced spelled ends
  · intro entry member other
    obtain ⟨s', rfl⟩ := mem_scalarWords.mp member
    obtain ⟨first, more, rfl, letter⟩ := exists_first spelled
    refine scalar_misses fun c same => ?_
    rw [unspaced] at same
    obtain rfl : first = c := Option.some.inj same
    rw [letter]
    intro equal
    obtain rfl := scalarLetter_injective equal
    exact other rfl

/-! Declarations. -/

def withVariable (r : Registry) (scope : Scope) (name : String) (ty : Ty) (place : Position) :
    Registry :=
  r.push { Symbol.declare .var scope name ty with declaredAt := place }

theorem find?_withVariable {name : String} (new : ∀ s ∈ r.symbols, s.name ≠ name)
    (ty : Ty) (place : Position) :
    (withVariable r scope name ty place).find? name scope .inherited = some r.size := by
  have none : r.byName.places name = [] := by
    refine List.eq_nil_iff_forall_not_mem.mpr fun index member => ?_
    obtain ⟨s, found, named⟩ := Registry.mem_places.mp member
    exact new s (List.mem_of_getElem? found) named
  have places : (withVariable r scope name ty place).byName.places name = [r.size] := by
    refine (NameIndex.places_push r.byName name name r.size).trans ?_
    rw [none, if_pos rfl, List.nil_append]
  have last : (withVariable r scope name ty place).get? r.size =
      some { Symbol.declare .var scope name ty with declaredAt := place } :=
    List.getElem?_concat_length
  have visible : scope.within scope = true := Scope.within_iff.mpr (List.prefix_refl scope.segments)
  rw [Registry.find?, Registry.candidates, places, List.filterMap_cons_some (by rw [last]; rfl)]
  simp [Symbol.declare, visible, Registry.deeper]

theorem declare?_at {ε : Type} {symbol : Symbol} {fail : ε → ParseState → Prop}
    (new : r.find? symbol.name symbol.scope .exact = none) :
    Meets (At r text) (declare? symbol : EStateM ε ParseState (Option Nat))
      (fun index s => index = some r.size ∧ At (r.push symbol) text s)
      fail := by
  intro s start
  simp only [declare?, start.registry_eq, Registry.add, new]
  exact ⟨trivial, rfl, start.rest_eq⟩

/-- The symbol of a variable. -/
def variableSymbol (lifetime : Lifetime) (scope : Scope) (name : String) (ty : Ty)
    (place : Position) : Symbol :=
  { Symbol.declare (match lifetime with | .static => .var | .dynamic => .dynamicVar) scope name ty
    with declaredAt := place }

theorem variableDeclaration_adds {lifetime : Lifetime} {ty : Ty} {mid : List Char}
    {found : Option Nat} {name : String}
    (typed : Gives Rejection.IsDeep r typeName text mid ty True)
    (named : Gives Rejection.IsDeep r (identifier scope .exact) mid rest (name, found) True)
    (new : r.find? name scope .exact = none) (fail : Rejection → ParseState → Prop) :
    Meets (At r text) (variableDeclaration lifetime scope)
      (fun declared state => declared = (r.size, ty) ∧
        ∃ place, At (r.push (variableSymbol lifetime scope name ty place)) rest state) fail := by
  refine close_certain (after_cursor fun start _ => ?_) fail
  refine .known (typed.orPass.certain _) (.known (named.orFail.certain _) ?_)
  refine .known (declare?_at new) ?_
  exact .pure fun _ behind => ⟨rfl, _, behind⟩

/-! Places that are assigned to. -/

theorem noDots (noDot : text.head? ≠ some '.') :
    text.takeWhile (· = '.') = [] ∧ text.dropWhile (· = '.') = text := by
  cases text with
  | nil => exact ⟨rfl, rfl⟩
  | cons first more =>
      have other : first ≠ '.' := fun same => noDot (congrArg some same)
      simp [other]

section Places

variable {nested : Nested} {side : Side} {tried : List Diagnostic} {typed : Typed}

theorem dotted_declines (noDot : text.head? ≠ some '.')
    (passes : Passes r (primary (nested.conditional scope) side scope) text) :
    Declines r (dotted nested side scope tried) text := by
  obtain ⟨none, same⟩ := noDots noDot
  refine .after_cursor fun c ahead => ?_
  rw [Cursor.wordOf, ahead, none]
  refine .after_move (by rw [Cursor.rest_skipWhile, ahead, same]) ?_
  refine .after_pass passes fun e signal => ?_
  exact .throw fun _ start => ⟨signal, start.registry_eq⟩

theorem dotted_gives (noDot : text.head? ≠ some '.') (behind : rest.head? ≠ some '.')
    (gives : Gives Rejection.IsDeep r (primary (nested.conditional scope) side scope) text rest
      typed True) :
    Gives Failure.IsDeep r (dotted nested side scope tried) text rest typed True := by
  obtain ⟨none, same⟩ := noDots noDot
  refine .after_cursor fun c ahead => ?_
  rw [Cursor.wordOf, ahead, none]
  refine .after_move (by rw [Cursor.rest_skipWhile, ahead, same]) ?_
  refine .after (fun _ => gives.attempt _) (.after_cursor fun c' ahead' => ?_)
  rw [if_neg (by simpa [Cursor.isAt, Cursor.peek?, ahead'] using behind)]
  exact .pure

theorem indexLoop_ends {conditional : Rule Typed} {fuel : Nat} {array : Typed}
    (noIndex : text.head? ≠ some '[') :
    Gives Failure.IsDeep r (indexLoop conditional fuel array) text text array True := by
  cases fuel with
  | zero => exact .pure
  | succ fuel =>
      unfold indexLoop
      refine .after_cursor fun c ahead => ?_
      rw [if_neg (by simpa [Cursor.isAt, Cursor.peek?, ahead] using noIndex)]
      exact .pure

/-- A variable is read with the index lists behind its name. -/
theorem primary_gives_indexed {name : String} {index : Nat} {symbol : Symbol} {mid : List Char}
    (named : Gives Rejection.IsDeep r (identifier scope .inherited) text mid (name, some index)
      True)
    (found : r.get? index = some symbol) (kind : symbol.kind = .var)
    (indexed : ∀ fuel, mid.length < fuel →
      Gives Failure.IsDeep r (indexLoop (nested.conditional scope) fuel
        { expr := .cell .static index, ty := symbol.ty }) mid rest typed True) :
    Gives Rejection.IsDeep r (primary (nested.conditional scope) side scope) text rest typed
      True := by
  refine .close (.after (fun _ => named.orPass.certain _) ?_)
  refine .after (fun _ => registry_at) ?_
  simp only [Option.bind_some, found, kind, Symbol.Kind.isFunction, Bool.false_eq_true, if_false,
    reduceCtorEq]
  exact after_remaining (indexed _ (Nat.lt_succ_self _))

theorem primary_gives {name : String} {index : Nat} {symbol : Symbol}
    (named : Gives Rejection.IsDeep r (identifier scope .inherited) text rest (name, some index)
      True)
    (found : r.get? index = some symbol) (kind : symbol.kind = .var)
    (noIndex : rest.head? ≠ some '[') :
    Gives Rejection.IsDeep r (primary (nested.conditional scope) side scope) text rest
      { expr := .cell .static index, ty := symbol.ty } True :=
  primary_gives_indexed named found kind fun _ _ => indexLoop_ends noIndex

end Places

end StackScript.Grammar
