import StackScript.Source.Position
import StackScript.Symbol.NameIndex
import StackScript.Symbol.Scope
import StackScript.Ty.Basic

namespace StackScript

/-! The symbols that a compilation has declared so far. The place of a symbol in the registry is
its number in the variable table. -/

inductive Symbol.Kind where
  | builtinVar
  | var
  | dynamicVar
  | builtinFn
  | fn
  deriving DecidableEq, Repr

def Symbol.Kind.isFunction : Symbol.Kind → Bool
  | .builtinFn | .fn => true
  | _ => false

structure Symbol where
  kind : Symbol.Kind
  scope : Scope
  name : String
  ty : Ty
  /-- Parameter types of a function. -/
  params : List Ty
  declaredAt : Position
  /-- Where the code of a function starts, once it is known. -/
  code : Option UInt32
  deriving DecidableEq, Repr

def Symbol.declare (kind : Symbol.Kind) (scope : Scope) (name : String) (ty : Ty) : Symbol where
  kind := kind
  scope := scope
  name := name
  ty := ty
  params := []
  declaredAt := .start
  code := none

/-- Which declarations a look-up sees: those of one scope, or also those around it. -/
inductive Lookup where
  | exact
  | inherited
  deriving DecidableEq, Repr

/-- The symbols, and under each name the numbers of those that have it. -/
structure Registry where
  symbols : List Symbol
  byName : NameIndex
  inStep : byName.InStep (symbols.map Symbol.name)
  deriving DecidableEq, Repr

namespace Registry

def empty : Registry where
  symbols := []
  byName := .empty
  inStep := NameIndex.inStep_empty

def size (r : Registry) : Nat :=
  r.symbols.length

def get? (r : Registry) (index : Nat) : Option Symbol :=
  r.symbols[index]?

/-- The symbols that have a name, with their numbers. -/
def candidates (r : Registry) (name : String) : List (Nat × Symbol) :=
  (r.byName.places name).filterMap fun index => (r.get? index).map fun symbol => (index, symbol)

/-- Of two candidates the one in the deeper scope, and the later one at equal depth. -/
def deeper (best : Option (Nat × Symbol)) (candidate : Nat × Symbol) : Option (Nat × Symbol) :=
  match best with
  | none => some candidate
  | some found =>
      if found.2.scope.depth ≤ candidate.2.scope.depth then some candidate else some found

/-- The declaration of a name in a scope, or the innermost one that is visible from it. -/
def find? (r : Registry) (name : String) (scope : Scope) : Lookup → Option Nat
  | .exact =>
      ((r.candidates name).find? fun candidate => candidate.2.scope = scope).map Prod.fst
  | .inherited =>
      let visible := (r.candidates name).filter fun candidate => scope.within candidate.2.scope
      (visible.foldl deeper none).map Prod.fst

def push (r : Registry) (symbol : Symbol) : Registry where
  symbols := r.symbols ++ [symbol]
  byName := r.byName.push symbol.name r.size
  inStep := by
    have pushed := r.inStep.push symbol.name
    rwa [List.length_map, ← List.map_singleton, ← List.map_append] at pushed

def ofSymbols (symbols : List Symbol) : Registry :=
  symbols.foldl push empty

/-- Adds a symbol and gives its number, or the number of the symbol that is in its way. -/
def add (r : Registry) (symbol : Symbol) : Except Nat (Nat × Registry) :=
  match r.find? symbol.name symbol.scope .exact with
  | some existing => .error existing
  | none => .ok (r.size, r.push symbol)

theorem map_name_modify (symbols : List Symbol) (index : Nat) (code : UInt32) :
    (symbols.modify index fun s => { s with code := some code }).map Symbol.name =
      symbols.map Symbol.name := by
  refine List.ext_getElem? fun place => ?_
  rw [List.getElem?_map, List.getElem?_modify, List.getElem?_map, Option.map_eq_map, Option.map_map]
  refine Option.map_congr fun s _ => ?_
  rw [Function.comp_apply, apply_ite Symbol.name, ite_self]

/-- Sets where the code of a function starts; an unknown number is ignored. -/
def setCode (r : Registry) (index : Nat) (code : UInt32) : Registry where
  symbols := r.symbols.modify index fun s => { s with code := some code }
  byName := r.byName
  inStep := by
    rw [map_name_modify]
    exact r.inStep

/-- Numbers of the static and dynamic variables declared in exactly this scope. -/
def declaredIn (r : Registry) (scope : Scope) : List Nat :=
  ((r.symbols.mapIdx fun index symbol => (index, symbol)).filter fun candidate =>
    (candidate.2.kind = .var || candidate.2.kind = .dynamicVar) &&
      candidate.2.scope = scope).map Prod.fst

end Registry

end StackScript
