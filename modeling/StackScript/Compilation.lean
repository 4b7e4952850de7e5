import StackScript.Grammar.Statement
import StackScript.Machine.Run
import StackScript.Tree.Code

namespace StackScript

/-! Compilation of a source text to a linked program. -/

/-- The outcome of a compilation: a program, or the tree of what failed. -/
inductive Compilation where
  | success (unit : CodeUnit)
  | failure (diagnostic : Diagnostic)

namespace Compilation

/-- Symbols that every program has: the truth values, then each builtin function followed by its
parameter. -/
def builtinSymbols : List Symbol :=
  [Symbol.declare .builtinVar .root "true" .bool, Symbol.declare .builtinVar .root "false" .bool] ++
    Builtin.all.flatMap fun builtin =>
      [{ Symbol.declare .builtinFn .root builtin.name .float with params := [.float] },
        Symbol.declare .dynamicVar (Scope.root.child builtin.name) "x" .float]

def trueSymbol : Nat := 0

def falseSymbol : Nat := 1

/-- A builtin function stands in front of its parameter. -/
def builtinFunctions : List (Nat × Nat × Builtin) :=
  [(2, 3, .sin), (4, 5, .cos)]

def initialRegistry : Registry :=
  .ofSymbols builtinSymbols

/-- A builtin function hands its parameter to the machine and stores the result. -/
def builtinUnit (function param : Nat) (builtin : Builtin) : CodeUnit :=
  (CodeUnit.ofInstructions
    [.allocVar (UInt32.ofNat function), .allocVars (UInt32.ofNat param),
      .putDAddr (UInt32.ofNat function), .syscall (UInt32.ofNat param) builtin.name,
      .assign .set, .ret (UInt32.ofNat function)]).addFunction function 0

def builtinUnits : List (Nat × Nat × Builtin) → CodeUnit
  | [] => .empty
  | (function, param, builtin) :: rest => builtinUnit function param builtin ++ builtinUnits rest

/-- What runs before the statements: global variables are reset, and the truth values set. -/
def prologue (globals : List Nat) : CodeUnit :=
  .ofInstructions
    (globals.map (fun symbol => .initVar (UInt32.ofNat symbol)) ++
      [.putAddr (UInt32.ofNat trueSymbol), .putBoolean true, .assign .set,
        .putAddr (UInt32.ofNat falseSymbol), .putBoolean false, .assign .set])

/-- The code of a program without its variable table. -/
def link (registry : Registry) (stmts : List Stmt) : CodeUnit :=
  let emission := Stmt.emissionOf stmts
  prologue (registry.declaredIn .root) ++ (emission.inline ++ .single .stop) ++
    (builtinUnits builtinFunctions ++ emission.functions)

def entryOf (symbol : Symbol) : Entry where
  storage :=
    match symbol.kind with
    | .builtinVar | .var => .data
    | .dynamicVar => .ddata
    | .builtinFn | .fn => .function symbol.params (symbol.code.getD 0)
  name := symbol.name
  scope := symbol.scope.render
  ty := symbol.ty

/-- The symbols with the places where functions start. -/
def resolve (registry : Registry) (functions : List FunctionRef) : Registry :=
  functions.foldl (fun r f => r.setCode f.symbol (UInt32.ofNat f.offset)) registry

def assemble (registry : Registry) (stmts : List Stmt) : CodeUnit :=
  let unit := link registry stmts
  { unit with table := (resolve registry unit.functions).symbols.map entryOf }

end Compilation

/-- Compiles a source text. The root of the tree of a failure stands at the start of the text. -/
def compile (source : String) : Compilation :=
  let start : Grammar.ParseState :=
    { cursor := .ofSource source, registry := Compilation.initialRegistry }
  match Grammar.program start with
  | .ok stmts state => .success (Compilation.assemble state.registry stmts)
  | .error r _ => .failure (.failure .start .error r.nodes)

namespace Compilation

/-- The tree of diagnostics, which has a single node after a success. -/
def diagnostic : Compilation → Diagnostic
  | .success _ => .leaf .start .ok
  | .failure d => d

/-- The program, which is empty after a failure. -/
def unit : Compilation → CodeUnit
  | .success unit => unit
  | .failure _ => .empty

end Compilation

/-- Compiles and runs a source text, or reports why it does not compile. -/
def run (source file : String) : Except Report Execution :=
  match compile source with
  | .success unit => .ok (Execution.of unit)
  | .failure d => .error (d.report file source)

end StackScript
