import StackScript.Proofs.Resolution.Statement
import StackScript.Proofs.Soundness

namespace StackScript

/-! Every name in a source text that compiles is resolved to its innermost visible declaration. -/

open Source Compilation

variable {source : String} {unit : CodeUnit} {r : Registry} {stmts : List Stmt}

namespace Compilation

theorem initial_distinct : initialRegistry.declarations.Nodup := by
  decide +kernel

theorem initial_fresh : Fresh initialRegistry.declarations .root 0 where
  named := by
    have words : ∀ d ∈ initialRegistry.declarations, Grammar.isName d.2.toList = true := by
      decide +kernel
    intro d member n
    rw [← String.ofList_toList (s := d.2)]
    exact Grammar.ne_toString_of_isName (words d member) n
  inside := by
    have scopes : ∀ d ∈ initialRegistry.declarations,
        d.1 = .root ∨ d.1 ∈ ["sin", "cos"].map Scope.root.child := by
      decide +kernel
    have functions : ∀ name ∈ ["sin", "cos"],
        (Scope.root, name) ∈ initialRegistry.declarations := by
      decide +kernel
    intro d member segment within
    rcases scopes d member with here | deeper
    · rw [here] at within
      exact absurd within (Scope.root.not_within_child segment)
    · obtain ⟨name, builtin, here⟩ := List.mem_map.mp deeper
      rw [← here] at within
      rw [← Scope.segment_eq (Scope.within_self _) within]
      exact .inl (functions name builtin)

theorem setCode_declarations (r : Registry) (index : Nat) (code : UInt32) :
    (r.setCode index code).declarations = r.declarations := by
  apply List.ext_getElem?
  intro place
  simp only [Registry.declarations, Registry.setCode, List.getElem?_map, List.getElem?_modify]
  cases r.symbols[place]? with
  | none => rfl
  | some s =>
      by_cases same : index = place
      · simp [same]
      · simp [same]

theorem resolve_declarations (r : Registry) (functions : List FunctionRef) :
    (resolve r functions).declarations = r.declarations := by
  induction functions generalizing r with
  | nil => rfl
  | cons f functions induction =>
      exact (induction _).trans (setCode_declarations r f.symbol (UInt32.ofNat f.offset))

theorem table_declares (r : Registry) (stmts : List Stmt) :
    (assemble r stmts).table.map (fun entry => (entry.scope, entry.name)) =
      r.declarations.map fun d => (d.1.render, d.2) := by
  rw [← resolve_declarations r (link r stmts).functions, Registry.declarations, List.map_map,
    assemble, List.map_map]
  rfl

/-- The prologue names the truth values, and each builtin function its own result. -/
theorem named_listing (r : Registry) (stmts : List Stmt) :
    Listing.named (listing r stmts) =
      ([0, 1] ++ Stmt.symbolsOf stmts ++ ([2, 4] ++ Stmt.innerOf stmts)).map UInt32.ofNat := by
  simp only [listing, prologueListing, routines, Listing.named_append, Stmt.named_listingOf,
    Routine.code_append, Stmt.named_routinesOf, List.map_append,
    Listing.named_map (fun symbol => .initVar (UInt32.ofNat symbol)) (fun _ => rfl)]
  have last : Listing.named [.stop] = [] := rfl
  rw [last, List.append_nil, List.nil_append]
  rfl

end Compilation

/-- The names in a source text, those in line and those in functions, with what the instructions
hold that are emitted for them. The prologue names the truth values, and each builtin function names
its result. -/
structure NamesResolved (source : String) (unit : CodeUnit) (listing : Listing)
    (added : List Declaration) (inline functions : List Occurrence) (lines cells : List Nat) :
    Prop where
  passage : Passage .root 0 initialRegistry.declarations source.toList added inline functions []
  table : unit.table.map (fun entry => (entry.scope, entry.name)) =
    (initialRegistry.declarations ++ added).map fun d => (d.1.render, d.2)
  code : unit.code = listing.bytes 0
  named : listing.named = ([0, 1] ++ lines ++ ([2, 4] ++ cells)).map UInt32.ofNat
  lines_denoted : List.Forall₂ Occurrence.Denotes inline lines
  cells_denoted : List.Forall₂ Occurrence.Denotes functions cells

/-- What a program that compiles has read in the whole text. -/
theorem Compiled.reads (compiled : Compiled source r stmts unit) :
    ∃ added inline functions, Grammar.ReadsStatements initialRegistry .static .root 0 source.toList
      stmts r [] added inline functions := by
  obtain ⟨state, rfl, run⟩ := compiled.read
  have done := Grammar.program_reads initial_distinct initial_fresh
    { cursor := .ofSource source, registry := initialRegistry } ⟨rfl, rfl⟩
  rw [run] at done
  obtain ⟨r, rest, there, rfl, added, inline, functions, read⟩ := done
  obtain rfl := there.registry_eq
  exact ⟨added, inline, functions, read⟩

theorem Compiled.namesResolved (compiled : Compiled source r stmts unit) :
    ∃ added inline functions, NamesResolved source unit (listing r stmts) added inline functions
      (Stmt.symbolsOf stmts) (Stmt.innerOf stmts) := by
  obtain ⟨added, inline, functions, read⟩ := compiled.reads
  obtain rfl := compiled.linked
  exact ⟨added, inline, functions, {
    passage := read.passage
    table := by rw [table_declares, read.grows.declarations_eq]
    code := (link_holds r stmts).code
    named := named_listing r stmts
    lines_denoted := read.named
    cells_denoted := read.defined }⟩

/-- Whatever compiles, each name in the text denotes the innermost declaration so far that is
visible when all dots around it count. -/
theorem names_resolved (success : compile source = .success unit) :
    ∃ r stmts added inline functions, Compiled source r stmts unit ∧
      NamesResolved source unit (listing r stmts) added inline functions (Stmt.symbolsOf stmts)
        (Stmt.innerOf stmts) := by
  obtain ⟨r, stmts, compiled⟩ := exists_compiled success
  obtain ⟨added, inline, functions, resolved⟩ := compiled.namesResolved
  exact ⟨r, stmts, added, inline, functions, compiled, resolved⟩

/-- A function with a variable of its own, in which a dot leads to the one around it. -/
theorem names_resolved_function :
    compile "int x function f(int y) of int \x7b int x f = .x + y \x7d x = f(2)" =
        .success (compile "int x function f(int y) of int \x7b int x f = .x + y \x7d x = f(2)").unit ∧
      ∃ r stmts added inline functions,
        Compiled "int x function f(int y) of int \x7b int x f = .x + y \x7d x = f(2)" r stmts
          (compile "int x function f(int y) of int \x7b int x f = .x + y \x7d x = f(2)").unit ∧
        NamesResolved "int x function f(int y) of int \x7b int x f = .x + y \x7d x = f(2)"
          (compile "int x function f(int y) of int \x7b int x f = .x + y \x7d x = f(2)").unit (listing r stmts)
          added inline functions (Stmt.symbolsOf stmts) (Stmt.innerOf stmts) := by
  have success : compile "int x function f(int y) of int \x7b int x f = .x + y \x7d x = f(2)" =
      .success (compile "int x function f(int y) of int \x7b int x f = .x + y \x7d x = f(2)").unit :=
    Compilation.eq_success (by decide +kernel)
  exact ⟨success, names_resolved success⟩

/-- The index behind the name with a dot is looked up without the innermost scope, although there
is no dot in front of it. -/
theorem index_behind_dot_outer :
    ∃ scope declared, scope = Scope.root.child "0" ∧
      declared = initialRegistry.declarations ++ [(.root, "a"), (.root, "i"), (scope, "i")] ∧
      Passage .root 0 initialRegistry.declarations
        "array [int] of int a int i \x7b int i i = 1 .a[i] = 7 \x7d".toList
        [(.root, "a"), (.root, "i"), (scope, "i")]
        [{ scope, dots := 0, around := 0, word := "i", declared },
          { scope, dots := 1, around := 0, word := "a", declared },
          { scope, dots := 0, around := 1, word := "i", declared }] [] [] ∧
      (∃ sites,
        (compile "array [int] of int a int i \x7b int i i = 1 .a[i] = 7 \x7d").unit.instructions? =
          some sites ∧
        sites.filterMap (fun site => site.2.named?) = [0, 1, 8, 6, 7, 2, 4]) ∧
      (∃ outer, Innermost declared (Grammar.reduceBy scope 0) "i" 8 outer) ∧
      ¬ ∃ outer, Innermost declared (Grammar.reduceBy scope 0) "i" 7 outer := by
  have text : "array [int] of int a int i \x7b int i i = 1 .a[i] = 7 \x7d".toList =
      ['a', 'r', 'r', 'a', 'y', ' ', '[', 'i', 'n', 't', ']', ' ', 'o', 'f', ' ', 'i', 'n',
        't', ' ', 'a', ' ', 'i', 'n', 't', ' ', 'i', ' ', '\x7b', ' ', 'i', 'n', 't', ' ', 'i',
        ' ', 'i', ' ', '=', ' ', '1', ' ', '.', 'a', '[', 'i', ']', ' ', '=', ' ', '7', ' ',
        '\x7d'] := by
    decide +kernel
  have emitted : ((compile "array [int] of int a int i \x7b int i i = 1 .a[i] = 7 \x7d").unit.instructions?.map
      fun sites => sites.filterMap fun site => site.2.named?) = some [0, 1, 8, 6, 7, 2, 4] := by
    decide +kernel
  refine ⟨_, _, rfl, rfl, ?_, Option.map_eq_some_iff.mp emitted, ?_, ?_⟩
  · have space : Blank [' '] := by decide
    have nothing : Blank [] := nofun
    have a {rest : List Char} (ends : Cursor.isTerminal rest = true) : Names ['a'] rest :=
      ⟨by decide, by decide, ends⟩
    have i {rest : List Char} (ends : Cursor.isTerminal rest = true) : Names ['i'] rest :=
      ⟨by decide, by decide, ends⟩
    have int {words : List String} {rest : List Char} (member : "int" ∈ words)
        (ends : Cursor.isTerminal rest = true) : Keyword words ('i' :: 'n' :: 't' :: rest) rest :=
      @Keyword.word _ ['i', 'n', 't'] rest member ends
    have scalar : "int" ∈ scalarNames := by decide
    have digit {c : Char} {rest : List Char} (digit : c.isDigit = true)
        (ends : Cursor.isTerminal rest = true) : Constant (c :: rest) rest :=
      @Constant.integer [c] rest (List.cons_ne_nil c []) (List.forall_mem_singleton.mpr digit) ends
    have array {marks : List Char} {rest : List Char} :
        Token marks ["int", "float", "string", "boolean", "array", "of"]
          ('a' :: 'r' :: 'r' :: 'a' :: 'y' :: ' ' :: rest) (' ' :: rest) :=
      .keyword (@Keyword.word _ ['a', 'r', 'r', 'a', 'y'] _ (by decide) rfl)
    have of {marks : List Char} {rest : List Char} :
        Token marks ["int", "float", "string", "boolean", "array", "of"]
          ('o' :: 'f' :: ' ' :: rest) (' ' :: rest) :=
      .keyword (@Keyword.word _ ['o', 'f'] _ (by decide) rfl)
    rw [text]
    refine .declaration ⟨.head array <| .head (.space rfl) <| .head (.mark (by decide)) <|
      .head (.keyword (int (by decide) rfl)) <| .head (.mark (by decide)) <| .head (.space rfl) <|
      .head of <| .single (.space rfl), int scalar rfl, space, a rfl⟩ ?_
    refine .declaration ⟨.single (.space rfl), int scalar rfl, space, i rfl⟩ ?_
    refine @Passage.block _ _ _ [_] [] [' '] _ [] _ [_, _, _] [] [] [] space ?_ (.done nothing)
    refine .declaration ⟨.single (.space rfl), int scalar rfl, space, i rfl⟩ ?_
    refine @Passage.assignment _ _ _ [] _ _ _ _ _ [_] [] [_, _] []
      (@Phrase.place _ _ _ 0 [' '] [] ['i'] _ _ [] space nothing (i rfl) .noIndexes)
      (@Operators.mark [' '] _ _ _ space (by decide) (.single (.space rfl)))
      (.constant (digit rfl rfl) (.done nothing)) ?_
    refine @Passage.assignment _ _ _ [] _ _ _ _ _ [_, _] [] [] []
      (@Phrase.place _ _ _ 1 [' '] [] ['a'] _ _ [_] space nothing (a rfl)
        (@Phrase.indexList _ _ _ _ _ _ [_] []
          (@Phrase.read _ _ _ _ _ _ [_] []
            (@Phrase.place _ _ _ 0 [] [] ['i'] _ _ [] nothing nothing (i rfl) .noIndexes)
            (.done nothing))
          .noIndexes))
      (@Operators.mark [' '] _ _ _ space (by decide) (.single (.space rfl)))
      (.constant (digit rfl rfl) (.done nothing)) ?_
    exact .done space
  · let r : Registry :=
      .ofSymbols (builtinSymbols ++ [Symbol.declare .var .root "a" .int,
        Symbol.declare .var .root "i" .int, Symbol.declare .var (Scope.root.child "0") "i" .int])
    have found : r.find? "i" (Scope.root.child "0") .inherited = some 8 := by decide +kernel
    have distinct : r.declarations.Nodup := by decide +kernel
    exact Registry.find?_innermost distinct found
  · rintro ⟨outer, innermost⟩
    obtain rfl : outer = .root := (Prod.mk.inj (Option.some.inj innermost.found)).1.symm
    have shadowed := @Innermost.deepest _ _ _ _ _ innermost 8 (Scope.root.child "0") rfl
      (by decide) (by decide)
    exact absurd shadowed (by decide)

end StackScript
