import StackScript.Proofs.Grammar.Signature
import StackScript.Proofs.Program

namespace StackScript.Source

/-! Programs that consist of a function with an empty body: its parameters and the function itself
are in the variable table with the types that were written. -/

open Compilation Grammar

theorem Name.text_ne {reserved : String} (name : Name) (known : IsReserved reserved.toList) :
    name.text ≠ reserved := by
  rintro rfl
  rw [Name.text, String.toList_ofList] at known
  exact name.free known

namespace Signature

variable (signature : Signature)

/-- Parameters are new if they differ, and the function is if it is not built in. -/
structure Declarable : Prop where
  distinct : (signature.params.map fun param => param.name.text).Nodup
  new : ∀ builtin : Builtin, builtin.name ≠ signature.name.text

/-- The records of the parameters in their order, and of the function, behind those that every
variable table has. -/
structure Tabulated (table : List Entry) : Prop where
  length : table.length = initialRegistry.size + signature.params.length + 1
  params : ∀ i param, signature.params[i]? = some param →
    ∃ entry, table[initialRegistry.size + i]? = some entry ∧ entry.storage = .ddata ∧
      entry.qualifiedName = "0." ++ signature.name.text ++ "." ++ param.name.text ∧
      entry.ty = param.ty
  function : ∃ entry code, table[initialRegistry.size + signature.params.length]? = some entry ∧
    entry.storage = .function (signature.params.map Parameter.ty) code ∧
    entry.qualifiedName = "0." ++ signature.name.text ∧ entry.ty = signature.ty

variable {signature}

theorem Declarable.fresh (declarable : signature.Declarable) :
    (Scope.root, signature.name.text) ∉ initialRegistry.declarations := by
  intro declared
  have names : signature.name.text ∈ ["true", "false", "sin", "cos"] := by
    change (Scope.root, signature.name.text) ∈ [(Scope.root, "true"), (.root, "false"),
      (.root, "sin"), (Scope.root.child "sin", "x"), (.root, "cos"), (Scope.root.child "cos", "x")]
      at declared
    simpa [Scope.root, Scope.child] using declared
  simp only [List.mem_cons, List.not_mem_nil, or_false] at names
  rcases names with same | same | same | same
  · exact signature.name.text_ne (by decide) same
  · exact signature.name.text_ne (by decide) same
  · exact declarable.new .sin same.symm
  · exact declarable.new .cos same.symm

theorem Declarable.inside (declarable : signature.Declarable) (name : String) :
    (signature.inside, name) ∉ initialRegistry.declarations := by
  intro declared
  change (signature.inside, name) ∈ [(Scope.root, "true"), (.root, "false"),
    (.root, "sin"), (Scope.root.child "sin", "x"), (.root, "cos"), (Scope.root.child "cos", "x")]
    at declared
  have names : signature.name.text = "sin" ∧ name = "x" ∨
      signature.name.text = "cos" ∧ name = "x" := by
    simpa [Signature.inside, Scope.root, Scope.child] using declared
  rcases names with ⟨same, -⟩ | ⟨same, -⟩
  · exact declarable.new .sin same.symm
  · exact declarable.new .cos same.symm

theorem program_reads (declarable : signature.Declarable) :
    Meets (At initialRegistry signature.source) program
      (fun stmts state => stmts = [functionStatement initialRegistry signature] ∧
        AddsFunction initialRegistry signature state) fun _ _ => False := by
  unfold program statements
  refine after_remaining ?_
  have plain : signature.source.dropWhile Cursor.isSpace = signature.source := rfl
  refine statementsLoop_first plain (List.cons_ne_nil _ _) (statement_adds_function signature
    declarable.distinct declarable.fresh fun param _ => declarable.inside _) ?_
  rintro state ⟨symbols, place, matched, behind⟩
  refine (Meets.mono (statementsLoop_ends.certain _) (fun _ start => start) ?_
    fun _ _ impossible => impossible) state behind
  rintro stmts state ⟨rfl, ends⟩
  exact ⟨rfl, symbols, place, matched, ends⟩

/-- The symbols of the program, of which only the places in the text are left open. -/
theorem compile_source (declarable : signature.Declarable) :
    ∃ symbols place, List.Forall₂ (DeclaredAs signature.inside) signature.params symbols ∧
      compile (String.ofList signature.source) =
        .success (assemble ((initialRegistry.pushAll symbols).push (functionSymbol signature place))
          [functionStatement initialRegistry signature]) := by
  have start : At initialRegistry signature.source
      { cursor := .ofSource (String.ofList signature.source), registry := initialRegistry } :=
    ⟨rfl, String.toList_ofList⟩
  obtain ⟨stmts, state, run, rfl, symbols, place, matched, behind⟩ :=
    (program_reads declarable).exists_ok start
  refine ⟨symbols, place, matched, ?_⟩
  simp only [compile, run, behind.registry_eq]

theorem tabulated_assemble {symbols : List Symbol} {place : Position} (stmts : List Stmt)
    (matched : List.Forall₂ (DeclaredAs signature.inside) signature.params symbols) :
    signature.Tabulated
      (assemble ((initialRegistry.pushAll symbols).push (functionSymbol signature place))
        stmts).table := by
  have size : (initialRegistry.pushAll symbols).size =
      initialRegistry.size + signature.params.length := size_pushAll matched
  constructor
  · rw [length_table, Registry.size_push, size]
  · intro i param found
    obtain ⟨inside, rfl⟩ := List.getElem?_eq_some_iff.mp found
    have there : i < symbols.length := matched.length_eq ▸ inside
    obtain ⟨place', declared⟩ := matched.get inside there
    have known : ((initialRegistry.pushAll symbols).push (functionSymbol signature place)).get?
        (initialRegistry.size + i) = some symbols[i] := by
      rw [← List.getElem?_eq_getElem there, ← Registry.get?_pushAll]
      apply List.getElem?_append_left
      change _ < (initialRegistry.pushAll symbols).size
      rw [size]
      exact Nat.add_lt_add_left inside _
    obtain ⟨code, listed, -⟩ := table_getElem? stmts known
    change symbols[i] = _ at declared
    rw [declared] at listed
    refine ⟨_, listed, rfl, ?_, rfl⟩
    change signature.inside.render ++ "." ++ _ = _
    rw [Signature.inside, Scope.render_child]
    rfl
  · have known : ((initialRegistry.pushAll symbols).push (functionSymbol signature place)).get?
        (initialRegistry.size + signature.params.length) =
          some (functionSymbol signature place) := by
      rw [← size]
      exact List.getElem?_concat_length
    obtain ⟨code, listed, -⟩ := table_getElem? stmts known
    exact ⟨_, _, listed, rfl, rfl, rfl⟩

/-- Whatever types are written, in any case of letters and with any blanks, the program compiles and
its variable table has them. -/
theorem compile_tabulated (signature : Signature) (declarable : signature.Declarable) :
    ∃ unit, compile (String.ofList signature.source) = .success unit ∧
      signature.Tabulated unit.table := by
  obtain ⟨symbols, place, matched, compiled⟩ := compile_source declarable
  exact ⟨_, compiled, tabulated_assemble _ matched⟩

theorem nested_typeText :
    TypeText (.array [.int, .str] (.array [.bool] .float))
      "ARRAY [Int,\tstring]of array[BooLean ] OF fLoat".toList := by
  have element : TypeText (.array [.bool] .float) (' ' :: "array".toList ++ ([] ++
      '[' :: ("BooLean".toList ++ ([' '] ++ ']' :: (' ' :: "OF".toList ++
        ' ' :: "fLoat".toList))))) :=
    .array (.behind blank_space rfl) blank_nil (.last (.of_letters rfl)) blank_space
      (.behind blank_space rfl) rfl (.scalar (.behind blank_space rfl))
  have tab : Blank ['\t'] := List.forall_mem_singleton.mpr rfl
  have indexes : IndexText [.int, .str] ("Int".toList ++ ([] ++ ',' :: '\t' :: "string".toList)) :=
    .more (.of_letters rfl) blank_nil (.last (.behind tab rfl))
  have keyword : Spelled "array".toList "ARRAY".toList := .of_letters rfl
  have preposition : Spelled "of".toList "of".toList := .of_letters rfl
  exact .array keyword blank_space indexes blank_nil preposition rfl element

/-- Two parameters, of which one is an array of arrays. -/
def nested : Signature where
  name := ⟨['f'], rfl, by decide⟩
  listed := some
    [⟨⟨['a'], rfl, by decide⟩, _, _, nested_typeText⟩,
      ⟨⟨['x'], rfl, by decide⟩, .bool, "boolean".toList, .scalar (.of_letters rfl)⟩]
  ty := .str
  written := "String".toList
  spells := .scalar (.of_letters rfl)

theorem nested_compile_tabulated :
    nested.Declarable ∧ nested.source = ("function f(" ++
      "ARRAY [Int,\tstring]of array[BooLean ] OF fLoat a, boolean x) of String \x7b \x7d").toList ∧
    ∃ unit, compile (String.ofList nested.source) = .success unit ∧
      nested.Tabulated unit.table := by
  have declarable : nested.Declarable := by
    constructor
    · decide
    · rintro (_ | _) <;> decide
  exact ⟨declarable, by decide, compile_tabulated nested declarable⟩

end Signature

end StackScript.Source
