import StackScript.Proofs.Machine.Missing
import StackScript.Proofs.Resolution.Growth
import StackScript.Proofs.Tree.Confinement

namespace StackScript

/-! The records that code looks up in the active frame. Besides those that it names by `putDAddr`,
a function looks up only such as it allocates itself, and the code outside of functions none. -/

variable {unit : CodeUnit} {r : Registry} {i : Instruction} {index : UInt32}
variable {resets cells : List Nat} {outlines outlines' : List (List Nat)}

theorem CodeUnit.Describes.data (describes : unit.Describes r) {symbol : Nat} {s : Symbol}
    (found : r.get? symbol = some s) (isStatic : s.kind.isStatic = true) :
    (unit.table[(UInt32.ofNat symbol).toNat]?).map Entry.storage = some .data := by
  obtain ⟨entry, listed, -, data, -⟩ := describes.entry symbol s found
  rw [describes.toNat found, listed, Option.map_some, data isStatic]

theorem Expr.Emits.seeks (emits : Emits r i) (describes : unit.Describes r)
    (sought : i.seeks? unit.table = some index) : i = .putDAddr index := by
  cases emits with
  | operation operation =>
      cases i with
      | putAddr _ | putDAddr _ | syscall _ _ | ret _ | initVar _ => cases operation
      | _ => cases sought
  | static found isStatic =>
      rw [Instruction.seeks?, if_pos (describes.data found isStatic)] at sought
      cases sought
  | dynamic symbol =>
      cases sought
      rfl

namespace Stmt

theorem Emits.seeks (emits : Emits r resets i) (describes : unit.Describes r)
    (sought : i.seeks? unit.table = some index) :
    i = .putDAddr index ∨ ∃ cell ∈ resets, i = .initVar (UInt32.ofNat cell) ∧
      index = UInt32.ofNat cell := by
  rcases emits with emits | ⟨cell, member, rfl⟩
  · exact .inl (emits.seeks describes sought)
  · refine .inr ⟨cell, member, rfl, ?_⟩
    rw [Instruction.seeks?] at sought
    split at sought <;> cases sought
    rfl

/-- Code that resets cells of the whole run looks up only what it names. -/
theorem Emits.seeks_named (emits : Emits r resets i) (describes : unit.Describes r)
    (static : ∀ cell ∈ resets, ∃ s, r.get? cell = some s ∧ s.kind.isStatic = true)
    (sought : i.seeks? unit.table = some index) : i = .putDAddr index := by
  rcases emits.seeks describes sought with named | ⟨cell, member, rfl, -⟩
  · exact named
  · obtain ⟨s, found, isStatic⟩ := static cell member
    rw [Instruction.seeks?, if_pos (describes.data found isStatic)] at sought
    cases sought

mutual

theorem resets_subset : (stmt : Stmt) → stmt.Tidy → stmt.resets ⊆ stmt.locals
  | .assign _ _ _, _ => List.nil_subset _
  | .declare _, _ => List.nil_subset _
  | .block _ _ body, ⟨subset, tidy⟩ => List.append_subset.mpr ⟨subset, resetsOf_subset body tidy⟩
  | .function _ _ _ _, _ => List.nil_subset _

theorem resetsOf_subset : (stmts : List Stmt) → TidyAll stmts → resetsOf stmts ⊆ localsOf stmts
  | [], _ => List.nil_subset _
  | stmt :: rest, ⟨first, others⟩ =>
      List.append_subset.mpr
        ⟨List.subset_append_of_subset_left _ (resets_subset stmt first),
          List.subset_append_of_subset_right _ (resetsOf_subset rest others)⟩

end

end Stmt

/-! Functions. -/

/-- What a function emits that allocates some cells. -/
inductive Routine.Emits (r : Registry) (cells : List Nat) : Instruction → Prop
  | inline {i : Instruction} (emits : Stmt.Emits r cells i) : Emits r cells i
  | allocates {i : Instruction} (named : i.allocates?.isSome = true) : Emits r cells i
  | syscall {cell : Nat} (member : cell ∈ cells) (name : String) :
      Emits r cells (.syscall (UInt32.ofNat cell) name)
  | ret {cell : Nat} (member : cell ∈ cells) : Emits r cells (.ret (UInt32.ofNat cell))

theorem Routine.Emits.seeks (emits : Routine.Emits r cells i) (describes : unit.Describes r)
    (inside : ∀ cell ∈ cells, cell < r.size) (sought : i.seeks? unit.table = some index) :
    i = .putDAddr index ∨ index.toNat ∈ cells := by
  have own {cell : Nat} (member : cell ∈ cells) : (UInt32.ofNat cell).toNat ∈ cells := by
    rwa [UInt32.toNat_ofNat_of_lt' (Nat.lt_of_lt_of_le (inside cell member) describes.size)]
  cases emits with
  | inline emits =>
      refine (emits.seeks describes sought).imp_right ?_
      rintro ⟨cell, member, -, rfl⟩
      exact own member
  | allocates named =>
      cases i with
      | allocVar _ | allocVars _ => cases sought
      | _ => cases named
  | syscall member name =>
      cases sought
      exact .inr (own member)
  | ret member =>
      cases sought
      exact .inr (own member)

/-- The code of a function that allocates the cells of one of the outlines. -/
def Routine.Keeps (r : Registry) (outlines : List (List Nat)) (r' : Routine) : Prop :=
  ∃ outline ∈ outlines, outline.head? = some r'.symbol ∧ ∀ i ∈ r'.listing, Emits r outline i

theorem Routine.Keeps.mono {r' : Routine} (keeps : r'.Keeps r outlines)
    (subset : outlines ⊆ outlines') : r'.Keeps r outlines' := by
  obtain ⟨outline, member, head, emits⟩ := keeps
  exact ⟨outline, subset member, head, emits⟩

namespace Stmt

theorem routine_emits {scope : Scope} (symbol : Nat) (params : List Nat) {body : List Stmt}
    (all : TypedAll r scope body) (tidy : TidyAll body) :
    ∀ i ∈ (routine symbol params body).listing,
      Routine.Emits r (outline symbol params body) i := by
  have own : localsOf body ⊆ outline symbol params body :=
    List.subset_cons_of_subset _ (List.subset_append_right _ _)
  intro i member
  simp only [routine, List.mem_append, List.mem_singleton, List.mem_map] at member
  rcases member with (((rfl | ⟨param, -, rfl⟩) | ⟨cell, -, rfl⟩) | line) | rfl
  · exact .allocates rfl
  · exact .allocates rfl
  · exact .allocates rfl
  · exact .inline ((emitsOf body all i line).mono
      (List.Subset.trans (resetsOf_subset body tidy) own))
  · exact .ret List.mem_cons_self

mutual

theorem routines_keep {scope : Scope} : (stmt : Stmt) → stmt.Typed r scope → stmt.Tidy →
    ∀ r' ∈ stmt.routines, r'.Keeps r stmt.outlines
  | .assign _ _ _, _, _ => List.forall_mem_nil _
  | .declare _, _, _ => List.forall_mem_nil _
  | .block _ _ body, ⟨_, _, all⟩, ⟨_, tidy⟩ => routinesOf_keep body all tidy
  | .function _ symbol params body, ⟨_, _, _, _, all⟩, tidy =>
      List.forall_mem_cons.mpr
        ⟨⟨_, List.mem_cons_self, rfl, routine_emits symbol params all tidy⟩,
          fun r' member =>
            (routinesOf_keep body all tidy r' member).mono (List.subset_cons_self _ _)⟩

theorem routinesOf_keep {scope : Scope} : (stmts : List Stmt) → TypedAll r scope stmts →
    TidyAll stmts → ∀ r' ∈ routinesOf stmts, r'.Keeps r (outlinesOf stmts)
  | [], _, _ => List.forall_mem_nil _
  | stmt :: rest, ⟨first, others⟩, ⟨tidy, tidies⟩ =>
      List.forall_mem_append.mpr
        ⟨fun r' here => (routines_keep stmt first tidy r' here).mono (List.subset_append_left _ _),
          fun r' there =>
            (routinesOf_keep rest others tidies r' there).mono (List.subset_append_right _ _)⟩

end

end Stmt

end StackScript
