import StackScript.CodeUnit.Listing
import StackScript.Proofs.Code.Sweep
import StackScript.Proofs.Instruction.Text
import StackScript.Proofs.Text.Lines

namespace StackScript.CodeUnit

/-! The lines of a listing: which of them are about code, and what can be told from their text. -/

variable {unit : CodeUnit} {line : String}

/-- The lines about code, one for each place. -/
def codeLines (unit : CodeUnit) : List String :=
  unit.sites.map fun place => siteLine place.1 place.2

/-- The number that a line starts with. -/
def offsetOf (line : String) : Nat :=
  Decimal.digitsValue (line.toList.takeWhile Char.isDigit)

/-- What a line says behind its first space. -/
def textOf (line : String) : Option (List Char) :=
  (Text.splitOnce ' ' line.toList).map Prod.snd

/-- A line about a byte from which nothing can be decoded. -/
def IsInvalidLine (line : String) : Prop :=
  ∃ offset byte, line = siteLine offset (.invalid byte)

/-- A line that announces a function. -/
def isLabel (line : String) : Bool :=
  line.toList.head? = some ';'

/-! The text of a line. -/

def offsetColumn (offset : Nat) : List Char :=
  List.replicate (4 - (toString offset).length) '0' ++ Nat.toDigits 10 offset

def Site.chars : Site → List Char
  | .instruction i => i.render.toList
  | .invalid byte => "<invalid 0x".toList ++ ((hexByte byte).toList ++ ['>'])

theorem toList_column (offset : Nat) :
    (Text.padLeft '0' 4 (toString offset)).toList = offsetColumn offset := by
  rw [Text.padLeft, String.toList_append, String.toList_ofList, offsetColumn, ← Nat.toList_repr]
  rfl

theorem toList_siteLine (offset : Nat) (site : Site) :
    (siteLine offset site).toList = offsetColumn offset ++ ' ' :: site.chars := by
  rw [← toList_column]
  cases site with
  | instruction i => exact Instruction.toList_line _ _
  | invalid byte =>
      have whole : siteLine offset (.invalid byte) = Text.padLeft '0' 4 (toString offset) ++
          " <invalid 0x" ++ hexByte byte ++ ">" := rfl
      rw [whole, String.toList_append, String.toList_append, String.toList_append,
        List.append_assoc, List.append_assoc]
      rfl

theorem isDigit_of_mem_offsetColumn {offset : Nat} :
    ∀ c ∈ offsetColumn offset, c.isDigit = true := by
  intro c member
  rcases List.mem_append.mp member with zero | digit
  · rw [(List.mem_replicate.mp zero).2]
    rfl
  · exact Decimal.isDigit_of_mem digit

theorem offsetOf_siteLine (offset : Nat) (site : Site) :
    offsetOf (siteLine offset site) = offset := by
  have space : ∀ c ∈ (' ' :: site.chars).head?, c.isDigit = false := by
    rintro c ⟨⟩
    rfl
  have digits : ∀ c ∈ offsetColumn offset, c.isDigit = true := isDigit_of_mem_offsetColumn
  rw [offsetOf, toList_siteLine, (Decimal.span_digits digits space).1, offsetColumn,
    Decimal.digitsValue_append, Decimal.digitsValue_zeros, Nat.zero_mul, Nat.zero_add,
    Decimal.digitsValue_toDigits]

theorem textOf_siteLine (offset : Nat) (site : Site) :
    textOf (siteLine offset site) = some site.chars := by
  have digits : ' ' ∉ offsetColumn offset := fun member => by
    cases isDigit_of_mem_offsetColumn _ member
  rw [textOf, toList_siteLine, Text.splitOnce_append digits]
  rfl

theorem isLabel_siteLine (offset : Nat) (site : Site) : isLabel (siteLine offset site) = false := by
  rw [isLabel, toList_siteLine, decide_eq_false_iff_not]
  intro first
  cases column : offsetColumn offset with
  | nil =>
      rw [column] at first
      cases first
  | cons c rest =>
      have digit := isDigit_of_mem_offsetColumn c (column ▸ List.mem_cons_self)
      rw [column] at first
      cases first
      cases digit

/-! No other line looks like one about an undecodable byte. -/

theorem head?_name (op : Opcode) (rest : List Char) :
    (op.name.toList ++ rest).head? ≠ some '<' := by
  have first : op.name.toList.head? ≠ some '<' := by cases op <;> decide
  rwa [List.head?_append_of_ne_nil _ op.name_solid.nonempty]

theorem head?_render (i : Instruction) : i.render.toList.head? ≠ some '<' := by
  rw [Instruction.toList_render]
  cases i.operandText? with
  | some text => exact head?_name i.opcode (' ' :: text)
  | none =>
      have first := head?_name i.opcode []
      rwa [List.append_nil] at first

theorem IsInvalidLine.text (invalid : IsInvalidLine line) :
    ∃ rest, textOf line = some ('<' :: rest) := by
  obtain ⟨offset, byte, rfl⟩ := invalid
  exact ⟨_, textOf_siteLine offset (.invalid byte)⟩

theorem toList_entryLine (index : Nat) (entry : Entry) :
    ∃ rest, (entryLine index entry).toList =
      Nat.toDigits 10 index ++ ' ' :: (entry.storage.opcode.name.toList ++ rest) := by
  have whole : ∃ rest, entryLine index entry =
      toString index ++ (" " ++ (entry.storage.opcode.name ++ rest)) := by
    simp only [entryLine, String.append_assoc]
    exact ⟨_, rfl⟩
  obtain ⟨rest, whole⟩ := whole
  refine ⟨rest.toList, ?_⟩
  rw [whole, ← Nat.toList_repr, String.toList_append, String.toList_append, String.toList_append]
  rfl

theorem not_isInvalidLine_entryLine (index : Nat) (entry : Entry) :
    ¬ IsInvalidLine (entryLine index entry) := by
  intro invalid
  obtain ⟨rest, text⟩ := invalid.text
  have digits : ' ' ∉ Nat.toDigits 10 index := fun member => by
    cases Decimal.isDigit_of_mem member
  obtain ⟨behind, whole⟩ := toList_entryLine index entry
  rw [textOf, whole, Text.splitOnce_append digits] at text
  have first := congrArg List.head? (Option.some.inj text)
  exact head?_name _ _ first

theorem not_isInvalidLine_label {rest : List Char} (label : line.toList = ';' :: rest) :
    ¬ IsInvalidLine line := by
  rintro ⟨offset, byte, rfl⟩
  have other := isLabel_siteLine offset (.invalid byte)
  rw [isLabel, label] at other
  cases other

theorem toList_label (entry : Entry) :
    ∃ rest, s!"; {entry.qualifiedName}({entry.ty.descriptor})".toList = ';' :: rest := by
  have whole : ∃ rest, s!"; {entry.qualifiedName}({entry.ty.descriptor})" = "; " ++ rest := by
    simp only [String.append_assoc]
    exact ⟨_, rfl⟩
  obtain ⟨rest, whole⟩ := whole
  rw [whole, String.toList_append]
  exact ⟨_, rfl⟩

theorem mem_siteLines {offset : Nat} {site : Site} (member : line ∈ unit.siteLines offset site) :
    line = siteLine offset site ∨ ∃ rest, line.toList = ';' :: rest := by
  rw [siteLines] at member
  split at member
  · rename_i entry _
    rcases List.mem_cons.mp member with rfl | member
    · exact .inr (toList_label entry)
    · exact .inl (List.mem_singleton.mp member)
  · exact .inl (List.mem_singleton.mp member)

theorem mem_siteLines_self (unit : CodeUnit) (offset : Nat) (site : Site) :
    siteLine offset site ∈ unit.siteLines offset site := by
  rw [siteLines]
  split
  · exact List.mem_cons_of_mem _ List.mem_cons_self
  · exact List.mem_cons_self

/-- Lines about undecodable bytes stand in a listing for such places, and only for them. -/
theorem exists_isInvalidLine_iff :
    (∃ line ∈ unit.listing, IsInvalidLine line) ↔
      ∃ offset byte, (offset, .invalid byte) ∈ unit.sites := by
  constructor
  · rintro ⟨line, member, invalid⟩
    rcases List.mem_append.mp member with table | code
    · obtain ⟨index, inside, rfl⟩ := List.mem_mapIdx.mp table
      exact absurd invalid (not_isInvalidLine_entryLine index _)
    · obtain ⟨⟨offset, site⟩, place, member⟩ := List.mem_flatMap.mp code
      rcases mem_siteLines member with rfl | ⟨rest, label⟩
      · cases site with
        | instruction i =>
            obtain ⟨rest, text⟩ := invalid.text
            rw [textOf_siteLine] at text
            exact absurd (congrArg List.head? (Option.some.inj text)) (head?_render i)
        | invalid byte => exact ⟨offset, byte, place⟩
      · exact absurd invalid (not_isInvalidLine_label label)
  · rintro ⟨offset, byte, member⟩
    refine ⟨siteLine offset (.invalid byte), ?_, offset, byte, rfl⟩
    exact List.mem_append_right _
      (List.mem_flatMap.mpr ⟨_, member, mem_siteLines_self unit offset (.invalid byte)⟩)

/-! The lines about code among the others. -/

theorem filter_siteLines (unit : CodeUnit) (offset : Nat) (site : Site) :
    (unit.siteLines offset site).filter (fun line => !isLabel line) = [siteLine offset site] := by
  have code : isLabel (siteLine offset site) = false := isLabel_siteLine offset site
  rw [siteLines]
  split
  · rename_i entry _
    obtain ⟨rest, text⟩ := toList_label entry
    have label : isLabel s!"; {entry.qualifiedName}({entry.ty.descriptor})" = true := by
      rw [isLabel, text]
      rfl
    simp [label, code]
  · simp [code]

theorem filter_listing (unit : CodeUnit) :
    (unit.listing.drop unit.table.length).filter (fun line => !isLabel line) = unit.codeLines := by
  have behind : unit.listing.drop unit.table.length =
      unit.sites.flatMap fun place => unit.siteLines place.1 place.2 := by
    rw [listing, List.drop_append_of_le_length (by rw [List.length_mapIdx]),
      List.drop_eq_nil_of_le (by rw [List.length_mapIdx]), List.nil_append]
  rw [behind, List.filter_flatMap]
  simp only [filter_siteLines]
  exact List.map_eq_flatMap.symm

theorem map_offsetOf_codeLines (unit : CodeUnit) :
    unit.codeLines.map offsetOf = unit.sites.map Prod.fst := by
  rw [codeLines, List.map_map]
  exact List.map_congr_left fun place _ => offsetOf_siteLine place.1 place.2

/-! The text of the whole listing. -/

theorem toList_disassembly (unit : CodeUnit) :
    unit.disassembly.toList = Text.unlines (unit.listing.map String.toList) := by
  rw [disassembly, String.toList_join, List.flatMap_map, Text.unlines, List.flatMap_map]
  simp only [String.toList_append]
  rfl

theorem newline_notMem_hexByte (byte : UInt8) : '\n' ∉ (hexByte byte).toList := by
  have digits : ∀ n < 256, '\n' ∉ Nat.toDigits 16 n := by decide +kernel
  rw [hexByte, Text.padLeft, String.toList_append, String.toList_ofList, String.toList_ofList,
    List.mem_append, not_or]
  refine ⟨fun zero => ?_, digits _ byte.toNat_lt⟩
  cases (List.mem_replicate.mp zero).2

/-- A line about code is a single line but for the name of a system function. -/
theorem newline_of_mem_siteLine {offset : Nat} {site : Site}
    (member : '\n' ∈ (siteLine offset site).toList) :
    ∃ word name, site = .instruction (.syscall word name) ∧ '\n' ∈ name.toList := by
  rw [toList_siteLine] at member
  rcases List.mem_append.mp member with digit | member
  · cases isDigit_of_mem_offsetColumn _ digit
  · have member := (List.mem_cons.mp member).resolve_left (by decide)
    cases site with
    | instruction i =>
        obtain ⟨word, name, rfl, inside⟩ := Instruction.newline_of_mem_render member (.inl rfl)
        exact ⟨word, name, rfl, inside⟩
    | invalid byte =>
        rcases List.mem_append.mp member with front | member
        · exact absurd front (by decide)
        · rcases List.mem_append.mp member with hex | last
          · exact absurd hex (newline_notMem_hexByte byte)
          · exact absurd last (by decide)

/-- What decoding and listing make of some code. -/
structure Disassembles (unit : CodeUnit) : Prop where
  /-- Decoding goes on, and stays in the code. -/
  progress : ∀ offset i next, unit.decodeAt? offset = some (i, next) →
    offset < next ∧ next ≤ unit.size
  /-- The sweep that passes over undecodable bytes ends, and its places are those of the listing. -/
  sweep : ∀ sites, unit.Sweeps 0 sites ↔ sites = unit.sites
  decoded : ∀ offset i, (offset, .instruction i) ∈ unit.sites →
    unit.decodeAt? offset = some (i, offset + (Site.instruction i).width)
  refused : ∀ offset byte, (offset, .invalid byte) ∈ unit.sites →
    unit.code[offset]? = some byte ∧ unit.decodeAt? offset = none
  increasing : (unit.sites.map Prod.fst).Pairwise (· < ·)
  /-- A place takes up all bytes up to the next one. -/
  adjacent : ∀ before place after, unit.sites = before ++ place :: after →
    place.1 + place.2.width = (after.head?.map Prod.fst).getD unit.size
  covered : ∀ position < unit.size, ∃! place, place ∈ unit.sites ∧ place.1 ≤ position ∧
    position < place.1 + place.2.width
  /-- There is one line for each place, which says where it is. -/
  lines : (unit.listing.drop unit.table.length).filter (fun line => !isLabel line) = unit.codeLines
  numbered : unit.codeLines.map offsetOf = unit.sites.map Prod.fst
  /-- The sweep that gives up at an undecodable byte ends. -/
  strict : ∀ found, unit.Decodes 0 found ↔ found = unit.instructions?
  succeeds : unit.instructions?.isSome ↔ ∀ line ∈ unit.listing, ¬ IsInvalidLine line
  pairs : ∀ places, unit.instructions? = some places ↔
    unit.sites = places.map fun place => (place.1, .instruction place.2)
  /-- The lines are those of the text, unless one is broken by a name. -/
  text : (∀ line ∈ unit.listing, '\n' ∉ line.toList) →
    Text.splitAll '\n' unit.disassembly.toList = unit.listing.map String.toList ++ [[]]
  broken : ∀ place ∈ unit.sites, '\n' ∈ (siteLine place.1 place.2).toList →
    ∃ word name, place.2 = .instruction (.syscall word name) ∧ '\n' ∈ name.toList

/-- Any bytes are listed in full: what can be decoded, instruction by instruction, and everything
else byte by byte. The strict sweep succeeds exactly if nothing had to be passed over, and then it
finds what is listed. -/
theorem disassembles (unit : CodeUnit) : unit.Disassembles where
  progress _ _ _ := decodeAt?_progress
  sweep sites := by
    constructor
    · exact fun sweeps => sweeps.unique (sweeps_sites unit)
    · rintro rfl
      exact sweeps_sites unit
  decoded _ _ := (sweeps_sites unit).decoded
  refused _ _ := (sweeps_sites unit).refused
  increasing := (sweeps_sites unit).increasing
  adjacent _ _ _ := (sweeps_sites unit).adjacent
  covered position := (sweeps_sites unit).covers (Nat.zero_le position)
  lines := filter_listing unit
  numbered := map_offsetOf_codeLines unit
  strict found := by
    constructor
    · exact fun decodes => decodes.unique (decodes_instructions? unit)
    · rintro rfl
      exact decodes_instructions? unit
  succeeds := by
    have refused : unit.instructions? = none ↔ ∃ line ∈ unit.listing, IsInvalidLine line :=
      mapM_instructionOf?_eq_none_iff.trans exists_isInvalidLine_iff.symm
    rw [← Option.ne_none_iff_isSome, ne_eq, refused]
    simp only [not_exists, not_and]
  pairs _ := mapM_instructionOf?_eq_some_iff
  text single := by
    rw [toList_disassembly, Text.splitAll_unlines (List.forall_mem_map.mpr single)]
  broken _ _ := newline_of_mem_siteLine

/-- A jump whose operand is cut off is listed as its single bytes. -/
example : { CodeUnit.empty with code := [27, 21, 0, 0] }.sites =
    [(0, .instruction .stop), (1, .invalid 21), (2, .instruction .nop),
      (3, .instruction .nop)] := by
  decide

end StackScript.CodeUnit
