import Mathlib.Algebra.Group.Nat.Defs
import StackScript.Image
import StackScript.Proofs.Seating.Statement
import StackScript.Proofs.Soundness

namespace StackScript

/-! Compiled programs as files: what was written is read back, and whatever is read can be written
again. -/

open Text

/-! What can be written: lengths are words, and every array has an index. -/

/-- A text whose length in bytes is a word. -/
def Image.IsShort (text : String) : Prop :=
  (Utf8.encode text.toList).length < 2 ^ 32

instance (text : String) : Decidable (Image.IsShort text) :=
  inferInstanceAs (Decidable (_ < _))

/-- The types of the parameters of a function. -/
def Entry.Storage.params : Entry.Storage → List Ty
  | .data | .ddata => []
  | .function params _ => params

/-- All types in a record of the variable table. -/
def Entry.types (entry : Entry) : List Ty :=
  entry.ty :: entry.storage.params

/-- Counts and lengths in a record of the variable table are words. -/
structure Entry.Storable (entry : Entry) : Prop where
  name : Image.IsShort entry.name
  scope : Image.IsShort entry.scope
  params : entry.storage.params.length < 2 ^ 32
  types : ∀ ty ∈ entry.types, Image.IsShort ty.descriptor

instance (entry : Entry) : Decidable entry.Storable :=
  decidable_of_iff
    (Image.IsShort entry.name ∧ Image.IsShort entry.scope ∧
      entry.storage.params.length < 2 ^ 32 ∧ ∀ ty ∈ entry.types, Image.IsShort ty.descriptor)
    ⟨fun all => ⟨all.1, all.2.1, all.2.2.1, all.2.2.2⟩,
      fun fits => ⟨fits.name, fits.scope, fits.params, fits.types⟩⟩

namespace CodeUnit

/-- Every array type in the variable table has an index. -/
def Indexed (unit : CodeUnit) : Prop :=
  ∀ entry ∈ unit.table, ∀ ty ∈ entry.types, ty.isIndexed = true

instance (unit : CodeUnit) : Decidable unit.Indexed :=
  inferInstanceAs (Decidable (∀ entry ∈ unit.table, ∀ ty ∈ entry.types, ty.isIndexed = true))

/-- Counts and lengths in a unit are words. -/
structure Storable (unit : CodeUnit) : Prop where
  count : unit.table.length < 2 ^ 32
  table : ∀ entry ∈ unit.table, entry.Storable
  code : unit.code.length < 2 ^ 32

instance (unit : CodeUnit) : Decidable unit.Storable :=
  decidable_of_iff
    (unit.table.length < 2 ^ 32 ∧ (∀ entry ∈ unit.table, entry.Storable) ∧
      unit.code.length < 2 ^ 32)
    ⟨fun all => ⟨all.1, all.2.1, all.2.2⟩, fun fits => ⟨fits.count, fits.table, fits.code⟩⟩

/-- What a file keeps of a unit. -/
def saved (unit : CodeUnit) : CodeUnit where
  table := unit.table
  code := unit.code
  jumps := []
  functions := []

end CodeUnit

/-- What a file holds behind the magic word and the version. -/
def Image.encodeProgram (unit : CodeUnit) : List UInt8 :=
  encodeLength unit.table.length ++ unit.table.flatMap encodeEntry ++
    encodeLength unit.code.length ++ unit.code

namespace Image.Reader

variable {α β : Type}

/-! Reading what was written. -/

/-- The bytes are read as a value, whatever follows them. -/
def Reads (reader : Reader α) (bytes : List UInt8) (a : α) : Prop :=
  ∀ rest, reader (bytes ++ rest) = .ok (a, rest)

theorem bind_eq {first : Reader α} {next : α → Reader β} {bytes rest : List UInt8} {a : α}
    (read : first bytes = .ok (a, rest)) : (first >>= next) bytes = next a rest := by
  change (first bytes >>= fun found => next found.1 found.2) = _
  rw [read]
  rfl

namespace Reads

theorem pure (a : α) : Reads (Pure.pure a) [] a :=
  fun _ => rfl

variable {first : Reader α} {next : α → Reader β} {front back : List UInt8} {a : α} {b : β}

theorem bind (one : Reads first front a) (two : Reads (next a) back b) :
    Reads (first >>= next) (front ++ back) b := by
  intro rest
  rw [List.append_assoc, bind_eq (one (back ++ rest))]
  exact two rest

/-- The rest of a reader may give its result without reading on. -/
theorem last (one : Reads first front a) (two : Reads (next a) [] b) :
    Reads (first >>= next) front b := by
  have both := one.bind two
  rwa [List.append_nil] at both

end Reads

theorem word_reads (value : UInt32) : Reads word (Bytes.ofWord value) value := by
  intro rest
  rw [word, Bytes.readWord?_ofWord_append]

theorem take_reads {bytes : List UInt8} {count : Nat} (length : bytes.length = count)
    (shortage : ReadError) : Reads (take count shortage) bytes bytes := by
  intro rest
  rw [take, Bytes.split?_front length]

theorem text_reads {text : String} (short : IsShort text) :
    Reads Reader.text (encodeText text) text := by
  refine .bind (word_reads _) (.last (take_reads ?_ _) ?_)
  · exact (UInt32.toNat_ofNat_of_lt' short).symm
  · rw [Utf8.decode_encode]
    have whole := Reads.pure (String.ofList text.toList)
    rw [String.ofList_toList] at whole
    simp only [String.ofList_toList]
    exact whole

theorem ty_reads {ty : Ty} (indexed : ty.isIndexed = true) (short : IsShort ty.descriptor) :
    Reads Reader.ty (encodeTy ty) ty := by
  refine .last (text_reads short) ?_
  rw [Ty.ofDescriptor_descriptor indexed]
  exact .pure ty

theorem repeated_reads {reader : Reader α} {encode : α → List UInt8} {items : List α}
    (each : ∀ a ∈ items, Reads reader (encode a) a) :
    Reads (repeated reader items.length) (items.flatMap encode) items := by
  induction items with
  | nil => exact .pure []
  | cons a items induction =>
      obtain ⟨first, others⟩ := List.forall_mem_cons.mp each
      exact .bind first (.last (induction others) (.pure (a :: items)))

theorem storage_reads {storage : Entry.Storage} (count : storage.params.length < 2 ^ 32)
    (each : ∀ ty ∈ storage.params, Reads Reader.ty (encodeTy ty) ty) :
    Reads (Reader.storage storage.opcode.toByte) (encodeStorage storage) storage := by
  cases storage with
  | data => exact .pure _
  | ddata => exact .pure _
  | function params code =>
      have length : (UInt32.ofNat params.length).toNat = params.length :=
        UInt32.toNat_ofNat_of_lt' count
      rw [encodeStorage, List.append_assoc]
      refine .bind (word_reads code) (.bind (word_reads _) (.last ?_ (.pure _)))
      rw [length]
      exact repeated_reads each

theorem entry_reads {entry : Entry} (fits : entry.Storable)
    (indexed : ∀ ty ∈ entry.types, ty.isIndexed = true) :
    Reads Reader.entry (encodeEntry entry) entry := by
  have types : ∀ ty ∈ entry.types, Reads Reader.ty (encodeTy ty) ty :=
    fun ty member => ty_reads (indexed ty member) (fits.types ty member)
  obtain ⟨own, params⟩ := List.forall_mem_cons.mp types
  have written : encodeEntry entry = [entry.storage.opcode.toByte] ++ (encodeText entry.name ++
      (encodeText entry.scope ++ (encodeTy entry.ty ++ encodeStorage entry.storage))) := by
    simp only [encodeEntry, List.append_assoc, List.cons_append, List.nil_append]
  have one : [entry.storage.opcode.toByte].length = 1 := rfl
  rw [written]
  refine .bind (take_reads one _) (.bind (text_reads fits.name) (.bind (text_reads fits.scope)
    (.bind own (.last ?_ (.pure _)))))
  exact storage_reads fits.params params

theorem program_reads {unit : CodeUnit} (indexed : unit.Indexed) (fits : unit.Storable) :
    Reads Reader.program (encodeProgram unit) unit.saved := by
  rw [encodeProgram, List.append_assoc, List.append_assoc]
  refine .bind (word_reads _) (.bind ?_ (.bind (word_reads _) (.last (take_reads ?_ _) (.pure _))))
  · rw [UInt32.toNat_ofNat_of_lt' fits.count]
    exact repeated_reads fun entry member =>
      entry_reads (fits.table entry member) (indexed entry member)
  · exact (UInt32.toNat_ofNat_of_lt' fits.code).symm

end Image.Reader

namespace Image

theorem write_eq (unit : CodeUnit) : write unit = magic ++ version :: encodeProgram unit := by
  simp only [write, encodeProgram, List.append_assoc, List.cons_append]

theorem read_header (body : List UInt8) :
    read (magic ++ version :: body) = (Reader.program body).map Prod.fst := by
  have long : ¬(magic ++ version :: body).length < 5 := by
    have head : magic.length = 4 := rfl
    rw [List.length_append, List.length_cons]
    omega
  have start : isImage (magic ++ version :: body) = true := rfl
  have behind : (magic ++ version :: body).drop 4 = version :: body := rfl
  rw [read, if_neg long, start, behind]
  simp only [Bool.not_true, Bool.false_eq_true, if_false, if_true]

/-- What can be read has a program behind the magic word and the version. -/
theorem exists_program {data : List UInt8} {unit : CodeUnit} (loaded : read data = .ok unit) :
    ∃ body rest, data = magic ++ version :: body ∧ Reader.program body = .ok (unit, rest) := by
  rw [read] at loaded
  split at loaded
  · cases loaded
  split at loaded
  · cases loaded
  rename_i start
  simp only [isImage, Bool.not_eq_true', Bool.not_eq_false, List.isPrefixOf_iff_prefix] at start
  obtain ⟨back, rfl⟩ := start
  split at loaded
  · rename_i found body behind
    split at loaded
    · rename_i same
      cases ran : Reader.program body with
      | error cause =>
          rw [ran] at loaded
          cases loaded
      | ok pair =>
          rw [ran] at loaded
          cases loaded
          have tail : back = found :: body := behind
          exact ⟨body, pair.2, by rw [tail, same], ran⟩
    · cases loaded
  · cases loaded

theorem read_write {unit : CodeUnit} (indexed : unit.Indexed) (fits : unit.Storable) :
    read (write unit) = .ok unit.saved := by
  have program := Reader.program_reads indexed fits []
  rw [List.append_nil] at program
  rw [write_eq, read_header, program]
  rfl

end Image

/-! Running what was read back. -/

theorem Machine.step_saved (unit : CodeUnit) (m : Machine) :
    Machine.step unit.saved m = Machine.step unit m :=
  rfl

theorem Machine.runFor_saved (unit : CodeUnit) (limit : Nat) (m : Machine) :
    Machine.runFor unit.saved limit m = Machine.runFor unit limit m := by
  induction limit generalizing m with
  | zero => rfl
  | succ limit induction =>
      rw [Machine.runFor, Machine.runFor, Machine.step_saved]
      cases Machine.step unit m with
      | ok progress m' =>
          cases progress with
          | running => exact induction m'
          | stopped => rfl
      | error fault m' => rfl

theorem Execution.within_saved (unit : CodeUnit) (limit : Nat) :
    Execution.within limit unit.saved = Execution.within limit unit := by
  rw [Execution.within, Execution.within, Machine.runFor_saved]
  rfl

/-! What can be read. -/

namespace Image.Reader

/-- From few enough bytes a reader gives only what has a property. -/
def Yields {α : Type} (room : Nat) (reader : Reader α) (P : α → Prop) : Prop :=
  ∀ bytes a rest, bytes.length ≤ room → reader bytes = .ok (a, rest) →
    rest.length ≤ room ∧ P a

namespace Yields

variable {α β : Type} {room : Nat} {P : α → Prop} {Q : β → Prop}

theorem pure {a : α} (holds : P a) : Yields room (Pure.pure a) P := by
  intro bytes a' rest fits read
  cases read
  exact ⟨fits, holds⟩

theorem throw (cause : ReadError) : Yields room (MonadExcept.throw cause : Reader α) P := by
  intro bytes a rest fits read
  cases read

theorem bind {first : Reader α} {next : α → Reader β} (one : Yields room first P)
    (two : ∀ a, P a → Yields room (next a) Q) : Yields room (first >>= next) Q := by
  intro bytes b rest fits read
  cases found : first bytes with
  | ok pair =>
      obtain ⟨a, behind⟩ := pair
      rw [bind_eq found] at read
      obtain ⟨fits', holds⟩ := one bytes a behind fits found
      exact two a holds behind b rest fits' read
  | error cause =>
      change (first bytes >>= fun found => next found.1 found.2) = _ at read
      rw [found] at read
      cases read

end Yields

variable {α : Type} {room : Nat}

theorem word_yields : Yields room word fun _ => True := by
  intro bytes value rest fits read
  rw [word] at read
  split at read
  · rename_i found
    cases read
    obtain ⟨front, rfl, -⟩ := Bytes.readWord?_eq_some found
    rw [List.length_append] at fits
    exact ⟨by omega, trivial⟩
  · cases read

theorem take_yields (count : Nat) (shortage : ReadError) :
    Yields room (take count shortage) fun bytes => bytes.length = count ∧ bytes.length ≤ room := by
  intro bytes front rest fits read
  rw [take] at read
  split at read
  · rename_i found
    cases read
    obtain ⟨rfl, length⟩ := Bytes.split?_eq_some found
    rw [List.length_append] at fits
    exact ⟨by omega, length, by omega⟩
  · cases read

theorem text_yields : Yields room text fun text =>
    IsShort text ∧ (Utf8.encode text.toList).length ≤ room := by
  refine .bind word_yields fun length _ => .bind (take_yields _ _) fun bytes known => ?_
  split
  · rename_i chars decoded
    refine .pure ?_
    rw [IsShort, String.toList_ofList, Utf8.encode_of_decode decoded, known.1]
    exact ⟨length.toNat_lt, known.1 ▸ known.2⟩
  · exact .throw _

/-- A descriptor takes at most half as much room again as what it was read from. -/
theorem ty_yields : Yields room ty fun ty =>
    ty.isIndexed = true ∧ 2 * (Utf8.encode ty.descriptor.toList).length ≤ 3 * room := by
  refine .bind text_yields fun text known => ?_
  split
  · rename_i ty denoted
    refine .pure ?_
    obtain ⟨indexed, size⟩ := Ty.ofDescriptor_ok denoted
    have characters := Utf8.length_le_length_encode text.toList
    rw [Ty.length_encode_descriptor]
    exact ⟨indexed, by omega⟩
  · exact .throw _

theorem repeated_yields {reader : Reader α} {P : α → Prop} (each : Yields room reader P)
    (count : Nat) :
    Yields room (repeated reader count) fun items => items.length = count ∧ ∀ a ∈ items, P a := by
  induction count with
  | zero => exact .pure ⟨rfl, List.forall_mem_nil _⟩
  | succ count induction =>
      refine .bind each fun a holds => .bind induction fun items known => .pure ?_
      exact ⟨congrArg (· + 1) known.1, List.forall_mem_cons.mpr ⟨holds, known.2⟩⟩

theorem storage_yields (tag : UInt8) : Yields room (Reader.storage tag) fun storage =>
    storage.params.length < 2 ^ 32 ∧ ∀ ty ∈ storage.params,
      ty.isIndexed = true ∧ 2 * (Utf8.encode ty.descriptor.toList).length ≤ 3 * room := by
  rw [Reader.storage]
  split
  · exact .pure ⟨by decide, List.forall_mem_nil _⟩
  · exact .pure ⟨by decide, List.forall_mem_nil _⟩
  · refine .bind word_yields fun code _ => .bind word_yields fun count _ => ?_
    refine .bind (repeated_yields ty_yields _) fun params known => .pure ⟨?_, known.2⟩
    rw [Entry.Storage.params, known.1]
    exact count.toNat_lt
  · exact .throw _

end Image.Reader

/-- A record of the variable table that was read from at most so many bytes. -/
structure Entry.Loads (room : Nat) (entry : Entry) : Prop where
  name : Image.IsShort entry.name
  scope : Image.IsShort entry.scope
  params : entry.storage.params.length < 2 ^ 32
  types : ∀ ty ∈ entry.types,
    ty.isIndexed = true ∧ 2 * (Utf8.encode ty.descriptor.toList).length ≤ 3 * room

/-- A unit that was read from at most so many bytes. -/
structure CodeUnit.Loads (room : Nat) (unit : CodeUnit) : Prop where
  saved : unit.saved = unit
  count : unit.table.length < 2 ^ 32
  table : ∀ entry ∈ unit.table, entry.Loads room
  code : unit.code.length < 2 ^ 32

theorem CodeUnit.Loads.indexed {room : Nat} {unit : CodeUnit} (loads : unit.Loads room) :
    unit.Indexed :=
  fun entry member ty inside => ((loads.table entry member).types ty inside).1

theorem CodeUnit.Loads.storable {room : Nat} {unit : CodeUnit} (loads : unit.Loads room)
    (small : room < 2 ^ 31) : unit.Storable where
  count := loads.count
  table := by
    intro entry member
    have known := loads.table entry member
    refine ⟨known.name, known.scope, known.params, fun ty inside => ?_⟩
    have size := (known.types ty inside).2
    rw [Image.IsShort]
    omega
  code := loads.code

namespace Image

namespace Reader

theorem entry_yields {room : Nat} : Yields room Reader.entry (Entry.Loads room) := by
  refine .bind (take_yields _ _) fun tag _ => .bind text_yields fun name named => ?_
  refine .bind text_yields fun scope inside => .bind ty_yields fun ty own => ?_
  refine .bind (storage_yields _) fun storage known => .pure ?_
  exact ⟨named.1, inside.1, known.1, List.forall_mem_cons.mpr ⟨own, known.2⟩⟩

theorem program_yields {room : Nat} : Yields room Reader.program (CodeUnit.Loads room) := by
  refine .bind word_yields fun count _ => ?_
  refine .bind (repeated_yields entry_yields _) fun table known => ?_
  refine .bind word_yields fun length _ => .bind (take_yields _ _) fun code size => .pure ?_
  exact ⟨rfl, known.1 ▸ count.toNat_lt, known.2, size.1 ▸ length.toNat_lt⟩

end Reader

theorem loads_of_read {data : List UInt8} {unit : CodeUnit} (loaded : read data = .ok unit) :
    unit.Loads data.length := by
  obtain ⟨body, rest, rfl, ran⟩ := exists_program loaded
  have shorter : body.length ≤ (magic ++ version :: body).length := by
    rw [List.length_append, List.length_cons]
    omega
  exact (Reader.program_yields body unit rest shorter ran).2

end Image

/-! Compiled programs. -/

open Compilation

theorem initial_indexed : initialRegistry.Indexed := by
  have all : initialRegistry.symbols.all Symbol.isIndexed = true := by decide +kernel
  exact List.all_eq_true.mp all

/-- Every array type of a source text has an index. -/
theorem indexed_of_compile {source : String} {unit : CodeUnit}
    (success : compile source = .success unit) : unit.Indexed := by
  obtain ⟨r, stmts, compiled⟩ := exists_compiled success
  obtain ⟨state, rfl, run⟩ := compiled.read
  have done := Grammar.program_seats
    { cursor := .ofSource source, registry := initialRegistry } rfl
  rw [run] at done
  have indexed := done.grown.indexed initial_indexed
  obtain rfl := compiled.linked
  intro entry member ty inside
  obtain ⟨index, listed⟩ := List.getElem?_of_mem member
  obtain ⟨s, code, found, rfl⟩ := exists_symbol listed
  have types := List.all_eq_true.mp (indexed s (List.mem_of_getElem? found))
  apply types
  rcases List.mem_cons.mp inside with own | param
  · exact own ▸ List.mem_cons_self
  · refine List.mem_cons_of_mem _ ?_
    cases kind : s.kind <;> simp_all [entryOf, Entry.Storage.params]

/-- A unit whose types have indexes and whose lengths are words is read back from its file, and
runs as it did. Whatever compiles has such types, and so has whatever is read from a file. That is
read back from the file written for it, if its lengths are words, as they are if the first file was
not too long. -/
theorem Image.round_trip :
    (∀ unit : CodeUnit, unit.Indexed → unit.Storable → ∃ loaded,
      Image.read (Image.write unit) = .ok loaded ∧ loaded.table = unit.table ∧
        loaded.code = unit.code ∧
          ∀ limit, Execution.within limit loaded = Execution.within limit unit) ∧
    (∀ (source : String) (unit : CodeUnit), compile source = .success unit → unit.Indexed) ∧
    ∀ (data : List UInt8) (unit : CodeUnit), Image.read data = .ok unit →
      unit.Indexed ∧ (data.length < 2 ^ 31 → unit.Storable) ∧
        (unit.Storable → Image.read (Image.write unit) = .ok unit) := by
  refine ⟨fun unit indexed fits => ?_, fun _ _ success => indexed_of_compile success,
    fun data unit loaded => ?_⟩
  · exact ⟨unit.saved, Image.read_write indexed fits, rfl, rfl, Execution.within_saved unit⟩
  · have loads := Image.loads_of_read loaded
    refine ⟨loads.indexed, loads.storable, fun fits => ?_⟩
    rw [Image.read_write loads.indexed fits, loads.saved]

/-- A program with a function and with an array. -/
theorem square_table_round_trip :
    ∃ unit loaded,
      compile "function f(float x) of float \x7b f = x * x \x7d array [string] of float t" =
        .success unit ∧ unit.Storable ∧ Image.read (Image.write unit) = .ok loaded ∧
          loaded.table = unit.table ∧ loaded.code = unit.code ∧
            ∀ limit, Execution.within limit loaded = Execution.within limit unit := by
  have success :
      compile "function f(float x) of float \x7b f = x * x \x7d array [string] of float t" =
        .success _ :=
    Compilation.eq_success (by decide +kernel)
  have fits : (compile
      "function f(float x) of float \x7b f = x * x \x7d array [string] of float t").unit.Storable := by
    decide +kernel
  obtain ⟨programs, sources, -⟩ := Image.round_trip
  obtain ⟨loaded, reloads⟩ := programs _ (sources _ _ success) fits
  exact ⟨_, loaded, success, fits, reloads⟩

end StackScript
