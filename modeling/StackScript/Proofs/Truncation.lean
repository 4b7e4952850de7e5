import StackScript.Proofs.Image

namespace StackScript.Image

/-! Compiled programs tell where they end: a file that was cut short is refused, and bytes after the
end change nothing. -/

namespace Reader

variable {α β : Type}

/-- What a reader gives does not change when more bytes follow; it leaves them over. -/
def Extends (reader : Reader α) : Prop :=
  ∀ ⦃bytes rest a⦄, reader bytes = .ok (a, rest) →
    ∀ more, reader (bytes ++ more) = .ok (a, rest ++ more)

namespace Extends

theorem pure (a : α) : Extends (Pure.pure a : Reader α) := by
  intro bytes rest a' read more
  cases read
  rfl

theorem throw (cause : ReadError) : Extends (MonadExcept.throw cause : Reader α) := by
  intro bytes rest a read
  cases read

theorem bind {first : Reader α} {next : α → Reader β} (one : Extends first)
    (two : ∀ a, Extends (next a)) : Extends (first >>= next) := by
  intro bytes rest b read more
  cases found : first bytes with
  | ok pair =>
      obtain ⟨a, behind⟩ := pair
      rw [bind_eq found] at read
      rw [bind_eq (one found more)]
      exact two a read more
  | error cause =>
      change (first bytes >>= fun found => next found.1 found.2) = _ at read
      rw [found] at read
      cases read

end Extends

theorem word_extends : Extends word := by
  intro bytes rest value read more
  rw [word] at read
  split at read
  · rename_i found
    cases read
    obtain ⟨front, rfl, length, rfl⟩ := Bytes.readWord?_eq_some found
    rw [word, List.append_assoc, Bytes.readWord?_front length]
  · cases read

theorem take_extends (count : Nat) (shortage : ReadError) : Extends (take count shortage) := by
  intro bytes rest front read more
  rw [take] at read
  split at read
  · rename_i found
    cases read
    obtain ⟨rfl, length⟩ := Bytes.split?_eq_some found
    rw [take, List.append_assoc, Bytes.split?_front length]
  · cases read

theorem text_extends : Extends text := by
  refine word_extends.bind fun length => (take_extends _ _).bind fun bytes => ?_
  split
  · exact .pure _
  · exact .throw _

theorem ty_extends : Extends ty := by
  refine text_extends.bind fun text => ?_
  split
  · exact .pure _
  · exact .throw _

theorem repeated_extends {reader : Reader α} (each : Extends reader) (count : Nat) :
    Extends (repeated reader count) := by
  induction count with
  | zero => exact .pure []
  | succ count induction =>
      exact each.bind fun first => induction.bind fun rest => .pure (first :: rest)

theorem storage_extends (tag : UInt8) : Extends (Reader.storage tag) := by
  rw [Reader.storage]
  split
  · exact .pure _
  · exact .pure _
  · exact word_extends.bind fun code => word_extends.bind fun count =>
      (repeated_extends ty_extends _).bind fun params => .pure _
  · exact .throw _

theorem entry_extends : Extends Reader.entry :=
  (take_extends _ _).bind fun _ => text_extends.bind fun _ => text_extends.bind fun _ =>
    ty_extends.bind fun _ => (storage_extends _).bind fun _ => .pure _

theorem program_extends : Extends program :=
  word_extends.bind fun _ => (repeated_extends entry_extends _).bind fun _ =>
    word_extends.bind fun _ => (take_extends _ _).bind fun _ => .pure _

end Reader

/-- Bytes behind a program that can be read are ignored. -/
theorem read_append {data : List UInt8} {unit : CodeUnit} (loaded : read data = .ok unit)
    (more : List UInt8) : read (data ++ more) = .ok unit := by
  obtain ⟨body, rest, rfl, ran⟩ := exists_program loaded
  rw [List.append_assoc, List.cons_append, read_header, Reader.program_extends ran more]
  rfl

/-- A reader that succeeds on less than a whole program leaves bytes of the program over, and
nothing is left over. -/
theorem error_of_strict_prefix {unit : CodeUnit} (indexed : unit.Indexed) (fits : unit.Storable)
    {front : List UInt8} (isFront : front <+: write unit) (strict : front ≠ write unit) :
    ∃ cause, read front = .error cause := by
  cases loaded : read front with
  | error cause => exact ⟨cause, rfl⟩
  | ok early =>
      obtain ⟨body, rest, rfl, ran⟩ := exists_program loaded
      obtain ⟨missing, whole⟩ := isFront
      have bodies : body ++ missing = encodeProgram unit := by
        rw [write_eq, List.append_assoc, List.cons_append] at whole
        exact List.cons_inj_right _ |>.mp (List.append_cancel_left whole)
      have short := Reader.program_extends ran missing
      have full := Reader.program_reads indexed fits []
      rw [List.append_nil, ← bodies, short] at full
      have none : rest ++ missing = [] := congrArg Prod.snd (Except.ok.inj full)
      obtain rfl := (List.append_eq_nil_iff.mp none).2
      rw [List.append_nil] at whole
      exact absurd whole strict

/-- A file that was written for a program is refused with any of its last bytes missing, and is read
with anything behind it. -/
theorem self_delimiting {unit : CodeUnit} (indexed : unit.Indexed) (fits : unit.Storable) :
    (∀ front, front <+: write unit → front ≠ write unit →
      ∃ cause, read front = .error cause) ∧
    ∀ more, ∃ loaded, read (write unit ++ more) = .ok loaded ∧
      loaded.table = unit.table ∧ loaded.code = unit.code := by
  refine ⟨fun front isFront strict => error_of_strict_prefix indexed fits isFront strict,
    fun more => ⟨unit.saved, ?_, rfl, rfl⟩⟩
  exact read_append (read_write indexed fits) more

/-- A program with a function that takes a table of numbers. -/
theorem table_parameter_delimited :
    ∃ unit : CodeUnit,
      unit.table = [⟨.function [.array [.str, .bool] .float, .int] 7, "sum", "0", .float⟩] ∧
      unit.code = [27] ∧ unit.Indexed ∧ unit.Storable ∧
      (∀ front, front <+: write unit → front ≠ write unit →
        ∃ cause, read front = .error cause) ∧
      ∀ more, ∃ loaded, read (write unit ++ more) = .ok loaded ∧
        loaded.table = unit.table ∧ loaded.code = unit.code := by
  let unit : CodeUnit :=
    { table := [⟨.function [.array [.str, .bool] .float, .int] 7, "sum", "0", .float⟩]
      code := [27]
      jumps := []
      functions := [] }
  have indexed : unit.Indexed := by decide
  have fits : unit.Storable := by decide
  exact ⟨unit, rfl, rfl, indexed, fits, self_delimiting indexed fits⟩

end StackScript.Image
