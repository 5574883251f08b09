/- # VarStore.Proofs.Picture — what a dump shows

`m.picture` is what a memory holds, less the places of the first declarations: a row for each
binding, in the order of the names, and the heap.  A dump shows no more than that
(`dump_eq_of_picture_eq`).

All that a variable answers can be told from its row and the heap.  So memories with one
picture answer every step alike (`WellFormed.answer_eq_of_picture_eq`), but for the listing of
the declarations, which gives the places.
-/
import VarStore.Proofs.Frame

namespace VarStore

set_option autoImplicit false

/-- What a dump shows of a binding: all but the place of its first declaration. -/
structure Row where
  name : String
  ty : Ty
  slot : Option Slot
  deriving DecidableEq, Repr

def Binding.row (b : Binding) : Row where
  name := b.name
  ty := b.ty
  slot := b.slot

/-- The binding of a row, declared nowhere. -/
def Row.binding (r : Row) : Binding where
  name := r.name
  site := {}
  ty := r.ty
  slot := r.slot

/-- What a dump shows. -/
structure Picture where
  rows : List Row
  heap : List Value
  deriving DecidableEq, Repr

def Memory.picture (m : Memory) : Picture where
  rows := m.table.byName.map Binding.row
  heap := m.heapEntries

namespace Memory

section Seen

variable {m m' : Memory}

/-- The four kinds of slots that a well-formed memory has. -/
theorem WellFormed.slot_cases (wf : m.WellFormed) {b : Binding}
    (member : b ∈ m.table.bindings) :
    b.slot = none ∨ (∃ i, b.ty = .str ∧ b.slot = some (.heap i)) ∨
      (∃ n, b.ty = .int ∧ b.slot = some (.direct (.int n))) ∨
      ∃ p, b.ty = .bool ∧ b.slot = some (.direct (.bool p)) := by
  cases filled : b.slot with
  | none => exact Or.inl rfl
  | some slot =>
    right
    by_cases text : b.ty = .str
    · obtain ⟨i, rfl, -⟩ := wf.text b member text slot filled
      exact Or.inl ⟨i, text, rfl⟩
    · right
      obtain ⟨x, rfl, typed⟩ := wf.scalar b member text slot filled
      cases x with
      | int n => exact Or.inl ⟨n, typed.symm, rfl⟩
      | bool p => exact Or.inr ⟨p, typed.symm, rfl⟩
      | str s => exact absurd typed.symm text

/-- What a dump shows of a variable. -/
def row? (m : Memory) (name : String) : Option Row :=
  (m.table.find? name).map Binding.row

theorem WellFormed.row?_eq_some_iff (wf : m.WellFormed) {name : String} {r : Row} :
    m.row? name = some r ↔ r ∈ m.picture.rows ∧ r.name = name := by
  rw [row?, Option.map_eq_some_iff, picture, List.mem_map]
  constructor
  · rintro ⟨b, found, rfl⟩
    exact ⟨⟨b, Table.mem_byName.2 (Table.mem_of_find? found), rfl⟩, Table.name_of_find? found⟩
  · rintro ⟨⟨b, listed, rfl⟩, rfl⟩
    exact ⟨b, Table.find?_of_mem wf.distinctNames (Table.mem_byName.1 listed), rfl⟩

theorem typeOf_eq_row? (m : Memory) (v : Identifier) :
    m.typeOf v =
      match m.row? v.name with
      | some r => .ok r.ty
      | none => .error (.undeclared v) := by
  unfold typeOf row?
  cases m.table.find? v.name <;> rfl

theorem read_eq_row? (m : Memory) (v : Identifier) :
    m.read v =
      match m.row? v.name with
      | none => .error (.undeclared v)
      | some r =>
          match r.slot with
          | none => .error (.unpopulated v)
          | some slot => m.load slot := by
  unfold read row?
  cases m.table.find? v.name <;> rfl

theorem rows_perm (m : Memory) : m.picture.rows.Perm (m.table.bindings.map Binding.row) :=
  m.table.byName_perm.map _

theorem size_eq_length_rows (m : Memory) : m.size = m.picture.rows.length := by
  rw [picture, List.length_map, Table.length_byName]
  rfl

theorem declarations_eq_rows (m : Memory) :
    m.declarations.map (fun d => (d.name, d.ty)) = m.picture.rows.map (fun r => (r.name, r.ty)) := by
  rw [declarations, picture, List.map_map, List.map_map]
  rfl

theorem heap_eq_of_picture_eq (same : m.picture = m'.picture) : m.heap = m'.heap :=
  Array.toList_inj.1 (congrArg Picture.heap same)

/-- A dump shows no more than the picture. -/
theorem dump_eq_of_picture_eq (same : m.picture = m'.picture) : m.dump = m'.dump := by
  have rows (m : Memory) :
      m.table.byName.map Binding.line = m.picture.rows.map fun r => r.binding.line := by
    rw [picture, List.map_map]
    rfl
  have heap : m.heapEntries = m'.heapEntries := congrArg Picture.heap same
  rw [dump, dump, dumpLines, dumpLines, rows, rows, same, heap]

variable (wf : m.WellFormed) (wf' : m'.WellFormed) (same : m.picture = m'.picture)
include wf wf' same

/-- Every variable is alike in memories with one picture. -/
theorem WellFormed.alikeOn_of_picture_eq : AlikeOn Set.univ m m' := by
  have heap : m.heap = m'.heap := heap_eq_of_picture_eq same
  have load (slot : Slot) : m.load slot = m'.load slot := by
    cases slot with
    | direct x => rfl
    | heap i => rw [Memory.load, Memory.load, heap]
  have row (name : String) : m.row? name = m'.row? name := by
    refine Option.ext fun r => ?_
    rw [wf.row?_eq_some_iff, wf'.row?_eq_some_iff, same]
  refine ⟨fun v _ => ?_, fun v _ => ?_⟩
  · rw [typeOf_eq_row?, typeOf_eq_row?, row]
  · simp only [read_eq_row?, row, load]

/-- Every step but the listing of the declarations is answered alike by memories with one
picture. -/
theorem WellFormed.answer_eq_of_picture_eq {s : Step} (other : s ≠ .declarations) :
    (m.step s).1 = (m'.step s).1 := by
  have entries : m.heapEntries = m'.heapEntries := congrArg Picture.heap same
  by_cases named : s.names = []
  · cases s with
    | isEmpty =>
      have size : m.size = m'.size := by rw [size_eq_length_rows, size_eq_length_rows, same]
      simp only [Memory.step, isEmpty, size]
    | heapEntries => simp only [Memory.step, entries]
    | heapEntry index => simp only [Memory.step, heapEntry?_eq, entries]
    | declarations => exact absurd rfl other
    | dump => simp only [Memory.step, dump_eq_of_picture_eq same]
    | _ => cases named
  · have alike := wf.alikeOn_of_picture_eq wf' same
    exact alike.answer_eq wf wf' ⟨named, fun name _ => Set.mem_univ name⟩

end Seen

end Memory

end VarStore
