/- # VarStore.Memory.Lemmas — what each change does to later answers

The heap after a store is the heap before it, extended by the stored value if
that is a text (`heapEntries_store`); a declaration leaves it alone.  A
declaration empties its own variable and no other (`read_declare`).  A store
sets its own variable (`read_store_self`), and every value that could be read
from another one can still be read (`read_store_of_ne`).  What is refused
changes nothing (`write_of_check_error`, `copy_of_read_error`).
-/
import VarStore.Memory

namespace VarStore

set_option autoImplicit false

namespace Memory

@[simp] theorem withCapacity_eq_empty (bindings heap : Nat) :
    withCapacity bindings heap = empty := rfl

/-! ## The table and the heap -/

@[simp] theorem table_declare (m : Memory) (v : Identifier) (ty : Ty) :
    (m.declare v ty).table = m.table.declare v ty := rfl

@[simp] theorem heap_declare (m : Memory) (v : Identifier) (ty : Ty) :
    (m.declare v ty).heap = m.heap := rfl

@[simp] theorem load_declare (m : Memory) (v : Identifier) (ty : Ty) (slot : Slot) :
    (m.declare v ty).load slot = m.load slot := by
  cases slot <;> rfl

/-- The slot that a store of `x` puts into the binding. -/
def slotFor (m : Memory) (x : Value) : Slot :=
  if x.ty.onHeap then .heap m.heap.size else .direct x

theorem slotFor_text {x : Value} (text : x.ty = .str) (m : Memory) :
    m.slotFor x = .heap m.heapSize := by
  simp [slotFor, text, heapSize]

theorem slotFor_scalar {x : Value} (scalar : x.ty ≠ .str) (m : Memory) :
    m.slotFor x = .direct x := by
  simp [slotFor, scalar]

theorem table_store (m : Memory) (name : String) (x : Value) :
    (m.store name x).table = m.table.assign name (m.slotFor x) := by
  unfold store slotFor
  split <;> rfl

theorem heap_store (m : Memory) (name : String) (x : Value) :
    (m.store name x).heap = if x.ty.onHeap then m.heap.push x else m.heap := by
  unfold store
  split <;> rfl

theorem find?_store (m : Memory) (name : String) (x : Value) (other : String) :
    (m.store name x).table.find? other =
      if other = name then (m.table.find? name).map (·.fill (m.slotFor x))
      else m.table.find? other := by
  rw [table_store, Table.find?_assign]

theorem heapEntries_store (m : Memory) (name : String) (x : Value) :
    (m.store name x).heapEntries = m.heapEntries ++ (if x.ty.onHeap then [x] else []) := by
  simp only [heapEntries, heap_store]
  split <;> simp

theorem heapSize_store (m : Memory) (name : String) (x : Value) :
    (m.store name x).heapSize = if x.ty.onHeap then m.heapSize + 1 else m.heapSize := by
  simp only [heapSize, heap_store]
  split <;> simp

/-- A memory is its table and its heap. -/
theorem eq_of_heapEntries_eq {m m' : Memory} (table : m.table = m'.table)
    (entries : m.heapEntries = m'.heapEntries) : m = m' := by
  obtain ⟨t, heap⟩ := m
  obtain ⟨t', heap'⟩ := m'
  rw [Memory.mk.injEq]
  exact ⟨table, Array.toList_inj.1 entries⟩

theorem heapEntry?_eq (m : Memory) (i : Nat) : m.heapEntry? i = m.heapEntries[i]? := by
  show m.heap[i]? = m.heap.toList[i]?
  rw [Array.getElem?_toList]

/-- An entry keeps its index when the heap grows. -/
theorem heapEntry?_mono {m m' : Memory} (grown : m.heapEntries <+: m'.heapEntries) {i : Nat}
    {x : Value} (present : m.heapEntry? i = some x) : m'.heapEntry? i = some x := by
  obtain ⟨newer, extended⟩ := grown
  rw [heapEntry?_eq] at present ⊢
  have bound : i < m.heapEntries.length := (List.getElem?_eq_some_iff.1 present).1
  rw [← extended, List.getElem?_append_left bound, present]

theorem load_mono {m m' : Memory} (h : m.heapEntries <+: m'.heapEntries) {slot : Slot}
    {x : Value} (hx : m.load slot = .ok x) : m'.load slot = .ok x := by
  cases slot with
  | direct y => exact hx
  | heap i =>
    simp only [load] at hx ⊢
    split at hx
    · rename_i y hy
      have still : m'.heap[i]? = some y := heapEntry?_mono h hy
      rw [still]
      exact hx
    · cases hx

theorem load_slotFor (m : Memory) (name : String) (x : Value) :
    (m.store name x).load (m.slotFor x) = .ok x := by
  unfold slotFor
  split
  · rename_i h
    simp [load, heap_store, h]
  · rfl

/-! ## Outcomes of an access -/

theorem isDeclared_iff {m : Memory} {v : Identifier} :
    m.isDeclared v = true ↔ ∃ b, m.table.find? v.name = some b :=
  Option.isSome_iff_exists

theorem isDeclared_iff_typeOf {m : Memory} {v : Identifier} :
    m.isDeclared v = true ↔ ∃ ty, m.typeOf v = .ok ty := by
  rw [isDeclared_iff]
  unfold typeOf
  split <;> simp [*]

theorem typeOf_eq_ok_iff {m : Memory} {v : Identifier} {ty : Ty} :
    m.typeOf v = .ok ty ↔ ∃ b, m.table.find? v.name = some b ∧ b.ty = ty := by
  unfold typeOf
  split <;> simp [*]

theorem typeOf_eq_error_iff {m : Memory} {v : Identifier} {fault : Fault} :
    m.typeOf v = .error fault ↔ m.table.find? v.name = none ∧ fault = .undeclared v := by
  unfold typeOf
  split
  · simp [*]
  · simp [*, eq_comm]

/-- Two occurrences of a variable have one type. -/
theorem typeOf_ok_congr {m : Memory} {v w : Identifier} (same : v.name = w.name) {ty : Ty} :
    m.typeOf v = .ok ty ↔ m.typeOf w = .ok ty := by
  rw [typeOf_eq_ok_iff, typeOf_eq_ok_iff, same]

theorem read_of_find? {m : Memory} {v : Identifier} {b : Binding} {slot : Slot}
    (hb : m.table.find? v.name = some b) (hs : b.slot = some slot) :
    m.read v = m.load slot := by
  simp [read, hb, hs]

theorem read_of_typeOf_error {m : Memory} {v : Identifier} {fault : Fault}
    (undeclared : m.typeOf v = .error fault) : m.read v = .error fault := by
  obtain ⟨absent, rfl⟩ := typeOf_eq_error_iff.1 undeclared
  simp [read, absent]

theorem read_eq_ok_iff {m : Memory} {v : Identifier} {x : Value} :
    m.read v = .ok x ↔
      ∃ b slot, m.table.find? v.name = some b ∧ b.slot = some slot ∧ m.load slot = .ok x := by
  unfold read
  split
  · simp [*]
  · split <;> simp [*]

theorem check_eq_ok_iff {m : Memory} {v : Identifier} {x : Value} :
    m.check v x = .ok () ↔ m.typeOf v = .ok x.ty := by
  cases hb : m.table.find? v.name with
  | none => simp [check, typeOf, hb]
  | some b =>
    by_cases h : x.ty = b.ty
    · simp [check, typeOf, hb, h]
    · simpa [check, typeOf, hb, h] using Ne.symm h

/-! ## After a change -/

theorem typeOf_declare (m : Memory) (v w : Identifier) (ty : Ty) :
    (m.declare v ty).typeOf w = if w.name = v.name then .ok ty else m.typeOf w := by
  by_cases same : w.name = v.name
  · simp [typeOf, Table.find?_declare, same]
  · simp [typeOf, Table.find?_declare, same]

/-- A store gives no variable another type. -/
@[simp] theorem typeOf_store (m : Memory) (name : String) (x : Value) (w : Identifier) :
    (m.store name x).typeOf w = m.typeOf w := by
  unfold typeOf
  rw [find?_store]
  by_cases same : w.name = name
  · rw [if_pos same, same]
    cases m.table.find? name <;> rfl
  · rw [if_neg same]

theorem read_declare (m : Memory) (v w : Identifier) (ty : Ty) :
    (m.declare v ty).read w =
      if w.name = v.name then .error (.unpopulated w) else m.read w := by
  by_cases h : w.name = v.name
  · simp [read, Table.find?_declare, h]
  · simp [read, Table.find?_declare, h]

theorem read_store_self {m : Memory} {v : Identifier} (hv : m.isDeclared v = true)
    (x : Value) : (m.store v.name x).read v = .ok x := by
  obtain ⟨b, hb⟩ := isDeclared_iff.1 hv
  have hfind : (m.store v.name x).table.find? v.name = some (b.fill (m.slotFor x)) := by
    simp [table_store, Table.find?_assign, hb]
  rw [read_of_find? hfind rfl, load_slotFor]

theorem read_store_of_ne {m : Memory} {name : String} {w : Identifier} (hw : w.name ≠ name)
    (x : Value) {y : Value} (hy : m.read w = .ok y) : (m.store name x).read w = .ok y := by
  obtain ⟨b, slot, hb, hs, hl⟩ := read_eq_ok_iff.1 hy
  refine read_eq_ok_iff.2 ⟨b, slot, ?_, hs, load_mono ?_ hl⟩
  · rw [table_store, Table.find?_assign, if_neg hw, hb]
  · exact ⟨_, (heapEntries_store m name x).symm⟩

theorem write_of_check_ok {m : Memory} {v : Identifier} {x : Value}
    (h : m.check v x = .ok ()) : m.write v x = (.ok (), m.store v.name x) := by
  simp [write, h]

theorem write_of_check_error {m : Memory} {v : Identifier} {x : Value} {fault : Fault}
    (h : m.check v x = .error fault) : m.write v x = (.error fault, m) := by
  simp [write, h]

/-- A write to a declared variable is refused exactly if the type differs. -/
theorem write_of_typeOf_ok {m : Memory} {v : Identifier} {ty : Ty} (declared : m.typeOf v = .ok ty)
    (x : Value) :
    m.write v x =
      if x.ty = ty then (.ok (), m.store v.name x)
      else (.error (.typeMismatch v ty x.ty), m) := by
  obtain ⟨b, found, rfl⟩ := typeOf_eq_ok_iff.1 declared
  by_cases same : x.ty = b.ty
  · simp [write, check, found, same]
  · simp [write, check, found, same]

theorem write_of_typeOf_error {m : Memory} {v : Identifier} {fault : Fault}
    (undeclared : m.typeOf v = .error fault) (x : Value) : m.write v x = (.error fault, m) := by
  obtain ⟨absent, rfl⟩ := typeOf_eq_error_iff.1 undeclared
  simp [write, check, absent]

theorem copy_of_read_ok {m : Memory} {source : Identifier} {x : Value}
    (h : m.read source = .ok x) (target : Identifier) :
    m.copy source target = m.write target x := by
  simp [copy, h]

theorem copy_of_read_error {m : Memory} {source : Identifier} {fault : Fault}
    (h : m.read source = .error fault) (target : Identifier) :
    m.copy source target = (.error fault, m) := by
  simp [copy, h]

/-! ## Accepted accesses -/

theorem print_eq_ok_iff {m : Memory} {v : Identifier} {text : String} :
    m.print v = .ok text ↔ ∃ x, m.read v = .ok x ∧ x.render = text := by
  unfold print
  cases m.read v with
  | ok x => simp [Except.map]
  | error fault => simp [Except.map]

theorem same_eq_ok_iff {m : Memory} {a b : Identifier} {equal : Bool} :
    m.same a b = .ok equal ↔
      ∃ x y, m.read a = .ok x ∧ m.read b = .ok y ∧ decide (x = y) = equal := by
  unfold same
  cases m.read a with
  | error fault => simp [bind, Except.bind]
  | ok x =>
    cases m.read b with
    | error fault => simp [bind, Except.bind]
    | ok y => simp [bind, Except.bind, pure, Except.pure]

theorem write_fst (m : Memory) (v : Identifier) (x : Value) : (m.write v x).1 = m.check v x := by
  cases verdict : m.check v x with
  | ok => rw [write_of_check_ok verdict]
  | error fault => rw [write_of_check_error verdict]

theorem write_fst_eq_ok_iff {m : Memory} {v : Identifier} {x : Value} :
    (m.write v x).1 = .ok () ↔ m.typeOf v = .ok x.ty := by
  rw [write_fst, check_eq_ok_iff]

theorem copy_fst_eq_ok_iff {m : Memory} {source target : Identifier} :
    (m.copy source target).1 = .ok () ↔
      ∃ x, m.read source = .ok x ∧ m.typeOf target = .ok x.ty := by
  cases readable : m.read source with
  | error fault => simp [copy_of_read_error readable]
  | ok x => simp [copy_of_read_ok readable, write_fst_eq_ok_iff]

end Memory

end VarStore
