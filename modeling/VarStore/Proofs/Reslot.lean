/- # VarStore.Proofs.Reslot — the same variables with other slots

`t.reslot f` is the table `t` with the slot `f b` in each binding `b`.  It has the names, the types
and the places of `t`, so what is answered from these alone is the same
(`typeOf_eq_of_reslot`, `declarations_eq_of_reslot`), and it goes through the two changes of a table
where `f` follows them (`Table.declare_reslot`, `Table.assign_reslot`).

`m.refill name slot` gives one variable another slot.  A step that is not about this variable
does the same with it and without (`answer_refill`, `step_refill`), and one that declares the
variable or fills it makes the two memories equal again (`declare_refill`, `store_refill`).
-/
import VarStore.Proofs.Frame
import VarStore.Proofs.HeapLog
import VarStore.Proofs.Transcript

namespace VarStore

set_option autoImplicit false

/-! ## Tables -/

namespace Table

def reslot (t : Table) (f : Binding → Option Slot) : Table where
  bindings := t.bindings.map fun b => { b with slot := f b }

section Reslot

variable (t : Table) {f : Binding → Option Slot}

theorem find?_reslot (f : Binding → Option Slot) (name : String) :
    (t.reslot f).find? name = (t.find? name).map fun b => { b with slot := f b } := by
  simp only [find?, reslot, List.find?_map]
  rfl

theorem contains_reslot (f : Binding → Option Slot) (name : String) :
    (t.reslot f).contains name = t.contains name := by
  rw [contains, find?_reslot, Option.isSome_map, contains]

theorem size_reslot (f : Binding → Option Slot) : (t.reslot f).size = t.size :=
  List.length_map _

theorem byName_reslot (f : Binding → Option Slot) :
    (t.reslot f).byName = t.byName.map fun b => { b with slot := f b } :=
  t.byName_map fun _ => rfl

/-- Slots that are kept are no other slots. -/
theorem reslot_eq_self (same : ∀ b ∈ t.bindings, f b = b.slot) : t.reslot f = t := by
  obtain ⟨bindings⟩ := t
  rw [reslot, Table.mk.injEq]
  refine (List.map_congr_left fun b member => ?_).trans (List.map_id' _)
  rw [same b member]

/-- A change of one binding, before the other slots are put in and after. -/
theorem modify_reslot {name : String} {change change' : Binding → Binding}
    (follows : ∀ b : Binding, b.name = name →
      { change b with slot := f (change b) } = change' { b with slot := f b }) :
    (t.modify name change).reslot f = (t.reslot f).modify name change' := by
  simp only [modify, reslot, List.map_map, Table.mk.injEq]
  refine List.map_congr_left fun b _ => ?_
  by_cases same : b.name = name
  · simp only [Function.comp, if_pos same, follows b same]
  · simp only [Function.comp, if_neg same]

/-- A declared variable is empty, in the one table and in the other. -/
theorem declare_reslot {v : Identifier}
    (unfilled : ∀ b : Binding, b.name = v.name → b.slot = none → f b = none) (ty : Ty) :
    (t.declare v ty).reslot f = (t.reslot f).declare v ty := by
  unfold declare
  rw [contains_reslot]
  by_cases known : t.contains v.name = true
  · rw [if_pos known, if_pos known]
    refine t.modify_reslot fun b same => ?_
    rw [unfilled (b.retype ty) same rfl]
    rfl
  · rw [if_neg known, if_neg known]
    have new := unfilled { name := v.name, site := v.span, ty := ty } rfl rfl
    simp [reslot, new]

theorem assign_reslot {name : String} {slot slot' : Slot}
    (filled : ∀ b : Binding, b.name = name → f (b.fill slot) = some slot') :
    (t.assign name slot).reslot f = (t.reslot f).assign name slot' := by
  refine t.modify_reslot fun b same => ?_
  rw [filled b same]
  rfl

/-- The table with another slot for one variable. -/
def refill (t : Table) (name : String) (slot : Option Slot) : Table :=
  t.reslot fun b => if b.name = name then slot else b.slot

theorem find?_refill_of_ne (slot : Option Slot) {name other : String} (differ : other ≠ name) :
    (t.refill name slot).find? other = t.find? other := by
  rw [refill, find?_reslot]
  cases found : t.find? other with
  | none => rfl
  | some b =>
    have apart : b.name ≠ name := name_of_find? found ▸ differ
    simp [apart]

theorem declare_refill_of_ne {v : Identifier} {name : String} (differ : v.name ≠ name) (ty : Ty)
    (slot : Option Slot) : (t.refill name slot).declare v ty = (t.declare v ty).refill name slot :=
  (t.declare_reslot (fun _ own unfilled => (if_neg (own ▸ differ)).trans unfilled) ty).symm

theorem assign_refill_of_ne {name other : String} (differ : other ≠ name) (filled : Slot)
    (slot : Option Slot) :
    (t.refill name slot).assign other filled = (t.assign other filled).refill name slot :=
  (t.assign_reslot fun _ own => if_neg fun same => differ (own.symm.trans same)).symm

/-- A change that puts in a slot of its own does not see the one that was there. -/
theorem modify_refill {name : String} {slot : Option Slot} {change : Binding → Binding}
    (blind : ∀ b, change { b with slot := slot } = change b) :
    (t.refill name slot).modify name change = t.modify name change := by
  simp only [modify, refill, reslot, List.map_map, Table.mk.injEq]
  refine List.map_congr_left fun b _ => ?_
  by_cases same : b.name = name
  · simp only [Function.comp, if_pos same, blind b]
  · simp only [Function.comp, if_neg same]

theorem declare_refill (v : Identifier) (ty : Ty) (slot : Option Slot) :
    (t.refill v.name slot).declare v ty = t.declare v ty := by
  have known_refill : (t.refill v.name slot).contains v.name = t.contains v.name :=
    t.contains_reslot _ v.name
  unfold declare
  rw [known_refill]
  by_cases known : t.contains v.name = true
  · rw [if_pos known, if_pos known]
    exact t.modify_refill fun _ => rfl
  · have others : ∀ b ∈ t.bindings, b.name ≠ v.name := by
      rintro b member same
      exact known (contains_iff.2 (same ▸ List.mem_map_of_mem member))
    rw [if_neg known, if_neg known, refill, reslot_eq_self]
    exact fun b member => if_neg (others b member)

theorem assign_refill (name : String) (slot : Option Slot) (filled : Slot) :
    (t.refill name slot).assign name filled = t.assign name filled :=
  t.modify_refill fun _ => rfl

/-- A filled variable is emptied again, or filled as it was. -/
theorem refill_assign {t : Table} (distinct : t.DistinctNames) (name : String) (filled : Slot) :
    (t.assign name filled).refill name ((t.find? name).bind (·.slot)) = t := by
  obtain ⟨bindings⟩ := t
  simp only [assign, modify, refill, reslot, List.map_map, Table.mk.injEq]
  refine (List.map_congr_left fun b member => ?_).trans (List.map_id' _)
  by_cases same : b.name = name
  · have found := find?_of_mem distinct member
    rw [same] at found
    simp [same, Binding.fill, found]
  · simp [same]

end Reslot

end Table

namespace Memory

/-! ## Memories -/

section Reslotted

variable {m m' : Memory} {f : Binding → Option Slot} (reslotted : m'.table = m.table.reslot f)
include reslotted

theorem typeOf_eq_of_reslot (v : Identifier) : m'.typeOf v = m.typeOf v := by
  unfold typeOf
  rw [reslotted, Table.find?_reslot]
  cases m.table.find? v.name <;> rfl

theorem size_eq_of_reslot : m'.size = m.size := by
  rw [size, reslotted, Table.size_reslot, size]

theorem declarations_eq_of_reslot : m'.declarations = m.declarations := by
  rw [declarations, reslotted, Table.byName_reslot, List.map_map, declarations]
  rfl

end Reslotted

/-- The memory with another slot for one variable. -/
def refill (m : Memory) (name : String) (slot : Option Slot) : Memory :=
  { m with table := m.table.refill name slot }

section Refill

variable {m : Memory} {name : String} {slot : Option Slot} {s : Step}

theorem table_refill :
    (m.refill name slot).table = m.table.reslot fun b => if b.name = name then slot else b.slot :=
  rfl

theorem alikeOn_refill : AlikeOn {other | other ≠ name} (m.refill name slot) m where
  typeOf := fun v _ => typeOf_eq_of_reslot table_refill v
  read := by
    intro v other
    have found := m.table.find?_refill_of_ne slot other
    simp only [read, refill, found]
    rfl

theorem isPopulated_refill {v : Identifier} (other : v.name ≠ name) :
    (m.refill name slot).isPopulated v = m.isPopulated v := by
  have found := m.table.find?_refill_of_ne slot other
  simp only [isPopulated, refill, found]

/-- Only a step about the variable, or the dump, shows its slot. -/
theorem answer_refill (unnamed : name ∉ s.names) (undumped : s ≠ .dump) :
    ((m.refill name slot).step s).1 = (m.step s).1 := by
  by_cases named : s.names = []
  · cases s with
    | isEmpty => simp only [Memory.step, isEmpty, size_eq_of_reslot table_refill]
    | heapEntries => rfl
    | heapEntry index => rfl
    | declarations => simp only [Memory.step, declarations_eq_of_reslot table_refill]
    | dump => exact absurd rfl undumped
    | _ => cases named
  · refine alikeOn_refill.answer_eq_of_isPopulated (fun v other => isPopulated_refill other) ?_
    exact ⟨named, fun other member same => unnamed (same ▸ member)⟩

theorem apply_refill {e : Effect} (apart : e.target? ≠ some name) :
    (m.refill name slot).apply e = (m.apply e).refill name slot := by
  cases e with
  | keep => rfl
  | declare v ty =>
    have differ : v.name ≠ name := fun same => apart (congrArg some same)
    simp only [apply, declare, refill, m.table.declare_refill_of_ne differ]
  | store v x =>
    have differ : v.name ≠ name := fun same => apart (congrArg some same)
    simp only [apply, store, refill, m.table.assign_refill_of_ne differ]
    split <;> rfl

/-- **A step about other variables** does the same whatever the slot is. -/
theorem step_refill (unnamed : name ∉ s.names) :
    ((m.refill name slot).step s).2 = (m.step s).2.refill name slot := by
  have inside : ∀ other ∈ s.names, other ∈ {other | other ≠ name} :=
    fun other member same => unnamed (same ▸ member)
  rw [step_snd, step_snd, alikeOn_refill.effect_eq inside]
  exact apply_refill fun changed => unnamed (target?_mem_names changed)

theorem declare_refill (v : Identifier) (ty : Ty) :
    (m.refill v.name slot).declare v ty = m.declare v ty := by
  rw [declare, refill, Table.declare_refill]
  rfl

theorem store_refill (x : Value) : (m.refill name slot).store name x = m.store name x := by
  simp only [store, refill, Table.assign_refill]

end Refill

/-- What a variable was filled with is taken back, but not from the heap. -/
theorem WellFormed.refill_store {m : Memory} (wf : m.WellFormed) (name : String) (x : Value) :
    (m.store name x).refill name (m.slot? name) = { m with heap := (m.store name x).heap } := by
  rw [refill, table_store, slot?, Table.refill_assign wf.distinctNames]

/-- The steps of a run that are not about a variable do not depend on its slot, and leave it. -/
theorem run_refill (m : Memory) {name : String} {steps : List Step}
    (unnamed : ∀ s ∈ steps, name ∉ s.names) (undumped : .dump ∉ steps) (slot : Option Slot) :
    (m.refill name slot).transcript steps = m.transcript steps ∧
      (m.refill name slot).after steps = (m.after steps).refill name slot := by
  induction steps generalizing m with
  | nil => exact ⟨rfl, rfl⟩
  | cons s rest ih =>
    have first : name ∉ s.names := unnamed s List.mem_cons_self
    have shown : s ≠ .dump := fun same => undumped (same ▸ List.mem_cons_self)
    have next : ((m.refill name slot).step s).2 = (m.step s).2.refill name slot := step_refill first
    obtain ⟨seen, last⟩ := ih (m.step s).2
      (fun t member => unnamed t (List.mem_cons_of_mem _ member))
      fun member => undumped (List.mem_cons_of_mem _ member)
    refine ⟨?_, ?_⟩
    · rw [transcript_cons, transcript_cons, observe_fst, observe_fst, answer_refill first shown,
        next, seen, size_eq_of_reslot table_refill]
      rfl
    · rw [after_cons, after_cons, next, last]

end Memory

end VarStore
