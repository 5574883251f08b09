/- # VarStore.Proofs.Construction — every well-formed memory can be built

The invariant of the representation is exact: a memory is well formed if and only if some
declarations and writes, all of them accepted, lead to it (`wellFormed_iff_exists_run`).  So
nothing holds of all reachable memories that does not follow from the invariant
(`reachable_iff_wellFormed`).

The run is found from its end.  The newest heap entry was stored to the variable that holds its
index.  If none holds it, some variable has no text: that one may have been a text variable,
taken the entry, and been declared again since, which leaves its place in the table
and the place of its first declaration as they were.  In both cases the memory before the store
is well formed and has one heap entry less (`WellFormed.declare_withoutNewest`).  Without a heap,
the variables are declared and filled one after another (`WellFormed.built_of_heapSize_eq_zero`).
-/
import Mathlib.Data.List.Induction
import VarStore.Proofs.LastWrite
import VarStore.Proofs.Reordering

namespace VarStore

set_option autoImplicit false

/-- An occurrence of the variable, at the place of its first declaration. -/
def Binding.occurrence (b : Binding) : Identifier where
  name := b.name
  span := b.site

/-! ## Tables -/

namespace Table

theorem modify_modify (t : Table) (name : String) {f : Binding → Binding} (g : Binding → Binding)
    (hf : ∀ b, (f b).name = b.name) :
    (t.modify name f).modify name g = t.modify name fun b => g (f b) := by
  simp only [modify, List.map_map, Table.mk.injEq]
  refine List.map_congr_left fun b _ => ?_
  by_cases same : b.name = name
  · simp [same, hf]
  · simp [same]

/-- A change that its one binding does not notice leaves the table as it is. -/
theorem modify_eq_self {t : Table} (distinct : t.DistinctNames) {b : Binding}
    (member : b ∈ t.bindings) {f : Binding → Binding} (same : f b = b) :
    t.modify b.name f = t := by
  have fixed : ∀ a ∈ t.bindings, (if a.name = b.name then f a else a) = a := by
    intro a present
    split
    · rename_i name
      rw [eq_of_name_eq distinct present member name, same]
    · rfl
  obtain ⟨bindings⟩ := t
  simp only [modify, Table.mk.injEq]
  exact (List.map_congr_left fixed).trans (List.map_id' _)

/-- A name that is declared already gets another type. -/
theorem declare_eq_modify {t : Table} {v : Identifier} (declared : v.name ∈ t.names) (ty : Ty) :
    t.declare v ty = t.modify v.name (·.retype ty) := by
  rw [declare, if_pos (contains_iff.2 declared)]

/-- A variable that was another one in between is left as by a single declaration. -/
theorem declare_assign_declare {t : Table} {v : Identifier} (declared : v.name ∈ t.names)
    (between ty : Ty) (slot : Slot) :
    ((t.declare v between).assign v.name slot).declare v ty = t.declare v ty := by
  have still : v.name ∈ ((t.declare v between).assign v.name slot).names := by
    rw [names_assign, names_declare, if_pos declared]
    exact declared
  rw [declare_eq_modify still, declare_eq_modify declared, declare_eq_modify declared, assign,
    modify_modify _ _ _ fun b => b.name_retype between,
    modify_modify _ _ _ fun b => (b.retype between).name_fill slot]
  rfl

/-- A last binding may as well be missing before its variable is declared at its place. -/
theorem declare_append_self {earlier : List Binding} {b : Binding}
    (fresh : b.name ∉ earlier.map (·.name)) (ty : Ty) :
    ({ bindings := earlier ++ [b] } : Table).declare b.occurrence ty =
      ({ bindings := earlier } : Table).declare b.occurrence ty := by
  have missing : ({ bindings := earlier } : Table).contains b.occurrence.name ≠ true :=
    fun present => fresh (contains_iff.1 present)
  have present : b.occurrence.name ∈ ({ bindings := earlier ++ [b] } : Table).names :=
    List.mem_map_of_mem List.mem_concat_self
  have others : ∀ a ∈ earlier, (if a.name = b.name then a.retype ty else a) = a :=
    fun a member => if_neg fun same => fresh (List.mem_map.2 ⟨a, member, same⟩)
  rw [declare_eq_modify present, declare, if_neg missing, modify, Table.mk.injEq, List.map_append]
  congr 1
  · exact (List.map_congr_left others).trans (List.map_id' _)
  · simp [Binding.retype, Binding.occurrence]

end Table

namespace Memory

/-- Declarations and stores of values of the declared type lead to the memory. -/
inductive Built : Memory → Prop
  | start : Built empty
  | declare {m : Memory} (built : Built m) (v : Identifier) (ty : Ty) : Built (m.declare v ty)
  | store {m : Memory} (built : Built m) {v : Identifier} {x : Value}
      (typed : m.typeOf v = .ok x.ty) : Built (m.store v.name x)

/-- The memory before the newest heap entry was made. -/
def withoutNewest (m : Memory) : Memory :=
  { m with heap := m.heap.pop }

theorem heapSize_withoutNewest (m : Memory) : m.withoutNewest.heapSize = m.heapSize - 1 :=
  Array.size_pop

/-! ## Back to the variable before its value -/

section Restore

variable {m : Memory} (wf : m.WellFormed) {b : Binding} (member : b ∈ m.table.bindings)
include wf member

/-- A variable declared over and filled again is what it was. -/
theorem WellFormed.assign_declare {slot : Slot} (filled : b.slot = some slot) :
    (m.table.declare b.occurrence b.ty).assign b.name slot = m.table := by
  have declared : b.occurrence.name ∈ m.table.names := List.mem_map_of_mem member
  rw [Table.declare_eq_modify declared, Table.assign]
  refine (m.table.modify_modify b.name _ fun a => a.name_retype b.ty).trans ?_
  refine Table.modify_eq_self wf.distinctNames member ?_
  simp only [Binding.retype, Binding.fill, ← filled]

theorem WellFormed.declare_eq_self (unfilled : b.slot = none) :
    m.declare b.occurrence b.ty = m := by
  have declared : b.occurrence.name ∈ m.table.names := List.mem_map_of_mem member
  have same : m.table.declare b.occurrence b.ty = m.table := by
    rw [Table.declare_eq_modify declared]
    refine Table.modify_eq_self wf.distinctNames member ?_
    simp only [Binding.retype, ← unfilled]
  rw [Memory.declare, same]

/-- A memory is built by one write from the memory in which a variable without a text is empty. -/
theorem WellFormed.built_of_declare (textless : b.holdsText = false)
    (built : Built (m.declare b.occurrence b.ty)) : Built m := by
  cases filled : b.slot with
  | none => rwa [wf.declare_eq_self member filled] at built
  | some slot =>
    have scalar : b.ty ≠ .str := by
      intro text
      simp [Binding.holdsText, text, filled] at textless
    obtain ⟨x, rfl, typed⟩ := wf.scalar b member scalar slot filled
    have accepted : (m.declare b.occurrence b.ty).typeOf b.occurrence = .ok x.ty := by
      rw [typeOf_declare, if_pos rfl, typed]
    have stored := built.store accepted
    rw [← typed] at scalar
    have restored : (m.declare b.occurrence b.ty).store b.name x = m := by
      simp only [Memory.store, Ty.onHeap_eq_false_iff.2 scalar, Bool.false_eq_true, if_false,
        table_declare, wf.assign_declare member filled]
      rfl
    exact restored ▸ stored

end Restore

/-! ## Back to the heap before its newest entry -/

section Newest

variable {m : Memory} (wf : m.WellFormed)
include wf

/-- The newest entry can have been stored to some variable: the one that holds its index, or,
if none does, one that has no text. -/
theorem WellFormed.exists_storedTo (nonempty : m.heapSize ≠ 0) :
    ∃ b ∈ m.table.bindings,
      (b.slot = some (.heap (m.heapSize - 1)) ∨ b.holdsText = false) ∧
      ∀ a ∈ m.table.bindings, a.name ≠ b.name → a.slot ≠ some (.heap (m.heapSize - 1)) := by
  by_cases held : ∃ b ∈ m.table.bindings, b.slot = some (.heap (m.heapSize - 1))
  · obtain ⟨b, member, holds⟩ := held
    refine ⟨b, member, Or.inl holds, fun a present other also => other ?_⟩
    rw [wf.unshared a present b member _ also holds]
  · obtain ⟨b, member, newest⟩ := wf.newest nonempty
    exact ⟨b, member, newest, fun a present _ also => held ⟨a, present, also⟩⟩

/-- **One entry less.**  If no other variable holds the newest entry, then the memory in which `v`
was still an empty text variable, and the heap without this entry, is well formed.  What is then the
newest entry need not be held, since a variable without a text is left. -/
theorem WellFormed.declare_withoutNewest (nonempty : m.heapSize ≠ 0) (v : Identifier)
    (others : ∀ a ∈ m.table.bindings, a.name ≠ v.name → a.slot ≠ some (.heap (m.heapSize - 1))) :
    WellFormed (m.declare v .str).withoutNewest := by
  have declared := wf.declare v .str
  have size : (m.declare v .str).withoutNewest.heapSize = m.heapSize - 1 :=
    heapSize_withoutNewest _
  have unheld : ∀ a ∈ (m.declare v .str).table.bindings,
      a.slot ≠ some (.heap (m.heapSize - 1)) := by
    intro a member holds
    rcases Table.mem_declare member with ⟨-, -, unfilled⟩ | ⟨old, other⟩
    · rw [unfilled] at holds
      cases holds
    · exact others a old other holds
  refine ⟨declared.distinctNames, declared.scalar, ?_, declared.unshared, ?_, fun _ => ?_⟩
  · intro b member text slot filled
    obtain ⟨i, rfl, bound⟩ := declared.text b member text slot filled
    have apart : i ≠ m.heapSize - 1 := by
      rintro rfl
      exact unheld b member filled
    refine ⟨i, rfl, ?_⟩
    have below : i < m.heapSize := bound
    omega
  · intro x member
    refine wf.entries x ?_
    have popped : x ∈ m.heap.pop.toList := member
    rw [Array.toList_pop] at popped
    exact List.dropLast_subset _ popped
  · obtain ⟨b, member, holds | textless⟩ := declared.newest nonempty
    · exact absurd holds (unheld b member)
    · exact ⟨b, member, Or.inr textless⟩

/-- The newest entry is stored to an empty text variable, and nothing else becomes of the memory. -/
theorem WellFormed.built_of_withoutNewest (nonempty : m.heapSize ≠ 0) (v : Identifier)
    (built : Built (m.declare v .str).withoutNewest) :
    Built { m with table := (m.table.declare v .str).assign v.name (.heap (m.heapSize - 1)) } := by
  obtain ⟨older, x, heap⟩ := Array.eq_push_of_size_ne_zero nonempty
  have text : x.ty = .str := by
    refine wf.entries x ?_
    rw [heapEntries, heap]
    simp
  have typed : (m.declare v .str).withoutNewest.typeOf v = .ok x.ty := by
    rw [text]
    exact (m.typeOf_declare v v .str).trans (if_pos rfl)
  have size : m.heapSize - 1 = older.size := by simp [heapSize, heap]
  have restored : (m.declare v .str).withoutNewest.store v.name x =
      { m with table := (m.table.declare v .str).assign v.name (.heap (m.heapSize - 1)) } := by
    simp [Memory.store, text, withoutNewest, heap, size]
  exact restored ▸ built.store typed

/-- A memory is built from the one before its newest entry.  The variable that this was stored to
keeps it, or is declared again with the type that it has. -/
theorem WellFormed.built_of_older (nonempty : m.heapSize ≠ 0) {b : Binding}
    (member : b ∈ m.table.bindings)
    (newest : b.slot = some (.heap (m.heapSize - 1)) ∨ b.holdsText = false)
    (older : Built (m.declare b.occurrence .str).withoutNewest) : Built m := by
  have stored := wf.built_of_withoutNewest nonempty b.occurrence older
  rcases newest with holds | textless
  · have text : b.ty = .str := by
      by_contra scalar
      obtain ⟨x, same, -⟩ := wf.scalar b member scalar _ holds
      cases same
    have table := wf.assign_declare member holds
    rw [text] at table
    rwa [show b.occurrence.name = b.name from rfl, table] at stored
  · have again := stored.declare b.occurrence b.ty
    have table := m.table.declare_assign_declare (List.mem_map_of_mem member) .str b.ty
      (.heap (m.heapSize - 1)) (v := b.occurrence)
    rw [Memory.declare, table] at again
    exact wf.built_of_declare member textless again

end Newest

/-! ## The run -/

/-- Without a heap, any part of a table is that of a well-formed memory. -/
theorem WellFormed.of_sublist {m : Memory} (wf : m.WellFormed) (noHeap : m.heapSize = 0)
    {bindings : List Binding} (part : bindings.Sublist m.table.bindings) :
    WellFormed { m with table := { bindings := bindings } } where
  distinctNames := wf.distinctNames.sublist (part.map _)
  scalar := fun b member => wf.scalar b (part.subset member)
  text := fun b member => wf.text b (part.subset member)
  unshared := fun a ha b hb => wf.unshared a (part.subset ha) b (part.subset hb)
  entries := wf.entries
  newest := fun nonempty => absurd noHeap nonempty

theorem WellFormed.built_of_heapSize_eq_zero {heap : Array Value} (noHeap : heap.size = 0)
    {bindings : List Binding} (wf : WellFormed { table := { bindings := bindings }, heap := heap }) :
    Built { table := { bindings := bindings }, heap := heap } := by
  induction bindings using List.reverseRecOn with
  | nil =>
    rw [Array.eq_empty_of_size_eq_zero noHeap]
    exact .start
  | append_singleton earlier b ih =>
    have built := ih (wf.of_sublist noHeap (List.sublist_append_left earlier [b]))
    have member : b ∈ earlier ++ [b] := List.mem_concat_self
    have fresh : b.name ∉ earlier.map (·.name) := by
      have distinct : ((earlier ++ [b]).map (·.name)).Nodup := wf.distinctNames
      rw [List.map_append, List.nodup_append] at distinct
      exact fun present => distinct.2.2 _ present _ (List.mem_singleton.2 rfl) rfl
    have textless : b.holdsText = false := by
      refine Bool.eq_false_iff.2 fun holds => ?_
      obtain ⟨text, populated⟩ := Bool.and_eq_true_iff.1 holds
      obtain ⟨slot, filled⟩ := Option.isSome_iff_exists.1 populated
      obtain ⟨i, -, bound⟩ := wf.text b member (Ty.onHeap_iff.1 text) slot filled
      exact Nat.not_lt_zero i (noHeap ▸ bound)
    have same : ({ table := { bindings := earlier ++ [b] }, heap := heap } : Memory).declare
          b.occurrence b.ty =
        ({ table := { bindings := earlier }, heap := heap } : Memory).declare
          b.occurrence b.ty := by
      rw [Memory.declare, Memory.declare, Table.declare_append_self fresh]
    refine wf.built_of_declare member textless ?_
    rw [same]
    exact built.declare b.occurrence b.ty

theorem WellFormed.built {m : Memory} (wf : m.WellFormed) : Built m := by
  induction entries : m.heapSize generalizing m with
  | zero => exact wf.built_of_heapSize_eq_zero entries
  | succ n ih =>
    have nonempty : m.heapSize ≠ 0 := by omega
    obtain ⟨b, member, newest, others⟩ := wf.exists_storedTo nonempty
    have older := wf.declare_withoutNewest nonempty b.occurrence others
    refine wf.built_of_older nonempty member newest (ih older ?_)
    have size : (m.declare b.occurrence .str).withoutNewest.heapSize = m.heapSize - 1 :=
      heapSize_withoutNewest _
    omega

/-- A run of accepted declarations and writes can be followed by one more. -/
theorem accepted_concat {steps : List Step} {s : Step}
    (accepted : (∀ t ∈ steps, t.Builds) ∧ ∀ seen ∈ (empty.run steps).1, seen.answer = .done)
    (builds : s.Builds) (done : ((empty.after steps).step s).1 = .done) :
    (∀ t ∈ steps ++ [s], t.Builds) ∧
      ∀ seen ∈ (empty.run (steps ++ [s])).1, seen.answer = .done := by
  constructor
  · intro t member
    rcases List.mem_append.1 member with earlier | last
    · exact accepted.1 t earlier
    · rw [List.mem_singleton.1 last]
      exact builds
  · intro seen member
    rw [run_append] at member
    rcases List.mem_append.1 member with earlier | last
    · exact accepted.2 seen earlier
    · rw [run_cons, run_nil, List.mem_singleton] at last
      rw [last]
      exact done

theorem Built.exists_run {m : Memory} (built : Built m) :
    ∃ steps : List Step,
      ((∀ s ∈ steps, s.Builds) ∧ ∀ seen ∈ (empty.run steps).1, seen.answer = .done) ∧
        empty.after steps = m := by
  induction built with
  | start => exact ⟨[], ⟨by simp, by simp⟩, rfl⟩
  | @declare m _ v ty ih =>
    obtain ⟨steps, accepted, rfl⟩ := ih
    have builds : (Step.declare v ty.keyword).Builds := trivial
    refine ⟨steps ++ [.declare v ty.keyword], accepted_concat accepted builds ?_, ?_⟩
    · simp [step]
    · rw [after_append, after_cons, after_nil, step_declare]
  | @store m _ v x typed ih =>
    obtain ⟨steps, accepted, rfl⟩ := ih
    have builds : (Step.write v x).Builds := trivial
    refine ⟨steps ++ [.write v x], accepted_concat accepted builds ?_, ?_⟩
    · exact ((empty.after steps).step_write v x).2.2 typed
    · rw [after_append, after_cons, after_nil, step_snd, effect_eq_store_iff.2 ⟨rfl, typed⟩, apply]

/-- **The invariant is exact.**  A memory is well formed exactly if some declarations and
writes, all of them accepted, lead from the empty memory to it: to its bindings with
their types, slots and places, and to its heap. -/
theorem wellFormed_iff_exists_run (m : Memory) :
    m.WellFormed ↔ ∃ steps : List Step, (∀ s ∈ steps, s.Builds) ∧
      (∀ seen ∈ (empty.run steps).1, seen.answer = .done) ∧ empty.after steps = m := by
  constructor
  · intro wf
    obtain ⟨steps, accepted, last⟩ := wf.built.exists_run
    exact ⟨steps, accepted.1, accepted.2, last⟩
  · rintro ⟨steps, -, -, rfl⟩
    exact (reachable_empty.after steps).wellFormed

/-- What programs can reach is what is well formed. -/
theorem reachable_iff_wellFormed {m : Memory} : m.Reachable ↔ m.WellFormed := by
  constructor
  · exact Reachable.wellFormed
  · intro wf
    obtain ⟨steps, -, last⟩ := wf.built.exists_run
    exact ⟨steps, last⟩

end Memory

end VarStore
