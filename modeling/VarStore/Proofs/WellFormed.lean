/- # VarStore.Proofs.WellFormed — what holds of every memory a program can reach

`WellFormed` is the invariant of the representation, one field for each clause.
A declaration keeps it (`WellFormed.declare`), and so does a store of a value of
the declared type (`WellFormed.store`); hence every step does, and every
reachable memory is well formed (`Reachable.wellFormed`).

In a well-formed memory a slot leads to a value of the type of its variable
(`WellFormed.load`), so reading a variable has three outcomes and no fourth
(`WellFormed.read_cases`): the heap index is never corrupt.  A store changes what is
read from its own variable and from no other one (`WellFormed.read_store`).
-/
import Mathlib.Data.List.Nodup
import Mathlib.Data.List.Perm.Subperm
import VarStore.Proofs.Effect

namespace VarStore

set_option autoImplicit false

namespace Binding

/-- The binding is that of a text variable with a value. -/
def holdsText (b : Binding) : Bool :=
  b.ty.onHeap && b.slot.isSome

/-- The heap index that the binding holds, if it holds one. -/
def index? (b : Binding) : Option Nat :=
  match b.slot with
  | some (.heap i) => some i
  | _ => none

theorem index?_eq_some_iff {b : Binding} {i : Nat} :
    b.index? = some i ↔ b.slot = some (.heap i) := by
  unfold index?
  split <;> simp_all

end Binding

namespace Memory

structure WellFormed (m : Memory) : Prop where
  /-- No two bindings have one name. -/
  distinctNames : m.table.DistinctNames
  /-- What an integer or truth variable holds is a value of its type. -/
  scalar : ∀ b ∈ m.table.bindings, b.ty ≠ .str → ∀ slot, b.slot = some slot →
    ∃ x, slot = .direct x ∧ x.ty = b.ty
  /-- What a text variable holds is the index of a heap entry. -/
  text : ∀ b ∈ m.table.bindings, b.ty = .str → ∀ slot, b.slot = some slot →
    ∃ i, slot = .heap i ∧ i < m.heapSize
  /-- No two bindings hold one index. -/
  unshared : ∀ a ∈ m.table.bindings, ∀ b ∈ m.table.bindings, ∀ i,
    a.slot = some (.heap i) → b.slot = some (.heap i) → a = b
  /-- All heap entries are texts. -/
  entries : ∀ x ∈ m.heapEntries, x.ty = .str
  /-- The newest entry is held, unless some variable has no text to hold it. -/
  newest : m.heapSize ≠ 0 → ∃ b ∈ m.table.bindings,
    b.slot = some (.heap (m.heapSize - 1)) ∨ b.holdsText = false

theorem wellFormed_empty : WellFormed empty where
  distinctNames := Table.distinctNames_empty
  scalar := by simp [empty]
  text := by simp [empty]
  unshared := by simp [empty]
  entries := by simp [empty, heapEntries]
  newest := by simp [empty, heapSize]

/-! ## Declarations -/

/-- A declaration fills no slot. -/
theorem mem_of_declare {m : Memory} {v : Identifier} {ty : Ty} {b : Binding} {slot : Slot}
    (member : b ∈ (m.declare v ty).table.bindings) (filled : b.slot = some slot) :
    b ∈ m.table.bindings := by
  rcases Table.mem_declare member with ⟨-, -, unfilled⟩ | ⟨old, -⟩
  · rw [unfilled] at filled
    cases filled
  · exact old

/-- The declared variable itself is empty then, so the newest entry need not be held. -/
theorem WellFormed.declare {m : Memory} (wf : WellFormed m) (v : Identifier) (ty : Ty) :
    WellFormed (m.declare v ty) where
  distinctNames := Table.distinctNames_declare wf.distinctNames v ty
  scalar := fun b member scalar slot filled =>
    wf.scalar b (mem_of_declare member filled) scalar slot filled
  text := fun b member text slot filled =>
    wf.text b (mem_of_declare member filled) text slot filled
  unshared := fun a ha b hb i left right =>
    wf.unshared a (mem_of_declare ha left) b (mem_of_declare hb right) i left right
  entries := wf.entries
  newest := by
    intro _
    have unfilled := Table.find?_declare m.table v ty v.name
    rw [if_pos rfl] at unfilled
    exact ⟨_, Table.mem_of_find? unfilled, Or.inr (by simp [Binding.holdsText])⟩

/-! ## Stores -/

/-- After a store of a value of the declared type, a binding is the filled one or an
old one of another name. -/
theorem WellFormed.mem_store {m : Memory} (wf : WellFormed m) {v : Identifier} {x : Value}
    (typed : m.typeOf v = .ok x.ty) {b : Binding}
    (member : b ∈ (m.store v.name x).table.bindings) :
    (b.name = v.name ∧ b.ty = x.ty ∧ b.slot = some (m.slotFor x)) ∨
      (b ∈ m.table.bindings ∧ b.name ≠ v.name) := by
  rw [table_store] at member
  rcases Table.mem_assign.1 member with ⟨old, present, same, rfl⟩ | other
  · obtain ⟨b, found, ty⟩ := typeOf_eq_ok_iff.1 typed
    have : b = old := by
      rw [← same, Table.find?_of_mem wf.distinctNames present] at found
      exact (Option.some.inj found).symm
    subst this
    exact Or.inl ⟨same, ty, rfl⟩
  · exact Or.inr other

/-- Every index held is that of a heap entry. -/
theorem WellFormed.index_lt {m : Memory} (wf : WellFormed m) {b : Binding}
    (member : b ∈ m.table.bindings) {i : Nat} (held : b.slot = some (.heap i)) :
    i < m.heapSize := by
  by_cases text : b.ty = .str
  · obtain ⟨j, same, bound⟩ := wf.text b member text _ held
    cases same
    exact bound
  · obtain ⟨x, same, -⟩ := wf.scalar b member text _ held
    cases same

/-- The index that a store puts into its binding is new, so no binding holds it yet. -/
theorem WellFormed.slot_ne {m : Memory} (wf : WellFormed m) {x : Value} {i : Nat}
    (put : m.slotFor x = .heap i) {b : Binding} (member : b ∈ m.table.bindings) :
    b.slot ≠ some (.heap i) := by
  intro held
  have bound : i < m.heapSize := wf.index_lt member held
  by_cases text : x.ty = .str
  · rw [slotFor_text text] at put
    cases put
    omega
  · rw [slotFor_scalar text] at put
    cases put

theorem heapSize_le_store (m : Memory) (name : String) (x : Value) :
    m.heapSize ≤ (m.store name x).heapSize := by
  rw [heapSize_store]
  split <;> omega

theorem WellFormed.entries_store {m : Memory} (wf : WellFormed m) (name : String) (x : Value) :
    ∀ y ∈ (m.store name x).heapEntries, y.ty = .str := by
  intro y member
  rw [heapEntries_store] at member
  rcases List.mem_append.1 member with old | new
  · exact wf.entries y old
  · split at new
    · rename_i text
      rw [List.mem_singleton.1 new]
      exact Ty.onHeap_iff.1 text
    · cases new

/-- The stored variable holds the newest entry, or is no text variable. -/
theorem newest_store {m : Memory} {v : Identifier} {x : Value} (typed : m.typeOf v = .ok x.ty) :
    ∃ b ∈ (m.store v.name x).table.bindings,
      b.slot = some (.heap ((m.store v.name x).heapSize - 1)) ∨ b.holdsText = false := by
  obtain ⟨b, found, ty⟩ := typeOf_eq_ok_iff.1 typed
  have put := m.find?_store v.name x v.name
  rw [if_pos rfl, found] at put
  refine ⟨_, Table.mem_of_find? put, ?_⟩
  by_cases text : x.ty = .str
  · left
    simp [Binding.fill, slotFor_text text, heapSize_store, text]
  · right
    simp [Binding.holdsText, Binding.fill, ty, text]

theorem WellFormed.store {m : Memory} (wf : WellFormed m) {v : Identifier} {x : Value}
    (typed : m.typeOf v = .ok x.ty) : WellFormed (m.store v.name x) := by
  have distinct : (m.store v.name x).table.DistinctNames := by
    rw [table_store]
    exact Table.distinctNames_assign wf.distinctNames _ _
  refine ⟨distinct, ?_, ?_, ?_, wf.entries_store v.name x, fun _ => newest_store typed⟩
  · intro b member scalar slot filled
    rcases wf.mem_store typed member with ⟨-, ty, put⟩ | ⟨old, -⟩
    · rw [ty] at scalar
      rw [put, slotFor_scalar scalar] at filled
      exact ⟨x, (Option.some.inj filled).symm, ty.symm⟩
    · exact wf.scalar b old scalar slot filled
  · intro b member text slot filled
    rcases wf.mem_store typed member with ⟨-, ty, put⟩ | ⟨old, -⟩
    · rw [ty] at text
      rw [put, slotFor_text text] at filled
      refine ⟨m.heapSize, (Option.some.inj filled).symm, ?_⟩
      simp [heapSize_store, text]
    · obtain ⟨i, same, bound⟩ := wf.text b old text slot filled
      exact ⟨i, same, Nat.lt_of_lt_of_le bound (m.heapSize_le_store v.name x)⟩
  · intro a ha b hb i left right
    rcases wf.mem_store typed ha with ⟨aName, -, aPut⟩ | ⟨aOld, -⟩
    · rcases wf.mem_store typed hb with ⟨bName, -, -⟩ | ⟨bOld, -⟩
      · exact Table.eq_of_name_eq distinct ha hb (aName.trans bName.symm)
      · have put : m.slotFor x = .heap i := Option.some.inj (aPut.symm.trans left)
        exact absurd right (wf.slot_ne put bOld)
    · rcases wf.mem_store typed hb with ⟨-, -, bPut⟩ | ⟨bOld, -⟩
      · have put : m.slotFor x = .heap i := Option.some.inj (bPut.symm.trans right)
        exact absurd left (wf.slot_ne put aOld)
      · exact wf.unshared a aOld b bOld i left right

/-! ## Reading -/

theorem WellFormed.load {m : Memory} (wf : WellFormed m) {b : Binding}
    (member : b ∈ m.table.bindings) {slot : Slot} (filled : b.slot = some slot) :
    ∃ x, m.load slot = .ok x ∧ x.ty = b.ty := by
  by_cases text : b.ty = .str
  · obtain ⟨i, rfl, bound⟩ := wf.text b member text slot filled
    have present : m.heap[i]? = some m.heap[i] := Array.getElem?_eq_getElem bound
    refine ⟨m.heap[i], by simp [Memory.load, present], ?_⟩
    rw [text]
    exact wf.entries _ (Array.mem_toList_iff.2 (Array.getElem_mem bound))
  · obtain ⟨x, rfl, typed⟩ := wf.scalar b member text slot filled
    exact ⟨x, rfl, typed⟩

/-- A variable is undeclared, or declared and empty, or holds a value of its type. -/
theorem WellFormed.read_cases {m : Memory} (wf : WellFormed m) (v : Identifier) :
    (m.typeOf v = .error (.undeclared v) ∧ m.isPopulated v = false ∧
      m.read v = .error (.undeclared v)) ∨
    (∃ ty, m.typeOf v = .ok ty ∧ m.isPopulated v = false ∧ m.read v = .error (.unpopulated v)) ∨
    ∃ x, m.typeOf v = .ok x.ty ∧ m.isPopulated v = true ∧ m.read v = .ok x := by
  cases found : m.table.find? v.name with
  | none => exact Or.inl (by simp [typeOf, isPopulated, read, found])
  | some b =>
    right
    cases filled : b.slot with
    | none => exact Or.inl ⟨b.ty, by simp [typeOf, isPopulated, read, found, filled]⟩
    | some slot =>
      obtain ⟨x, leads, ty⟩ := wf.load (Table.mem_of_find? found) filled
      exact Or.inr ⟨x, by simp [typeOf, isPopulated, read, found, filled, leads, ty]⟩

theorem WellFormed.isPopulated_iff {m : Memory} (wf : WellFormed m) {v : Identifier} :
    m.isPopulated v = true ↔ ∃ x, m.read v = .ok x := by
  rcases wf.read_cases v with ⟨-, empty, outcome⟩ | ⟨-, -, empty, outcome⟩ | ⟨y, -, full, outcome⟩
  · simp [empty, outcome]
  · simp [empty, outcome]
  · simp [full, outcome]

theorem WellFormed.isPopulated_eq_false_of_read_error {m : Memory} (wf : WellFormed m)
    {v : Identifier} {fault : Fault} (refused : m.read v = .error fault) :
    m.isPopulated v = false := by
  rw [← Bool.not_eq_true, wf.isPopulated_iff, refused]
  rintro ⟨x, readable⟩
  cases readable

/-- What is read has the type of its variable. -/
theorem WellFormed.typeOf_of_read {m : Memory} (wf : WellFormed m) {v : Identifier} {x : Value}
    (readable : m.read v = .ok x) : m.typeOf v = .ok x.ty := by
  rcases wf.read_cases v with ⟨-, -, outcome⟩ | ⟨-, -, -, outcome⟩ | ⟨y, typed, -, outcome⟩
  all_goals
    rw [outcome] at readable
    cases readable
  exact typed

/-- A store changes what is read from its own variable and from no other one. -/
theorem WellFormed.read_store {m : Memory} (wf : WellFormed m) {v : Identifier} {x : Value}
    (typed : m.typeOf v = .ok x.ty) (w : Identifier) :
    (m.store v.name x).read w = if w.name = v.name then .ok x else m.read w := by
  by_cases same : w.name = v.name
  · rw [if_pos same, ← same]
    refine read_store_self (isDeclared_iff.2 ?_) x
    obtain ⟨b, found, -⟩ := typeOf_eq_ok_iff.1 typed
    exact ⟨b, same ▸ found⟩
  · rw [if_neg same]
    have kept : (m.store v.name x).table.find? w.name = m.table.find? w.name := by
      rw [find?_store, if_neg same]
    cases found : m.table.find? w.name with
    | none => simp [read, kept, found]
    | some b =>
      cases filled : b.slot with
      | none => simp [read, kept, found, filled]
      | some slot =>
        obtain ⟨y, leads, -⟩ := wf.load (Table.mem_of_find? found) filled
        have before : m.read w = .ok y := (read_of_find? found filled).trans leads
        rw [before]
        exact read_store_of_ne same x before

/-! ## Reachable memories -/

theorem WellFormed.step {m : Memory} (wf : WellFormed m) (s : Step) : WellFormed (m.step s).2 :=
  step_keeps wf wf.declare (fun _ _ typed => wf.store typed) s

theorem Reachable.wellFormed {m : Memory} (reached : m.Reachable) : WellFormed m :=
  reached.induction wellFormed_empty fun _ s wf => wf.step s

/-! ## Texts held and heap entries -/

/-- The number of text variables with a value. -/
def textCount (m : Memory) : Nat :=
  m.table.bindings.countP Binding.holdsText

/-- The indices that the bindings hold are different ones. -/
theorem WellFormed.nodup_indices {m : Memory} (wf : WellFormed m) :
    (m.table.bindings.filterMap Binding.index?).Nodup := by
  have apart : m.table.bindings.Pairwise fun a b => a.name ≠ b.name :=
    List.pairwise_map.1 wf.distinctNames
  rw [List.Nodup, List.pairwise_filterMap]
  refine apart.imp_of_mem fun {a b} ha hb differ i left j right same => differ ?_
  subst same
  rw [wf.unshared a ha b hb i (Binding.index?_eq_some_iff.1 left)
    (Binding.index?_eq_some_iff.1 right)]

/-- There are at least as many heap entries as text variables with a value. -/
theorem WellFormed.textCount_le {m : Memory} (wf : WellFormed m) : m.textCount ≤ m.heapSize := by
  have held : m.textCount ≤ m.table.bindings.countP fun b => b.index?.isSome := by
    refine List.countP_mono_left fun b member holds => ?_
    simp only [Binding.holdsText, Bool.and_eq_true, Ty.onHeap_iff] at holds
    obtain ⟨slot, filled⟩ := Option.isSome_iff_exists.1 holds.2
    obtain ⟨i, rfl, -⟩ := wf.text b member holds.1 slot filled
    simp [Binding.index?, filled]
  have below : m.table.bindings.filterMap Binding.index? ⊆ List.range m.heapSize := by
    intro i member
    obtain ⟨b, present, holds⟩ := List.mem_filterMap.1 member
    exact List.mem_range.2 (wf.index_lt present (Binding.index?_eq_some_iff.1 holds))
  calc m.textCount ≤ m.table.bindings.countP fun b => b.index?.isSome := held
    _ = (m.table.bindings.filterMap Binding.index?).length :=
        List.length_filterMap_eq_countP.symm
    _ ≤ (List.range m.heapSize).length := (wf.nodup_indices.subperm below).length_le
    _ = m.heapSize := List.length_range

/-- **The representation invariant.**  Whatever steps a program takes, from a new memory
or one with room set aside, the memory is well formed and holds no more texts in
variables than on the heap; so no read meets a corrupt index, a variable can be
read exactly if it is populated, and the value read has the declared type. -/
theorem storage_invariant {start : Memory}
    (fresh : start = empty ∨ ∃ bindings heap, start = withCapacity bindings heap)
    (steps : List Step) :
    (start.after steps).WellFormed ∧
    (start.after steps).textCount ≤ (start.after steps).heapSize ∧
    ∀ v : Identifier,
      (∀ i size, (start.after steps).read v ≠ .error (.corruptHeapIndex i size)) ∧
      ((start.after steps).isPopulated v = true ↔ ∃ x, (start.after steps).read v = .ok x) ∧
      ∀ x, (start.after steps).read v = .ok x → (start.after steps).typeOf v = .ok x.ty := by
  have new : start = empty := by
    rcases fresh with rfl | ⟨bindings, heap, rfl⟩
    · rfl
    · exact withCapacity_eq_empty bindings heap
  subst new
  have wf : (empty.after steps).WellFormed := (reachable_empty.after steps).wellFormed
  refine ⟨wf, wf.textCount_le, fun v => ⟨?_, wf.isPopulated_iff, fun x => wf.typeOf_of_read⟩⟩
  intro i size corrupt
  rcases wf.read_cases v with ⟨-, -, outcome⟩ | ⟨-, -, -, outcome⟩ | ⟨y, -, -, outcome⟩
  all_goals
    rw [outcome] at corrupt
    cases corrupt

/-- The second text variable keeps its copy of a text, and the first, now a truth variable,
can be read no more. -/
theorem withCapacity_redeclared_wellFormed :
    let s := Identifier.synthetic "s"
    let t := Identifier.synthetic "t"
    let m := (withCapacity 1 1).after
      [.declare s "str", .write s (.str "a"), .declare t "str", .copy s t, .declare s "bool"]
    (m.WellFormed ∧ m.textCount ≤ m.heapSize) ∧
      m.textCount = 1 ∧ m.heapSize = 2 ∧ m.read t = .ok (.str "a") ∧
      m.read s = .error (.unpopulated s) := by
  intro s t m
  have invariant := storage_invariant (Or.inr ⟨1, 1, rfl⟩)
    [.declare s "str", .write s (.str "a"), .declare t "str", .copy s t, .declare s "bool"]
  exact ⟨⟨invariant.1, invariant.2.1⟩, rfl, rfl, rfl, rfl⟩

end Memory

end VarStore
