/- # VarStore.Proofs.SpareEntry — a heap entry that no variable holds

An entry is spare if it is on the heap and no variable holds its index (`Spare`).  It stays spare,
since a store hands out a new index (`Spare.step`).

`m.without p` is the memory without entry `p`, in which the indices above `p` are smaller by one.
If the entry is spare, every variable reads the same without it (`Spare.read_without`), and to
leave it out and then perform a step is the same as to perform the step and then leave it out
(`Spare.step_without`).  So nothing but the steps that show the heap can tell a run from the run
without the entry (`Spare.run_without`).
-/
import VarStore.Proofs.Reslot

namespace VarStore

set_option autoImplicit false

/-- The slot after entry `p` has left the heap. -/
def Slot.without (p : Nat) : Slot → Slot
  | .direct x => .direct x
  | .heap i => .heap (if p < i then i - 1 else i)

/-- The answer tells what is on the heap at some index, or which index a variable holds. -/
def Step.showsHeap : Step → Bool
  | .heapEntries => true
  | .heapEntry _ => true
  | .dump => true
  | _ => false

namespace Memory

/-- The memory without heap entry `p`. -/
def without (m : Memory) (p : Nat) : Memory where
  table := m.table.reslot fun b => b.slot.map (Slot.without p)
  heap := (m.heapEntries.eraseIdx p).toArray

/-- Entry `p` is on the heap and no variable holds it. -/
structure Spare (m : Memory) (p : Nat) : Prop where
  present : p < m.heapSize
  unheld : ∀ b ∈ m.table.bindings, b.slot ≠ some (.heap p)
  bounded : ∀ b ∈ m.table.bindings, ∀ i, b.slot = some (.heap i) → i < m.heapSize

/-- What is seen of a step with one text less on the heap. -/
structure OneTextLess (full short : Step × Observation) : Prop where
  step : short.1 = full.1
  size : short.2.size = full.2.size
  heapSize : short.2.heapSize + 1 = full.2.heapSize
  answer : full.1.showsHeap = false → short.2.answer = full.2.answer

/-! ## Spare entries stay spare -/

section Spare

variable {m : Memory} {p : Nat}

theorem Spare.declare (spare : m.Spare p) (v : Identifier) (ty : Ty) :
    (m.declare v ty).Spare p where
  present := spare.present
  unheld := fun b member held => spare.unheld b (mem_of_declare member held) held
  bounded := fun b member i held => spare.bounded b (mem_of_declare member held) i held

/-- A binding that holds an index after a store is an old one, or holds the new index. -/
theorem index_of_mem_store {name : String} {x : Value} {b : Binding}
    (member : b ∈ (m.store name x).table.bindings) {i : Nat} (holds : b.slot = some (.heap i)) :
    b ∈ m.table.bindings ∨ (i = m.heapSize ∧ (m.store name x).heapSize = m.heapSize + 1) := by
  rw [table_store] at member
  rcases Table.mem_assign.1 member with ⟨old, -, -, rfl⟩ | ⟨old, -⟩
  · have put : m.slotFor x = .heap i := Option.some.inj holds
    by_cases text : x.ty = .str
    · rw [slotFor_text text] at put
      cases put
      exact Or.inr ⟨rfl, by simp [heapSize_store, text]⟩
    · rw [slotFor_scalar text] at put
      cases put
  · exact Or.inl old

/-- A store hands out the index behind the last one. -/
theorem Spare.store (spare : m.Spare p) (name : String) (x : Value) :
    (m.store name x).Spare p := by
  have grown := m.heapSize_le_store name x
  have present := spare.present
  refine ⟨by omega, fun b member holds => ?_, fun b member i holds => ?_⟩
  · rcases index_of_mem_store member holds with old | ⟨new, -⟩
    · exact spare.unheld b old holds
    · omega
  · rcases index_of_mem_store member holds with old | ⟨new, size⟩
    · have := spare.bounded b old i holds
      omega
    · omega

theorem Spare.step (spare : m.Spare p) (s : Step) : (m.step s).2.Spare p :=
  step_keeps (P := fun m => m.Spare p) spare (fun v ty => spare.declare v ty)
    (fun v x _ => spare.store v.name x) s

/-! ## The memory without the entry -/

theorem table_without (m : Memory) (p : Nat) :
    (m.without p).table = m.table.reslot fun b => b.slot.map (Slot.without p) := rfl

theorem heapEntries_without (m : Memory) (p : Nat) :
    (m.without p).heapEntries = m.heapEntries.eraseIdx p := rfl

theorem Spare.heapSize_without (spare : m.Spare p) :
    (m.without p).heapSize + 1 = m.heapSize := by
  have present := spare.present
  rw [heapSize_eq_length] at present
  rw [heapSize_eq_length, heapSize_eq_length, heapEntries_without,
    List.length_eraseIdx_of_lt present]
  omega

/-- A slot leads to the same value, by its index without the entry. -/
theorem Spare.load_without (spare : m.Spare p) {b : Binding} (member : b ∈ m.table.bindings)
    {slot : Slot} (filled : b.slot = some slot) :
    (m.without p).load (slot.without p) = m.load slot := by
  cases slot with
  | direct x => rfl
  | heap i =>
    have other : i ≠ p := by
      rintro rfl
      exact spare.unheld b member filled
    have bound := spare.bounded b member i filled
    have entry : heapEntry? (m.without p) (if p < i then i - 1 else i) = m.heapEntry? i := by
      rw [heapEntry?_eq, heapEntry?_eq, heapEntries_without, List.getElem?_eraseIdx]
      by_cases above : p < i
      · rw [if_pos above, if_neg (by omega), Nat.sub_add_cancel (by omega)]
      · rw [if_neg above, if_pos (by omega)]
    obtain ⟨x, present⟩ : ∃ x, m.heap[i]? = some x := ⟨_, Array.getElem?_eq_getElem bound⟩
    have moved : (m.without p).heap[if p < i then i - 1 else i]? = some x := entry.trans present
    simp only [Slot.without, load, moved, present]

theorem Spare.read_without (spare : m.Spare p) (v : Identifier) :
    (m.without p).read v = m.read v := by
  simp only [read, table_without, Table.find?_reslot]
  cases found : m.table.find? v.name with
  | none => rfl
  | some b =>
    cases filled : b.slot with
    | none => simp [filled]
    | some slot =>
      simp only [Option.map_some, filled]
      exact spare.load_without (Table.mem_of_find? found) filled

theorem isPopulated_without (m : Memory) (p : Nat) (v : Identifier) :
    (m.without p).isPopulated v = m.isPopulated v := by
  simp only [isPopulated, table_without, Table.find?_reslot]
  cases m.table.find? v.name with
  | none => rfl
  | some b => exact Option.isSome_map

theorem Spare.alikeOn_without (spare : m.Spare p) : AlikeOn Set.univ (m.without p) m where
  typeOf := fun v _ => typeOf_eq_of_reslot (m.table_without p) v
  read := fun v _ => spare.read_without v

theorem declare_without (m : Memory) (p : Nat) (v : Identifier) (ty : Ty) :
    (m.without p).declare v ty = (m.declare v ty).without p := by
  have table : (m.table.declare v ty).reslot (fun b => b.slot.map (Slot.without p)) = _ :=
    m.table.declare_reslot (fun b _ unfilled => by rw [unfilled]; rfl) ty
  rw [declare, table_without, ← table]
  rfl

theorem Spare.store_without (spare : m.Spare p) (name : String) (x : Value) :
    (m.without p).store name x = (m.store name x).without p := by
  have size := spare.heapSize_without
  have present := spare.present
  have index : (m.slotFor x).without p = (m.without p).slotFor x := by
    by_cases text : x.ty = .str
    · rw [slotFor_text text, slotFor_text text, Slot.without, if_pos present]
      congr 1
      omega
    · rw [slotFor_scalar text, slotFor_scalar text]
      rfl
  have table : ((m.without p).store name x).table = ((m.store name x).without p).table := by
    rw [table_store, table_without, table_without, table_store]
    refine (m.table.assign_reslot fun b _ => ?_).symm
    rw [← index]
    rfl
  have entries : ((m.without p).store name x).heapEntries =
      ((m.store name x).without p).heapEntries := by
    rw [heapSize_eq_length] at present
    rw [heapEntries_store, heapEntries_without, heapEntries_without, heapEntries_store,
      List.eraseIdx_append_of_lt_length present]
  exact eq_of_heapEntries_eq table entries

/-- **A step without the entry.** -/
theorem Spare.step_without (spare : m.Spare p) (s : Step) :
    ((m.without p).step s).2 = (m.step s).2.without p := by
  rw [step_snd, step_snd, spare.alikeOn_without.effect_eq fun _ _ => Set.mem_univ _]
  cases m.effect s with
  | keep => rfl
  | declare v ty => exact m.declare_without p v ty
  | store v x => exact spare.store_without v.name x

theorem Spare.answer_without (spare : m.Spare p) {s : Step} (blind : s.showsHeap = false) :
    ((m.without p).step s).1 = (m.step s).1 := by
  by_cases named : s.names = []
  · cases s with
    | isEmpty =>
      simp only [Memory.step, isEmpty, size_eq_of_reslot (m.table_without p)]
    | declarations =>
      simp only [Memory.step, declarations_eq_of_reslot (m.table_without p)]
    | heapEntries => cases blind
    | heapEntry index => cases blind
    | dump => cases blind
    | _ => cases named
  · refine spare.alikeOn_without.answer_eq_of_isPopulated (fun v _ => m.isPopulated_without p v) ?_
    exact ⟨named, fun _ _ => Set.mem_univ _⟩

/-- **A run without the entry.**  What is seen of each step is the same, but for what shows the
heap, and the memory at the end is the same but for the entry. -/
theorem Spare.run_without (spare : m.Spare p) (steps : List Step) :
    List.Forall₂ OneTextLess (m.transcript steps) ((m.without p).transcript steps) ∧
      (m.without p).after steps = (m.after steps).without p ∧ (m.after steps).Spare p := by
  induction steps generalizing m with
  | nil => exact ⟨.nil, rfl, spare⟩
  | cons s rest ih =>
    have next := spare.step s
    have moved := spare.step_without s
    obtain ⟨seen, last, still⟩ := ih next
    rw [transcript_cons, transcript_cons, after_cons, after_cons, moved]
    refine ⟨.cons ⟨rfl, ?_, ?_, spare.answer_without⟩ seen, last, still⟩
    · show ((m.without p).step s).2.size = (m.step s).2.size
      rw [moved, size_eq_of_reslot (table_without _ p)]
    · show ((m.without p).step s).2.heapSize + 1 = (m.step s).2.heapSize
      rw [moved, next.heapSize_without]

end Spare

end Memory

end VarStore
