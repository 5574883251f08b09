/- # VarStore.Proofs.HeapLog — the heap is the log of the accepted text stores

`textStores` lists the texts that the steps of a run are accepted to store, oldest first, each with
the variable it was stored to, and `textLog` lists the texts alone.  The heap of a memory is the log
of the run that led to it (`heapEntries_eq_textLog`), so it only grows, at its end.

The index that a text variable holds is the length of the log before the last store
accepted for it (`slot?_after`): the declarations and stores that came between
cannot move it, since the one kind empties the variable and the other belongs to
other variables.  Hence the indices of two variables are in the order of their last
stores (`index_lt_iff`).
-/
import VarStore.Proofs.History
import VarStore.Proofs.WellFormed

namespace VarStore.Memory

set_option autoImplicit false

/-- The text that a step is accepted to store, with its variable. -/
def textStore? (m : Memory) (s : Step) : Option (Identifier × Value) :=
  (m.accepted? s).filter fun stored => decide (stored.2.ty = .str)

/-- The texts that the steps are accepted to store, with their variables, oldest first. -/
def textStores (m : Memory) : List Step → List (Identifier × Value)
  | [] => []
  | s :: rest => (m.textStore? s).toList ++ (m.step s).2.textStores rest

/-- The texts that the steps are accepted to store, oldest first. -/
def textLog (m : Memory) (steps : List Step) : List Value :=
  (m.textStores steps).map (·.2)

/-- The step is accepted to store to `name`. -/
def StoresTo (name : String) (m : Memory) (s : Step) : Prop :=
  ∃ v x, m.accepted? s = some (v, x) ∧ v.name = name

/-- The slot of the variable `name`, if that is declared and populated. -/
def slot? (m : Memory) (name : String) : Option Slot :=
  (m.table.find? name).bind (·.slot)

/-- The variable is of type text and holds the index `i`. -/
def HoldsIndex (m : Memory) (v : Identifier) (i : Nat) : Prop :=
  m.typeOf v = .ok .str ∧ m.slot? v.name = some (.heap i)

/-! ## Text stores -/

theorem textStore?_eq_some_iff {m : Memory} {s : Step} {v : Identifier} {x : Value} :
    m.textStore? s = some (v, x) ↔ m.accepted? s = some (v, x) ∧ x.ty = .str := by
  rw [textStore?, Option.filter_eq_some_iff, decide_eq_true_eq]

theorem textStore?_eq (m : Memory) (s : Step) :
    m.textStore? s =
      match m.effect s with
      | .store v x => if x.ty = .str then some (v, x) else none
      | _ => none := by
  rw [textStore?, accepted?_eq]
  cases m.effect s with
  | keep => rfl
  | declare v ty => rfl
  | store v x =>
    by_cases text : x.ty = .str
    · simp [Option.filter, text]
    · simp [Option.filter, text]

theorem textStores_cons (m : Memory) (s : Step) (rest : List Step) :
    m.textStores (s :: rest) = (m.textStore? s).toList ++ (m.step s).2.textStores rest := rfl

theorem textLog_cons (m : Memory) (s : Step) (rest : List Step) :
    m.textLog (s :: rest) = (m.textStore? s).toList.map (·.2) ++ (m.step s).2.textLog rest := by
  rw [textLog, textStores_cons, List.map_append]
  rfl

/-! ## The heap -/

/-- A step appends the text it stores, if it stores one, and nothing else. -/
theorem heapEntries_step (m : Memory) (s : Step) :
    (m.step s).2.heapEntries = m.heapEntries ++ (m.textStore? s).toList.map (·.2) := by
  rw [step_snd, textStore?_eq]
  cases m.effect s with
  | keep => simp [apply]
  | declare v ty => simp [apply, heapEntries]
  | store v x =>
    simp only [apply, heapEntries_store, Ty.onHeap_iff]
    split <;> rfl

theorem heapEntries_after (m : Memory) (steps : List Step) :
    (m.after steps).heapEntries = m.heapEntries ++ m.textLog steps := by
  induction steps generalizing m with
  | nil => simp [textLog, textStores]
  | cons s rest ih => rw [after_cons, ih, heapEntries_step, textLog_cons, List.append_assoc]

/-- The heap of a run lists the texts that the run stored. -/
theorem heapEntries_eq_textLog (steps : List Step) :
    (empty.after steps).heapEntries = empty.textLog steps := by
  rw [heapEntries_after]
  rfl

theorem heapSize_eq_length (m : Memory) : m.heapSize = m.heapEntries.length := by
  simp [heapSize, heapEntries]

/-- The log of a run from the empty memory is as long as the heap that the run leaves. -/
theorem length_textLog (steps : List Step) :
    (empty.textLog steps).length = (empty.after steps).heapSize := by
  rw [heapSize_eq_length, heapEntries_eq_textLog]

theorem heapSize_le_after (m : Memory) (steps : List Step) :
    m.heapSize ≤ (m.after steps).heapSize := by
  simp [heapSize_eq_length, heapEntries_after]

/-! ## The indices -/

theorem slot?_declare (m : Memory) (v : Identifier) (ty : Ty) (name : String) :
    (m.declare v ty).slot? name = if name = v.name then none else m.slot? name := by
  rw [slot?, table_declare, Table.find?_declare]
  split <;> rfl

theorem slot?_store {m : Memory} {v : Identifier} {x : Value} (typed : m.typeOf v = .ok x.ty)
    (name : String) :
    (m.store v.name x).slot? name =
      if name = v.name then some (m.slotFor x) else m.slot? name := by
  obtain ⟨b, found, -⟩ := typeOf_eq_ok_iff.1 typed
  rw [slot?, find?_store, found]
  split <;> rfl

/-- A step that is not accepted to store to `name` leaves its slot as it is, or empty. -/
theorem slot?_step {m : Memory} {s : Step} {name : String} (other : ¬ StoresTo name m s) :
    (m.step s).2.slot? name = m.slot? name ∨ (m.step s).2.slot? name = none := by
  rw [step_snd]
  cases effect : m.effect s with
  | keep => exact Or.inl rfl
  | declare v ty =>
    rw [apply, slot?_declare]
    split
    · exact Or.inr rfl
    · exact Or.inl rfl
  | store v x =>
    have taken : m.accepted? s = some (v, x) := by rw [accepted?_eq, effect]
    have differ : name ≠ v.name := fun same => other ⟨v, x, taken, same.symm⟩
    rw [apply, slot?_store (effect_eq_store_iff.1 effect).2, if_neg differ]
    exact Or.inl rfl

theorem slot?_after_of_never {steps : List Step} {name : String}
    (never : ∀ k, ¬ empty.At steps k (StoresTo name)) :
    (empty.after steps).slot? name = none := by
  refine after_of_never (P := fun m => m.slot? name = none) ?_ rfl never
  intro m s before other
  rcases slot?_step other with same | unfilled
  · exact same.trans before
  · exact unfilled

/-- What the last accepted store puts into the slot stays there, unless the slot is emptied. -/
theorem slot?_after_of_lastAt {steps : List Step} {name : String} {k : Nat} {v : Identifier}
    {x : Value} (last : empty.LastAt steps k (StoresTo name))
    (taken : empty.At steps k fun m s => m.accepted? s = some (v, x)) (same : v.name = name) :
    (empty.after steps).slot? name = some ((empty.after (steps.take k)).slotFor x) ∨
      (empty.after steps).slot? name = none := by
  obtain ⟨s, present, taken⟩ := taken
  have stores := accepted?_eq_some_iff.1 taken
  refine after_of_none_later (P := fun m =>
    m.slot? name = some ((empty.after (steps.take k)).slotFor x) ∨ m.slot? name = none)
    present ?_ ?_ last.2
  · rw [step_snd, effect_eq_store_iff.2 stores, apply, slot?_store stores.2, if_pos same.symm]
    exact Or.inl rfl
  · intro m s before other
    rcases slot?_step other with kept | unfilled
    · rwa [kept]
    · exact Or.inr unfilled

/-- A slot that is not empty was put there by the last store accepted for its variable. -/
theorem slot?_after {steps : List Step} {name : String} {slot : Slot}
    (filled : (empty.after steps).slot? name = some slot) :
    ∃ k v x, empty.LastAt steps k (StoresTo name) ∧
      (empty.At steps k fun m s => m.accepted? s = some (v, x)) ∧
      slot = (empty.after (steps.take k)).slotFor x := by
  have stored : ∃ k, empty.At steps k (StoresTo name) := by
    by_contra never
    rw [slot?_after_of_never fun k found => never ⟨k, found⟩] at filled
    cases filled
  obtain ⟨k, found⟩ := stored
  obtain ⟨k, last⟩ := exists_lastAt found
  obtain ⟨s, present, v, x, taken, same⟩ := last.1
  have put := slot?_after_of_lastAt last ⟨s, present, taken⟩ same
  rw [filled] at put
  rcases put with put | unfilled
  · exact ⟨k, v, x, last, ⟨s, present, taken⟩, Option.some.inj put⟩
  · cases unfilled

/-- An index is the size of the heap that the last store accepted for its variable
found, and that store appended the entry. -/
theorem HoldsIndex.eq_heapSize {steps : List Step} {v : Identifier} {i k : Nat}
    (holds : (empty.after steps).HoldsIndex v i)
    (last : empty.LastAt steps k (StoresTo v.name)) :
    i = (empty.after (steps.take k)).heapSize ∧
      (empty.after (steps.take (k + 1))).heapSize = i + 1 := by
  obtain ⟨k', w, x, last', ⟨s, present, taken⟩, put⟩ := slot?_after holds.2
  cases last.eq last'
  by_cases text : x.ty = .str
  · rw [slotFor_text text] at put
    cases put
    refine ⟨rfl, ?_⟩
    have stores := effect_eq_store_iff.2 (accepted?_eq_some_iff.1 taken)
    rw [after_take_succ present, step_snd, stores, apply, heapSize_store, text]
    rfl
  · rw [slotFor_scalar text] at put
    cases put

theorem heapSize_take_le (m : Memory) (steps : List Step) {k l : Nat} (before : k ≤ l) :
    (m.after (steps.take k)).heapSize ≤ (m.after (steps.take l)).heapSize := by
  have split : steps.take l = steps.take k ++ (steps.drop k).take (l - k) := by
    rw [← List.take_add, Nat.add_sub_cancel' before]
  rw [split, after_append]
  exact heapSize_le_after _ _

/-- The indices of two variables are in the order of their last stores. -/
theorem index_lt_iff {steps : List Step} {a b : Identifier} {i j k l : Nat}
    (left : (empty.after steps).HoldsIndex a i) (right : (empty.after steps).HoldsIndex b j)
    (lastA : empty.LastAt steps k (StoresTo a.name))
    (lastB : empty.LastAt steps l (StoresTo b.name)) : i < j ↔ k < l := by
  obtain ⟨iSize, iNext⟩ := left.eq_heapSize lastA
  obtain ⟨jSize, jNext⟩ := right.eq_heapSize lastB
  rcases Nat.lt_trichotomy k l with before | rfl | after
  · have := heapSize_take_le empty steps (k := k + 1) before
    omega
  · omega
  · have := heapSize_take_le empty steps (k := l + 1) after
    omega

/-- A text variable with a value holds an index. -/
theorem WellFormed.exists_holdsIndex {m : Memory} (wf : WellFormed m) {v : Identifier}
    (typed : m.typeOf v = .ok .str) (populated : m.isPopulated v = true) :
    ∃ i, m.HoldsIndex v i := by
  obtain ⟨b, found, ty⟩ := typeOf_eq_ok_iff.1 typed
  rw [isPopulated, found] at populated
  obtain ⟨slot, filled⟩ := Option.isSome_iff_exists.1 populated
  obtain ⟨i, rfl, -⟩ := wf.text b (Table.mem_of_find? found) ty slot filled
  exact ⟨i, typed, by simp [slot?, found, filled]⟩

theorem dumpLine_of_holdsIndex {m : Memory} {v : Identifier} {i : Nat}
    (holds : m.HoldsIndex v i) : "  str " ++ v.name ++ " = @" ++ i.repr ∈ m.dumpLines := by
  obtain ⟨b, found, ty⟩ := typeOf_eq_ok_iff.1 holds.1
  have filled : b.slot = some (.heap i) := by
    have := holds.2
    rwa [slot?, found] at this
  have line : b.line = "  str " ++ v.name ++ " = @" ++ i.repr := by
    rw [Binding.line, Binding.slotText, filled, ty, Table.name_of_find? found]
    simp only [Slot.render, Ty.keyword, String.append_assoc]
    rfl
  rw [← line, dumpLines]
  refine List.mem_append_left _ (List.mem_cons_of_mem _ (List.mem_map_of_mem ?_))
  exact Table.mem_byName.2 (Table.mem_of_find? found)

/-- **The heap is the log of the accepted text stores.**  Under each index it has the text that
the log has there.  It only grows, so an entry answered once is answered ever after, and there is
none beyond its size.  Every text variable with a value has a last accepted store; it holds, and the
dump shows, the number of text stores accepted before that one, so indices compare as the last
stores do. -/
theorem heap_is_text_log (steps : List Step) :
    (empty.after steps).heapEntries = empty.textLog steps ∧
    (empty.after steps).heapSize = (empty.textLog steps).length ∧
    (∀ i, heapEntry? (empty.after steps) i = (empty.textLog steps)[i]?) ∧
    (∀ earlier later, steps = earlier ++ later →
      (empty.after earlier).heapEntries <+: (empty.after steps).heapEntries ∧
      ∀ i x, heapEntry? (empty.after earlier) i = some x →
        heapEntry? (empty.after steps) i = some x) ∧
    (∀ i, (empty.after steps).heapSize ≤ i → heapEntry? (empty.after steps) i = none) ∧
    (∀ v : Identifier, (empty.after steps).typeOf v = .ok .str →
      (empty.after steps).isPopulated v = true →
      ∃ k, empty.LastAt steps k (StoresTo v.name) ∧
        (empty.after steps).HoldsIndex v (empty.textLog (steps.take k)).length ∧
        "  str " ++ v.name ++ " = @" ++ (empty.textLog (steps.take k)).length.repr ∈
          (empty.after steps).dumpLines) ∧
    ∀ (a b : Identifier) (i j k l : Nat),
      (empty.after steps).HoldsIndex a i → (empty.after steps).HoldsIndex b j →
      empty.LastAt steps k (StoresTo a.name) → empty.LastAt steps l (StoresTo b.name) →
      (i < j ↔ k < l) := by
  have logged := heapEntries_eq_textLog steps
  refine ⟨logged, (length_textLog steps).symm, ?_, ?_, ?_, ?_, ?_⟩
  · intro i
    rw [heapEntry?_eq, logged]
  · rintro earlier later rfl
    have grown : (empty.after earlier).heapEntries <+:
        (empty.after (earlier ++ later)).heapEntries := by
      rw [after_append, heapEntries_after (empty.after earlier)]
      exact List.prefix_append _ _
    exact ⟨grown, fun i x answered => heapEntry?_mono grown answered⟩
  · intro i beyond
    rw [heapEntry?_eq, List.getElem?_eq_none_iff, ← heapSize_eq_length]
    exact beyond
  · intro v typed populated
    obtain ⟨i, holds⟩ := (reachable_empty.after steps).wellFormed.exists_holdsIndex typed populated
    obtain ⟨k, -, -, last, -, -⟩ := slot?_after holds.2
    have size := (holds.eq_heapSize last).1
    rw [← length_textLog] at size
    subst size
    exact ⟨k, last, holds, dumpLine_of_holdsIndex holds⟩
  · intro a b i j k l left right lastA lastB
    exact index_lt_iff left right lastA lastB

end VarStore.Memory
