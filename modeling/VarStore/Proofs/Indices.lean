/- # VarStore.Proofs.Indices — the heap indices that the variables hold

The index that a variable holds is the place of its last text store among all text stores of
the run (`indexesLast_after`).  So two memories that show the same of a variable, and whose
runs stored the same texts to the same variables in one order, hold the same slot for it
(`AgreeOn.slot?_eq`); and if that is so for every variable, they hold the same bindings
(`bindings_perm_of_find?_eq`).
-/
import VarStore.Proofs.Frame
import VarStore.Proofs.HeapLog

namespace VarStore.Memory

set_option autoImplicit false

/-! ## The indices -/

/-- Entry number `i` is the last one that was stored to `name`. -/
def LastStoredAt (stores : List (Identifier × Value)) (name : String) (i : Nat) : Prop :=
  (∃ stored, stores[i]? = some stored ∧ stored.1.name = name) ∧
    ∀ j stored, i < j → stores[j]? = some stored → stored.1.name ≠ name

/-- The heap is as long as the list, and every index held is the place of the last store to
the variable that holds it. -/
def IndexesLast (m : Memory) (stores : List (Identifier × Value)) : Prop :=
  stores.length = m.heapSize ∧
    ∀ name i, m.slot? name = some (.heap i) → LastStoredAt stores name i

section Indices

variable {m m' : Memory} {stores : List (Identifier × Value)} {name : String} {i j : Nat}

theorem LastStoredAt.eq (one : LastStoredAt stores name i) (other : LastStoredAt stores name j) :
    i = j := by
  obtain ⟨⟨a, presentA, nameA⟩, lastA⟩ := one
  obtain ⟨⟨b, presentB, nameB⟩, lastB⟩ := other
  rcases Nat.lt_trichotomy i j with before | same | after
  · exact absurd nameB (lastA j b before presentB)
  · exact same
  · exact absurd nameA (lastB i a after presentA)

/-- A new entry is the last one of its own variable. -/
theorem lastStoredAt_append_self (stores : List (Identifier × Value)) (v : Identifier)
    (x : Value) : LastStoredAt (stores ++ [(v, x)]) v.name stores.length := by
  refine ⟨⟨(v, x), List.getElem?_concat_length, rfl⟩, fun j stored later present => ?_⟩
  have bound := (List.getElem?_eq_some_iff.1 present).1
  rw [List.length_append, List.length_singleton] at bound
  omega

/-- A new entry leaves the last ones of other variables the last. -/
theorem LastStoredAt.append (last : LastStoredAt stores name i) {v : Identifier}
    (other : name ≠ v.name) (x : Value) : LastStoredAt (stores ++ [(v, x)]) name i := by
  obtain ⟨⟨stored, present, own⟩, none_later⟩ := last
  have bound : i < stores.length := (List.getElem?_eq_some_iff.1 present).1
  refine ⟨⟨stored, ?_, own⟩, fun j later after found => ?_⟩
  · rw [List.getElem?_append_left bound, present]
  · by_cases old : j < stores.length
    · rw [List.getElem?_append_left old] at found
      exact none_later j later after found
    · have new : later ∈ [(v, x)] := by
        rw [List.getElem?_append_right (Nat.le_of_not_lt old)] at found
        exact List.mem_of_getElem? found
      rw [List.mem_singleton.1 new]
      exact fun same => other same.symm

/-- A step keeps every index at the last store to its variable: a stored variable holds the new
place, and every other one its old place. -/
theorem IndexesLast.step (indexed : IndexesLast m stores) (s : Step) :
    IndexesLast (m.step s).2 (stores ++ (m.textStore? s).toList) := by
  obtain ⟨size, last⟩ := indexed
  rw [step_snd, textStore?_eq]
  cases effect : m.effect s with
  | keep =>
    simp only [apply, Option.toList_none, List.append_nil]
    exact ⟨size, last⟩
  | declare v ty =>
    simp only [apply, Option.toList_none, List.append_nil]
    refine ⟨size, fun name i held => last name i ?_⟩
    rw [slot?_declare] at held
    split at held
    · cases held
    · exact held
  | store v x =>
    have typed := (effect_eq_store_iff.1 effect).2
    by_cases text : x.ty = .str
    · simp only [apply, text, if_true, Option.toList_some]
      refine ⟨?_, fun name i held => ?_⟩
      · rw [heapSize_store, if_pos (Ty.onHeap_iff.2 text), List.length_append, size]
        rfl
      · rw [slot?_store typed, slotFor_text text] at held
        by_cases own : name = v.name
        · rw [if_pos own] at held
          cases held
          rw [own, ← size]
          exact lastStoredAt_append_self stores v x
        · rw [if_neg own] at held
          exact (last name i held).append own x
    · simp only [apply, text, if_false, Option.toList_none, List.append_nil]
      refine ⟨?_, fun name i held => last name i ?_⟩
      · rw [heapSize_store, if_neg fun text' => text (Ty.onHeap_iff.1 text'), size]
      · rw [slot?_store typed, slotFor_scalar text] at held
        split at held
        · cases held
        · exact held

theorem IndexesLast.after (indexed : IndexesLast m stores) (steps : List Step) :
    IndexesLast (m.after steps) (stores ++ m.textStores steps) := by
  induction steps generalizing m stores with
  | nil =>
    rw [textStores, List.append_nil]
    exact indexed
  | cons s rest ih =>
    have later := ih (indexed.step s)
    rw [List.append_assoc] at later
    exact later

theorem indexesLast_after (steps : List Step) :
    IndexesLast (empty.after steps) (empty.textStores steps) := by
  have start : IndexesLast empty [] := ⟨rfl, fun name i held => by cases held⟩
  exact start.after steps

/-! ## Equal memories -/

theorem isPopulated_eq_slot? (m : Memory) (v : Identifier) :
    m.isPopulated v = (m.slot? v.name).isSome := by
  unfold isPopulated slot?
  cases m.table.find? v.name <;> rfl

/-- A slot leads to what is read, and it is an index exactly if the variable is a text. -/
theorem WellFormed.slot?_cases (wf : m.WellFormed) {v : Identifier} {slot : Slot}
    (filled : m.slot? v.name = some slot) :
    (∃ i, slot = .heap i ∧ m.typeOf v = .ok .str) ∨
      ∃ x, slot = .direct x ∧ x.ty ≠ .str ∧ m.typeOf v = .ok x.ty ∧ m.read v = .ok x := by
  obtain ⟨b, found, held⟩ := Option.bind_eq_some_iff.1 filled
  have member := Table.mem_of_find? found
  by_cases text : b.ty = .str
  · obtain ⟨i, rfl, -⟩ := wf.text b member text slot held
    exact Or.inl ⟨i, rfl, typeOf_eq_ok_iff.2 ⟨b, found, text⟩⟩
  · obtain ⟨x, rfl, typed⟩ := wf.scalar b member text slot held
    refine Or.inr ⟨x, rfl, typed ▸ text, typeOf_eq_ok_iff.2 ⟨b, found, typed.symm⟩, ?_⟩
    exact read_of_find? found held

/-- Memories that show the same of a variable, and whose indices are told by one list of
text stores, hold the same slot for it.  Both hold a slot or neither does, and the type of the
variable tells of which kind the two are. -/
theorem AgreeOn.slot?_eq (agree : AgreeOn {name} m m') (wf : m.WellFormed) (wf' : m'.WellFormed)
    (indexed : IndexesLast m stores) (indexed' : IndexesLast m' stores) :
    m.slot? name = m'.slot? name := by
  let v := Identifier.synthetic name
  have here : v.name ∈ ({name} : Set String) := rfl
  have populated : (m.slot? name).isSome = (m'.slot? name).isSome := by
    have := agree.alikeOn.isPopulated wf wf' here
    rwa [isPopulated_eq_slot?, isPopulated_eq_slot?] at this
  have typed := agree.alikeOn.typeOf v here
  cases left : m.slot? name with
  | none =>
    rw [left] at populated
    exact (Option.isNone_iff_eq_none.1 (by simpa using populated.symm)).symm
  | some slot =>
    rw [left] at populated
    obtain ⟨slot', right⟩ := Option.isSome_iff_exists.1 populated.symm
    rw [right]
    rcases wf.slot?_cases (v := v) left with ⟨i, rfl, ty⟩ | ⟨x, rfl, scalar, ty, value⟩
    · rcases wf'.slot?_cases (v := v) right with ⟨j, rfl, -⟩ | ⟨y, rfl, scalar', ty', -⟩
      · rw [(indexed.2 name i left).eq (indexed'.2 name j right)]
      · rw [typed, ty'] at ty
        exact absurd (Except.ok.inj ty) scalar'
    · rcases wf'.slot?_cases (v := v) right with ⟨j, rfl, ty'⟩ | ⟨y, rfl, -, -, value'⟩
      · rw [typed, ty'] at ty
        exact absurd (Except.ok.inj ty).symm scalar
      · rw [agree.read v here, value'] at value
        rw [Except.ok.inj value]

/-- A binding is a declaration and a slot. -/
theorem find?_eq_of_declaration? (declared : m.declaration? name = m'.declaration? name)
    (held : m.slot? name = m'.slot? name) : m.table.find? name = m'.table.find? name := by
  unfold declaration? at declared
  unfold slot? at held
  cases left : m.table.find? name with
  | none =>
    cases right : m'.table.find? name with
    | none => rfl
    | some b' => simp [left, right] at declared
  | some b =>
    cases right : m'.table.find? name with
    | none => simp [left, right] at declared
    | some b' =>
      rw [left, right] at declared held
      have declaration : b.toDeclaration = b'.toDeclaration := Option.some.inj declared
      have slot : b.slot = b'.slot := held
      cases b
      cases b'
      cases declaration
      cases slot
      rfl

end Indices

/-- Tables that answer every look-up alike hold the same bindings. -/
theorem bindings_perm_of_find?_eq {s t : Table} (distinct : s.DistinctNames)
    (distinct' : t.DistinctNames) (same : ∀ name, s.find? name = t.find? name) :
    s.bindings.Perm t.bindings := by
  refine (List.perm_ext_iff_of_nodup distinct.of_map distinct'.of_map).2 fun b => ?_
  have left : s.find? b.name = some b ↔ _ := Table.find?_eq_some_iff distinct
  have right : t.find? b.name = some b ↔ _ := Table.find?_eq_some_iff distinct'
  rw [same] at left
  simpa using left.symm.trans right

end VarStore.Memory
