/- # VarStore.Proofs.Copying — a copy shares nothing with its source

A copy reads its source and then stores what it read to its target, so it is accepted exactly if
the source has a value and the target has the type of the source (`WellFormed.copy_eq_ok_iff`);
otherwise it is refused by the read or else by the store, and changes nothing
(`copy_eq_error_iff`).

A text is copied to a heap entry of its own.  So the target keeps the value, whatever becomes of
the source afterwards: only a step that declares the target or stores to it can change it
(`WellFormed.agreeOn_after_of_target?`).
-/
import VarStore.Proofs.Frame

namespace VarStore.Memory

set_option autoImplicit false

section Copy

variable {m : Memory} {source target : Identifier} {x : Value} {fault : Fault}

/-- When a copy is accepted, told from what the memory shows. -/
theorem WellFormed.copy_eq_ok_iff (wf : m.WellFormed) :
    (m.copy source target).1 = .ok () ↔
      m.isPopulated source = true ∧
        ∃ ty, m.typeOf source = .ok ty ∧ m.typeOf target = .ok ty := by
  rw [copy_fst_eq_ok_iff]
  constructor
  · rintro ⟨x, readable, typed⟩
    exact ⟨wf.isPopulated_iff.2 ⟨x, readable⟩, x.ty, wf.typeOf_of_read readable, typed⟩
  · rintro ⟨populated, ty, sourceTy, targetTy⟩
    obtain ⟨x, readable⟩ := wf.isPopulated_iff.1 populated
    have same := wf.typeOf_of_read readable
    rw [sourceTy] at same
    cases same
    exact ⟨x, readable, targetTy⟩

/-- A copy is refused by the read of its source, or else by the store to its target. -/
theorem copy_eq_error_iff :
    (m.copy source target).1 = .error fault ↔
      m.read source = .error fault ∨
        ∃ x, m.read source = .ok x ∧ (m.write target x).1 = .error fault := by
  cases readable : m.read source with
  | error other => simp [copy_of_read_error readable]
  | ok x => simp [copy_of_read_ok readable]

theorem copy_snd_of_error (refused : (m.copy source target).1 = .error fault) :
    (m.copy source target).2 = m := by
  rcases copy_eq_error_iff.1 refused with unreadable | ⟨x, readable, rejected⟩
  · rw [copy_of_read_error unreadable]
  · rw [write_fst] at rejected
    rw [copy_of_read_ok readable, write_of_check_error rejected]

/-- An accepted copy is a store of the value that was read. -/
theorem copy_snd_of_ok (readable : m.read source = .ok x) (typed : m.typeOf target = .ok x.ty) :
    (m.copy source target).2 = m.store target.name x := by
  rw [copy_of_read_ok readable, write_of_check_ok (check_eq_ok_iff.2 typed)]

/-- What was read before a store of it is read after it, from whatever variable. -/
theorem WellFormed.read_store_of_read (wf : m.WellFormed) (readable : m.read source = .ok x)
    (typed : m.typeOf target = .ok x.ty) : (m.store target.name x).read source = .ok x := by
  rw [wf.read_store typed]
  split
  · rfl
  · exact readable

/-- A store leaves the other variables as they are. -/
theorem WellFormed.alikeOn_store (wf : m.WellFormed) (typed : m.typeOf target = .ok x.ty) :
    AlikeOn {name | name ≠ target.name} (m.store target.name x) m where
  typeOf := fun v _ => m.typeOf_store target.name x v
  read := fun v other => by rw [wf.read_store typed, if_neg other]

end Copy

/-- **Copies have value semantics.**  On a reachable memory a copy is accepted exactly if the
source has a value and the target is declared with the type of the source; else it is answered
the fault of the read or, if the source can be read, that of the store, and the memory stays the
same.  After an accepted copy both variables have the value that the source had, every other
variable is as before, and the heap has one entry more, equal to the value, if that is a text.
The target then keeps the value through any steps that neither declare it nor store to it, since the
heap may grow but gives up nothing. -/
theorem copy_value_semantics {m : Memory} (reached : m.Reachable) (source target : Identifier) :
    ((m.copy source target).1 = .ok () ↔
      m.isPopulated source = true ∧
        ∃ ty, m.typeOf source = .ok ty ∧ m.typeOf target = .ok ty) ∧
    (∀ fault,
      ((m.copy source target).1 = .error fault ↔
        m.read source = .error fault ∨
          ∃ x, m.read source = .ok x ∧ (m.write target x).1 = .error fault) ∧
      ((m.copy source target).1 = .error fault → (m.copy source target).2 = m)) ∧
    ((m.copy source target).1 = .ok () →
      ∃ x, m.read source = .ok x ∧
        (m.copy source target).2.read target = .ok x ∧
        (m.copy source target).2.read source = .ok x ∧
        (m.copy source target).2.same source target = .ok true ∧
        (∀ v : Identifier, v.name ≠ target.name →
          (m.copy source target).2.typeOf v = m.typeOf v ∧
          (m.copy source target).2.isPopulated v = m.isPopulated v ∧
          (m.copy source target).2.read v = m.read v) ∧
        (m.copy source target).2.heapEntries = m.heapEntries ++ (if x.ty = .str then [x] else []) ∧
        ∀ later : List Step, (∀ s ∈ later, s.target? ≠ some target.name) →
          ((m.copy source target).2.after later).read target = .ok x) := by
  have wf := reached.wellFormed
  refine ⟨wf.copy_eq_ok_iff, fun fault => ⟨copy_eq_error_iff, copy_snd_of_error⟩, fun accepted => ?_⟩
  obtain ⟨x, readable, typed⟩ := copy_fst_eq_ok_iff.1 accepted
  have stored : (m.store target.name x).WellFormed := wf.store typed
  have copied : (m.store target.name x).read target = .ok x := by
    rw [wf.read_store typed, if_pos rfl]
  have kept := wf.read_store_of_read readable typed
  rw [copy_snd_of_ok readable typed]
  refine ⟨x, readable, copied, kept, ?_, fun v other => ?_, ?_, fun later untargeted => ?_⟩
  · exact same_eq_ok_iff.2 ⟨x, x, kept, copied, decide_eq_true rfl⟩
  · have alike := wf.alikeOn_store typed
    exact ⟨alike.typeOf v other, alike.isPopulated stored wf other, alike.read v other⟩
  · simp only [heapEntries_store, Ty.onHeap_iff]
  · have agree : AgreeOn {name | name = target.name}
        ((m.store target.name x).after later) (m.store target.name x) := by
      refine stored.agreeOn_after_of_target? ?_
      rintro s member _ rfl
      exact untargeted s member
    rw [agree.read target rfl, copied]

/-- A text is copied to another variable and to its own, and the source then becomes a number. -/
theorem copies_outlive_source :
    let s := Identifier.synthetic "s"
    let t := Identifier.synthetic "t"
    let m := empty.after [.declare s "str", .write s (.str "a"), .declare t "str"]
    let later : List Step := [.write s (.str "b"), .same s t, .declare s "int", .copy t s]
    (m.copy s t).1 = .ok () ∧
      ((m.copy s t).2.after later).read t = .ok (.str "a") ∧
      (m.copy s s).2.heapEntries = [.str "a", .str "a"] := by
  intro s t m later
  have reached : m.Reachable := ⟨_, rfl⟩
  have untargeted : ∀ step ∈ later, step.target? ≠ some t.name := by decide
  obtain ⟨x, readable, -, -, -, -, -, kept⟩ := (copy_value_semantics reached s t).2.2 rfl
  obtain ⟨y, readable', -, -, -, -, heap, -⟩ := (copy_value_semantics reached s s).2.2 rfl
  cases readable
  cases readable'
  exact ⟨rfl, kept later untargeted, heap⟩

end VarStore.Memory
