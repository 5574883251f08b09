/- # VarStore.Proofs.Idle — steps that leave no trace

A step is idle if it only looks at the memory, or if it is answered an error.  An idle
step hands on the very memory that it found (`step_of_idle`): every refusal comes before
the first change.  `step_isError_iff` says when a step is refused, told from what the
memory shows before it: its keyword names no type, or its last access is refused.

So idle steps can be left out of a run, any number of them at any places, and the steps
that stay are observed as before (`run_keepAt`).
-/
import VarStore.Proofs.History
import VarStore.Proofs.Refusal
import VarStore.Proofs.Transcript

namespace VarStore

set_option autoImplicit false

/-- The entries of a list whose numbers are kept, in their order. -/
def keepAt {α : Type} (keep : Nat → Bool) : List α → List α
  | [] => []
  | a :: rest =>
      if keep 0 then a :: keepAt (fun k => keep (k + 1)) rest
      else keepAt (fun k => keep (k + 1)) rest

namespace Memory

/-- The step is to be refused, as the memory shows. -/
def Refuses (m : Memory) : Step → Prop
  | .declare _ keyword => ∀ ty : Ty, keyword ≠ ty.keyword
  | .typeOf v => m.isDeclared v = false
  | .read v => m.isPopulated v = false
  | .print v => m.isPopulated v = false
  | .write v x => m.typeOf v ≠ .ok x.ty
  | .copy source target =>
      m.isPopulated source = false ∨ ∃ ty, m.typeOf source = .ok ty ∧ m.typeOf target ≠ .ok ty
  | .same a b => m.isPopulated a = false ∨ m.isPopulated b = false
  | _ => False

/-- The step only looks at the memory, or it is answered an error. -/
def Idle (m : Memory) (s : Step) : Prop :=
  s.observes = true ∨ (m.step s).1.isError = true

/-! ## Refusals -/

/-- **When a step is refused.**  It is answered an error exactly if the memory shows so. -/
theorem WellFormed.step_isError_iff {m : Memory} (wf : WellFormed m) (s : Step) :
    (m.step s).1.isError = true ↔ m.Refuses s := by
  have refused : (∃ fault, (m.step s).1 = .refused fault) ↔
      ∃ a fault, m.lastAccess? s = some a ∧ m.RefusedWith a fault := by
    simp only [wf.step_eq_refused_iff]
    exact exists_comm
  rw [Answer.isError_iff, exists_unknownType_iff, refused]
  cases s with
  | declare v keyword => simp [lastAccess?, Refuses]
  | typeOf v => simp [lastAccess?, Refuses, exists_refusedWith_typeOf_iff]
  | read v => simp [lastAccess?, Refuses, wf.exists_refusedWith_read_iff]
  | print v => simp [lastAccess?, Refuses, wf.exists_refusedWith_read_iff]
  | write v x => simp [lastAccess?, Refuses, exists_refusedWith_write_iff]
  | copy source target =>
    cases readable : m.read source with
    | error fault =>
      have unfilled := wf.isPopulated_eq_false_of_read_error readable
      simp [lastAccess?, Refuses, readable, unfilled, wf.exists_refusedWith_read_iff]
    | ok x =>
      have filled := wf.isPopulated_iff.2 ⟨x, readable⟩
      have typed := wf.typeOf_of_read readable
      simp [lastAccess?, Refuses, readable, filled, typed, exists_refusedWith_write_iff]
  | same a b =>
    cases readable : m.read a with
    | error fault =>
      have unfilled := wf.isPopulated_eq_false_of_read_error readable
      simp [lastAccess?, Refuses, readable, unfilled, wf.exists_refusedWith_read_iff]
    | ok x =>
      have filled := wf.isPopulated_iff.2 ⟨x, readable⟩
      simp [lastAccess?, Refuses, readable, filled, wf.exists_refusedWith_read_iff]
  | _ => simp [lastAccess?, Refuses]

/-! ## Idle steps -/

theorem step_of_idle {m : Memory} {s : Step} (idle : m.Idle s) : (m.step s).2 = m := by
  rcases idle with observes | error
  · exact step_of_observes m observes
  · exact step_of_isError m error

section Selection

variable {m : Memory} {steps : List Step} {keep : Nat → Bool}

/-- What is asked of the numbers left out of a run, asked of those left out of its rest. -/
theorem idle_rest {s : Step} {rest : List Step}
    (idle : ∀ k, k < (s :: rest).length → keep k = false → m.At (s :: rest) k Idle) :
    ∀ k, k < rest.length → keep (k + 1) = false → (m.step s).2.At rest k Idle := by
  intro k bound out
  have found := idle (k + 1) (Nat.succ_lt_succ bound) out
  exact (at_cons_succ ..).1 found

/-- **Idle steps can be left out of a run.**  What is seen of the others is the same, and so is
the memory at the end, since the rest of a run starts from the memory that an idle step found. -/
theorem run_keepAt (idle : ∀ k, k < steps.length → keep k = false → m.At steps k Idle) :
    m.transcript (keepAt keep steps) = keepAt keep (m.transcript steps) ∧
      m.after (keepAt keep steps) = m.after steps := by
  induction steps generalizing m keep with
  | nil => exact ⟨rfl, rfl⟩
  | cons s rest ih =>
    obtain ⟨seen, last⟩ := ih (idle_rest idle)
    cases kept : keep 0 with
    | true =>
      simp only [keepAt, kept, if_true, transcript_cons, after_cons]
      exact ⟨by rw [seen], last⟩
    | false =>
      have first : m.Idle s := (at_cons_zero ..).1 (idle 0 (Nat.succ_pos _) kept)
      have same : (m.step s).2 = m := step_of_idle first
      rw [same] at seen last
      simp only [keepAt, kept, Bool.false_eq_true, if_false, transcript_cons, after_cons, same]
      exact ⟨seen, last⟩

end Selection

/-- **Refused and observing steps leave no trace.**  On a reachable memory a step is
answered an error exactly if the memory refuses it, and the memory is then the same after
it.  From any run any choice of steps that are idle where they stand can be left out: what
is seen of each other step, its answer and the two sizes, is the same, and so are the
memory at the end and its dump. -/
theorem idle_steps_leave_no_trace :
    (∀ m : Memory, m.Reachable → ∀ s : Step,
      ((m.step s).1.isError = true ↔ m.Refuses s) ∧ (m.Idle s → (m.step s).2 = m)) ∧
    ∀ (steps : List Step) (keep : Nat → Bool),
      (∀ k, k < steps.length → keep k = false → empty.At steps k Idle) →
      empty.transcript (keepAt keep steps) = keepAt keep (empty.transcript steps) ∧
      empty.after (keepAt keep steps) = empty.after steps ∧
      (empty.after (keepAt keep steps)).dump = (empty.after steps).dump := by
  constructor
  · intro m reached s
    exact ⟨reached.wellFormed.step_isError_iff s, step_of_idle⟩
  · intro steps keep idle
    obtain ⟨seen, last⟩ := run_keepAt idle
    refine ⟨seen, last, ?_⟩
    rw [last]

theorem refusals_and_dump_left_out :
    let s := Identifier.synthetic "s"
    let t := Identifier.synthetic "t"
    let steps : List Step :=
      [.declare s "str", .write s (.int 3), .read t, .write s (.str "a"), .copy s t, .dump,
        .copy s s]
    let kept : List Step := [.declare s "str", .write s (.str "a"), .copy s s]
    empty.transcript kept = keepAt (fun k => k % 3 == 0) (empty.transcript steps) ∧
      empty.after kept = empty.after steps ∧
      (empty.after kept).dump = (empty.after steps).dump := by
  intro s t steps kept
  refine idle_steps_leave_no_trace.2 steps (fun k => k % 3 == 0) ?_
  intro k bound out
  have seven : k < 7 := bound
  have left : k = 1 ∨ k = 2 ∨ k = 4 ∨ k = 5 := by
    simp only [beq_eq_false_iff_ne] at out
    omega
  rcases left with rfl | rfl | rfl | rfl
  · exact ⟨_, rfl, Or.inr rfl⟩
  · exact ⟨_, rfl, Or.inr rfl⟩
  · exact ⟨_, rfl, Or.inr rfl⟩
  · exact ⟨_, rfl, Or.inl rfl⟩

end Memory

end VarStore
