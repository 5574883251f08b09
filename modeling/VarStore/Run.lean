/- # VarStore.Run — a program's steps, one after another

`Memory.run` performs a list of steps and observes the memory after each: the
answer of the step and the two sizes.  A step that answers an error does not
end the run.
-/
import VarStore.Step

namespace VarStore

set_option autoImplicit false

/-- What can be seen of one step of a run. -/
structure Observation where
  answer : Answer
  size : Nat
  heapSize : Nat
  deriving DecidableEq, Repr

namespace Memory

/-- Perform one step and look at the memory that it leaves. -/
def observe (m : Memory) (s : Step) : Observation × Memory :=
  let (answer, next) := m.step s
  ({ answer := answer, size := next.size, heapSize := next.heapSize }, next)

/-- The observations of the steps, oldest first, and the memory they leave. -/
def run (m : Memory) : List Step → List Observation × Memory
  | [] => ([], m)
  | s :: rest =>
      let (seen, next) := m.observe s
      let (later, last) := next.run rest
      (seen :: later, last)

/-- The memory that the steps leave. -/
def after (m : Memory) (steps : List Step) : Memory :=
  (m.run steps).2

/-- Some steps lead from the empty memory to `m`. -/
def Reachable (m : Memory) : Prop :=
  ∃ steps : List Step, empty.after steps = m

@[simp] theorem observe_fst (m : Memory) (s : Step) :
    (m.observe s).1 = { answer := (m.step s).1, size := (m.step s).2.size,
                        heapSize := (m.step s).2.heapSize } := rfl

@[simp] theorem observe_snd (m : Memory) (s : Step) : (m.observe s).2 = (m.step s).2 := rfl

@[simp] theorem run_nil (m : Memory) : m.run [] = ([], m) := rfl

theorem run_cons (m : Memory) (s : Step) (rest : List Step) :
    m.run (s :: rest) =
      ((m.observe s).1 :: ((m.step s).2.run rest).1, ((m.step s).2.run rest).2) := rfl

theorem run_append (m : Memory) (first second : List Step) :
    m.run (first ++ second) =
      ((m.run first).1 ++ ((m.after first).run second).1, ((m.after first).run second).2) := by
  induction first generalizing m with
  | nil => rfl
  | cons s rest ih => simp [run_cons, ih, after]

@[simp] theorem length_run (m : Memory) (steps : List Step) :
    (m.run steps).1.length = steps.length := by
  induction steps generalizing m with
  | nil => rfl
  | cons s rest ih => simp [run_cons, ih]

@[simp] theorem after_nil (m : Memory) : m.after [] = m := rfl

@[simp] theorem after_cons (m : Memory) (s : Step) (rest : List Step) :
    m.after (s :: rest) = (m.step s).2.after rest := rfl

theorem after_append (m : Memory) (first second : List Step) :
    m.after (first ++ second) = (m.after first).after second := by
  rw [after, run_append]
  rfl

theorem reachable_empty : Reachable empty := ⟨[], rfl⟩

theorem Reachable.after {m : Memory} (h : m.Reachable) (steps : List Step) :
    (m.after steps).Reachable := by
  obtain ⟨earlier, rfl⟩ := h
  exact ⟨earlier ++ steps, after_append _ _ _⟩

theorem Reachable.step {m : Memory} (h : m.Reachable) (s : Step) : (m.step s).2.Reachable :=
  h.after [s]

/-- What holds of the empty memory and is kept by every step holds of all reachable ones. -/
theorem Reachable.induction {P : Memory → Prop} (start : P empty)
    (keep : ∀ m s, P m → P (m.step s).2) {m : Memory} (h : m.Reachable) : P m := by
  obtain ⟨steps, rfl⟩ := h
  have from_any (m : Memory) (hm : P m) : P (m.after steps) := by
    induction steps generalizing m with
    | nil => exact hm
    | cons s rest ih => exact ih _ (keep m s hm)
  exact from_any empty start

end Memory

end VarStore
