/- # VarStore.Proofs.Transcript — the steps of a run with what comes back

`m.transcript steps` pairs every step of a run with all that is observed of it, and
`m.exchanges steps` with its answer alone.  Where two runs are compared step by step, it
is their transcripts, or parts of them, that are equal.
-/
import VarStore.Run

namespace VarStore.Memory

set_option autoImplicit false

/-- Every step of the run with what is seen of it, oldest first. -/
def transcript (m : Memory) (steps : List Step) : List (Step × Observation) :=
  steps.zip (m.run steps).1

/-- Every step of the run with its answer, oldest first. -/
def exchanges (m : Memory) (steps : List Step) : List (Step × Answer) :=
  (m.transcript steps).map fun entry => (entry.1, entry.2.answer)

@[simp] theorem transcript_nil (m : Memory) : m.transcript [] = [] := rfl

theorem transcript_cons (m : Memory) (s : Step) (rest : List Step) :
    m.transcript (s :: rest) = (s, (m.observe s).1) :: (m.step s).2.transcript rest := rfl

theorem transcript_append (m : Memory) (first second : List Step) :
    m.transcript (first ++ second) = m.transcript first ++ (m.after first).transcript second := by
  rw [transcript, run_append, List.zip_append (m.length_run first).symm]
  rfl

@[simp] theorem length_transcript (m : Memory) (steps : List Step) :
    (m.transcript steps).length = steps.length := by
  simp [transcript]

@[simp] theorem exchanges_nil (m : Memory) : m.exchanges [] = [] := rfl

theorem exchanges_cons (m : Memory) (s : Step) (rest : List Step) :
    m.exchanges (s :: rest) = (s, (m.step s).1) :: (m.step s).2.exchanges rest := rfl

/-- An exchange is about one of the steps. -/
theorem mem_of_mem_exchanges {m : Memory} {steps : List Step} {entry : Step × Answer}
    (member : entry ∈ m.exchanges steps) : entry.1 ∈ steps := by
  obtain ⟨⟨s, seen⟩, present, rfl⟩ := List.mem_map.1 member
  exact (List.of_mem_zip present).1

end VarStore.Memory
