/- # VarStore.Proofs.Noninterference — variables that share a heap do not interfere

The steps of a run that are about variables in a set `S` can be performed without the
others.  The indices that the variables of `S` then hold are other ones, since the texts of
the other variables are not on the heap; but a memory of the full run and one of the short
run show the same of `S` all along (`AgreeOn.run_filter`), so each step that stays is
answered as before.

Two programs whose variables are different ones can be interleaved in any order: each is
answered as if it ran alone (`exchanges_interleaved`).
-/
import VarStore.Proofs.Frame
import VarStore.Proofs.HeapLog
import VarStore.Proofs.Transcript

namespace VarStore

set_option autoImplicit false

/-- The third list merges the first two and keeps the order of each. -/
inductive Interleaved {α : Type} : List α → List α → List α → Prop
  | nil : Interleaved [] [] []
  | left {a : α} {first second merged : List α} :
      Interleaved first second merged → Interleaved (a :: first) second (a :: merged)
  | right {a : α} {first second merged : List α} :
      Interleaved first second merged → Interleaved first (a :: second) (a :: merged)

namespace Memory

/-! ## Leaving out the steps of other variables -/

theorem textStore?_mem_names {m : Memory} {s : Step} {stored : Identifier × Value}
    (stores : m.textStore? s = some stored) : stored.1.name ∈ s.names := by
  have taken := (textStore?_eq_some_iff.1 stores).1
  exact offer?_mem_names (accepted?_eq_some_iff.1 taken).1

section Filter

variable {S : Set String} [DecidablePred (· ∈ S)] {m m' : Memory} {s : Step}

/-- A step within `S` stores the same text on both sides, to a variable in `S`. -/
theorem AgreeOn.textStore?_filter (agree : AgreeOn S m m')
    (inside : ∀ name ∈ s.names, name ∈ S) :
    (m.textStore? s).toList.filter (fun stored => decide (stored.1.name ∈ S)) =
      (m'.textStore? s).toList := by
  have same : m'.textStore? s = m.textStore? s := by
    rw [textStore?, textStore?, agree.alikeOn.accepted?_eq inside]
  rw [same]
  refine List.filter_eq_self.2 fun stored member => decide_eq_true ?_
  exact inside _ (textStore?_mem_names (Option.mem_toList.1 member))

/-- A step outside `S` stores no text to a variable in `S`. -/
theorem textStore?_filter_of_outside (outside : ∀ name ∈ s.names, name ∉ S) :
    (m.textStore? s).toList.filter (fun stored => decide (stored.1.name ∈ S)) = [] := by
  refine List.filter_eq_nil_iff.2 fun stored member here => ?_
  have named := textStore?_mem_names (Option.mem_toList.1 member)
  exact outside _ named (of_decide_eq_true here)

/-- **The run without the steps of other variables.**  From memories that agree on `S`, the
full run and the run of its steps within `S` exchange the same in these steps, store the
same texts to variables in `S`, and end in memories that agree on `S`.  A step within `S` finds the
same in both, and one outside, which only the full run performs, changes nothing in `S`. -/
theorem AgreeOn.run_filter (agree : AgreeOn S m m') (wf : m.WellFormed) (wf' : m'.WellFormed)
    {steps : List Step} (undivided : ∀ s ∈ steps, s.Undivided S) :
    m'.exchanges (steps.filter (·.Within S)) =
        (m.exchanges steps).filter (fun entry => entry.1.Within S) ∧
      m'.textStores (steps.filter (·.Within S)) =
        (m.textStores steps).filter (fun stored => stored.1.name ∈ S) ∧
      AgreeOn S (m.after steps) (m'.after (steps.filter (·.Within S))) := by
  induction steps generalizing m m' with
  | nil => exact ⟨rfl, rfl, agree⟩
  | cons s rest ih =>
    have undivided_rest : ∀ s ∈ rest, s.Undivided S :=
      fun s member => undivided s (List.mem_cons_of_mem _ member)
    rcases (undivided s List.mem_cons_self).cases with within | ⟨without, outside⟩
    · have next := agree.step wf wf' within.2
      obtain ⟨answers, stores, last⟩ := ih next (wf.step s) (wf'.step s) undivided_rest
      have kept : (s :: rest).filter (·.Within S) = s :: rest.filter (·.Within S) :=
        List.filter_cons_of_pos (decide_eq_true within)
      rw [kept]
      refine ⟨?_, ?_, last⟩
      · rw [exchanges_cons, exchanges_cons, List.filter_cons, if_pos (decide_eq_true within), answers,
          agree.alikeOn.answer_eq wf wf' within]
      · rw [textStores_cons, textStores_cons, List.filter_append, stores,
          agree.textStore?_filter within.2]
    · have next : AgreeOn S (m.step s).2 m' := (wf.agreeOn_step outside).trans agree
      obtain ⟨answers, stores, last⟩ := ih next (wf.step s) wf' undivided_rest
      have dropped : (s :: rest).filter (·.Within S) = rest.filter (·.Within S) :=
        List.filter_cons_of_neg fun within => without (of_decide_eq_true within)
      rw [dropped]
      refine ⟨?_, ?_, last⟩
      · rw [exchanges_cons, List.filter_cons,
          if_neg fun within => without (of_decide_eq_true within), answers]
      · rw [textStores_cons, List.filter_append, textStore?_filter_of_outside outside, stores]
        rfl

end Filter

/-- Steps outside `S` change nothing in `S`. -/
theorem WellFormed.agreeOn_after {S : Set String} {m : Memory} (wf : m.WellFormed)
    {steps : List Step} (outside : ∀ s ∈ steps, ∀ name ∈ s.names, name ∉ S) :
    AgreeOn S (m.after steps) m :=
  wf.agreeOn_after_of_target? fun s member name here target =>
    outside s member name (Step.target?_mem_names target) here

/-- The short run declares the variables in `S` that the full run declares, and no other. -/
theorem declarations_after_filter {S : Set String} [DecidablePred (· ∈ S)] {steps : List Step}
    (undivided : ∀ s ∈ steps, s.Undivided S) :
    (empty.after (steps.filter (·.Within S))).declarations =
      (empty.after steps).declarations.filter (fun d => d.name ∈ S) := by
  have wf := (reachable_empty.after steps).wellFormed
  have wf' := (reachable_empty.after (steps.filter (·.Within S))).wellFormed
  refine wf.declarations_eq_filter wf' fun name => ?_
  by_cases member : name ∈ S
  · have agree := ((AgreeOn.refl S empty).run_filter wellFormed_empty wellFormed_empty undivided).2.2
    rw [if_pos member, agree.declaration? name member]
  · have outside : ∀ s ∈ steps.filter (·.Within S), ∀ name ∈ s.names, name ∉ Sᶜ := by
      intro s kept name named out
      have within : s.Within S := of_decide_eq_true (List.mem_filter.1 kept).2
      exact out (within.2 name named)
    have agree := wellFormed_empty.agreeOn_after outside
    rw [if_neg member, agree.declaration? name member]
    rfl

/-! ## Interleaving -/

/-- Merged programs over different variables are answered as if each ran alone: of a step of the
one, the other sees nothing. -/
theorem exchanges_interleaved {S : Set String} {first second merged : List Step}
    (interleaved : Interleaved first second merged) {m left right : Memory}
    (wf : m.WellFormed) (wfLeft : left.WellFormed) (wfRight : right.WellFormed)
    (agreeLeft : AgreeOn S m left) (agreeRight : AgreeOn Sᶜ m right)
    (inside : ∀ s ∈ first, s.Within S) (outside : ∀ s ∈ second, s.Within Sᶜ) :
    Interleaved (left.exchanges first) (right.exchanges second) (m.exchanges merged) := by
  induction interleaved generalizing m left right with
  | nil => exact .nil
  | @left s first second merged _ ih =>
    have within := inside s List.mem_cons_self
    have quiet : ∀ name ∈ s.names, name ∉ Sᶜ := fun name named out => out (within.2 name named)
    rw [exchanges_cons, exchanges_cons, agreeLeft.alikeOn.answer_eq wf wfLeft within]
    refine .left (ih (wf.step s) (wfLeft.step s) wfRight (agreeLeft.step wf wfLeft within.2)
      ((wf.agreeOn_step quiet).trans agreeRight) ?_ outside)
    exact fun t member => inside t (List.mem_cons_of_mem _ member)
  | @right s first second merged _ ih =>
    have within := outside s List.mem_cons_self
    have quiet : ∀ name ∈ s.names, name ∉ S := within.2
    rw [exchanges_cons, exchanges_cons, agreeRight.alikeOn.answer_eq wf wfRight within]
    refine .right (ih (wf.step s) wfLeft (wfRight.step s) ((wf.agreeOn_step quiet).trans agreeLeft)
      (agreeRight.step wf wfRight within.2) inside ?_)
    exact fun t member => outside t (List.mem_cons_of_mem _ member)

/-- **Variables do not interfere.**  Let no step of a run join a variable in `S` with one
outside.  Without the steps that are not about variables in `S`, every step is answered
as in the full run; the declarations, with the places of the first ones, are those of the full
run that are in `S`; and the heap is the part of the full run's heap that was stored to
variables in `S`.  Two programs over different variables, merged in any order, are answered as
each of them is alone. -/
theorem noninterference (S : Set String) [DecidablePred (· ∈ S)] :
    (∀ steps : List Step, (∀ s ∈ steps, s.Undivided S) →
      empty.exchanges (steps.filter (·.Within S)) =
        (empty.exchanges steps).filter (fun entry => entry.1.Within S) ∧
      (empty.after (steps.filter (·.Within S))).declarations =
        (empty.after steps).declarations.filter (fun d => d.name ∈ S) ∧
      (empty.after steps).heapEntries = (empty.textStores steps).map (·.2) ∧
      (empty.after (steps.filter (·.Within S))).heapEntries =
        ((empty.textStores steps).filter (fun stored => stored.1.name ∈ S)).map (·.2)) ∧
    ∀ first second merged : List Step,
      (∀ s ∈ first, s.Within S) → (∀ s ∈ second, s.Within Sᶜ) →
      Interleaved first second merged →
      Interleaved (empty.exchanges first) (empty.exchanges second) (empty.exchanges merged) := by
  constructor
  · intro steps undivided
    obtain ⟨answers, stores, -⟩ :=
      (AgreeOn.refl S empty).run_filter wellFormed_empty wellFormed_empty undivided
    refine ⟨answers, declarations_after_filter undivided, heapEntries_eq_textLog steps, ?_⟩
    rw [heapEntries_eq_textLog, textLog, stores]
  · intro first second merged inside outside interleaved
    exact exchanges_interleaved interleaved wellFormed_empty wellFormed_empty wellFormed_empty
      (AgreeOn.refl S empty) (AgreeOn.refl Sᶜ empty) inside outside

theorem copies_of_another_left_out :
    let a := Identifier.synthetic "a"
    let b := Identifier.synthetic "b"
    let own : List Step := [.declare a "str", .write a (.str "y"), .read a]
    let others : List Step := [.declare b "str", .write b (.str "x"), .copy b b]
    let steps : List Step :=
      [.declare a "str", .declare b "str", .write b (.str "x"), .write a (.str "y"), .heapEntries,
        .copy b b, .read a]
    let merged : List Step :=
      [.declare b "str", .declare a "str", .write b (.str "x"), .write a (.str "y"), .copy b b,
        .read a]
    (empty.exchanges own =
        (empty.exchanges steps).filter (fun entry => entry.1.Within {name | name = "a"}) ∧
      (empty.after steps).heapEntries = [.str "x", .str "y", .str "x"] ∧
      (empty.after own).heapEntries = [.str "y"]) ∧
    Interleaved (empty.exchanges own) (empty.exchanges others) (empty.exchanges merged) := by
  intro a b own others steps merged
  obtain ⟨alone, together⟩ := noninterference {name | name = "a"}
  constructor
  · have undivided : ∀ s ∈ steps, s.Undivided {name | name = "a"} := by
      simp [steps, a, b, Step.Undivided, Step.names, Identifier.synthetic]
    have kept : steps.filter (·.Within {name | name = "a"}) = own := by
      simp [steps, own, a, b, Step.Within, Step.names, Identifier.synthetic]
    obtain ⟨answers, -, -, -⟩ := alone steps undivided
    rw [kept] at answers
    exact ⟨answers, rfl, rfl⟩
  · have inside : ∀ s ∈ own, s.Within {name | name = "a"} := by
      simp [own, a, Step.Within, Step.names, Identifier.synthetic]
    have outside : ∀ s ∈ others, s.Within {name | name = "a"}ᶜ := by
      simp [others, b, Step.Within, Step.names, Identifier.synthetic]
    exact together own others merged inside outside
      (.right (.left (.right (.left (.right (.left .nil))))))

end Memory

end VarStore
