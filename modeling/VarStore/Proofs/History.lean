/- # VarStore.Proofs.History — the steps of a run, each in the memory it finds

Whether a step stores something depends on the memory it is performed on, so a
history is asked about a step and that memory together: `m.At steps k p` says
that `p` holds of step number `k` of the run and of the memory that the steps
before it leave.  `m.LastAt steps k p` says that no later step satisfies `p`, and
`m.FirstAt steps k p` that no earlier one does.

What a memory shows is often left by the last step of some kind.  The two rules
are `after_of_never`, for a run without such a step, and `after_of_none_later`:
what a step leaves, and all steps but those of the kind keep, holds at the end if
none of the kind comes later.
-/
import VarStore.Proofs.Effect

namespace VarStore.Memory

set_option autoImplicit false

/-- Step number `k`, performed on the memory it finds, satisfies `p`. -/
def At (m : Memory) (steps : List Step) (k : Nat) (p : Memory → Step → Prop) : Prop :=
  ∃ s, steps[k]? = some s ∧ p (m.after (steps.take k)) s

/-- Step number `k` is the last one that satisfies `p`. -/
def LastAt (m : Memory) (steps : List Step) (k : Nat) (p : Memory → Step → Prop) : Prop :=
  m.At steps k p ∧ ∀ l, k < l → ¬ m.At steps l p

/-- Step number `k` is the first one that satisfies `p`. -/
def FirstAt (m : Memory) (steps : List Step) (k : Nat) (p : Memory → Step → Prop) : Prop :=
  m.At steps k p ∧ ∀ l, l < k → ¬ m.At steps l p

variable {m : Memory} {steps : List Step} {p : Memory → Step → Prop}

@[simp] theorem at_nil (m : Memory) (k : Nat) (p : Memory → Step → Prop) :
    ¬ m.At [] k p := by
  rintro ⟨s, found, -⟩
  cases found

@[simp] theorem at_cons_zero (m : Memory) (s : Step) (rest : List Step)
    (p : Memory → Step → Prop) : m.At (s :: rest) 0 p ↔ p m s := by
  simp [At]

@[simp] theorem at_cons_succ (m : Memory) (s : Step) (rest : List Step) (k : Nat)
    (p : Memory → Step → Prop) :
    m.At (s :: rest) (k + 1) p ↔ (m.step s).2.At rest k p := by
  simp [At]

theorem after_take_succ {k : Nat} {s : Step} (present : steps[k]? = some s) :
    m.after (steps.take (k + 1)) = ((m.after (steps.take k)).step s).2 := by
  rw [List.take_add_one, present, after_append]
  rfl

theorem at_take {n k : Nat} : m.At (steps.take n) k p ↔ k < n ∧ m.At steps k p := by
  unfold At
  constructor
  · rintro ⟨s, present, holds⟩
    have bound : k < n := by
      have := (List.getElem?_eq_some_iff.1 present).1
      rw [List.length_take] at this
      omega
    rw [List.getElem?_take_of_lt bound] at present
    rw [List.take_take, Nat.min_eq_left (Nat.le_of_lt bound)] at holds
    exact ⟨bound, s, present, holds⟩
  · rintro ⟨bound, s, present, holds⟩
    refine ⟨s, ?_, ?_⟩
    · rw [List.getElem?_take_of_lt bound, present]
    · rwa [List.take_take, Nat.min_eq_left (Nat.le_of_lt bound)]

theorem LastAt.eq {k l : Nat} (last : m.LastAt steps k p) (also : m.LastAt steps l p) :
    k = l := by
  rcases Nat.lt_trichotomy k l with before | same | after
  · exact absurd also.1 (last.2 l before)
  · exact same
  · exact absurd last.1 (also.2 k after)

theorem LastAt.take {n k : Nat} (last : m.LastAt steps k p) (bound : k < n) :
    m.LastAt (steps.take n) k p :=
  ⟨at_take.2 ⟨bound, last.1⟩, fun l later found => last.2 l later (at_take.1 found).2⟩

/-- Of the steps that satisfy `p` one is the last. -/
theorem exists_lastAt {k : Nat} (found : m.At steps k p) : ∃ l, m.LastAt steps l p := by
  induction steps generalizing m k with
  | nil => exact absurd found (at_nil m k p)
  | cons s rest ih =>
    by_cases later : ∃ j, (m.step s).2.At rest j p
    · obtain ⟨j, holds⟩ := later
      obtain ⟨l, last, none_later⟩ := ih holds
      refine ⟨l + 1, (at_cons_succ ..).2 last, fun i above also => ?_⟩
      cases i with
      | zero => omega
      | succ i => exact none_later i (by omega) ((at_cons_succ ..).1 also)
    · have first : m.At (s :: rest) 0 p := by
        cases k with
        | zero => exact found
        | succ k => exact absurd ⟨k, (at_cons_succ ..).1 found⟩ later
      refine ⟨0, first, fun i above also => ?_⟩
      cases i with
      | zero => omega
      | succ i => exact later ⟨i, (at_cons_succ ..).1 also⟩

/-- Of the steps that satisfy `p` one is the first. -/
theorem exists_firstAt {k : Nat} (found : m.At steps k p) : ∃ l, m.FirstAt steps l p := by
  induction k using Nat.strongRecOn with
  | ind k ih =>
    by_cases earlier : ∃ l, l < k ∧ m.At steps l p
    · obtain ⟨l, before, also⟩ := earlier
      exact ih l before also
    · exact ⟨k, found, fun l before also => earlier ⟨l, before, also⟩⟩

/-- What the steps that do not satisfy `p` keep, a run without others keeps. -/
theorem after_of_never {P : Memory → Prop}
    (keep : ∀ m s, P m → ¬ p m s → P (m.step s).2) (holds : P m)
    (never : ∀ k, ¬ m.At steps k p) : P (m.after steps) := by
  induction steps generalizing m with
  | nil => exact holds
  | cons s rest ih =>
    refine ih (keep m s holds ?_) fun k => ?_
    · exact fun now => never 0 ((at_cons_zero ..).2 now)
    · exact fun later => never (k + 1) ((at_cons_succ ..).2 later)

/-- What step number `k` leaves, and the steps that do not satisfy `p` keep, holds at the
end of a run in which no later step satisfies `p`. -/
theorem after_of_none_later {P : Memory → Prop} {k : Nat} {s : Step}
    (present : steps[k]? = some s) (leaves : P ((m.after (steps.take k)).step s).2)
    (keep : ∀ m s, P m → ¬ p m s → P (m.step s).2)
    (none_later : ∀ l, k < l → ¬ m.At steps l p) : P (m.after steps) := by
  induction steps generalizing m k with
  | nil => cases present
  | cons first rest ih =>
    cases k with
    | zero =>
      cases present
      show P ((m.step s).2.after rest)
      refine after_of_never keep leaves fun j later => ?_
      exact none_later (j + 1) (by omega) ((at_cons_succ ..).2 later)
    | succ k =>
      refine ih present leaves fun j above later => ?_
      exact none_later (j + 1) (by omega) ((at_cons_succ ..).2 later)

end VarStore.Memory
