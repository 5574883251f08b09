/- # VarStore.Proofs.LastWrite — answers told from the history of a run

What a variable answers at the end of a run depends on two of its steps.  The last
declaration of its name gives its type, whatever is stored or refused later
(`typeOf_after_of_lastAt`).  The last step after it that offers the variable a value of
that type gives its value (`read_after_of_lastAt`); if there is none, the variable is
empty, whatever it held before (`read_after_of_never`).  Values of other types are refused
and leave no trace, and what other variables are given makes no difference (`read_step`).
-/
import VarStore.Proofs.History
import VarStore.Proofs.WellFormed

namespace VarStore.Memory

set_option autoImplicit false

/-- The step declares `name` with one of the types. -/
def DeclaresName (name : String) (_ : Memory) (s : Step) : Prop :=
  ∃ ty, s.Declares name ty

/-- The step asks to store `x` to `name`: a write, or a copy of a variable that reads as `x`. -/
def Offers (name : String) (x : Value) (m : Memory) (s : Step) : Prop :=
  ∃ v, m.offer? s = some (v, x) ∧ v.name = name

/-- The step asks to store some value of type `ty` to `name`. -/
def OffersTy (name : String) (ty : Ty) (m : Memory) (s : Step) : Prop :=
  ∃ x, Offers name x m s ∧ x.ty = ty

/-- A step offers one value. -/
theorem Offers.eq {name : String} {x y : Value} {m : Memory} {s : Step}
    (one : Offers name x m s) (other : Offers name y m s) : x = y := by
  obtain ⟨v, left, -⟩ := one
  obtain ⟨w, right, -⟩ := other
  rw [left] at right
  cases right
  rfl

/-! ## One step -/

theorem DeclaresName.of_effect {m : Memory} {s : Step} {v : Identifier} {ty : Ty}
    (effect : m.effect s = .declare v ty) : DeclaresName v.name m s :=
  ⟨ty, v, effect_eq_declare_iff.1 effect, rfl⟩

/-- Only a declaration of its name changes the type of a variable. -/
theorem typeOf_step {m : Memory} {s : Step} {v : Identifier}
    (other : ¬ DeclaresName v.name m s) : (m.step s).2.typeOf v = m.typeOf v := by
  rw [step_snd]
  cases effect : m.effect s with
  | keep => rfl
  | declare w ty =>
    have differ : v.name ≠ w.name := by
      intro same
      exact other (same ▸ DeclaresName.of_effect effect)
    rw [apply, typeOf_declare, if_neg differ]
  | store w x => rw [apply, typeOf_store]

theorem step_declare (m : Memory) (v : Identifier) (ty : Ty) :
    (m.step (.declare v ty.keyword)).2 = m.declare v ty := by
  rw [step_snd, effect_eq_declare_iff.2 rfl, apply]

/-- A variable reads the same before and after a step that neither declares it nor offers it
a value of its type: a store to it would be such an offer. -/
theorem read_step {m : Memory} (wf : m.WellFormed) {v : Identifier} {ty : Ty}
    (typed : m.typeOf v = .ok ty) {s : Step} (undeclaring : ¬ DeclaresName v.name m s)
    (unoffered : ¬ OffersTy v.name ty m s) : (m.step s).2.read v = m.read v := by
  rw [step_snd]
  cases effect : m.effect s with
  | keep => rfl
  | declare w t =>
    have differ : v.name ≠ w.name := by
      intro same
      exact undeclaring (same ▸ DeclaresName.of_effect effect)
    rw [apply, read_declare, if_neg differ]
  | store w x =>
    obtain ⟨offered, accepted⟩ := effect_eq_store_iff.1 effect
    have differ : v.name ≠ w.name := by
      intro same
      have : x.ty = ty := by
        rw [typeOf_ok_congr same, accepted] at typed
        exact Except.ok.inj typed
      exact unoffered ⟨x, ⟨w, offered, same.symm⟩, this⟩
    rw [apply, wf.read_store accepted, if_neg differ]

/-- A value of the right type is taken. -/
theorem read_step_of_offers {m : Memory} (wf : m.WellFormed) {v : Identifier} {x : Value}
    (typed : m.typeOf v = .ok x.ty) {s : Step} (offers : Offers v.name x m s) :
    (m.step s).2.read v = .ok x := by
  obtain ⟨w, offered, same⟩ := offers
  have accepted : m.typeOf w = .ok x.ty := (typeOf_ok_congr same).2 typed
  rw [step_snd, effect_eq_store_iff.2 ⟨offered, accepted⟩, apply, wf.read_store accepted,
    if_pos same.symm]

/-! ## A run -/

variable {steps : List Step} {v : Identifier} {k l : Nat} {ty : Ty} {x : Value}

theorem typeOf_after_of_never (never : ∀ k, ¬ empty.At steps k (DeclaresName v.name)) :
    (empty.after steps).typeOf v = .error (.undeclared v) :=
  after_of_never (P := fun m => m.typeOf v = .error (.undeclared v))
    (fun _ _ before other => (typeOf_step other).trans before) rfl never

theorem typeOf_after_of_lastAt (last : empty.LastAt steps k (DeclaresName v.name))
    (declares : empty.At steps k fun _ s => s.Declares v.name ty) :
    (empty.after steps).typeOf v = .ok ty := by
  obtain ⟨s, present, w, rfl, same⟩ := declares
  refine after_of_none_later (P := fun m => m.typeOf v = .ok ty) present ?_ ?_ last.2
  · rw [step_declare, typeOf_declare, if_pos same.symm]
  · intro m s before other
    rw [typeOf_step other, before]

/-- What `v` reads as after a step that is not before the last declaration, it reads as at
the end, if no later step offers it a value of its type. -/
theorem read_after_of_none_later (declared : empty.LastAt steps k (DeclaresName v.name))
    (declares : empty.At steps k fun _ s => s.Declares v.name ty) {s : Step}
    (present : steps[l]? = some s) (later : k ≤ l)
    (none_later : ∀ j, l < j → ¬ empty.At steps j (OffersTy v.name ty)) :
    (empty.after steps).read v = (empty.after (steps.take (l + 1))).read v := by
  have typed : (empty.after (steps.take (l + 1))).typeOf v = .ok ty :=
    typeOf_after_of_lastAt (declared.take (by omega)) (at_take.2 ⟨by omega, declares⟩)
  rw [after_take_succ present] at typed ⊢
  have wf := (reachable_empty.after (steps.take l)).wellFormed.step s
  refine (after_of_none_later (p := fun m s => DeclaresName v.name m s ∨ OffersTy v.name ty m s)
    (P := fun m => m.WellFormed ∧ m.typeOf v = .ok ty ∧
      m.read v = ((empty.after (steps.take l)).step s).2.read v)
    present ⟨wf, typed, rfl⟩ ?_ ?_).2.2
  · rintro m s ⟨wf, typed, before⟩ other
    obtain ⟨undeclaring, unoffered⟩ := not_or.1 other
    refine ⟨wf.step s, ?_, ?_⟩
    · rw [typeOf_step undeclaring, typed]
    · rw [read_step wf typed undeclaring unoffered, before]
  · rintro j above ⟨s, found, redeclares | offers⟩
    · exact declared.2 j (by omega) ⟨s, found, redeclares⟩
    · exact none_later j above ⟨s, found, offers⟩

/-- A variable that is offered no value of its type after its declaration is empty. -/
theorem read_after_of_never (declared : empty.LastAt steps k (DeclaresName v.name))
    (declares : empty.At steps k fun _ s => s.Declares v.name ty)
    (never : ∀ l, k < l → ¬ empty.At steps l (OffersTy v.name ty)) :
    (empty.after steps).read v = .error (.unpopulated v) := by
  obtain ⟨s, present, w, rfl, same⟩ := id declares
  rw [read_after_of_none_later declared declares present (Nat.le_refl k) never,
    after_take_succ present, step_declare, read_declare, if_pos same.symm]

/-- A variable has the value that the last step to offer it one of its type offers. -/
theorem read_after_of_lastAt (declared : empty.LastAt steps k (DeclaresName v.name))
    (declares : empty.At steps k fun _ s => s.Declares v.name ty) (later : k < l)
    (last : empty.LastAt steps l (OffersTy v.name ty))
    (offers : empty.At steps l (Offers v.name x)) :
    (empty.after steps).read v = .ok x := by
  obtain ⟨s, present, offers⟩ := offers
  have typed : (empty.after (steps.take l)).typeOf v = .ok x.ty := by
    obtain ⟨s', present', y, offersTy, rfl⟩ := last.1
    rw [present] at present'
    cases present'
    rw [offers.eq offersTy]
    exact typeOf_after_of_lastAt (declared.take later) (at_take.2 ⟨later, declares⟩)
  rw [read_after_of_none_later declared declares present (by omega) last.2,
    after_take_succ present]
  exact read_step_of_offers (reachable_empty.after _).wellFormed typed offers

/-- **The last write wins.**  Without a declaration of its name, every access to `v` is
refused with the name and the span of `v` itself.  With one, the last fixes the type, so
the type decides which writes are taken; the last value of this type that was offered to
the name since, by a write or by a copy that could be read, is the value of `v`, and without
such an offer `v` is empty. -/
theorem last_write_wins (steps : List Step) (v : Identifier) :
    ((∀ k, ¬ empty.At steps k (DeclaresName v.name)) →
      (empty.after steps).isDeclared v = false ∧
      (empty.after steps).isPopulated v = false ∧
      (empty.after steps).typeOf v = .error (.undeclared v) ∧
      (empty.after steps).read v = .error (.undeclared v) ∧
      ∀ x, (empty.after steps).write v x = (.error (.undeclared v), empty.after steps)) ∧
    ∀ k ty, empty.LastAt steps k (DeclaresName v.name) →
      (empty.At steps k fun _ s => s.Declares v.name ty) →
      (empty.after steps).isDeclared v = true ∧
      (empty.after steps).typeOf v = .ok ty ∧
      (∀ x, (empty.after steps).write v x =
        if x.ty = ty then (.ok (), (empty.after steps).store v.name x)
        else (.error (.typeMismatch v ty x.ty), empty.after steps)) ∧
      (∀ l x, k < l → empty.LastAt steps l (OffersTy v.name ty) →
        empty.At steps l (Offers v.name x) →
        (empty.after steps).read v = .ok x ∧ (empty.after steps).isPopulated v = true) ∧
      ((∀ l, k < l → ¬ empty.At steps l (OffersTy v.name ty)) →
        (empty.after steps).read v = .error (.unpopulated v) ∧
          (empty.after steps).isPopulated v = false) := by
  have wf : (empty.after steps).WellFormed := (reachable_empty.after steps).wellFormed
  constructor
  · intro never
    have unknown := typeOf_after_of_never never
    refine ⟨?_, ?_, unknown, ?_, write_of_typeOf_error unknown⟩
    · rw [← Bool.not_eq_true, isDeclared_iff_typeOf, unknown]
      rintro ⟨ty, known⟩
      cases known
    · exact wf.isPopulated_eq_false_of_read_error (read_of_typeOf_error unknown)
    · exact read_of_typeOf_error unknown
  · intro k ty declared declares
    have typed := typeOf_after_of_lastAt declared declares
    refine ⟨isDeclared_iff_typeOf.2 ⟨ty, typed⟩, typed, write_of_typeOf_ok typed, ?_, ?_⟩
    · intro l x later last offers
      have value := read_after_of_lastAt declared declares later last offers
      exact ⟨value, wf.isPopulated_iff.2 ⟨x, value⟩⟩
    · intro never
      have unfilled := read_after_of_never declared declares never
      exact ⟨unfilled, wf.isPopulated_eq_false_of_read_error unfilled⟩

/-- The text that `s` held is gone with its type, and what it is offered later must fit. -/
example :
    let s := Identifier.synthetic "s"
    let m := empty.after
      [.declare s "str", .write s (.str "a"), .declare s "bool", .write s (.int 3)]
    m.typeOf s = .ok .bool ∧ m.read s = .error (.unpopulated s) := ⟨rfl, rfl⟩

end VarStore.Memory
