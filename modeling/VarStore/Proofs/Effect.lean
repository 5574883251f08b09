/- # VarStore.Proofs.Effect — what a step does to the memory

Most steps only look.  The others have one of two effects: they declare a
variable, or they store a value of the declared type.  `Memory.effect` names
the effect that a step has on a given memory, and `step_snd` says that applying
it is all the step does; so a property that a declaration and such a store keep
is kept by every step (`step_keeps`).

A write, and a copy whose source can be read, offers a value to its target
(`Memory.offer?`).  The store is accepted if the step is answered `done`
(`Memory.accepted?`), which is the case exactly when the value has the type
of the target (`accepted?_eq_some_iff`).
-/
import VarStore.Run

namespace VarStore

set_option autoImplicit false

/-- The step declares `name` with type `ty`, written as its keyword. -/
def Step.Declares (name : String) (ty : Ty) (s : Step) : Prop :=
  ∃ v : Identifier, s = .declare v ty.keyword ∧ v.name = name

inductive Effect where
  | keep
  | declare (v : Identifier) (ty : Ty)
  | store (v : Identifier) (x : Value)
  deriving DecidableEq, Repr

namespace Memory

/-! ## Offers and acceptance -/

/-- The target and the value of the store that a step asks for.  A copy whose
source cannot be read asks for none. -/
def offer? (m : Memory) : Step → Option (Identifier × Value)
  | .write v x => some (v, x)
  | .copy source target =>
      match m.read source with
      | .ok x => some (target, x)
      | .error _ => none
  | _ => none

/-- The store that a step makes: the one it asks for, if it is answered `done`. -/
def accepted? (m : Memory) (s : Step) : Option (Identifier × Value) :=
  if (m.step s).1 = .done then m.offer? s else none

/-- A step that offers a value is a write of it. -/
theorem step_of_offer? {m : Memory} {s : Step} {v : Identifier} {x : Value}
    (offered : m.offer? s = some (v, x)) : m.step s = m.step (.write v x) := by
  cases s with
  | write w y =>
    cases offered
    rfl
  | copy source target =>
    simp only [offer?] at offered
    split at offered
    · rename_i y readable
      cases offered
      simp only [step, copy_of_read_ok readable]
    · cases offered
  | _ => cases offered

/-! ## Effects -/

def effect (m : Memory) (s : Step) : Effect :=
  match s, m.offer? s with
  | .declare v keyword, _ =>
      match Ty.ofKeyword keyword with
      | .ok ty => .declare v ty
      | .error _ => .keep
  | _, some (v, x) =>
      match m.check v x with
      | .ok () => .store v x
      | .error _ => .keep
  | _, none => .keep

def apply (m : Memory) : Effect → Memory
  | .keep => m
  | .declare v ty => m.declare v ty
  | .store v x => m.store v.name x

theorem effect_eq_declare_iff {m : Memory} {s : Step} {v : Identifier} {ty : Ty} :
    m.effect s = .declare v ty ↔ s = .declare v ty.keyword := by
  constructor
  · intro declares
    unfold effect at declares
    split at declares
    · split at declares
      · rename_i known
        cases declares
        rw [Ty.ofKeyword_eq_ok_iff.1 known]
      · cases declares
    · split at declares <;> cases declares
    · cases declares
  · rintro rfl
    simp [effect]

theorem effect_eq_store_iff {m : Memory} {s : Step} {v : Identifier} {x : Value} :
    m.effect s = .store v x ↔ m.offer? s = some (v, x) ∧ m.typeOf v = .ok x.ty := by
  rw [← check_eq_ok_iff]
  unfold effect
  split
  · rename_i w keyword
    cases Ty.ofKeyword keyword <;> simp [offer?]
  · rename_i w y offered
    rw [offered]
    constructor
    · intro stores
      split at stores
      · rename_i passes
        cases stores
        exact ⟨rfl, passes⟩
      · cases stores
    · rintro ⟨same, passes⟩
      cases same
      rw [passes]
  · rename_i silent
    simp [silent]

/-- A write has its effect, and is answered `done` exactly if that is a store. -/
theorem step_write (m : Memory) (v : Identifier) (x : Value) :
    (m.step (.write v x)).2 = m.apply (m.effect (.write v x)) ∧
      ((m.step (.write v x)).1 = .done ↔ m.typeOf v = .ok x.ty) := by
  rw [← check_eq_ok_iff]
  cases verdict : m.check v x with
  | ok => simp [step, write_of_check_ok verdict, effect, offer?, verdict, apply]
  | error fault => simp [step, write_of_check_error verdict, effect, offer?, verdict, apply]

/-- Applying its effect is all that a step does to the memory. -/
theorem step_snd (m : Memory) (s : Step) : (m.step s).2 = m.apply (m.effect s) := by
  cases offered : m.offer? s with
  | some store =>
    obtain ⟨v, x⟩ := store
    have same : m.effect s = m.effect (.write v x) := by
      cases s <;> simp_all [effect, offer?]
    rw [step_of_offer? offered, same]
    exact (m.step_write v x).1
  | none =>
    cases s with
    | declare v keyword =>
      simp only [step, effect]
      cases Ty.ofKeyword keyword <;> rfl
    | write v x => cases offered
    | copy source target =>
      cases readable : m.read source with
      | ok x => simp [offer?, readable] at offered
      | error fault => simp [step, copy_of_read_error readable, effect, offered, apply]
    | _ => rfl

theorem accepted?_eq_some_iff {m : Memory} {s : Step} {v : Identifier} {x : Value} :
    m.accepted? s = some (v, x) ↔ m.offer? s = some (v, x) ∧ m.typeOf v = .ok x.ty := by
  unfold accepted?
  constructor
  · intro taken
    split at taken
    · rename_i done
      rw [step_of_offer? taken] at done
      exact ⟨taken, (m.step_write v x).2.1 done⟩
    · cases taken
  · rintro ⟨offered, typed⟩
    rw [step_of_offer? offered, if_pos ((m.step_write v x).2.2 typed), offered]

/-- The accepted store of a step is its effect, if that is a store. -/
theorem accepted?_eq (m : Memory) (s : Step) :
    m.accepted? s =
      match m.effect s with
      | .store v x => some (v, x)
      | _ => none := by
  cases taken : m.accepted? s with
  | some store =>
    obtain ⟨v, x⟩ := store
    rw [effect_eq_store_iff.2 (accepted?_eq_some_iff.1 taken)]
  | none =>
    split
    · rename_i v x effect
      rw [accepted?_eq_some_iff.2 (effect_eq_store_iff.1 effect)] at taken
      cases taken
    · rfl

/-- A property that a declaration and a store of the declared type keep, every step keeps. -/
theorem step_keeps {P : Memory → Prop} {m : Memory} (holds : P m)
    (declare : ∀ v ty, P (m.declare v ty))
    (store : ∀ v x, m.typeOf v = .ok x.ty → P (m.store v.name x)) (s : Step) :
    P (m.step s).2 := by
  rw [step_snd]
  cases effect : m.effect s with
  | keep => exact holds
  | declare v ty => exact declare v ty
  | store v x => exact store v x (effect_eq_store_iff.1 effect).2

end Memory

end VarStore
