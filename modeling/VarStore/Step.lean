/- # VarStore.Step — the operations of a program on its memory

A `Step` is one operation as data, and `Memory.step` performs it: it answers,
and it hands on the memory that the next step works on.  Only `declare`,
`write` and `copy` can hand on another memory than they were given, and none
of them does when it answers an error (`step_of_isError`, `step_of_observes`).
-/
import VarStore.Dump
import VarStore.Memory.Lemmas

namespace VarStore

set_option autoImplicit false

inductive Step where
  | declare (v : Identifier) (keyword : String)
  | isDeclared (v : Identifier)
  | isPopulated (v : Identifier)
  | typeOf (v : Identifier)
  | read (v : Identifier)
  | print (v : Identifier)
  | write (v : Identifier) (x : Value)
  | copy (source target : Identifier)
  | same (a b : Identifier)
  | isEmpty
  | heapEntries
  | heapEntry (index : Nat)
  | declarations
  | dump
  deriving DecidableEq, Repr

inductive Answer where
  | done
  | truth (b : Bool)
  | ty (ty : Ty)
  | value (x : Value)
  | text (s : String)
  | entries (xs : List Value)
  | entry (x : Option Value)
  | listing (ds : List Declaration)
  | unknownType (u : UnknownType)
  | refused (fault : Fault)
  deriving DecidableEq, Repr

namespace Answer

/-- The fault of a refused access, or else what `f` makes of its result. -/
def ofExcept {α : Type} (f : α → Answer) : Except Fault α → Answer
  | .ok a => f a
  | .error fault => refused fault

def isError : Answer → Bool
  | unknownType _ => true
  | refused _ => true
  | _ => false

@[simp] theorem ofExcept_ok {α : Type} (f : α → Answer) (a : α) :
    ofExcept f (.ok a) = f a := rfl

@[simp] theorem ofExcept_error {α : Type} (f : α → Answer) (fault : Fault) :
    ofExcept f (.error fault) = refused fault := rfl

end Answer

/-- The step only looks at the memory. -/
def Step.observes : Step → Bool
  | .declare _ _ => false
  | .write _ _ => false
  | .copy _ _ => false
  | _ => true

namespace Memory

def step (m : Memory) : Step → Answer × Memory
  | .declare v keyword =>
      match Ty.ofKeyword keyword with
      | .ok ty => (.done, m.declare v ty)
      | .error u => (.unknownType u, m)
  | .isDeclared v => (.truth (m.isDeclared v), m)
  | .isPopulated v => (.truth (m.isPopulated v), m)
  | .typeOf v => (.ofExcept .ty (m.typeOf v), m)
  | .read v => (.ofExcept .value (m.read v), m)
  | .print v => (.ofExcept .text (m.print v), m)
  | .write v x =>
      let (outcome, next) := m.write v x
      (.ofExcept (fun _ => .done) outcome, next)
  | .copy source target =>
      let (outcome, next) := m.copy source target
      (.ofExcept (fun _ => .done) outcome, next)
  | .same a b => (.ofExcept .truth (m.same a b), m)
  | .isEmpty => (.truth m.isEmpty, m)
  | .heapEntries => (.entries m.heapEntries, m)
  | .heapEntry index => (.entry (m.heapEntry? index), m)
  | .declarations => (.listing m.declarations, m)
  | .dump => (.text m.dump, m)

theorem step_of_observes (m : Memory) {s : Step} (h : s.observes = true) :
    (m.step s).2 = m := by
  cases s <;> simp_all [Step.observes, step]

theorem step_of_isError (m : Memory) {s : Step} (h : (m.step s).1.isError = true) :
    (m.step s).2 = m := by
  cases s with
  | declare v keyword =>
    cases hk : Ty.ofKeyword keyword with
    | ok ty => simp [step, hk, Answer.isError] at h
    | error u => simp [step, hk]
  | write v x =>
    cases hc : m.check v x with
    | ok => simp [step, write_of_check_ok hc, Answer.isError] at h
    | error fault => simp [step, write_of_check_error hc]
  | copy source target =>
    cases hr : m.read source with
    | error fault => simp [step, copy_of_read_error hr]
    | ok x =>
      cases hc : m.check target x with
      | ok =>
        simp [step, copy_of_read_ok hr, write_of_check_ok hc, Answer.isError] at h
      | error fault => simp [step, copy_of_read_ok hr, write_of_check_error hc]
  | _ => exact step_of_observes m rfl

end Memory

end VarStore
