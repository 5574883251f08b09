/- # VarStore.Fault — why an access to a variable is refused

Three faults are the program's: a name that was never declared, a variable read
before a store, a store of a value of another type.  They carry the identifier
of the access that was refused.  The fourth, a heap index that leads nowhere,
is a broken memory; it has no place in the program text and is fatal.

The message of a fault names everything in it but the place.
-/
import VarStore.Identifier
import VarStore.Ty

namespace VarStore

set_option autoImplicit false

inductive Fault where
  | undeclared (v : Identifier)
  | unpopulated (v : Identifier)
  | typeMismatch (v : Identifier) (expected found : Ty)
  | corruptHeapIndex (index size : Nat)
  deriving DecidableEq, Repr

namespace Fault

/-- The identifier of the refused access. -/
def subject? : Fault → Option Identifier
  | undeclared v => some v
  | unpopulated v => some v
  | typeMismatch v _ _ => some v
  | corruptHeapIndex _ _ => none

def span? (f : Fault) : Option Span :=
  f.subject?.map (·.span)

/-- The memory itself is broken: there is nothing to correct in the program. -/
def isFatal : Fault → Bool
  | corruptHeapIndex _ _ => true
  | _ => false

def message : Fault → String
  | undeclared v => "Variable `" ++ v.name ++ "` has not been declared"
  | unpopulated v => "Variable `" ++ v.name ++ "` was read before a value was assigned"
  | typeMismatch v expected found =>
      "Variable `" ++ v.name ++ "` is declared `" ++ expected.keyword ++
        "` but was given a `" ++ found.keyword ++ "` value"
  | corruptHeapIndex index size =>
      "Heap index " ++ index.repr ++ " is out of bounds for a heap of " ++ size.repr ++
        " entries"

/-- Stable name of the kind of fault. -/
def code : Fault → String
  | undeclared _ => "silly::memory::undeclared"
  | unpopulated _ => "silly::memory::unpopulated"
  | typeMismatch _ _ _ => "silly::memory::type_mismatch"
  | corruptHeapIndex _ _ => "silly::memory::corrupt_heap"

/-- What to do about the fault, where the message does not already say it. -/
def help : Fault → Option String
  | undeclared v => some ("declare `" ++ v.name ++ "` with a type before using it")
  | unpopulated v => some ("assign `" ++ v.name ++ "` a value before reading it")
  | typeMismatch _ _ _ => none
  | corruptHeapIndex _ _ => some "this is an interpreter bug, not an error in the program"

theorem isFatal_iff (f : Fault) : f.isFatal = true ↔ f.subject? = none := by
  cases f <;> simp [isFatal, subject?]

theorem span?_eq_none_iff (f : Fault) : f.span? = none ↔ f.isFatal = true := by
  simp [span?, isFatal_iff]

end Fault

end VarStore
