/- # VarStore.Diagnostic — a fault placed in the program text

A diagnostic joins a fault with the program text it arose in: what happened,
what to do about it, and a label at the identifier of the refused access.  A
fault without an identifier gets no label.
-/
import VarStore.Fault

namespace VarStore

set_option autoImplicit false

/-- A program text and the path it is known by. -/
structure Source where
  path : String
  text : String
  deriving DecidableEq, Repr, Inhabited

/-- The region can be shown in the text.  It may reach one byte past the end,
so that a label can stand behind the last character. -/
def Source.covers (source : Source) (r : Region) : Bool :=
  decide (r.stop ≤ source.text.utf8ByteSize + 1)

structure Label where
  region : Region
  text : String
  deriving DecidableEq, Repr, Inhabited

/-- What to write at the identifier of the refused access. -/
def Fault.label? : Fault → Option Label
  | undeclared v => some { region := v.span.region, text := "not declared" }
  | unpopulated v => some { region := v.span.region, text := "read before assignment" }
  | typeMismatch v expected _ =>
      some { region := v.span.region, text := "expects a `" ++ expected.keyword ++ "` value" }
  | corruptHeapIndex _ _ => none

structure Diagnostic where
  source : Source
  fault : Fault
  message : String
  help : Option String
  label : Option Label
  deriving DecidableEq, Repr

namespace Diagnostic

def ofFault (source : Source) (fault : Fault) : Diagnostic where
  source := source
  fault := fault
  message := fault.message
  help := fault.help
  label := fault.label?

/-- The path of the program text, left out if the label cannot be shown there. -/
def fileName (d : Diagnostic) : String :=
  match d.label with
  | some label => if d.source.covers label.region then d.source.path else ""
  | none => ""

end Diagnostic

theorem Source.covers_region_iff (source : Source) (s : Span) :
    source.covers s.region = true ↔
      max s.start.toNat s.stop.toNat ≤ source.text.utf8ByteSize + 1 := by
  simp only [covers, decide_eq_true_eq, Span.stop_region]

theorem Fault.region_label? (f : Fault) :
    f.label?.map (·.region) = f.span?.map Span.region := by
  cases f <;> rfl

end VarStore
