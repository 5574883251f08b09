/- # VarStore.Dump — a memory as text

A dump shows the table and then the heap, one line for each binding, in the
order of the names, and one for each heap entry, oldest first.  Nothing in it is
escaped.  A binding whose value is on the heap shows `@` and the index, so the
two parts can be read together.
-/
import VarStore.Memory

namespace VarStore

set_option autoImplicit false

/-- The text of a value kept in its binding, or where on the heap it is. -/
def Slot.render : Slot → String
  | .direct x => x.render
  | .heap i => "@" ++ i.repr

namespace Binding

def slotText (b : Binding) : String :=
  match b.slot with
  | some slot => slot.render
  | none => "<undefined>"

def line (b : Binding) : String :=
  "  " ++ b.ty.keyword ++ " " ++ b.name ++ " = " ++ b.slotText

end Binding

namespace Memory

def heapLine (index : Nat) (x : Value) : String :=
  "  @" ++ index.repr ++ " " ++ x.render

def dumpLines (m : Memory) : List String :=
  "stack:" :: m.table.byName.map Binding.line ++ "heap:" :: m.heapEntries.mapIdx heapLine

/-- The lines of the dump, each of them ended by a line feed. -/
def dump (m : Memory) : String :=
  String.join (m.dumpLines.map (· ++ "\n"))

/-- A dump does not show in which order the table holds its bindings. -/
theorem dump_eq_of_perm {m m' : Memory} (h : m.table.bindings.Perm m'.table.bindings)
    (hd : m.table.DistinctNames) (hh : m.heap = m'.heap) : m.dump = m'.dump := by
  simp only [dump, dumpLines, heapEntries, Table.byName_eq_of_perm h hd, hh]

end Memory

end VarStore
