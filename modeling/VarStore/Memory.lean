/- # VarStore.Memory — variable storage for a running program

A memory is a table of bindings and a heap.  Integers and truth values stay in
their binding.  Texts go to the heap, and the binding keeps an index: every
store of a text appends one entry and leaves all earlier entries as they are,
so the heap only grows.

A store is checked before anything is changed: `Memory.check` decides,
`Memory.store` then always succeeds, and `Memory.write` joins the two.  A
refused access answers a `Fault` that quotes the identifier it was made with.
-/
import VarStore.Fault
import VarStore.Table.Listing

namespace VarStore

set_option autoImplicit false

structure Memory where
  table : Table := {}
  heap : Array Value := #[]
  deriving DecidableEq, Repr, Inhabited

namespace Memory

def empty : Memory := {}

/-- An empty memory with room for `heap` texts.  Both numbers are hints: more
variables may be declared and more texts stored. -/
def withCapacity (_bindings heap : Nat) : Memory where
  heap := Array.emptyWithCapacity heap

/-! ## Declarations -/

/-- Bind the name of `v` to `ty`, with no value yet.  Heap entries written
under an earlier declaration of the name stay where they are. -/
def declare (m : Memory) (v : Identifier) (ty : Ty) : Memory :=
  { m with table := m.table.declare v ty }

def isDeclared (m : Memory) (v : Identifier) : Bool :=
  m.table.contains v.name

/-- The name of `v` is declared and a value was stored since. -/
def isPopulated (m : Memory) (v : Identifier) : Bool :=
  match m.table.find? v.name with
  | some b => b.slot.isSome
  | none => false

def typeOf (m : Memory) (v : Identifier) : Except Fault Ty :=
  match m.table.find? v.name with
  | some b => .ok b.ty
  | none => .error (.undeclared v)

/-! ## Reading -/

/-- The value that a slot stands for. -/
def load (m : Memory) : Slot → Except Fault Value
  | .direct x => .ok x
  | .heap i =>
      match m.heap[i]? with
      | some x => .ok x
      | none => .error (.corruptHeapIndex i m.heap.size)

def read (m : Memory) (v : Identifier) : Except Fault Value :=
  match m.table.find? v.name with
  | none => .error (.undeclared v)
  | some b =>
      match b.slot with
      | none => .error (.unpopulated v)
      | some slot => m.load slot

/-- The text of the value of `v`. -/
def print (m : Memory) (v : Identifier) : Except Fault String :=
  (m.read v).map Value.render

/-- Whether `a` and `b` hold equal values; `a` is read first. -/
def same (m : Memory) (a b : Identifier) : Except Fault Bool := do
  let x ← m.read a
  let y ← m.read b
  return decide (x = y)

/-! ## Storing -/

/-- Whether `x` may be stored to `v`. -/
def check (m : Memory) (v : Identifier) (x : Value) : Except Fault Unit :=
  match m.table.find? v.name with
  | none => .error (.undeclared v)
  | some b =>
      if x.ty = b.ty then .ok () else .error (.typeMismatch v b.ty x.ty)

/-- Give the variable `name` the value `x`, appending it to the heap if values
of its type live there. -/
def store (m : Memory) (name : String) (x : Value) : Memory :=
  if x.ty.onHeap then
    { table := m.table.assign name (.heap m.heap.size), heap := m.heap.push x }
  else
    { m with table := m.table.assign name (.direct x) }

/-- Store `x` to `v`, or refuse and leave the memory as it was. -/
def write (m : Memory) (v : Identifier) (x : Value) : Except Fault Unit × Memory :=
  match m.check v x with
  | .error fault => (.error fault, m)
  | .ok () => (.ok (), m.store v.name x)

/-- Store the value of `source` to `target`.  Texts are copied: the target gets
a heap entry of its own. -/
def copy (m : Memory) (source target : Identifier) : Except Fault Unit × Memory :=
  match m.read source with
  | .error fault => (.error fault, m)
  | .ok x => m.write target x

/-! ## Observers -/

/-- Number of declared variables. -/
def size (m : Memory) : Nat :=
  m.table.size

def isEmpty (m : Memory) : Bool :=
  m.size == 0

/-- Number of texts ever stored. -/
def heapSize (m : Memory) : Nat :=
  m.heap.size

/-- Every text ever stored, oldest first. -/
def heapEntries (m : Memory) : List Value :=
  m.heap.toList

def heapEntry? (m : Memory) (index : Nat) : Option Value :=
  m.heap[index]?

/-- The declared variables in the order of their names. -/
def declarations (m : Memory) : List Declaration :=
  m.table.byName.map (·.toDeclaration)

end Memory

end VarStore
