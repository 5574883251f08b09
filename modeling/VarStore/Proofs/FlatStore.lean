/- # VarStore.Proofs.FlatStore — the memory behaves as a store without a heap

A flat store maps every declared name to its type and, once there is one, its
value; texts are kept in place like every other value.  It is what a program
may think its memory is: the steps answer as if there were no heap.

`Represents m n` relates a memory to the flat store that it stands for: the same
declared names, the same types, the same populated variables, and each value
where the slot of the variable leads.  It holds at the start and is kept by every
step, and related sides answer alike (`Represents.step`); only the steps that ask for
the heap or list the whole table have no flat answer.

The relation needs no invariant of the heap beside it.  A store appends, so it moves no
entry that another variable's index leads to (`Shows.grow`).
-/
import Mathlib.Data.Finmap
import VarStore.Run

namespace VarStore

set_option autoImplicit false

/-- A variable with its type and, once it was assigned, its value. -/
structure Cell where
  ty : Ty
  value : Option Value := none
  deriving DecidableEq, Repr

structure FlatStore where
  cells : Finmap fun _ : String => Cell

/-- The step asks for the heap or for the whole table, and not for a variable. -/
def Step.inspects : Step → Bool
  | .heapEntries => true
  | .heapEntry _ => true
  | .declarations => true
  | .dump => true
  | _ => false

namespace FlatStore

def empty : FlatStore := ⟨∅⟩

def find? (n : FlatStore) (name : String) : Option Cell :=
  n.cells.lookup name

/-! ## The operations -/

def put (n : FlatStore) (name : String) (c : Cell) : FlatStore :=
  ⟨n.cells.insert name c⟩

def declare (n : FlatStore) (v : Identifier) (ty : Ty) : FlatStore :=
  n.put v.name { ty := ty }

def isDeclared (n : FlatStore) (v : Identifier) : Bool :=
  decide (v.name ∈ n.cells)

def isPopulated (n : FlatStore) (v : Identifier) : Bool :=
  match n.find? v.name with
  | some c => c.value.isSome
  | none => false

def typeOf (n : FlatStore) (v : Identifier) : Except Fault Ty :=
  match n.find? v.name with
  | some c => .ok c.ty
  | none => .error (.undeclared v)

def read (n : FlatStore) (v : Identifier) : Except Fault Value :=
  match n.find? v.name with
  | none => .error (.undeclared v)
  | some c =>
      match c.value with
      | none => .error (.unpopulated v)
      | some x => .ok x

def same (n : FlatStore) (a b : Identifier) : Except Fault Bool := do
  let x ← n.read a
  let y ← n.read b
  return decide (x = y)

def write (n : FlatStore) (v : Identifier) (x : Value) : Except Fault Unit × FlatStore :=
  match n.find? v.name with
  | none => (.error (.undeclared v), n)
  | some c =>
      if x.ty = c.ty then (.ok (), n.put v.name { c with value := some x })
      else (.error (.typeMismatch v c.ty x.ty), n)

def copy (n : FlatStore) (source target : Identifier) : Except Fault Unit × FlatStore :=
  match n.read source with
  | .error fault => (.error fault, n)
  | .ok x => n.write target x

def isEmpty (n : FlatStore) : Bool :=
  decide (n.cells.keys = ∅)

/-- Perform a step.  The steps that inspect the memory get no answer. -/
def step (n : FlatStore) : Step → Option Answer × FlatStore
  | .declare v keyword =>
      match Ty.ofKeyword keyword with
      | .ok ty => (some .done, n.declare v ty)
      | .error u => (some (.unknownType u), n)
  | .isDeclared v => (some (.truth (n.isDeclared v)), n)
  | .isPopulated v => (some (.truth (n.isPopulated v)), n)
  | .typeOf v => (some (.ofExcept .ty (n.typeOf v)), n)
  | .read v => (some (.ofExcept .value (n.read v)), n)
  | .print v => (some (.ofExcept .text ((n.read v).map Value.render)), n)
  | .write v x =>
      let (outcome, next) := n.write v x
      (some (.ofExcept (fun _ => .done) outcome), next)
  | .copy source target =>
      let (outcome, next) := n.copy source target
      (some (.ofExcept (fun _ => .done) outcome), next)
  | .same a b => (some (.ofExcept .truth (n.same a b)), n)
  | .isEmpty => (some (.truth n.isEmpty), n)
  | .heapEntries => (none, n)
  | .heapEntry _ => (none, n)
  | .declarations => (none, n)
  | .dump => (none, n)

/-- The answers of the steps, oldest first, and the store they leave. -/
def run (n : FlatStore) : List Step → List (Option Answer) × FlatStore
  | [] => ([], n)
  | s :: rest =>
      let (answer, next) := n.step s
      let (later, last) := next.run rest
      (answer :: later, last)

theorem find?_put (n : FlatStore) (name : String) (c : Cell) (other : String) :
    (n.put name c).find? other = if other = name then some c else n.find? other := by
  by_cases same : other = name
  · subst same
    simp [find?, put]
  · simp [find?, put, same, Finmap.lookup_insert_of_ne]

theorem mem_cells_iff {n : FlatStore} {name : String} :
    name ∈ n.cells ↔ ∃ c, n.find? name = some c :=
  Finmap.mem_iff

end FlatStore

namespace Memory

/-! ## The relation -/

/-- The binding and the cell have one type, are both filled or both empty, and
the slot of the binding leads to the value of the cell. -/
structure Shows (m : Memory) (b : Binding) (c : Cell) : Prop where
  ty : b.ty = c.ty
  populated : b.slot.isSome = c.value.isSome
  value : ∀ slot x, b.slot = some slot → c.value = some x → m.load slot = .ok x

/-- The flat store is what the program may take the memory for. -/
structure Represents (m : Memory) (n : FlatStore) : Prop where
  names : ∀ name, name ∈ m.table.names ↔ name ∈ n.cells
  cells : ∀ name b c, m.table.find? name = some b → n.find? name = some c → m.Shows b c

/-- What a binding shows, it still shows when the heap has grown. -/
theorem Shows.grow {m m' : Memory} {b : Binding} {c : Cell} (agree : m.Shows b c)
    (grown : m.heapEntries <+: m'.heapEntries) : m'.Shows b c :=
  ⟨agree.ty, agree.populated, fun slot x filled held =>
    load_mono grown (agree.value slot x filled held)⟩

/-- The two sides, one name at a time: both do not know it, or both do and agree on it. -/
theorem represents_iff {m : Memory} {n : FlatStore} :
    Represents m n ↔ ∀ name,
      (m.table.find? name = none ∧ n.find? name = none) ∨
        ∃ b c, m.table.find? name = some b ∧ n.find? name = some c ∧ m.Shows b c := by
  constructor
  · intro related name
    have known := related.names name
    rw [← Table.contains_iff, Table.contains, FlatStore.mem_cells_iff] at known
    cases hb : m.table.find? name with
    | none =>
      cases hc : n.find? name with
      | none => exact Or.inl ⟨rfl, rfl⟩
      | some c => simp [hb, hc] at known
    | some b =>
      cases hc : n.find? name with
      | none => simp [hb, hc] at known
      | some c => exact Or.inr ⟨b, c, rfl, rfl, related.cells name b c hb hc⟩
  · intro each
    refine ⟨fun name => ?_, fun name b c hb hc => ?_⟩
    · rw [← Table.contains_iff, Table.contains, FlatStore.mem_cells_iff]
      rcases each name with ⟨hb, hc⟩ | ⟨b, c, hb, hc, -⟩ <;> simp [hb, hc]
    · rcases each name with ⟨hb', -⟩ | ⟨b', c', hb', hc', agree⟩
      · rw [hb] at hb'
        cases hb'
      · rw [hb] at hb'
        rw [hc] at hc'
        cases hb'
        cases hc'
        exact agree

theorem represents_empty : Represents empty .empty :=
  represents_iff.2 fun _ => Or.inl ⟨rfl, rfl⟩

/-! ## Related sides answer alike -/

section Answers

variable {m : Memory} {n : FlatStore} (related : Represents m n)
include related

theorem Represents.isDeclared_eq (v : Identifier) : m.isDeclared v = n.isDeclared v := by
  rw [Bool.eq_iff_iff, isDeclared, Table.contains_iff, FlatStore.isDeclared, decide_eq_true_eq]
  exact related.names v.name

theorem Represents.isPopulated_eq (v : Identifier) : m.isPopulated v = n.isPopulated v := by
  rcases represents_iff.1 related v.name with ⟨hb, hc⟩ | ⟨b, c, hb, hc, agree⟩
  · simp [isPopulated, FlatStore.isPopulated, hb, hc]
  · simpa [isPopulated, FlatStore.isPopulated, hb, hc] using agree.populated

theorem Represents.typeOf_eq (v : Identifier) : m.typeOf v = n.typeOf v := by
  rcases represents_iff.1 related v.name with ⟨hb, hc⟩ | ⟨b, c, hb, hc, agree⟩
  · simp [typeOf, FlatStore.typeOf, hb, hc]
  · simp [typeOf, FlatStore.typeOf, hb, hc, agree.ty]

theorem Represents.read_eq (v : Identifier) : m.read v = n.read v := by
  rcases represents_iff.1 related v.name with ⟨hb, hc⟩ | ⟨b, c, hb, hc, agree⟩
  · simp [read, FlatStore.read, hb, hc]
  · have populated := agree.populated
    cases hs : b.slot with
    | none =>
      cases hx : c.value with
      | none => simp [read, FlatStore.read, hb, hc, hs, hx]
      | some x => simp [hs, hx] at populated
    | some slot =>
      cases hx : c.value with
      | none => simp [hs, hx] at populated
      | some x =>
        rw [read_of_find? hb hs, agree.value slot x hs hx]
        simp [FlatStore.read, hc, hx]

theorem Represents.same_eq (a b : Identifier) : m.same a b = n.same a b := by
  simp only [same, FlatStore.same, related.read_eq]

theorem Represents.isEmpty_eq : m.isEmpty = n.isEmpty := by
  have unnamed : m.isEmpty = true ↔ ∀ name, name ∉ m.table.names := by
    rw [isEmpty, beq_iff_eq, size, Table.size_eq_length_names, List.length_eq_zero_iff,
      List.eq_nil_iff_forall_not_mem]
  rw [Bool.eq_iff_iff, unnamed, FlatStore.isEmpty, decide_eq_true_eq,
    Finset.eq_empty_iff_forall_notMem]
  simp only [related.names, Finmap.mem_keys]

end Answers

/-! ## Related sides stay related -/

theorem Represents.declare {m : Memory} {n : FlatStore} (related : Represents m n)
    (v : Identifier) (ty : Ty) : Represents (m.declare v ty) (n.declare v ty) := by
  rw [represents_iff]
  intro name
  rw [table_declare, Table.find?_declare, FlatStore.declare, FlatStore.find?_put]
  by_cases same : name = v.name
  · rw [if_pos same, if_pos same]
    exact Or.inr ⟨_, _, rfl, rfl, rfl, rfl, fun _ _ filled => by cases filled⟩
  · rw [if_neg same, if_neg same]
    refine (represents_iff.1 related name).imp_right ?_
    rintro ⟨b, c, hb, hc, agree⟩
    exact ⟨b, c, hb, hc, agree.grow (List.prefix_refl _)⟩

theorem Represents.store {m : Memory} {n : FlatStore} (related : Represents m n)
    {name : String} {b : Binding} {c : Cell} (declared : m.table.find? name = some b)
    (known : n.find? name = some c) (x : Value) :
    Represents (m.store name x) (n.put name { c with value := some x }) := by
  rw [represents_iff]
  intro other
  rw [find?_store, FlatStore.find?_put]
  by_cases same : other = name
  · rw [if_pos same, if_pos same, declared]
    refine Or.inr ⟨_, _, rfl, rfl, (related.cells name b c declared known).ty, rfl, ?_⟩
    intro slot y filled held
    cases filled
    cases held
    exact load_slotFor m name x
  · rw [if_neg same, if_neg same]
    refine (represents_iff.1 related other).imp_right ?_
    rintro ⟨b', c', hb, hc, agree⟩
    exact ⟨b', c', hb, hc, agree.grow ⟨_, (heapEntries_store m name x).symm⟩⟩

theorem Represents.write {m : Memory} {n : FlatStore} (related : Represents m n)
    (v : Identifier) (x : Value) :
    (m.write v x).1 = (n.write v x).1 ∧ Represents (m.write v x).2 (n.write v x).2 := by
  rcases represents_iff.1 related v.name with ⟨hb, hc⟩ | ⟨b, c, hb, hc, agree⟩
  · have unknown : m.typeOf v = .error (.undeclared v) := typeOf_eq_error_iff.2 ⟨hb, rfl⟩
    rw [write_of_typeOf_error unknown]
    simp [FlatStore.write, hc, related]
  · have typed : m.typeOf v = .ok c.ty := typeOf_eq_ok_iff.2 ⟨b, hb, agree.ty⟩
    rw [write_of_typeOf_ok typed]
    simp only [FlatStore.write, hc]
    by_cases fits : x.ty = c.ty
    · rw [if_pos fits, if_pos fits]
      exact ⟨rfl, related.store hb hc x⟩
    · rw [if_neg fits, if_neg fits]
      exact ⟨rfl, related⟩

theorem Represents.copy {m : Memory} {n : FlatStore} (related : Represents m n)
    (source target : Identifier) :
    (m.copy source target).1 = (n.copy source target).1 ∧
      Represents (m.copy source target).2 (n.copy source target).2 := by
  rw [Memory.copy, FlatStore.copy, ← related.read_eq]
  cases m.read source with
  | error fault => exact ⟨rfl, related⟩
  | ok x => exact related.write target x

/-- **One step.**  Related sides answer alike where the flat store has an answer,
and are related again. -/
theorem Represents.step {m : Memory} {n : FlatStore} (related : Represents m n) (s : Step) :
    (n.step s).1 = (if s.inspects then none else some (m.step s).1) ∧
      Represents (m.step s).2 (n.step s).2 := by
  cases s with
  | declare v keyword =>
    simp only [Memory.step, FlatStore.step]
    cases Ty.ofKeyword keyword with
    | ok ty => exact ⟨rfl, related.declare v ty⟩
    | error u => exact ⟨rfl, related⟩
  | isDeclared v =>
    have answer := related.isDeclared_eq v
    exact ⟨by simp [FlatStore.step, Memory.step, Step.inspects, answer], related⟩
  | write v x =>
    obtain ⟨outcome, next⟩ := related.write v x
    exact ⟨by simp [FlatStore.step, Memory.step, Step.inspects, outcome], next⟩
  | copy source target =>
    obtain ⟨outcome, next⟩ := related.copy source target
    exact ⟨by simp [FlatStore.step, Memory.step, Step.inspects, outcome], next⟩
  | _ =>
    refine ⟨?_, related⟩
    simp [FlatStore.step, Memory.step, Step.inspects, print, related.isPopulated_eq,
      related.typeOf_eq, related.read_eq, related.same_eq, related.isEmpty_eq]

/-! ## Runs -/

theorem Represents.run {m : Memory} {n : FlatStore} (related : Represents m n)
    (steps : List Step) :
    (n.run steps).1 =
        List.zipWith (fun s seen => if s.inspects then none else some seen.answer)
          steps (m.run steps).1 ∧
      Represents (m.after steps) (n.run steps).2 := by
  induction steps generalizing m n with
  | nil => exact ⟨rfl, related⟩
  | cons s rest ih =>
    obtain ⟨answer, next⟩ := related.step s
    obtain ⟨later, last⟩ := ih next
    refine ⟨?_, last⟩
    rw [run_cons, List.zipWith_cons_cons, ← later, observe_fst, ← answer]
    rfl

/-- **The heap is invisible.**  A new memory stands for the empty flat store; every
step, asked of a memory and of a flat store it stands for, is answered alike by both
and leaves two that stand for each other; so every run is answered as if there
were no heap. -/
theorem flatStore_refinement :
    Represents empty .empty ∧
    (∀ m n, Represents m n → ∀ s : Step,
      (n.step s).1 = (if s.inspects then none else some (m.step s).1) ∧
        Represents (m.step s).2 (n.step s).2) ∧
    ∀ steps : List Step,
      (FlatStore.empty.run steps).1 =
          List.zipWith (fun s seen => if s.inspects then none else some seen.answer)
            steps (empty.run steps).1 ∧
        Represents (empty.after steps) (FlatStore.empty.run steps).2 := by
  refine ⟨represents_empty, ?_, ?_⟩
  · intro m n related s
    exact related.step s
  · intro steps
    exact represents_empty.run steps

end Memory

end VarStore
