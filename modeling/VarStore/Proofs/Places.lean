/- # VarStore.Proofs.Places — places in the program text never influence storage

Spans are kept in the table and quoted in faults, but nothing is decided by them.  Each kind of
data has a form in which every place is left out: `Step.unplaced`, `Memory.unplaced`,
`Answer.unplaced`.  To leave out the places and then perform a step is the same as to perform the
step and then leave them out (`step_unplaced`), and so for whole runs (`run_unplaced`).

Hence runs whose steps differ only in places are answered alike but for the places in faults and
listings, and leave the same heap and the same dump after every step (`places_invisible`).  The
place in a fault is that of the access that was refused, and not one from the table.  A fault that
has its place put back is the same fault (`Fault.eq_of_unplaced_eq`): nothing else was left out.
-/
import VarStore.Proofs.Frame
import VarStore.Proofs.Refusal

namespace VarStore

set_option autoImplicit false

/-! ## Data without places -/

def Identifier.unplaced (v : Identifier) : Identifier :=
  .synthetic v.name

def Fault.unplaced : Fault → Fault
  | undeclared v => undeclared v.unplaced
  | unpopulated v => unpopulated v.unplaced
  | typeMismatch v expected found => typeMismatch v.unplaced expected found
  | corruptHeapIndex index size => corruptHeapIndex index size

def Declaration.unplaced (d : Declaration) : Declaration :=
  { d with site := {} }

def Binding.unplaced (b : Binding) : Binding :=
  { b with site := {} }

def Table.unplaced (t : Table) : Table where
  bindings := t.bindings.map Binding.unplaced

def Memory.unplaced (m : Memory) : Memory :=
  { m with table := m.table.unplaced }

namespace Step

def unplaced : Step → Step
  | declare v keyword => declare v.unplaced keyword
  | isDeclared v => isDeclared v.unplaced
  | isPopulated v => isPopulated v.unplaced
  | typeOf v => typeOf v.unplaced
  | read v => read v.unplaced
  | print v => print v.unplaced
  | write v x => write v.unplaced x
  | copy source target => copy source.unplaced target.unplaced
  | same a b => same a.unplaced b.unplaced
  | isEmpty => isEmpty
  | heapEntries => heapEntries
  | heapEntry index => heapEntry index
  | declarations => declarations
  | dump => dump

end Step

/-- An answer without the place in a fault and without those in a listing. -/
def Answer.unplaced : Answer → Answer
  | refused fault => refused fault.unplaced
  | listing ds => listing (ds.map Declaration.unplaced)
  | answer => answer

def Observation.unplaced (seen : Observation) : Observation :=
  { seen with answer := seen.answer.unplaced }

theorem Answer.ofExcept_mapError {α : Type} {f : α → Answer} (placeless : ∀ a, (f a).unplaced = f a)
    (outcome : Except Fault α) :
    ofExcept f (outcome.mapError Fault.unplaced) = (ofExcept f outcome).unplaced := by
  cases outcome with
  | ok a => exact (placeless a).symm
  | error fault => rfl

@[simp] theorem Identifier.name_unplaced (v : Identifier) : v.unplaced.name = v.name := rfl

@[simp] theorem Binding.name_unplaced (b : Binding) : b.unplaced.name = b.name := rfl

@[simp] theorem Binding.ty_unplaced (b : Binding) : b.unplaced.ty = b.ty := rfl

@[simp] theorem Binding.slot_unplaced (b : Binding) : b.unplaced.slot = b.slot := rfl

/-- An identifier is its name and its place. -/
theorem Identifier.eq_of_unplaced_eq {v w : Identifier} (same : v.unplaced = w.unplaced)
    (place : v.span = w.span) : v = w := by
  obtain ⟨name, span⟩ := v
  obtain ⟨name', span'⟩ := w
  rw [Identifier.mk.injEq]
  exact ⟨congrArg Identifier.name same, place⟩

namespace Fault

/-- A fault is what is left of it without its place, and the place. -/
theorem eq_of_unplaced_eq {f g : Fault} (content : f.unplaced = g.unplaced)
    (place : f.span? = g.span?) : f = g := by
  cases f with
  | undeclared v =>
    cases g with
    | undeclared w =>
      exact congrArg undeclared (v.eq_of_unplaced_eq (undeclared.inj content) (Option.some.inj place))
    | _ => cases content
  | unpopulated v =>
    cases g with
    | unpopulated w =>
      exact congrArg unpopulated
        (v.eq_of_unplaced_eq (unpopulated.inj content) (Option.some.inj place))
    | _ => cases content
  | typeMismatch v expected found =>
    cases g with
    | typeMismatch w expected' found' =>
      obtain ⟨name, rfl, rfl⟩ := typeMismatch.inj content
      exact congrArg (typeMismatch · expected found)
        (v.eq_of_unplaced_eq name (Option.some.inj place))
    | _ => cases content
  | corruptHeapIndex i m =>
    cases g with
    | corruptHeapIndex j n => exact content
    | _ => cases content

end Fault

/-! ## Tables -/

namespace Table

theorem find?_unplaced (t : Table) (name : String) :
    t.unplaced.find? name = (t.find? name).map Binding.unplaced := by
  simp only [find?, unplaced, List.find?_map]
  rfl

theorem contains_unplaced (t : Table) (name : String) :
    t.unplaced.contains name = t.contains name := by
  rw [contains, find?_unplaced, contains, Option.isSome_map]

theorem modify_unplaced (t : Table) (name : String) {f : Binding → Binding}
    (blind : ∀ b, (f b).unplaced = f b.unplaced) :
    t.unplaced.modify name f = (t.modify name f).unplaced := by
  simp only [modify, unplaced, List.map_map, Table.mk.injEq]
  refine List.map_congr_left fun b _ => ?_
  by_cases same : b.name = name
  · simp [same, blind]
  · simp [same]

theorem assign_unplaced (t : Table) (name : String) (slot : Slot) :
    t.unplaced.assign name slot = (t.assign name slot).unplaced :=
  t.modify_unplaced name fun _ => rfl

theorem declare_unplaced (t : Table) (v : Identifier) (ty : Ty) :
    t.unplaced.declare v.unplaced ty = (t.declare v ty).unplaced := by
  unfold declare
  rw [Identifier.name_unplaced, contains_unplaced]
  by_cases known : t.contains v.name = true
  · rw [if_pos known, if_pos known]
    exact t.modify_unplaced v.name fun _ => rfl
  · rw [if_neg known, if_neg known]
    simp only [unplaced, List.map_append]
    rfl

/-- The order of a listing is that of the names alone. -/
theorem byName_unplaced (t : Table) : t.unplaced.byName = t.byName.map Binding.unplaced :=
  t.byName_map fun b => b.name_unplaced

end Table

/-! ## Memories -/

namespace Memory

@[simp] theorem heap_unplaced (m : Memory) : m.unplaced.heap = m.heap := rfl

@[simp] theorem table_unplaced (m : Memory) : m.unplaced.table = m.table.unplaced := rfl

section Unplaced

variable (m : Memory)

/-! ### Observers -/

theorem isDeclared_unplaced (v : Identifier) :
    m.unplaced.isDeclared v.unplaced = m.isDeclared v :=
  m.table.contains_unplaced v.name

theorem isPopulated_unplaced (v : Identifier) :
    m.unplaced.isPopulated v.unplaced = m.isPopulated v := by
  simp only [isPopulated, table_unplaced, Identifier.name_unplaced, Table.find?_unplaced]
  cases m.table.find? v.name <;> rfl

theorem typeOf_unplaced (v : Identifier) :
    m.unplaced.typeOf v.unplaced = (m.typeOf v).mapError Fault.unplaced := by
  simp only [typeOf, table_unplaced, Identifier.name_unplaced, Table.find?_unplaced]
  cases m.table.find? v.name <;> rfl

theorem load_unplaced (slot : Slot) :
    m.unplaced.load slot = (m.load slot).mapError Fault.unplaced := by
  cases slot with
  | direct x => rfl
  | heap i =>
    simp only [load, heap_unplaced]
    cases m.heap[i]? <;> rfl

theorem read_unplaced (v : Identifier) :
    m.unplaced.read v.unplaced = (m.read v).mapError Fault.unplaced := by
  simp only [read, table_unplaced, Identifier.name_unplaced, Table.find?_unplaced]
  cases m.table.find? v.name with
  | none => rfl
  | some b =>
    simp only [Option.map_some, Binding.slot_unplaced]
    cases b.slot with
    | none => rfl
    | some slot => exact m.load_unplaced slot

theorem print_unplaced (v : Identifier) :
    m.unplaced.print v.unplaced = (m.print v).mapError Fault.unplaced := by
  rw [print, print, read_unplaced]
  cases m.read v <;> rfl

theorem same_unplaced (a b : Identifier) :
    m.unplaced.same a.unplaced b.unplaced = (m.same a b).mapError Fault.unplaced := by
  rw [same, same, read_unplaced, read_unplaced]
  cases m.read a with
  | error fault => rfl
  | ok x => cases m.read b <;> rfl

theorem size_unplaced : m.unplaced.size = m.size :=
  List.length_map _

theorem declarations_unplaced :
    m.unplaced.declarations = m.declarations.map Declaration.unplaced := by
  rw [declarations, declarations, table_unplaced, Table.byName_unplaced, List.map_map, List.map_map]
  rfl

theorem dump_unplaced : m.unplaced.dump = m.dump := by
  have lines : m.unplaced.dumpLines = m.dumpLines := by
    rw [dumpLines, dumpLines, table_unplaced, Table.byName_unplaced, List.map_map]
    rfl
  rw [dump, dump, lines]

/-! ### Changes -/

theorem declare_unplaced (v : Identifier) (ty : Ty) :
    m.unplaced.declare v.unplaced ty = (m.declare v ty).unplaced := by
  rw [declare, table_unplaced, Table.declare_unplaced]
  rfl

theorem store_unplaced (name : String) (x : Value) :
    m.unplaced.store name x = (m.store name x).unplaced := by
  simp only [store, table_unplaced, heap_unplaced, Table.assign_unplaced]
  split <;> rfl

theorem check_unplaced (v : Identifier) (x : Value) :
    m.unplaced.check v.unplaced x = (m.check v x).mapError Fault.unplaced := by
  rw [check_eq_typeOf, check_eq_typeOf, typeOf_unplaced]
  cases m.typeOf v with
  | error fault => rfl
  | ok ty =>
    simp only [Except.mapError]
    split <;> rfl

theorem write_unplaced (v : Identifier) (x : Value) :
    m.unplaced.write v.unplaced x =
      ((m.write v x).1.mapError Fault.unplaced, (m.write v x).2.unplaced) := by
  rw [write, write, check_unplaced]
  cases m.check v x with
  | error fault => rfl
  | ok =>
    simp only [Except.mapError, Identifier.name_unplaced, store_unplaced]

theorem copy_unplaced (source target : Identifier) :
    m.unplaced.copy source.unplaced target.unplaced =
      ((m.copy source target).1.mapError Fault.unplaced, (m.copy source target).2.unplaced) := by
  rw [copy, copy, read_unplaced]
  cases m.read source with
  | error fault => rfl
  | ok x => exact m.write_unplaced target x

/-! ### Steps and runs -/

/-- **A step without places.** -/
theorem step_unplaced (s : Step) :
    m.unplaced.step s.unplaced = ((m.step s).1.unplaced, (m.step s).2.unplaced) := by
  cases s with
  | declare v keyword =>
    simp only [step, Step.unplaced, declare_unplaced]
    cases Ty.ofKeyword keyword <;> rfl
  | isDeclared v => simp only [step, Step.unplaced, isDeclared_unplaced, Answer.unplaced]
  | isPopulated v => simp only [step, Step.unplaced, isPopulated_unplaced, Answer.unplaced]
  | typeOf v =>
    simp only [step, Step.unplaced, typeOf_unplaced]
    rw [Answer.ofExcept_mapError fun _ => rfl]
  | read v =>
    simp only [step, Step.unplaced, read_unplaced]
    rw [Answer.ofExcept_mapError fun _ => rfl]
  | print v =>
    simp only [step, Step.unplaced, print_unplaced]
    rw [Answer.ofExcept_mapError fun _ => rfl]
  | write v x =>
    simp only [step, Step.unplaced, write_unplaced]
    rw [Answer.ofExcept_mapError fun _ => rfl]
  | copy source target =>
    simp only [step, Step.unplaced, copy_unplaced]
    rw [Answer.ofExcept_mapError fun _ => rfl]
  | same a b =>
    simp only [step, Step.unplaced, same_unplaced]
    rw [Answer.ofExcept_mapError fun _ => rfl]
  | isEmpty => simp only [step, Step.unplaced, isEmpty, size_unplaced, Answer.unplaced]
  | heapEntries => rfl
  | heapEntry index => rfl
  | declarations => simp only [step, Step.unplaced, declarations_unplaced, Answer.unplaced]
  | dump => simp only [step, Step.unplaced, dump_unplaced, Answer.unplaced]

theorem observe_unplaced (s : Step) :
    m.unplaced.observe s.unplaced = ((m.observe s).1.unplaced, (m.observe s).2.unplaced) := by
  simp only [observe, step_unplaced, size_unplaced, Observation.unplaced]
  rfl

/-- **A run without places.** -/
theorem run_unplaced (steps : List Step) :
    m.unplaced.run (steps.map Step.unplaced) =
      ((m.run steps).1.map Observation.unplaced, (m.run steps).2.unplaced) := by
  induction steps generalizing m with
  | nil => rfl
  | cons s rest ih =>
    rw [List.map_cons, run_cons, run_cons, observe_unplaced, step_unplaced, ih]
    rfl

end Unplaced

/-- What runs leave whose steps differ only in places differs only in places. -/
theorem after_take_unplaced {steps steps' : List Step}
    (same : steps.map Step.unplaced = steps'.map Step.unplaced) (k : Nat) :
    (empty.after (steps.take k)).unplaced = (empty.after (steps'.take k)).unplaced := by
  have left := congrArg Prod.snd (empty.run_unplaced (steps.take k))
  have right := congrArg Prod.snd (empty.run_unplaced (steps'.take k))
  rw [List.map_take, same, ← List.map_take] at left
  exact left.symm.trans right

/-- **Places are invisible to the storage.**  Let the steps of two runs differ only in places.
They are answered alike, but for the places in faults and in listings, the two sizes after each
step are the same, and so are heap and dump.  And in any run a fault is about the very
identifier of the access that was refused: that of the last access of the step, which for a
copy and a comparison is to the first variable if it cannot be read, and else to the second. -/
theorem places_invisible :
    (∀ steps steps' : List Step, steps.map Step.unplaced = steps'.map Step.unplaced →
      (empty.run steps).1.map Observation.unplaced =
        (empty.run steps').1.map Observation.unplaced ∧
      ∀ k,
        (empty.after (steps.take k)).heapEntries = (empty.after (steps'.take k)).heapEntries ∧
        (empty.after (steps.take k)).dump = (empty.after (steps'.take k)).dump) ∧
    ∀ (steps : List Step) (s : Step) (fault : Fault),
      ((empty.after steps).step s).1 = .refused fault →
      ∃ a, (empty.after steps).lastAccess? s = some a ∧
        fault.subject? = some a.subject ∧ fault.span? = some a.subject.span := by
  constructor
  · intro steps steps' same
    have left := congrArg Prod.fst (empty.run_unplaced steps)
    have right := congrArg Prod.fst (empty.run_unplaced steps')
    rw [same] at left
    refine ⟨left.symm.trans right, fun k => ?_⟩
    have alike := after_take_unplaced same k
    have entries : (empty.after (steps.take k)).unplaced.heapEntries =
        (empty.after (steps'.take k)).unplaced.heapEntries := by rw [alike]
    refine ⟨entries, ?_⟩
    rw [← dump_unplaced, alike, dump_unplaced]
  · intro steps s fault answer
    have wf := (reachable_empty.after steps).wellFormed
    obtain ⟨a, last, refused⟩ := (wf.step_eq_refused_iff s fault).1 answer
    exact ⟨a, last, refused.subject?_eq, refused.span?_eq⟩

/-- A text for a number that is declared in one run after its use, and in the other nowhere. -/
theorem mismatch_alike_wherever_declared :
    let declared (site : Span) : Step := .declare ⟨"x", site⟩ "int"
    let ill (place : Span) : Step := .write ⟨"x", place⟩ (.str "a")
    let answers (site place : Span) : List Observation :=
      (empty.run [declared site, ill place, .declarations]).1
    (answers ⟨9, 10⟩ ⟨4, 2⟩).map Observation.unplaced =
        (answers {} ⟨7, 8⟩).map Observation.unplaced ∧
      ((empty.after [declared ⟨9, 10⟩]).step (ill ⟨4, 2⟩)).1 =
        .refused (.typeMismatch ⟨"x", ⟨4, 2⟩⟩ .int .str) ∧
      Fault.span? (.typeMismatch ⟨"x", ⟨4, 2⟩⟩ .int .str) = some ⟨4, 2⟩ := by
  intro declared ill answers
  obtain ⟨alike, -⟩ := places_invisible.1 [declared ⟨9, 10⟩, ill ⟨4, 2⟩, .declarations]
    [declared {}, ill ⟨7, 8⟩, .declarations] rfl
  obtain ⟨a, last, -, placed⟩ := places_invisible.2 [declared ⟨9, 10⟩] (ill ⟨4, 2⟩) _ rfl
  cases last
  exact ⟨alike, rfl, placed⟩

end Memory

end VarStore
