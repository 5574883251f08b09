/- # VarStore.Proofs.Reordering — the steps of different variables in another order

Two runs of declarations and writes may perform the same steps in different orders, as long
as the steps of each variable come in one order (`SameByName`).  Each variable then has the
same run of its own in both, so both runs show the same of it (`SameByName.agreeOn`), and
each step is answered alike.

Two text stores do not commute: they swap places on the heap, so the heaps are only
permutations of each other.  Where the text stores come in one order too, the variables hold the
same indices, and the memories are the same (`SameByName.find?_eq`).
-/
import Mathlib.Data.Set.Insert
import VarStore.Proofs.Indices
import VarStore.Proofs.Noninterference

namespace VarStore

set_option autoImplicit false

/-- The step declares a variable or writes to one. -/
def Step.Builds : Step → Prop
  | .declare _ _ => True
  | .write _ _ => True
  | _ => False

/-! ## One name -/

namespace Step.Builds

variable {s : Step} (builds : s.Builds)
include builds

theorem exists_names : ∃ name, s.names = [name] := by
  cases s with
  | declare v keyword => exact ⟨v.name, rfl⟩
  | write v x => exact ⟨v.name, rfl⟩
  | _ => exact builds.elim

theorem within_singleton_iff (name : String) : s.Within {name} ↔ name ∈ s.names := by
  obtain ⟨own, names⟩ := builds.exists_names
  rw [Within, names]
  simp [eq_comm]

theorem undivided (name : String) : s.Undivided {name} := by
  obtain ⟨own, names⟩ := builds.exists_names
  rw [Undivided, names]
  by_cases same : own = name
  · exact Or.inl (by simpa using same)
  · exact Or.inr (by simpa using same)

end Step.Builds

/-- Lists with the same entries of every key, in the same order, have the same entries. -/
theorem perm_of_filter_eq {α κ : Type} [DecidableEq α] [DecidableEq κ] (key : α → κ)
    {first second : List α}
    (same : ∀ k, first.filter (fun a => key a = k) = second.filter (fun a => key a = k)) :
    first.Perm second := by
  refine List.perm_iff_count.2 fun a => ?_
  have own (l : List α) : (l.filter fun b => key b = key a).count a = l.count a :=
    List.count_filter (decide_eq_true rfl)
  calc first.count a
      = (first.filter fun b => key b = key a).count a := (own first).symm
    _ = (second.filter fun b => key b = key a).count a := by rw [same]
    _ = second.count a := own second

namespace Memory

/-- Both runs contain the same steps of every name, in the same order. -/
def SameByName (steps steps' : List Step) : Prop :=
  ∀ name : String, steps.filter (fun s => name ∈ s.names) = steps'.filter (fun s => name ∈ s.names)

section OneName

variable {steps steps' : List Step}

/-- Only the names of the steps matter. -/
theorem sameByName_iff :
    SameByName steps steps' ↔
      ∀ name ∈ (steps ++ steps').flatMap Step.names,
        steps.filter (fun s => name ∈ s.names) = steps'.filter (fun s => name ∈ s.names) := by
  constructor
  · intro same name _
    exact same name
  · intro same name
    by_cases named : name ∈ (steps ++ steps').flatMap Step.names
    · exact same name named
    · have absent : ∀ s ∈ steps ++ steps', name ∉ s.names :=
        fun s member here => named (List.mem_flatMap.2 ⟨s, member, here⟩)
      have none : (steps ++ steps').filter (fun s => name ∈ s.names) = [] :=
        List.filter_eq_nil_iff.2 fun s member => by simpa using absent s member
      rw [List.filter_append, List.append_eq_nil_iff] at none
      rw [none.1, none.2]

instance : Decidable (SameByName steps steps') :=
  decidable_of_iff _ sameByName_iff.symm

/-- The run of the steps of one variable exchanges, stores and leaves what the full run does. -/
theorem run_filter_name (builds : ∀ s ∈ steps, s.Builds) (name : String) :
    empty.exchanges (steps.filter fun s => name ∈ s.names) =
        (empty.exchanges steps).filter (fun entry => name ∈ entry.1.names) ∧
      empty.textStores (steps.filter fun s => name ∈ s.names) =
        (empty.textStores steps).filter (fun stored => stored.1.name = name) ∧
      AgreeOn {name} (empty.after steps) (empty.after (steps.filter fun s => name ∈ s.names)) := by
  have own : steps.filter (·.Within {name}) = steps.filter (fun s => name ∈ s.names) :=
    List.filter_congr fun s member =>
      decide_eq_decide.2 ((builds s member).within_singleton_iff name)
  have undivided : ∀ s ∈ steps, s.Undivided {name} :=
    fun s member => (builds s member).undivided name
  obtain ⟨answers, stores, agree⟩ :=
    (AgreeOn.refl {name} empty).run_filter wellFormed_empty wellFormed_empty undivided
  rw [own] at answers stores agree
  refine ⟨answers.trans ?_, stores, agree⟩
  refine List.filter_congr fun entry member => decide_eq_decide.2 ?_
  exact (builds _ (mem_of_mem_exchanges member)).within_singleton_iff name

variable (same : SameByName steps steps') (builds : ∀ s ∈ steps, s.Builds)
  (builds' : ∀ s ∈ steps', s.Builds)
include same builds builds'

theorem SameByName.exchanges_filter (name : String) :
    (empty.exchanges steps).filter (fun entry => name ∈ entry.1.names) =
      (empty.exchanges steps').filter (fun entry => name ∈ entry.1.names) := by
  rw [← (run_filter_name builds name).1, ← (run_filter_name builds' name).1, same name]

theorem SameByName.textStores_filter (name : String) :
    (empty.textStores steps).filter (fun stored => stored.1.name = name) =
      (empty.textStores steps').filter (fun stored => stored.1.name = name) := by
  rw [← (run_filter_name builds name).2.1, ← (run_filter_name builds' name).2.1, same name]

theorem SameByName.agreeOn (name : String) :
    AgreeOn {name} (empty.after steps) (empty.after steps') := by
  have left := (run_filter_name builds name).2.2
  have right := (run_filter_name builds' name).2.2
  rw [same name] at left
  exact left.trans right.symm

theorem SameByName.textStores_perm : (empty.textStores steps).Perm (empty.textStores steps') :=
  perm_of_filter_eq (fun stored => stored.1.name)
    fun name => same.textStores_filter builds builds' name

theorem SameByName.heapEntries_perm :
    (empty.after steps).heapEntries.Perm (empty.after steps').heapEntries := by
  rw [heapEntries_eq_textLog, heapEntries_eq_textLog]
  exact (same.textStores_perm builds builds').map _

theorem SameByName.declarations_eq :
    (empty.after steps).declarations = (empty.after steps').declarations := by
  have wf := (reachable_empty.after steps).wellFormed
  have wf' := (reachable_empty.after steps').wellFormed
  have shown (name : String) :
      (empty.after steps).declaration? name =
        if name ∈ Set.univ then (empty.after steps').declaration? name else none := by
    rw [if_pos (Set.mem_univ name)]
    exact (same.agreeOn builds builds' name).declaration? name rfl
  rw [wf'.declarations_eq_filter wf shown]
  simp

end OneName

theorem SameByName.find?_eq {steps steps' : List Step} (same : SameByName steps steps')
    (builds : ∀ s ∈ steps, s.Builds) (builds' : ∀ s ∈ steps', s.Builds)
    (stores : empty.textStores steps = empty.textStores steps') (name : String) :
    (empty.after steps).table.find? name = (empty.after steps').table.find? name := by
  have agree := same.agreeOn builds builds' name
  have indexed' := indexesLast_after steps'
  rw [← stores] at indexed'
  exact find?_eq_of_declaration? (agree.declaration? name rfl)
    (agree.slot?_eq (reachable_empty.after steps).wellFormed (reachable_empty.after steps').wellFormed
      (indexesLast_after steps) indexed')

/-- **The steps of different variables may be reordered.**  Let two runs of declarations and
writes contain the same steps of each name in the same order.  The steps of each name are
answered alike, and at the end every identifier is answered alike, the declarations are
listed alike with their first places, the sizes are equal, and the heaps hold the same
texts.  If the accepted text stores come in one order too, the memories are the same: the same
bindings with the same slots, the same heap, the same dump. -/
theorem reordering {steps steps' : List Step} (builds : ∀ s ∈ steps, s.Builds)
    (builds' : ∀ s ∈ steps', s.Builds) (same : SameByName steps steps') :
    (∀ name, (empty.exchanges steps).filter (fun entry => name ∈ entry.1.names) =
      (empty.exchanges steps').filter (fun entry => name ∈ entry.1.names)) ∧
    (∀ v : Identifier,
      (empty.after steps).isDeclared v = (empty.after steps').isDeclared v ∧
      (empty.after steps).typeOf v = (empty.after steps').typeOf v ∧
      (empty.after steps).isPopulated v = (empty.after steps').isPopulated v ∧
      (empty.after steps).read v = (empty.after steps').read v) ∧
    (empty.after steps).declarations = (empty.after steps').declarations ∧
    (empty.after steps).size = (empty.after steps').size ∧
    (empty.after steps).heapSize = (empty.after steps').heapSize ∧
    (empty.after steps).heapEntries.Perm (empty.after steps').heapEntries ∧
    (empty.textStores steps = empty.textStores steps' →
      (∀ name, (empty.after steps).table.find? name = (empty.after steps').table.find? name) ∧
      (empty.after steps).table.bindings.Perm (empty.after steps').table.bindings ∧
      (empty.after steps).heap = (empty.after steps').heap ∧
      (empty.after steps).dump = (empty.after steps').dump) := by
  have wf := (reachable_empty.after steps).wellFormed
  have wf' := (reachable_empty.after steps').wellFormed
  have listed := same.declarations_eq builds builds'
  have heaps := same.heapEntries_perm builds builds'
  refine ⟨same.exchanges_filter builds builds', fun v => ?_, listed, ?_, ?_, heaps, ?_⟩
  · have alike := (same.agreeOn builds builds' v.name).alikeOn
    exact ⟨alike.isDeclared rfl, alike.typeOf v rfl, alike.isPopulated wf wf' rfl, alike.read v rfl⟩
  · have length (m : Memory) : m.size = m.declarations.length := by
      rw [declarations, List.length_map, Table.length_byName]
      rfl
    rw [length, length, listed]
  · rw [heapSize_eq_length, heapSize_eq_length, heaps.length_eq]
  · intro stores
    have lookup := same.find?_eq builds builds' stores
    have bindings := bindings_perm_of_find?_eq wf.distinctNames wf'.distinctNames lookup
    have heap : (empty.after steps).heap = (empty.after steps').heap := by
      have entries : (empty.after steps).heapEntries = (empty.after steps').heapEntries := by
        rw [heapEntries_eq_textLog, heapEntries_eq_textLog, textLog, textLog, stores]
      exact Array.toList_inj.1 entries
    exact ⟨lookup, bindings, heap, dump_eq_of_perm bindings wf.distinctNames heap⟩

theorem two_stores_reordered :
    let a := Identifier.synthetic "a"
    let b := Identifier.synthetic "b"
    let steps : List Step :=
      [.declare a "str", .declare b "str", .write a (.str "x"), .write b (.str "y")]
    let swapped : List Step :=
      [.declare b "str", .write b (.str "y"), .declare a "str", .write a (.str "x")]
    let storesKept : List Step :=
      [.declare b "str", .declare a "str", .write a (.str "x"), .write b (.str "y")]
    (empty.after steps).heapEntries = [.str "x", .str "y"] ∧
      (empty.after swapped).heapEntries = [.str "y", .str "x"] ∧
      (empty.after steps).heapEntries.Perm (empty.after swapped).heapEntries ∧
      (empty.after steps).dump = (empty.after storesKept).dump := by
  intro a b steps swapped storesKept
  have builds : ∀ s ∈ steps, s.Builds := by simp [steps, Step.Builds]
  have buildsSwapped : ∀ s ∈ swapped, s.Builds := by simp [swapped, Step.Builds]
  have buildsKept : ∀ s ∈ storesKept, s.Builds := by simp [storesKept, Step.Builds]
  have sameSwapped : SameByName steps swapped := of_decide_eq_true rfl
  have sameKept : SameByName steps storesKept := of_decide_eq_true rfl
  obtain ⟨-, -, -, -, -, heaps, -⟩ := reordering builds buildsSwapped sameSwapped
  obtain ⟨-, -, -, -, -, -, equal⟩ := reordering builds buildsKept sameKept
  exact ⟨rfl, rfl, heaps, (equal rfl).2.2.2⟩

end Memory

end VarStore
