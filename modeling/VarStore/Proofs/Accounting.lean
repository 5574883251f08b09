/- # VarStore.Proofs.Accounting — the declarations that a run leaves

A memory lists one declaration of each name that was declared, and the listing can be told from
the declarations of the run alone.  The place of an entry is that of the first declaration of its
name and the type is that of the last (`declaration?_after`): a later declaration gives a variable
another type, and leaves the place where it was first declared.

The number of variables grows with the first declaration of a name and with no other step
(`size_step`, `at_declaresFresh_iff`), so it counts the declared names (`size_after`).
-/
import Mathlib.Data.Set.Card
import VarStore.Proofs.Frame
import VarStore.Proofs.LastWrite

namespace VarStore.Memory

set_option autoImplicit false

/-- The step declares `name`, at the place `site`. -/
def DeclaresAt (name : String) (site : Span) (_ : Memory) (s : Step) : Prop :=
  ∃ ty : Ty, s = .declare ⟨name, site⟩ ty.keyword

/-- The step declares a variable that is not declared yet. -/
def DeclaresFresh (m : Memory) (s : Step) : Prop :=
  ∃ (v : Identifier) (ty : Ty), s = .declare v ty.keyword ∧ m.isDeclared v = false

/-- The names that the steps declare. -/
def declaredNames (steps : List Step) : Set String :=
  { name | ∃ k, empty.At steps k (DeclaresName name) }

/-! ## One step -/

section OneStep

variable {m : Memory} {s : Step} {name : String} {site : Span}

/-- A step declares a name exactly if it is a declaration of it that is answered `done`. -/
theorem declaresName_iff :
    DeclaresName name m s ↔
      ∃ (v : Identifier) (keyword : String),
        s = .declare v keyword ∧ v.name = name ∧ (m.step s).1 = .done := by
  constructor
  · rintro ⟨ty, v, rfl, same⟩
    exact ⟨v, ty.keyword, rfl, same, by simp [step]⟩
  · rintro ⟨v, keyword, rfl, same, done⟩
    cases known : Ty.ofKeyword keyword with
    | ok ty =>
      rw [Ty.ofKeyword_eq_ok_iff.1 known]
      exact ⟨ty, v, rfl, same⟩
    | error u => simp [step, known] at done

theorem DeclaresName.exists_declaresAt (declares : DeclaresName name m s) :
    ∃ site, DeclaresAt name site m s := by
  obtain ⟨ty, v, rfl, rfl⟩ := declares
  exact ⟨v.span, ty, rfl⟩

theorem declarations_store (m : Memory) (target : String) (x : Value) :
    (m.store target x).declarations = m.declarations := by
  have names (b : Binding) :
      (if b.name = target then b.fill (m.slotFor x) else b).name = b.name := by
    split <;> rfl
  rw [declarations, table_store, Table.assign, Table.modify, Table.byName_map _ names,
    List.map_map, declarations]
  refine List.map_congr_left fun b _ => ?_
  simp only [Function.comp]
  split <;> rfl

theorem size_store (m : Memory) (target : String) (x : Value) :
    (m.store target x).size = m.size := by
  rw [size, table_store, Table.size_assign, size]

/-- Only a declaration changes the listing. -/
theorem declarations_step (other : ∀ name, ¬ DeclaresName name m s) :
    (m.step s).2.declarations = m.declarations ∧ (m.step s).2.size = m.size := by
  rw [step_snd]
  cases effect : m.effect s with
  | keep => exact ⟨rfl, rfl⟩
  | declare v ty => exact absurd (DeclaresName.of_effect effect) (other v.name)
  | store v x => exact ⟨m.declarations_store v.name x, m.size_store v.name x⟩

theorem size_declare (m : Memory) (v : Identifier) (ty : Ty) :
    (m.declare v ty).size = if m.isDeclared v then m.size else m.size + 1 :=
  m.table.size_declare v ty

/-- **One variable more.**  The size grows by one exactly with a declaration of a new name, and
stays the same otherwise. -/
theorem size_step (m : Memory) (s : Step) :
    (m.DeclaresFresh s ∧ (m.step s).2.size = m.size + 1) ∨
      (¬ m.DeclaresFresh s ∧ (m.step s).2.size = m.size) := by
  by_cases declares : ∃ name, DeclaresName name m s
  · obtain ⟨name, ty, v, rfl, -⟩ := declares
    rw [step_declare, size_declare]
    cases known : m.isDeclared v with
    | false => exact Or.inl ⟨⟨v, ty, rfl, known⟩, rfl⟩
    | true =>
      refine Or.inr ⟨?_, rfl⟩
      rintro ⟨w, ty', same, fresh⟩
      rw [← (Step.declare.inj same).1, known] at fresh
      cases fresh
  · refine Or.inr ⟨?_, (declarations_step (not_exists.1 declares)).2⟩
    rintro ⟨v, ty, rfl, -⟩
    exact declares ⟨v.name, ty, v, rfl, rfl⟩

/-- The place of a declaration stays the same as long as there is one. -/
theorem site_step (m : Memory) (s : Step) (declared : (m.declaration? name).map (·.site) = some site) :
    ((m.step s).2.declaration? name).map (·.site) = some site := by
  obtain ⟨d, found, rfl⟩ := Option.map_eq_some_iff.1 declared
  rw [step_snd]
  cases m.effect s with
  | keep => exact declared
  | declare v ty =>
    rw [apply, declaration?_declare]
    by_cases same : name = v.name
    · rw [if_pos same, ← same, found]
      rfl
    · rw [if_neg same]
      exact declared
  | store v x => rwa [apply, declaration?_store]

end OneStep

/-! ## A run -/

section Run

variable {steps : List Step} {name : String} {site : Span} {ty : Ty} {first last k : Nat}

theorem isDeclared_after_iff (steps : List Step) (v : Identifier) :
    (empty.after steps).isDeclared v = true ↔ v.name ∈ declaredNames steps := by
  constructor
  · intro declared
    by_contra undeclared
    have unknown := typeOf_after_of_never fun k found => undeclared ⟨k, found⟩
    obtain ⟨ty, known⟩ := isDeclared_iff_typeOf.1 declared
    rw [unknown] at known
    cases known
  · rintro ⟨k, found⟩
    obtain ⟨last, ⟨s, present, ty, declares⟩, none_later⟩ := exists_lastAt found
    have typed := typeOf_after_of_lastAt ⟨⟨s, present, ty, declares⟩, none_later⟩
      ⟨s, present, declares⟩
    exact isDeclared_iff_typeOf.2 ⟨ty, typed⟩

/-- What a first declaration leaves is the place of the name at the end of the run. -/
theorem site_after_of_firstAt (declared : empty.FirstAt steps first (DeclaresName name))
    (placed : empty.At steps first (DeclaresAt name site)) :
    ((empty.after steps).declaration? name).map (·.site) = some site := by
  obtain ⟨s, present, ty, rfl⟩ := placed
  have unknown : (empty.after (steps.take first)).isDeclared ⟨name, site⟩ ≠ true := by
    rw [Ne, isDeclared_after_iff]
    rintro ⟨l, found⟩
    obtain ⟨before, earlier⟩ := at_take.1 found
    exact declared.2 l before earlier
  refine after_of_none_later (p := fun _ _ => False)
    (P := fun m => (m.declaration? name).map (·.site) = some site)
    present ?_ (fun m s before _ => m.site_step s before) ?_
  · have absent : (empty.after (steps.take first)).declaration? name = none := by
      rw [declaration?, Option.map_eq_none_iff, ← Option.not_isSome_iff_eq_none]
      exact unknown
    rw [step_declare, declaration?_declare, if_pos rfl, absent]
    rfl
  · rintro l - ⟨s, -, never⟩
    exact never

/-- **First place, last type.**  A name that a run declares is listed with the place of its first
declaration and with the type of its last. -/
theorem declaration?_after (earliest : empty.FirstAt steps first (DeclaresName name))
    (placed : empty.At steps first (DeclaresAt name site))
    (latest : empty.LastAt steps last (DeclaresName name))
    (typed : empty.At steps last fun _ s => s.Declares name ty) :
    (empty.after steps).declaration? name = some { name := name, site := site, ty := ty } := by
  have place := site_after_of_firstAt earliest placed
  obtain ⟨d, found, rfl⟩ := Option.map_eq_some_iff.1 place
  obtain ⟨b, bound, rfl⟩ := Option.map_eq_some_iff.1 found
  have type : (empty.after steps).typeOf ⟨name, b.site⟩ = .ok ty :=
    typeOf_after_of_lastAt latest typed
  obtain ⟨b', bound', rfl⟩ := typeOf_eq_ok_iff.1 type
  rw [bound] at bound'
  cases bound'
  rw [found, ← Table.name_of_find? bound]

/-- The listing has one entry for a name, so it is that of its first and its last declaration. -/
theorem mem_declarations_after_iff {d : Declaration} :
    d ∈ (empty.after steps).declarations ↔
      ∃ first last,
        empty.FirstAt steps first (DeclaresName d.name) ∧
        empty.At steps first (DeclaresAt d.name d.site) ∧
        empty.LastAt steps last (DeclaresName d.name) ∧
        empty.At steps last fun _ s => s.Declares d.name d.ty := by
  rw [(reachable_empty.after steps).wellFormed.mem_declarations_iff]
  constructor
  · intro listed
    have declared : (empty.after steps).isDeclared (.synthetic d.name) = true := by
      obtain ⟨b, found, -⟩ := Option.map_eq_some_iff.1 listed
      exact isDeclared_iff.2 ⟨b, found⟩
    obtain ⟨k, found⟩ := (isDeclared_after_iff steps _).1 declared
    obtain ⟨first, earliest⟩ := exists_firstAt found
    obtain ⟨last, latest⟩ := exists_lastAt found
    obtain ⟨s, present, declares⟩ := earliest.1
    obtain ⟨t, present', ty, declares'⟩ := latest.1
    obtain ⟨site, placed⟩ := declares.exists_declaresAt
    have entry := declaration?_after earliest ⟨s, present, placed⟩ latest ⟨t, present', declares'⟩
    have same : d = _ := Option.some.inj (listed.symm.trans entry)
    have place : site = d.site := congrArg (·.site) same.symm
    have type : ty = d.ty := congrArg (·.ty) same.symm
    subst place type
    exact ⟨first, last, earliest, ⟨s, present, placed⟩, latest, ⟨t, present', declares'⟩⟩
  · rintro ⟨first, last, earliest, placed, latest, typed⟩
    exact declaration?_after earliest placed latest typed

theorem mem_names_declarations_iff :
    name ∈ (empty.after steps).declarations.map (·.name) ↔ name ∈ declaredNames steps := by
  rw [(names_declarations_perm _).mem_iff, ← Table.contains_iff]
  exact isDeclared_after_iff steps (.synthetic name)

/-- As many variables as declared names. -/
theorem size_after (steps : List Step) : (empty.after steps).size = (declaredNames steps).ncard := by
  have distinct := (reachable_empty.after steps).wellFormed.distinctNames
  have names : declaredNames steps = ↑(empty.after steps).table.names.toFinset := by
    ext name
    rw [List.coe_toFinset]
    show _ ↔ name ∈ (empty.after steps).table.names
    rw [← Table.contains_iff]
    exact (isDeclared_after_iff steps (.synthetic name)).symm
  rw [names, Set.ncard_coe_finset, List.toFinset_card_of_nodup distinct, size,
    Table.size_eq_length_names]

/-- The declarations of new names are the first declarations. -/
theorem at_declaresFresh_iff :
    empty.At steps k DeclaresFresh ↔ ∃ name, empty.FirstAt steps k (DeclaresName name) := by
  have known (v : Identifier) : (empty.after (steps.take k)).isDeclared v = false ↔
      ∀ l, l < k → ¬ empty.At steps l (DeclaresName v.name) := by
    rw [← Bool.not_eq_true, isDeclared_after_iff]
    constructor
    · exact fun fresh l before found => fresh ⟨l, at_take.2 ⟨before, found⟩⟩
    · rintro fresh ⟨l, found⟩
      obtain ⟨before, earlier⟩ := at_take.1 found
      exact fresh l before earlier
  constructor
  · rintro ⟨s, present, v, ty, rfl, fresh⟩
    exact ⟨v.name, ⟨_, present, ty, v, rfl, rfl⟩, (known v).1 fresh⟩
  · rintro ⟨name, ⟨s, present, ty, v, rfl, rfl⟩, fresh⟩
    exact ⟨_, present, v, ty, rfl, (known v).2 fresh⟩

theorem size_take_succ (bound : k < steps.length) :
    ((empty.after (steps.take (k + 1))).size = (empty.after (steps.take k)).size + 1 ↔
      ∃ name, empty.FirstAt steps k (DeclaresName name)) ∧
    ((empty.after (steps.take (k + 1))).size = (empty.after (steps.take k)).size ∨
      (empty.after (steps.take (k + 1))).size = (empty.after (steps.take k)).size + 1) := by
  have present : steps[k]? = some steps[k] := List.getElem?_eq_getElem bound
  rw [after_take_succ present, ← at_declaresFresh_iff]
  rcases size_step (empty.after (steps.take k)) steps[k] with ⟨fresh, grown⟩ | ⟨known, same⟩
  · exact ⟨iff_of_true grown ⟨_, present, fresh⟩, Or.inr grown⟩
  · refine ⟨iff_of_false (by omega) ?_, Or.inl same⟩
    rintro ⟨s, present', fresh⟩
    rw [present] at present'
    cases present'
    exact known fresh

theorem size_take_le (steps : List Step) {i j : Nat} (before : i ≤ j) :
    (empty.after (steps.take i)).size ≤ (empty.after (steps.take j)).size := by
  induction j, before using Nat.le_induction with
  | base => exact Nat.le_refl _
  | succ j _ ih =>
    by_cases bound : j < steps.length
    · rcases (size_take_succ bound).2 with same | grown <;> omega
    · have all : steps.length ≤ j := Nat.le_of_not_lt bound
      rw [List.take_of_length_le all] at ih
      rwa [List.take_of_length_le (Nat.le_succ_of_le all)]

end Run

/-- **The table keeps account of the declarations.**  After a run it lists one entry for each name
that was declared: at the place of the first declaration, with the type of the last.  These are the
names that are answered as declared, with the types that are answered for them; their number is
the size, which along the run never falls, and grows, by one, exactly at the first declaration of
a name.  A step that is no accepted declaration changes nothing of this. -/
theorem declarations_account (steps : List Step) :
    ((empty.after steps).declarations.map (·.name)).Nodup ∧
    (∀ d : Declaration, d ∈ (empty.after steps).declarations ↔
      ∃ first last,
        empty.FirstAt steps first (DeclaresName d.name) ∧
        empty.At steps first (DeclaresAt d.name d.site) ∧
        empty.LastAt steps last (DeclaresName d.name) ∧
        empty.At steps last fun _ s => s.Declares d.name d.ty) ∧
    (∀ name, name ∈ (empty.after steps).declarations.map (·.name) ↔ name ∈ declaredNames steps) ∧
    (∀ v : Identifier, (empty.after steps).isDeclared v = true ↔
      v.name ∈ (empty.after steps).declarations.map (·.name)) ∧
    (∀ (v : Identifier) (ty : Ty), (empty.after steps).typeOf v = .ok ty ↔
      ∃ d ∈ (empty.after steps).declarations, d.name = v.name ∧ d.ty = ty) ∧
    (empty.after steps).size = (declaredNames steps).ncard ∧
    ((empty.after steps).isEmpty = true ↔ declaredNames steps = ∅) ∧
    (∀ i j, i ≤ j → (empty.after (steps.take i)).size ≤ (empty.after (steps.take j)).size) ∧
    (∀ k, k < steps.length →
      ((empty.after (steps.take (k + 1))).size = (empty.after (steps.take k)).size + 1 ↔
        ∃ name, empty.FirstAt steps k (DeclaresName name)) ∧
      ((empty.after (steps.take (k + 1))).size = (empty.after (steps.take k)).size ∨
        (empty.after (steps.take (k + 1))).size = (empty.after (steps.take k)).size + 1)) ∧
    ∀ (m : Memory) (s : Step),
      (∀ name, DeclaresName name m s ↔
        ∃ (v : Identifier) (keyword : String),
          s = .declare v keyword ∧ v.name = name ∧ (m.step s).1 = .done) ∧
      ((∀ name, ¬ DeclaresName name m s) →
        (m.step s).2.declarations = m.declarations ∧ (m.step s).2.size = m.size) := by
  have wf := (reachable_empty.after steps).wellFormed
  refine ⟨(names_declarations_perm _).nodup_iff.2 wf.distinctNames,
    fun d => mem_declarations_after_iff, fun name => mem_names_declarations_iff, ?_, ?_,
    size_after steps, ?_, fun i j => size_take_le steps, fun k => size_take_succ,
    fun m s => ⟨fun name => declaresName_iff, declarations_step⟩⟩
  · intro v
    rw [mem_names_declarations_iff, isDeclared_after_iff]
  · intro v ty
    rw [typeOf_eq_ok_iff]
    constructor
    · rintro ⟨b, found, rfl⟩
      refine ⟨b.toDeclaration, ?_, Table.name_of_find? found, rfl⟩
      exact List.mem_map_of_mem (Table.mem_byName.2 (Table.mem_of_find? found))
    · rintro ⟨d, listed, name, rfl⟩
      have entry := wf.mem_declarations_iff.1 listed
      rw [name] at entry
      obtain ⟨b, found, rfl⟩ := Option.map_eq_some_iff.1 entry
      exact ⟨b, found, rfl⟩
  · rw [isEmpty, beq_iff_eq, size, Table.size_eq_length_names, List.length_eq_zero_iff,
      List.eq_nil_iff_forall_not_mem, Set.eq_empty_iff_forall_notMem]
    refine forall_congr' fun name => not_congr ?_
    rw [← Table.contains_iff]
    exact isDeclared_after_iff steps (.synthetic name)

/-- A variable that is declared again, elsewhere and with another type. -/
theorem redeclared_listed_once :
    let steps : List Step := [.declare ⟨"x", ⟨1, 2⟩⟩ "int", .declare ⟨"y", {}⟩ "str",
      .declare ⟨"x", ⟨8, 9⟩⟩ "bool", .declare ⟨"x", ⟨5, 6⟩⟩ "float"]
    ⟨"x", ⟨1, 2⟩, .bool⟩ ∈ (empty.after steps).declarations ∧
      (∃ first last,
        empty.FirstAt steps first (DeclaresName "x") ∧
        empty.At steps first (DeclaresAt "x" ⟨1, 2⟩) ∧
        empty.LastAt steps last (DeclaresName "x") ∧
        empty.At steps last fun _ s => s.Declares "x" .bool) ∧
      (∃ name, empty.FirstAt steps 1 (DeclaresName name)) ∧
      (¬ ∃ name, empty.FirstAt steps 2 (DeclaresName name)) ∧
      (empty.after (steps.take 1)).size ≤ (empty.after (steps.take 3)).size := by
  intro steps
  have listed : ⟨"x", ⟨1, 2⟩, .bool⟩ ∈ (empty.after steps).declarations :=
    (reachable_empty.after steps).wellFormed.mem_declarations_iff.2 rfl
  obtain ⟨-, entries, -, -, -, -, -, rising, grows, -⟩ := declarations_account steps
  refine ⟨listed, (entries _).1 listed, (grows 1 (by decide)).1.1 rfl, fun first => ?_,
    rising 1 3 (by decide)⟩
  exact absurd ((grows 2 (by decide)).1.2 first) (by decide)

end VarStore.Memory
