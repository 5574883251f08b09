/- # VarStore.Proofs.Frame — which variables a step depends on, and which it changes

`Step.names` lists the names that a step is made with.  `AlikeOn S m m'` says that the
variables in `S` have the same types in two memories and are read alike, and `AgreeOn S m m'`
that they were first declared at the same places, too.  Neither says anything of heap
indices, so the two heaps may be quite different.

A step depends only on its own variables: where these are alike, it is answered alike
(`AlikeOn.answer_eq`) and has one effect on both memories (`AlikeOn.effect_eq`), and where the
memories agree, they agree again after it (`AgreeOn.step`).  A step changes only the variable
that it declares or stores to: what a memory shows of the others is the same before and after
(`WellFormed.agreeOn_step_of_target?`), and so for a run (`WellFormed.agreeOn_after_of_target?`).

Since the names of a table are distinct, the listing of its declarations is known once it
is known what each name shows (`WellFormed.declarations_eq_filter`).
-/
import Mathlib.Data.Set.Basic
import VarStore.Proofs.WellFormed

namespace VarStore

set_option autoImplicit false

namespace Step

/-- The names of the variables that a step is made with. -/
def names : Step → List String
  | .declare v _ => [v.name]
  | .isDeclared v => [v.name]
  | .isPopulated v => [v.name]
  | .typeOf v => [v.name]
  | .read v => [v.name]
  | .print v => [v.name]
  | .write v _ => [v.name]
  | .copy source target => [source.name, target.name]
  | .same a b => [a.name, b.name]
  | .isEmpty => []
  | .heapEntries => []
  | .heapEntry _ => []
  | .declarations => []
  | .dump => []

/-- The variable that a step may change. -/
def target? : Step → Option String
  | .declare v _ => some v.name
  | .write v _ => some v.name
  | .copy _ target => some target.name
  | _ => none

/-- The step is about variables, all of them in `S`. -/
def Within (S : Set String) (s : Step) : Prop :=
  s.names ≠ [] ∧ ∀ name ∈ s.names, name ∈ S

/-- The step does not join a variable in `S` with one that is not. -/
def Undivided (S : Set String) (s : Step) : Prop :=
  (∀ name ∈ s.names, name ∈ S) ∨ ∀ name ∈ s.names, name ∉ S

instance (S : Set String) [DecidablePred (· ∈ S)] : DecidablePred (Within S) :=
  fun s => inferInstanceAs (Decidable (s.names ≠ [] ∧ ∀ name ∈ s.names, name ∈ S))

theorem target?_mem_names {s : Step} {name : String} (target : s.target? = some name) :
    name ∈ s.names := by
  cases s with
  | declare v keyword =>
    cases target
    exact List.mem_singleton.2 rfl
  | write v x =>
    cases target
    exact List.mem_singleton.2 rfl
  | copy source w =>
    cases target
    exact List.mem_cons_of_mem _ (List.mem_singleton.2 rfl)
  | _ => cases target

/-- An undivided step is about variables in `S`, or it is made with none of them. -/
theorem Undivided.cases {S : Set String} {s : Step} (undivided : s.Undivided S) :
    s.Within S ∨ (¬ s.Within S ∧ ∀ name ∈ s.names, name ∉ S) := by
  by_cases within : s.Within S
  · exact Or.inl within
  · refine Or.inr ⟨within, ?_⟩
    rcases undivided with inside | outside
    · intro name member
      have named : s.names ≠ [] := List.ne_nil_of_mem member
      exact absurd ⟨named, inside⟩ within
    · exact outside

end Step

/-- The variable that an effect changes. -/
def Effect.target? : Effect → Option String
  | .keep => none
  | .declare v _ => some v.name
  | .store v _ => some v.name

namespace Memory

/-- The declaration of `name`, with the place of the first one. -/
def declaration? (m : Memory) (name : String) : Option Declaration :=
  (m.table.find? name).map (·.toDeclaration)

/-- The variables in `S` have the same types and are read alike. -/
structure AlikeOn (S : Set String) (m m' : Memory) : Prop where
  typeOf : ∀ v : Identifier, v.name ∈ S → m.typeOf v = m'.typeOf v
  read : ∀ v : Identifier, v.name ∈ S → m.read v = m'.read v

/-- The two memories show the same of the variables in `S`. -/
structure AgreeOn (S : Set String) (m m' : Memory) : Prop where
  declaration? : ∀ name ∈ S, m.declaration? name = m'.declaration? name
  read : ∀ v : Identifier, v.name ∈ S → m.read v = m'.read v

/-! ## Declarations -/

theorem declaration?_declare (m : Memory) (v : Identifier) (ty : Ty) (name : String) :
    (m.declare v ty).declaration? name =
      if name = v.name then
        some { name := v.name, site := (m.declaration? v.name).elim v.span (·.site), ty := ty }
      else m.declaration? name := by
  unfold declaration?
  rw [table_declare, Table.find?_declare]
  by_cases same : name = v.name
  · rw [if_pos same, if_pos same]
    cases m.table.find? v.name <;> rfl
  · rw [if_neg same, if_neg same]

@[simp] theorem declaration?_store (m : Memory) (target : String) (x : Value) (name : String) :
    (m.store target x).declaration? name = m.declaration? name := by
  unfold declaration?
  rw [find?_store]
  by_cases same : name = target
  · rw [if_pos same, same]
    cases m.table.find? target <;> rfl
  · rw [if_neg same]

theorem typeOf_eq_declaration? (m : Memory) (v : Identifier) :
    m.typeOf v =
      match m.declaration? v.name with
      | some d => .ok d.ty
      | none => .error (.undeclared v) := by
  unfold typeOf declaration?
  cases m.table.find? v.name <;> rfl

/-- A check looks at nothing but the type of the variable. -/
theorem check_eq_typeOf (m : Memory) (v : Identifier) (x : Value) :
    m.check v x =
      match m.typeOf v with
      | .ok ty => if x.ty = ty then .ok () else .error (.typeMismatch v ty x.ty)
      | .error fault => .error fault := by
  unfold check typeOf
  cases m.table.find? v.name <;> rfl

/-! ## A step and its names -/

theorem target?_of_offer? {m : Memory} {s : Step} {v : Identifier} {x : Value}
    (offered : m.offer? s = some (v, x)) : s.target? = some v.name := by
  cases s with
  | write w y =>
    cases offered
    rfl
  | copy source target =>
    simp only [offer?] at offered
    split at offered
    · cases offered
      rfl
    · cases offered
  | _ => cases offered

theorem offer?_mem_names {m : Memory} {s : Step} {v : Identifier} {x : Value}
    (offered : m.offer? s = some (v, x)) : v.name ∈ s.names :=
  Step.target?_mem_names (target?_of_offer? offered)

/-- A step changes no variable but its target. -/
theorem target?_of_effect {m : Memory} {s : Step} {name : String}
    (changed : (m.effect s).target? = some name) : s.target? = some name := by
  cases effect : m.effect s with
  | keep =>
    rw [effect] at changed
    cases changed
  | declare v ty =>
    rw [effect] at changed
    rw [effect_eq_declare_iff.1 effect]
    exact changed
  | store v x =>
    rw [effect] at changed
    cases changed
    exact target?_of_offer? (effect_eq_store_iff.1 effect).1

/-- The variable that a step changes is one that it is made with. -/
theorem target?_mem_names {m : Memory} {s : Step} {name : String}
    (changed : (m.effect s).target? = some name) : name ∈ s.names :=
  Step.target?_mem_names (target?_of_effect changed)

/-! ## Alike variables -/

section Alike

variable {S : Set String} {m m' : Memory}

theorem AlikeOn.symm (alike : AlikeOn S m m') : AlikeOn S m' m :=
  ⟨fun v member => (alike.typeOf v member).symm, fun v member => (alike.read v member).symm⟩

theorem AlikeOn.isDeclared (alike : AlikeOn S m m') {v : Identifier} (member : v.name ∈ S) :
    m.isDeclared v = m'.isDeclared v := by
  rw [Bool.eq_iff_iff, isDeclared_iff_typeOf, isDeclared_iff_typeOf, alike.typeOf v member]

theorem AlikeOn.isPopulated (alike : AlikeOn S m m') (wf : m.WellFormed) (wf' : m'.WellFormed)
    {v : Identifier} (member : v.name ∈ S) : m.isPopulated v = m'.isPopulated v := by
  rw [Bool.eq_iff_iff, wf.isPopulated_iff, wf'.isPopulated_iff, alike.read v member]

theorem AlikeOn.write_fst (alike : AlikeOn S m m') {v : Identifier} (member : v.name ∈ S)
    (x : Value) : (m.write v x).1 = (m'.write v x).1 := by
  rw [Memory.write_fst, Memory.write_fst, check_eq_typeOf, check_eq_typeOf, alike.typeOf v member]

theorem AlikeOn.copy_fst (alike : AlikeOn S m m') {source target : Identifier}
    (read : source.name ∈ S) (written : target.name ∈ S) :
    (m.copy source target).1 = (m'.copy source target).1 := by
  rw [copy, copy, alike.read source read]
  cases m'.read source with
  | error fault => rfl
  | ok x => exact alike.write_fst written x

theorem AlikeOn.offer?_eq (alike : AlikeOn S m m') {s : Step}
    (inside : ∀ name ∈ s.names, name ∈ S) : m.offer? s = m'.offer? s := by
  cases s with
  | copy source target =>
    have same := alike.read source (inside _ List.mem_cons_self)
    simp only [offer?, same]
  | _ => rfl

theorem AlikeOn.effect_store (alike : AlikeOn S m m') {s : Step}
    (inside : ∀ name ∈ s.names, name ∈ S) {v : Identifier} {x : Value}
    (stores : m.effect s = .store v x) : m'.effect s = .store v x := by
  obtain ⟨offered, typed⟩ := effect_eq_store_iff.1 stores
  have member : v.name ∈ S := inside _ (offer?_mem_names offered)
  rw [alike.offer?_eq inside] at offered
  rw [alike.typeOf v member] at typed
  exact effect_eq_store_iff.2 ⟨offered, typed⟩

/-- A step has one effect on memories in which its variables are alike. -/
theorem AlikeOn.effect_eq (alike : AlikeOn S m m') {s : Step}
    (inside : ∀ name ∈ s.names, name ∈ S) : m.effect s = m'.effect s := by
  cases left : m.effect s with
  | declare v ty => exact (effect_eq_declare_iff.2 (effect_eq_declare_iff.1 left)).symm
  | store v x => exact (alike.effect_store inside left).symm
  | keep =>
    cases right : m'.effect s with
    | keep => rfl
    | declare v ty =>
      have : m.effect s = .declare v ty :=
        effect_eq_declare_iff.2 (effect_eq_declare_iff.1 right)
      rw [left] at this
      cases this
    | store v x =>
      have := alike.symm.effect_store inside right
      rw [left] at this
      cases this

theorem AlikeOn.accepted?_eq (alike : AlikeOn S m m') {s : Step}
    (inside : ∀ name ∈ s.names, name ∈ S) : m.accepted? s = m'.accepted? s := by
  rw [Memory.accepted?_eq, Memory.accepted?_eq, alike.effect_eq inside]

/-- **A step is answered from its own variables.** -/
theorem AlikeOn.answer_eq_of_isPopulated (alike : AlikeOn S m m')
    (populated : ∀ v : Identifier, v.name ∈ S → m.isPopulated v = m'.isPopulated v)
    {s : Step} (within : s.Within S) : (m.step s).1 = (m'.step s).1 := by
  obtain ⟨named, inside⟩ := within
  cases s with
  | declare v keyword =>
    simp only [Memory.step]
    cases Ty.ofKeyword keyword <;> rfl
  | isDeclared v =>
    have same := alike.isDeclared (inside _ List.mem_cons_self)
    simp only [Memory.step, same]
  | isPopulated v =>
    have same := populated v (inside _ List.mem_cons_self)
    simp only [Memory.step, same]
  | typeOf v =>
    have same := alike.typeOf v (inside _ List.mem_cons_self)
    simp only [Memory.step, same]
  | read v =>
    have same := alike.read v (inside _ List.mem_cons_self)
    simp only [Memory.step, same]
  | print v =>
    have same := alike.read v (inside _ List.mem_cons_self)
    simp only [Memory.step, Memory.print, same]
  | write v x =>
    have same := alike.write_fst (inside _ List.mem_cons_self) x
    simp only [Memory.step, same]
  | copy source target =>
    have same := alike.copy_fst (inside _ List.mem_cons_self)
      (inside _ (List.mem_cons_of_mem _ List.mem_cons_self))
    simp only [Memory.step, same]
  | same a b =>
    have left := alike.read a (inside _ List.mem_cons_self)
    have right := alike.read b (inside _ (List.mem_cons_of_mem _ List.mem_cons_self))
    simp only [Memory.step, Memory.same, left, right]
  | _ => exact absurd rfl named

theorem AlikeOn.answer_eq (alike : AlikeOn S m m') (wf : m.WellFormed) (wf' : m'.WellFormed)
    {s : Step} (within : s.Within S) : (m.step s).1 = (m'.step s).1 :=
  alike.answer_eq_of_isPopulated (fun _ member => alike.isPopulated wf wf' member) within

end Alike

/-! ## Agreement -/

section Agreement

variable {S : Set String} {m m' : Memory}

theorem AgreeOn.refl (S : Set String) (m : Memory) : AgreeOn S m m :=
  ⟨fun _ _ => rfl, fun _ _ => rfl⟩

theorem AgreeOn.symm (agree : AgreeOn S m m') : AgreeOn S m' m :=
  ⟨fun name member => (agree.declaration? name member).symm,
    fun v member => (agree.read v member).symm⟩

theorem AgreeOn.trans {m'' : Memory} (agree : AgreeOn S m m') (next : AgreeOn S m' m'') :
    AgreeOn S m m'' :=
  ⟨fun name member => (agree.declaration? name member).trans (next.declaration? name member),
    fun v member => (agree.read v member).trans (next.read v member)⟩

theorem AgreeOn.alikeOn (agree : AgreeOn S m m') : AlikeOn S m m' where
  typeOf := by
    intro v member
    rw [typeOf_eq_declaration?, typeOf_eq_declaration?, agree.declaration? v.name member]
  read := agree.read

/-- Memories that agree on the variables of a step agree on them after it. -/
theorem AgreeOn.step (agree : AgreeOn S m m') (wf : m.WellFormed) (wf' : m'.WellFormed)
    {s : Step} (inside : ∀ name ∈ s.names, name ∈ S) : AgreeOn S (m.step s).2 (m'.step s).2 := by
  have same := agree.alikeOn.effect_eq inside
  rw [step_snd, step_snd, ← same]
  cases effect : m.effect s with
  | keep => exact agree
  | declare v ty =>
    have member : v.name ∈ S := inside _ (target?_mem_names (by rw [effect]; rfl))
    refine ⟨fun name here => ?_, fun w here => ?_⟩
    · rw [apply, apply, declaration?_declare, declaration?_declare,
        agree.declaration? v.name member, agree.declaration? name here]
    · rw [apply, apply, read_declare, read_declare, agree.read w here]
  | store v x =>
    have typed := (effect_eq_store_iff.1 effect).2
    have typed' := (effect_eq_store_iff.1 (same.symm.trans effect)).2
    refine ⟨fun name here => ?_, fun w here => ?_⟩
    · rw [apply, apply, declaration?_store, declaration?_store, agree.declaration? name here]
    · rw [apply, apply, wf.read_store typed, wf'.read_store typed', agree.read w here]

/-- **A step changes only its target.** -/
theorem WellFormed.agreeOn_step_of_target? (wf : m.WellFormed) {s : Step}
    (untargeted : ∀ name ∈ S, s.target? ≠ some name) : AgreeOn S (m.step s).2 m := by
  have apart {target name : String} (changed : (m.effect s).target? = some target)
      (here : name ∈ S) : name ≠ target := by
    rintro rfl
    exact untargeted name here (target?_of_effect changed)
  rw [step_snd]
  cases effect : m.effect s with
  | keep => exact AgreeOn.refl S m
  | declare v ty =>
    have changed : (m.effect s).target? = some v.name := by rw [effect]; rfl
    refine ⟨fun name here => ?_, fun w here => ?_⟩
    · rw [apply, declaration?_declare, if_neg (apart changed here)]
    · rw [apply, read_declare, if_neg (apart changed here)]
  | store v x =>
    have changed : (m.effect s).target? = some v.name := by rw [effect]; rfl
    refine ⟨fun name here => ?_, fun w here => ?_⟩
    · rw [apply, declaration?_store]
    · rw [apply, wf.read_store (effect_eq_store_iff.1 effect).2, if_neg (apart changed here)]

/-- What no step targets, a run leaves as it is. -/
theorem WellFormed.agreeOn_after_of_target? (wf : m.WellFormed) {steps : List Step}
    (untargeted : ∀ s ∈ steps, ∀ name ∈ S, s.target? ≠ some name) :
    AgreeOn S (m.after steps) m := by
  induction steps generalizing m with
  | nil => exact AgreeOn.refl S m
  | cons s rest ih =>
    have first := wf.agreeOn_step_of_target? (untargeted s List.mem_cons_self)
    have later := ih (wf.step s) fun t member => untargeted t (List.mem_cons_of_mem _ member)
    exact later.trans first

/-- **A step changes only its own variables.** -/
theorem WellFormed.agreeOn_step (wf : m.WellFormed) {s : Step}
    (outside : ∀ name ∈ s.names, name ∉ S) : AgreeOn S (m.step s).2 m :=
  wf.agreeOn_step_of_target? fun name here target =>
    outside name (Step.target?_mem_names target) here

end Agreement

/-! ## The listing -/

section Listing

variable {m m' : Memory}

theorem WellFormed.mem_declarations_iff (wf : m.WellFormed) {d : Declaration} :
    d ∈ m.declarations ↔ m.declaration? d.name = some d := by
  unfold declarations declaration?
  rw [List.mem_map, Option.map_eq_some_iff]
  constructor
  · rintro ⟨b, member, rfl⟩
    exact ⟨b, Table.find?_of_mem wf.distinctNames (Table.mem_byName.1 member), rfl⟩
  · rintro ⟨b, found, rfl⟩
    exact ⟨b, Table.mem_byName.2 (Table.mem_of_find? found), rfl⟩

theorem declarations_pairwise_le (m : Memory) :
    m.declarations.Pairwise fun a b => a.name ≤ b.name :=
  List.pairwise_map.2 m.table.byName_pairwise_le

theorem names_declarations_perm (m : Memory) :
    (m.declarations.map (·.name)).Perm m.table.names := by
  rw [declarations, List.map_map]
  exact m.table.byName_perm.map _

theorem WellFormed.nodup_declarations (wf : m.WellFormed) : m.declarations.Nodup :=
  List.Nodup.of_map _ (m.names_declarations_perm.nodup_iff.2 wf.distinctNames)

theorem WellFormed.declaration_eq_of_name_eq (wf : m.WellFormed) {a b : Declaration}
    (left : a ∈ m.declarations) (right : b ∈ m.declarations) (name : a.name = b.name) : a = b := by
  have found := wf.mem_declarations_iff.1 right
  rw [← name, wf.mem_declarations_iff.1 left] at found
  exact Option.some.inj found

/-- A memory that shows the declarations in `S` and no other ones lists those. -/
theorem WellFormed.declarations_eq_filter (wf : m.WellFormed) (wf' : m'.WellFormed)
    {S : Set String} [DecidablePred (· ∈ S)]
    (shown : ∀ name, m'.declaration? name = if name ∈ S then m.declaration? name else none) :
    m'.declarations = m.declarations.filter fun d => d.name ∈ S := by
  have same (d : Declaration) :
      d ∈ m'.declarations ↔ d ∈ m.declarations.filter fun d => d.name ∈ S := by
    rw [List.mem_filter, wf.mem_declarations_iff, wf'.mem_declarations_iff, shown,
      decide_eq_true_eq]
    by_cases member : d.name ∈ S <;> simp [member]
  have perm : m'.declarations.Perm (m.declarations.filter fun d => d.name ∈ S) :=
    (List.perm_ext_iff_of_nodup wf'.nodup_declarations (wf.nodup_declarations.filter _)).2 same
  refine perm.eq_of_pairwise ?_ m'.declarations_pairwise_le (m.declarations_pairwise_le.filter _)
  intro a b left right ab ba
  exact wf'.declaration_eq_of_name_eq left ((same b).2 right) (String.le_antisymm ab ba)

end Listing

end Memory

end VarStore
