/- # VarStore.Table — the declared variables, each with its type and slot

A `Table` lists one binding per declared name, in the order in which the names
were first declared.  Declaring a name again gives it the new type and an empty
slot and leaves the place of its first declaration standing.

`Table.find?` is the view of a table.  `find?_declare` and `find?_assign` say
what it answers after the two changes, `distinctNames_declare` and
`distinctNames_assign` that neither of them makes a second binding of a name,
and `find?_eq_some_iff` that it then shows the whole table.
-/
import VarStore.Identifier
import VarStore.Value

namespace VarStore

set_option autoImplicit false

/-- Where the value of a variable is: in its binding or on the heap. -/
inductive Slot where
  | direct (x : Value)
  | heap (index : Nat)
  deriving DecidableEq, Repr

/-- A declared name, the place of its first declaration, and its type. -/
structure Declaration where
  name : String
  site : Span
  ty : Ty
  deriving DecidableEq, Repr, Inhabited

/-- A declaration with its slot, which is empty until the first store. -/
structure Binding extends Declaration where
  slot : Option Slot := none
  deriving DecidableEq, Repr, Inhabited

namespace Binding

/-- The binding under a new type, its old value forgotten. -/
def retype (b : Binding) (ty : Ty) : Binding :=
  { b with ty := ty, slot := none }

def fill (b : Binding) (slot : Slot) : Binding :=
  { b with slot := some slot }

@[simp] theorem name_retype (b : Binding) (ty : Ty) : (b.retype ty).name = b.name := rfl

@[simp] theorem name_fill (b : Binding) (slot : Slot) : (b.fill slot).name = b.name := rfl

end Binding

structure Table where
  bindings : List Binding := []
  deriving DecidableEq, Repr, Inhabited

namespace Table

def find? (t : Table) (name : String) : Option Binding :=
  t.bindings.find? fun b => b.name == name

def contains (t : Table) (name : String) : Bool :=
  (t.find? name).isSome

def size (t : Table) : Nat :=
  t.bindings.length

def names (t : Table) : List String :=
  t.bindings.map (·.name)

def DistinctNames (t : Table) : Prop :=
  t.names.Nodup

/-- Apply `f` to the binding of `name`, if there is one. -/
def modify (t : Table) (name : String) (f : Binding → Binding) : Table where
  bindings := t.bindings.map fun b => if b.name = name then f b else b

def declare (t : Table) (v : Identifier) (ty : Ty) : Table :=
  if t.contains v.name then
    t.modify v.name (·.retype ty)
  else
    { bindings := t.bindings ++ [{ name := v.name, site := v.span, ty := ty }] }

def assign (t : Table) (name : String) (slot : Slot) : Table :=
  t.modify name (·.fill slot)

/-! ## Look-up -/

@[simp] theorem find?_empty (name : String) : ({} : Table).find? name = none := rfl

theorem name_of_find? {t : Table} {name : String} {b : Binding}
    (h : t.find? name = some b) : b.name = name := by
  simpa using List.find?_some h

theorem mem_of_find? {t : Table} {name : String} {b : Binding}
    (h : t.find? name = some b) : b ∈ t.bindings :=
  List.mem_of_find?_eq_some h

theorem find?_eq_none_iff {t : Table} {name : String} :
    t.find? name = none ↔ name ∉ t.names := by
  simp [find?, names]

theorem contains_iff {t : Table} {name : String} :
    t.contains name = true ↔ name ∈ t.names := by
  simp [contains, find?, names]

theorem find?_of_mem {t : Table} (hd : t.DistinctNames) {b : Binding}
    (hb : b ∈ t.bindings) : t.find? b.name = some b := by
  obtain ⟨bs⟩ := t
  simp only [DistinctNames, names, find?] at hd hb ⊢
  induction bs with
  | nil => cases hb
  | cons a bs ih =>
    obtain ⟨ha, hbs⟩ := List.nodup_cons.1 hd
    rcases List.mem_cons.1 hb with rfl | hb
    · simp
    · have hne : (a.name == b.name) = false := by
        simpa using fun h : a.name = b.name => ha (List.mem_map.2 ⟨b, hb, h.symm⟩)
      rw [List.find?_cons, hne]
      exact ih hbs hb

theorem find?_eq_some_iff {t : Table} (hd : t.DistinctNames) {name : String} {b : Binding} :
    t.find? name = some b ↔ b ∈ t.bindings ∧ b.name = name := by
  constructor
  · exact fun h => ⟨mem_of_find? h, name_of_find? h⟩
  · rintro ⟨hb, rfl⟩
    exact find?_of_mem hd hb

theorem eq_of_name_eq {t : Table} (hd : t.DistinctNames) {a b : Binding}
    (ha : a ∈ t.bindings) (hb : b ∈ t.bindings) (h : a.name = b.name) : a = b := by
  have := find?_of_mem hd ha
  rw [h, find?_of_mem hd hb] at this
  exact (Option.some.inj this).symm

/-! ## Change -/

theorem find?_modify (t : Table) (name : String) (f : Binding → Binding)
    (hf : ∀ b, (f b).name = b.name) (other : String) :
    (t.modify name f).find? other =
      if other = name then (t.find? name).map f else t.find? other := by
  have hname (b : Binding) : (if b.name = name then f b else b).name = b.name := by
    split
    · exact hf b
    · rfl
  have hmap : (t.modify name f).find? other =
      (t.find? other).map fun b => if b.name = name then f b else b := by
    simp only [find?, modify, List.find?_map]
    congr 2
    funext b
    simp [hname]
  rw [hmap]
  cases h : t.find? other with
  | none =>
    split
    · subst other
      simp [h]
    · rfl
  | some b =>
    have hb := name_of_find? h
    subst hb
    split
    · subst name
      simp [h]
    · simp [*]

theorem find?_assign (t : Table) (name : String) (slot : Slot) (other : String) :
    (t.assign name slot).find? other =
      if other = name then (t.find? name).map (·.fill slot) else t.find? other :=
  find?_modify t name _ (fun b => b.name_fill slot) other

theorem find?_declare (t : Table) (v : Identifier) (ty : Ty) (other : String) :
    (t.declare v ty).find? other =
      if other = v.name then
        some { name := v.name, site := (t.find? v.name).elim v.span (·.site), ty := ty }
      else t.find? other := by
  unfold declare
  cases h : t.find? v.name with
  | none =>
    have hc : t.contains v.name = false := by simp [contains, h]
    by_cases ho : other = v.name
    · subst other
      rw [find?] at h
      simp [hc, find?, List.find?_append, h]
    · have hne : (v.name == other) = false := by simpa using fun h => ho h.symm
      simp [hc, find?, List.find?_append, hne, ho]
  | some b =>
    have hc : t.contains v.name = true := by simp [contains, h]
    rw [if_pos hc, find?_modify t v.name _ (fun b => b.name_retype ty) other, h]
    split
    · simp [Binding.retype, name_of_find? h]
    · rfl

theorem mem_modify {t : Table} {name : String} {f : Binding → Binding} {b : Binding} :
    b ∈ (t.modify name f).bindings ↔
      (∃ old ∈ t.bindings, old.name = name ∧ f old = b) ∨ (b ∈ t.bindings ∧ b.name ≠ name) := by
  simp only [modify, List.mem_map]
  constructor
  · rintro ⟨old, member, rfl⟩
    by_cases same : old.name = name
    · exact Or.inl ⟨old, member, same, (if_pos same).symm⟩
    · rw [if_neg same]
      exact Or.inr ⟨member, same⟩
  · rintro (⟨old, member, same, rfl⟩ | ⟨member, other⟩)
    · exact ⟨old, member, if_pos same⟩
    · exact ⟨b, member, if_neg other⟩

theorem mem_assign {t : Table} {name : String} {slot : Slot} {b : Binding} :
    b ∈ (t.assign name slot).bindings ↔
      (∃ old ∈ t.bindings, old.name = name ∧ old.fill slot = b) ∨
        (b ∈ t.bindings ∧ b.name ≠ name) :=
  mem_modify

/-- The declared variable is empty, whatever it was before, and no other one is touched. -/
theorem mem_declare {t : Table} {v : Identifier} {ty : Ty} {b : Binding}
    (member : b ∈ (t.declare v ty).bindings) :
    (b.name = v.name ∧ b.ty = ty ∧ b.slot = none) ∨ (b ∈ t.bindings ∧ b.name ≠ v.name) := by
  unfold declare at member
  split at member
  · rcases mem_modify.1 member with ⟨old, -, same, rfl⟩ | other
    · exact Or.inl ⟨same, rfl, rfl⟩
    · exact Or.inr other
  · rename_i fresh
    rcases List.mem_append.1 member with old | new
    · refine Or.inr ⟨old, fun same => fresh (contains_iff.2 ?_)⟩
      exact same ▸ List.mem_map_of_mem old
    · rw [List.mem_singleton.1 new]
      exact Or.inl ⟨rfl, rfl, rfl⟩

@[simp] theorem names_modify (t : Table) (name : String) (f : Binding → Binding)
    (hf : ∀ b, (f b).name = b.name) : (t.modify name f).names = t.names := by
  simp only [names, modify, List.map_map]
  refine List.map_congr_left fun b _ => ?_
  simp only [Function.comp]
  split
  · exact hf b
  · rfl

@[simp] theorem names_assign (t : Table) (name : String) (slot : Slot) :
    (t.assign name slot).names = t.names :=
  names_modify t name _ fun b => b.name_fill slot

theorem names_declare (t : Table) (v : Identifier) (ty : Ty) :
    (t.declare v ty).names = if v.name ∈ t.names then t.names else t.names ++ [v.name] := by
  unfold declare
  by_cases h : v.name ∈ t.names
  · rw [if_pos (contains_iff.2 h), if_pos h]
    exact names_modify t v.name _ fun b => b.name_retype ty
  · rw [if_neg (fun hc => h (contains_iff.1 hc)), if_neg h]
    simp [names]

theorem distinctNames_empty : ({} : Table).DistinctNames := List.nodup_nil

theorem distinctNames_assign {t : Table} (hd : t.DistinctNames) (name : String) (slot : Slot) :
    (t.assign name slot).DistinctNames := by
  rwa [DistinctNames, names_assign]

theorem distinctNames_declare {t : Table} (hd : t.DistinctNames) (v : Identifier) (ty : Ty) :
    (t.declare v ty).DistinctNames := by
  rw [DistinctNames, names_declare]
  split
  · exact hd
  · rename_i h
    refine List.nodup_append.2 ⟨hd, by simp, fun a ha b hb hab => h ?_⟩
    rw [List.mem_singleton.1 hb] at hab
    exact hab ▸ ha

theorem size_eq_length_names (t : Table) : t.size = t.names.length := by
  simp [size, names]

@[simp] theorem size_assign (t : Table) (name : String) (slot : Slot) :
    (t.assign name slot).size = t.size := by
  simp [size_eq_length_names]

theorem size_declare (t : Table) (v : Identifier) (ty : Ty) :
    (t.declare v ty).size = if t.contains v.name then t.size else t.size + 1 := by
  simp only [size_eq_length_names, names_declare, contains_iff]
  split <;> simp

end Table

end VarStore
