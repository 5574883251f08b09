/- # VarStore.Ty — the types a variable can be declared with

Each type is written with one keyword.  `Ty.ofKeyword_eq_ok_iff` says that the
reader takes exactly the three keywords, so no blank, no other letter case and
no other text is a type; `Ty.keyword_injective` that no two types share one.
-/

namespace VarStore

set_option autoImplicit false

inductive Ty where
  | int
  | bool
  | str
  deriving DecidableEq, Repr, Inhabited

/-- A text that stands where a type is expected and names none. -/
structure UnknownType where
  keyword : String
  deriving DecidableEq, Repr, Inhabited

def UnknownType.message (u : UnknownType) : String :=
  "Unknown type `" ++ u.keyword ++ "`"

namespace Ty

def keyword : Ty → String
  | int => "int"
  | bool => "bool"
  | str => "str"

/-- Values of this type are kept on the heap, the binding holding their index. -/
def onHeap : Ty → Bool
  | str => true
  | _ => false

def ofKeyword (keyword : String) : Except UnknownType Ty :=
  match keyword with
  | "int" => .ok int
  | "bool" => .ok bool
  | "str" => .ok str
  | other => .error ⟨other⟩

@[simp] theorem ofKeyword_keyword (ty : Ty) : ofKeyword ty.keyword = .ok ty := by
  cases ty <;> rfl

theorem ofKeyword_eq_ok_iff {keyword : String} {ty : Ty} :
    ofKeyword keyword = .ok ty ↔ keyword = ty.keyword := by
  constructor
  · intro h
    unfold ofKeyword at h
    split at h <;> cases h <;> rfl
  · rintro rfl
    exact ofKeyword_keyword ty

theorem ofKeyword_eq_error_iff {keyword : String} {u : UnknownType} :
    ofKeyword keyword = .error u ↔ u = ⟨keyword⟩ ∧ ∀ ty : Ty, keyword ≠ ty.keyword := by
  constructor
  · intro h
    refine ⟨?_, ?_⟩
    · unfold ofKeyword at h
      split at h <;> cases h
      rfl
    · rintro ty rfl
      simp at h
  · rintro ⟨rfl, h⟩
    cases hk : ofKeyword keyword with
    | ok ty => exact absurd (ofKeyword_eq_ok_iff.1 hk) (h ty)
    | error w =>
      unfold ofKeyword at hk
      split at hk <;> cases hk
      rfl

theorem keyword_injective {a b : Ty} (h : a.keyword = b.keyword) : a = b := by
  have := congrArg ofKeyword h
  simpa using this

@[simp] theorem onHeap_iff {ty : Ty} : ty.onHeap = true ↔ ty = str := by
  cases ty <;> decide

@[simp] theorem onHeap_eq_false_iff {ty : Ty} : ty.onHeap = false ↔ ty ≠ str := by
  cases ty <;> decide

end Ty

end VarStore
