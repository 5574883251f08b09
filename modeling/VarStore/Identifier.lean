/- # VarStore.Identifier — occurrences of a name

An identifier is a name together with the place where this occurrence of it
stands.  Two occurrences are the same variable when their names agree
(`Identifier.SameName`); as data they are equal only if their spans agree too.
-/
import VarStore.Span

namespace VarStore

set_option autoImplicit false

structure Identifier where
  name : String
  span : Span
  deriving DecidableEq, Repr, Inhabited

namespace Identifier

/-- An identifier that stands nowhere in a program text. -/
def synthetic (name : String) : Identifier where
  name := name
  span := {}

/-- Both occurrences denote the same variable. -/
def SameName (a b : Identifier) : Prop :=
  a.name = b.name

instance (a b : Identifier) : Decidable (SameName a b) :=
  inferInstanceAs (Decidable (a.name = b.name))

/-- Occurrences of one variable have one hash, wherever they stand. -/
instance : Hashable Identifier where
  hash v := hash v.name

theorem SameName.refl (a : Identifier) : SameName a a := rfl

theorem SameName.symm {a b : Identifier} (h : SameName a b) : SameName b a := Eq.symm h

theorem SameName.trans {a b c : Identifier} (h : SameName a b) (h' : SameName b c) :
    SameName a c := Eq.trans h h'

theorem SameName.hash_eq {a b : Identifier} (h : SameName a b) : hash a = hash b :=
  congrArg (fun name : String => hash name) h

end Identifier

end VarStore
