/- # VarStore.Table.Listing — a table in the order of its names

`Table.byName` lists the bindings in increasing order of their names, compared
by code points, which is also the order of their UTF-8 bytes.

The listing holds exactly the bindings of the table (`byName_perm`), in order
(`byName_pairwise_le`), and depends only on which bindings there are
(`byName_eq_of_perm`): two tables that hold the same bindings in different
orders are listed alike.
-/
import VarStore.Table

namespace VarStore

set_option autoImplicit false

namespace Table

def byName (t : Table) : List Binding :=
  t.bindings.mergeSort fun a b => decide (a.name ≤ b.name)

theorem byName_perm (t : Table) : t.byName.Perm t.bindings :=
  List.mergeSort_perm _ _

theorem mem_byName {t : Table} {b : Binding} : b ∈ t.byName ↔ b ∈ t.bindings :=
  t.byName_perm.mem_iff

@[simp] theorem length_byName (t : Table) : t.byName.length = t.size :=
  t.byName_perm.length_eq

theorem byName_pairwise_le (t : Table) : t.byName.Pairwise fun a b => a.name ≤ b.name := by
  refine (List.pairwise_mergeSort ?_ ?_ t.bindings).imp fun hab => of_decide_eq_true hab
  · exact fun _ _ _ hab hbc => decide_eq_true
      (String.le_trans (of_decide_eq_true hab) (of_decide_eq_true hbc))
  · intro a b
    simpa using String.le_total a.name b.name

/-- Bindings that are in order are listed as they are. -/
theorem byName_of_pairwise {t : Table} (ordered : t.bindings.Pairwise fun a b => a.name ≤ b.name) :
    t.byName = t.bindings :=
  List.mergeSort_of_pairwise (ordered.imp decide_eq_true)

/-- A change that keeps the names keeps the order of the listing. -/
theorem byName_map (t : Table) {f : Binding → Binding} (hf : ∀ b, (f b).name = b.name) :
    ({ bindings := t.bindings.map f } : Table).byName = t.byName.map f := by
  refine (List.map_mergeSort ?_).symm
  intro a _ b _
  rw [hf, hf]

theorem byName_eq_of_perm {s t : Table} (h : s.bindings.Perm t.bindings)
    (hd : s.DistinctNames) : s.byName = t.byName := by
  refine (s.byName_perm.trans (h.trans t.byName_perm.symm)).eq_of_pairwise ?_
    s.byName_pairwise_le t.byName_pairwise_le
  intro a b ha hb hab hba
  exact eq_of_name_eq hd (mem_byName.1 ha) (h.mem_iff.2 (mem_byName.1 hb))
    (String.le_antisymm hab hba)

end Table

end VarStore
