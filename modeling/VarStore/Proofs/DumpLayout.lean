/- # VarStore.Proofs.DumpLayout — a dump, line by line

A dump is a line for each declared variable, between two headers, and then a line for each heap
entry.  `StackLine` is a line of the first kind as its reader takes it: a name, a type and the
text of a slot.

These lines say what the memory answers when it is asked about the variable
(`StackLine.Describes`): its type, whether it has a value, and what this is or where on the heap
it can be found.  They stand in strictly increasing order of the names, by bytes or by
characters, since no two bindings have one name; and two of them never show one heap index,
since no two bindings hold one (`WellFormed.stackLayout`).  The order in which the table
holds its bindings does not show (`dump_layout`).
-/
import VarStore.Proofs.DumpReader
import VarStore.Proofs.Utf8Order

namespace VarStore

set_option autoImplicit false

/-- What a line of a dump says of a variable. -/
structure StackLine where
  name : String
  ty : Ty
  slot : String
  deriving DecidableEq, Repr

namespace StackLine

def text (l : StackLine) : String :=
  "  " ++ l.ty.keyword ++ " " ++ l.name ++ " = " ++ l.slot ++ "\n"

/-- The line says what the memory answers about `v`. -/
structure Describes (l : StackLine) (m : Memory) (v : Identifier) : Prop where
  typed : m.typeOf v = .ok l.ty
  undefined : l.slot = "<undefined>" ↔ m.isPopulated v = false
  scalar : m.isPopulated v = true → l.ty ≠ .str → ∃ x, m.read v = .ok x ∧ l.slot = x.render
  text : m.isPopulated v = true → l.ty = .str →
    ∃ i x, i < m.heapSize ∧ l.slot = "@" ++ i.repr ∧ m.heapEntry? i = some x ∧ m.read v = .ok x

end StackLine

/-- How the lines of the variables are to stand in a dump. -/
structure Memory.StackLayout (m : Memory) (stack : List StackLine) : Prop where
  /-- Each declared variable has a line, and each line is that of a declared variable. -/
  complete : ∀ v, m.isDeclared v = true ↔ ∃ l ∈ stack, l.name = v.name
  /-- The lines stand in the order of the bytes of the names, and no name has two of them. -/
  increasing : stack.Pairwise fun l l' => utf8 l.name < utf8 l'.name
  describes : ∀ l ∈ stack, ∀ v : Identifier, v.name = l.name → l.Describes m v
  /-- No two lines show one heap index. -/
  unshared : stack.Pairwise fun l l' =>
    ∀ i : Nat, l.slot = "@" ++ i.repr → l'.slot ≠ "@" ++ i.repr

/-- The line of the heap entry `x` with the index `i`. -/
def entryText (i : Nat) (x : Value) : String :=
  "  @" ++ i.repr ++ " " ++ x.render ++ "\n"

/-! ## The line of a binding -/

/-- What the line of the binding says. -/
def Binding.stackLine (b : Binding) : StackLine where
  name := b.name
  ty := b.ty
  slot := b.slotText

theorem Binding.slotText_of_filled {b : Binding} {slot : Slot} (held : b.slot = some slot) :
    b.slotText = slot.render := by
  rw [slotText, held]

theorem Binding.slotText_of_empty {b : Binding} (empty : b.slot = none) :
    b.slotText = "<undefined>" := by
  rw [slotText, empty]

namespace Memory

section Line

variable {m : Memory} (wf : m.WellFormed) {b : Binding} (member : b ∈ m.table.bindings)
include wf member

theorem WellFormed.slotText_eq_undefined_iff : b.slotText = "<undefined>" ↔ b.slot = none := by
  constructor
  · intro shown
    have slot := Picture.readSlot_slotText wf member
    unfold Picture.readSlot at slot
    rw [if_pos shown] at slot
    exact (Option.some.inj slot).symm
  · exact Binding.slotText_of_empty

/-- Only a heap index is shown with an `@`. -/
theorem WellFormed.slotText_eq_index_iff {i : Nat} :
    b.slotText = "@" ++ i.repr ↔ b.slot = some (.heap i) := by
  constructor
  · intro shown
    have marked : '@' ∈ b.slotText.toList := by simp [shown]
    rcases wf.slot_cases member with empty | ⟨j, -, held⟩ | ⟨n, -, held⟩ | ⟨p, -, held⟩
    · rw [Binding.slotText_of_empty empty] at marked
      exact absurd marked (by decide)
    · have same : "@" ++ j.repr = "@" ++ i.repr := (Binding.slotText_of_filled held).symm.trans shown
      have numeral : j.repr = i.repr := (String.append_right_inj _).1 same
      have index : j = i := eq_of_toList_repr_eq (congrArg String.toList numeral)
      rw [held, index]
    · rw [Binding.slotText_of_filled held] at marked
      exact absurd marked (not_mem_repr_int (by decide) (by decide) n.toInt)
    · rw [Binding.slotText_of_filled held] at marked
      cases p <;> exact absurd marked (by decide)
  · exact Binding.slotText_of_filled

/-- What the line of a binding says is what its variable answers. -/
theorem WellFormed.describes {v : Identifier} (named : v.name = b.name) :
    b.stackLine.Describes m v := by
  have found : m.table.find? v.name = some b := by
    rw [named]
    exact Table.find?_of_mem wf.distinctNames member
  have populated : m.isPopulated v = b.slot.isSome := by simp [isPopulated, found]
  have holds (filled : m.isPopulated v = true) : ∃ slot, b.slot = some slot := by
    rw [populated] at filled
    exact Option.isSome_iff_exists.1 filled
  refine ⟨typeOf_eq_ok_iff.2 ⟨b, found, rfl⟩, ?_, ?_, ?_⟩
  · rw [populated, Option.isSome_eq_false_iff, Option.isNone_iff_eq_none]
    exact wf.slotText_eq_undefined_iff member
  · intro filled scalar
    obtain ⟨slot, held⟩ := holds filled
    obtain ⟨x, rfl, -⟩ := wf.scalar b member scalar slot held
    exact ⟨x, read_of_find? found held, Binding.slotText_of_filled held⟩
  · intro filled text
    obtain ⟨slot, held⟩ := holds filled
    obtain ⟨i, rfl, bound⟩ := wf.text b member text slot held
    obtain ⟨x, stored⟩ : ∃ x, m.heap[i]? = some x := ⟨_, Array.getElem?_eq_getElem bound⟩
    have loaded : m.load (.heap i) = .ok x := by simp only [Memory.load, stored]
    exact ⟨i, x, bound, (wf.slotText_eq_index_iff member).2 held, stored,
      (read_of_find? found held).trans loaded⟩

end Line

/-! ## The lines of a memory -/

def stackLines (m : Memory) : List StackLine :=
  m.table.byName.map Binding.stackLine

theorem mem_stackLines {m : Memory} {l : StackLine} :
    l ∈ m.stackLines ↔ ∃ b ∈ m.table.bindings, b.stackLine = l := by
  simp only [stackLines, List.mem_map, Table.mem_byName]

theorem WellFormed.nodup_byName {m : Memory} (wf : m.WellFormed) :
    m.table.byName.Pairwise fun a b => a.name ≠ b.name :=
  List.pairwise_map.1 ((m.table.byName_perm.map _).nodup_iff.2 wf.distinctNames)

theorem WellFormed.stackLines_increasing {m : Memory} (wf : m.WellFormed) :
    m.stackLines.Pairwise fun l l' => utf8 l.name < utf8 l'.name := by
  refine List.pairwise_map.2 ((wf.nodup_byName.and m.table.byName_pairwise_le).imp ?_)
  rintro a b ⟨differ, ordered⟩
  exact utf8_lt_of_lt (lt_of_le_of_ne ordered differ)

theorem WellFormed.stackLines_unshared {m : Memory} (wf : m.WellFormed) :
    m.stackLines.Pairwise fun l l' =>
      ∀ i : Nat, l.slot = "@" ++ i.repr → l'.slot ≠ "@" ++ i.repr := by
  refine List.pairwise_map.2 (wf.nodup_byName.imp_of_mem ?_)
  intro a b left right differ i shown shown'
  have ha := Table.mem_byName.1 left
  have hb := Table.mem_byName.1 right
  have held := (wf.slotText_eq_index_iff ha).1 shown
  have held' := (wf.slotText_eq_index_iff hb).1 shown'
  exact differ (congrArg (·.name) (wf.unshared a ha b hb i held held'))

theorem WellFormed.stackLayout {m : Memory} (wf : m.WellFormed) : m.StackLayout m.stackLines where
  complete := by
    intro v
    simp only [isDeclared_iff, mem_stackLines, Table.find?_eq_some_iff wf.distinctNames]
    constructor
    · rintro ⟨b, member, name⟩
      exact ⟨b.stackLine, ⟨b, member, rfl⟩, name⟩
    · rintro ⟨-, ⟨b, member, rfl⟩, name⟩
      exact ⟨b, member, name⟩
  increasing := wf.stackLines_increasing
  describes := by
    intro l listed v named
    obtain ⟨b, member, rfl⟩ := mem_stackLines.1 listed
    exact wf.describes member named
  unshared := wf.stackLines_unshared

theorem dump_eq_lines (m : Memory) :
    m.dump = "stack:\n" ++ String.join (m.stackLines.map StackLine.text) ++
      "heap:\n" ++ String.join (m.heapEntries.mapIdx entryText) := by
  have rows : (m.table.byName.map Binding.line).map (· ++ "\n") =
      m.stackLines.map StackLine.text := by
    rw [stackLines, List.map_map, List.map_map]
    rfl
  have entries : (m.heapEntries.mapIdx heapLine).map (· ++ "\n") =
      m.heapEntries.mapIdx entryText := by
    refine (List.mapIdx_eq_iff.2 fun i => ?_).symm
    rw [List.getElem?_map, List.getElem?_mapIdx, Option.map_map]
    rfl
  rw [dump, dumpLines, List.map_append, String.join_append]
  simp only [List.map_cons, String.join_cons, rows, entries]
  rw [← String.append_assoc]
  rfl

/-- **A dump shows the memory completely, and in one order.**  The lines of the variables are
laid out as they must, and below them stands every heap entry with its index.  A memory that
holds the same bindings in another order, and the same heap, has the same dump.  The order of
the names by bytes, in which they stand, is that by the scalar values of their characters. -/
theorem dump_layout :
    (∀ m : Memory, m.Reachable →
      (∀ m' : Memory, m'.table.bindings.Perm m.table.bindings → m'.heap = m.heap →
        m'.dump = m.dump) ∧
      ∃ (stack : List StackLine) (entries : List Value),
        m.StackLayout stack ∧
        entries.length = m.heapSize ∧
        (∀ i, entries[i]? = m.heapEntry? i) ∧
        m.dump = "stack:\n" ++ String.join (stack.map StackLine.text) ++
          "heap:\n" ++ String.join (entries.mapIdx entryText)) ∧
    ∀ a b : String, utf8 a < utf8 b ↔ a.toList < b.toList := by
  refine ⟨fun m reached => ?_, fun a b => utf8_lt_iff.trans String.lt_iff_toList_lt⟩
  have wf := reached.wellFormed
  constructor
  · intro m' perm heap
    exact (dump_eq_of_perm perm.symm wf.distinctNames heap.symm).symm
  · exact ⟨m.stackLines, m.heapEntries, wf.stackLayout, Array.length_toList,
      fun i => (m.heapEntry?_eq i).symm, m.dump_eq_lines⟩

/-- Two names that are ordered by characters and by bytes, but not so by UTF-16 units. -/
theorem astral_name_shown_last :
    let first : Identifier := .synthetic "\uffff"
    let last : Identifier := .synthetic "😀"
    let m := empty.after [.declare last "str", .write last (.str "a"), .declare first "int"]
    let m' := empty.after [.declare first "int", .declare last "str", .write last (.str "a")]
    m'.dump = m.dump ∧
      m.dump = "stack:\n  int \uffff = <undefined>\n  str 😀 = @0\nheap:\n  @0 \"a\"\n" ∧
      ∃ stack l, m.StackLayout stack ∧ l ∈ stack ∧ l.name = "😀" ∧ l.slot = "@0" := by
  intro first last m m'
  obtain ⟨blind, stack, -, layout, -⟩ := dump_layout.1 m ⟨_, rfl⟩
  obtain ⟨l, listed, name⟩ := (layout.complete last).1 rfl
  have line := layout.describes l listed last name.symm
  have typed : (.ok .str : Except Fault Ty) = .ok l.ty := line.typed
  obtain ⟨i, -, bound, slot, -⟩ := line.text rfl (Except.ok.inj typed).symm
  have only : i = 0 := Nat.lt_one_iff.1 bound
  subst only
  have unordered : m'.dump = m.dump := blind m' (List.Perm.swap _ _ _) rfl
  have ordered : m'.table.byName = m'.table.bindings := Table.byName_of_pairwise (by decide)
  refine ⟨unordered, ?_, stack, l, layout, listed, name, slot⟩
  rw [← unordered, dump, dumpLines, ordered]
  decide

end Memory

end VarStore
