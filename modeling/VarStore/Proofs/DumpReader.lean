/- # VarStore.Proofs.DumpReader — a dump can be read back

`Picture.ofDump` reads a picture off a text.  Of the dump of a reachable memory it reads the
picture of that memory (`Picture.ofDump_dump`), if no name and no text on the heap contains a
line feed.

Nothing in a dump is escaped, so it is read from the parts that cannot be mistaken.  A line
of the table begins with a blank, and the line `heap:` does not.  The keyword of a type holds
no blank, and neither does the text of a slot; so the one ends at the first blank of its line
and the other begins after the last, whatever stands in the name between them.  A heap index
holds no blank either, and all that follows its blank is a text between its two quotes.
-/
import VarStore.Proofs.Picture
import VarStore.Proofs.Separators

namespace VarStore

set_option autoImplicit false

/-- No name and no text on the heap contains a line feed. -/
structure Memory.Unbroken (m : Memory) : Prop where
  names : ∀ name ∈ m.table.names, '\n' ∉ name.toList
  texts : ∀ text, .str text ∈ m.heapEntries → '\n' ∉ text.toList

/-! ## The reader -/

namespace Picture

/-- The characters before the first blank, and those from it on. -/
def word (cs : List Char) : List Char × List Char :=
  (cs.takeWhile (· != ' '), cs.dropWhile (· != ' '))

/-- The slot of a variable of type `ty`, from its text. -/
def readSlot (ty : Ty) (text : String) : Option (Option Slot) :=
  if text = "<undefined>" then some none
  else
    match ty with
    | .int => (intOfDigits? text.toList).map fun n => some (.direct (.int (Int64.ofInt n)))
    | .bool => some (some (.direct (.bool (text = "true"))))
    | .str => (natOfDigits? (text.toList.drop 1)).map fun i => some (.heap i)

/-- A line of the table: two blanks, the type, a blank, the name, an equals sign between
blanks, and the slot.  What follows the type is read from behind, so that the slot comes first and
what is left ends the name. -/
def readRow (line : List Char) : Option Row :=
  let (keyword, rest) := word (line.drop 2)
  let (slot, front) := word rest.reverse
  match Ty.ofKeyword (String.ofList keyword) with
  | .ok ty =>
      (readSlot ty (String.ofList slot.reverse)).map fun slot =>
        { name := String.ofList ((front.drop 3).reverse.drop 1), ty := ty, slot := slot }
  | .error _ => none

/-- A line of the heap: two blanks, `@` and the index, a blank, the text between quotes. -/
def readEntry (line : List Char) : Value :=
  .str (String.ofList ((word line.tail.tail).2.drop 2).dropLast)

def indented (line : List Char) : Bool :=
  line.head? == some ' '

/-- The picture that a text shows, if it is a dump.  The last line feed ends the text, so an empty
line seems to follow it. -/
def ofDump (text : String) : Picture :=
  let body := (text.toList.splitOn '\n').tail
  { rows := (body.takeWhile indented).filterMap readRow
    heap := ((body.dropWhile indented).tail.dropLast).map readEntry }

/-! ## Texts of slots -/

/-- The text of a slot contains neither a blank nor a line feed. -/
theorem not_mem_slotText {m : Memory} (wf : m.WellFormed) {b : Binding}
    (member : b ∈ m.table.bindings) {c : Char} (gap : c = ' ' ∨ c = '\n') :
    c ∉ b.slotText.toList := by
  have noDigit : c.isDigit = false := by rcases gap with rfl | rfl <;> decide
  have noSign : c ≠ '-' := by rcases gap with rfl | rfl <;> decide
  have noAt : c ≠ '@' := by rcases gap with rfl | rfl <;> decide
  rcases wf.slot_cases member with empty | ⟨i, -, held⟩ | ⟨n, -, held⟩ | ⟨p, -, held⟩
  · rw [Binding.slotText, empty]
    rcases gap with rfl | rfl <;> decide
  · rw [Binding.slotText, held]
    show c ∉ ("@" ++ i.repr).toList
    rw [String.toList_append]
    intro found
    rcases List.mem_append.1 found with mark | digit
    · exact noAt (by simpa using mark)
    · exact not_mem_repr noDigit i digit
  · rw [Binding.slotText, held]
    exact not_mem_repr_int noDigit noSign n.toInt
  · rw [Binding.slotText, held]
    cases p <;> rcases gap with rfl | rfl <;> decide

theorem readSlot_slotText {m : Memory} (wf : m.WellFormed) {b : Binding}
    (member : b ∈ m.table.bindings) : readSlot b.ty b.slotText = some b.slot := by
  rcases wf.slot_cases member with empty | ⟨i, ty, held⟩ | ⟨n, ty, held⟩ | ⟨p, ty, held⟩
  · rw [Binding.slotText, empty]
    rfl
  · have shown : b.slotText = "@" ++ i.repr := by rw [Binding.slotText, held]; rfl
    have defined : "@" ++ i.repr ≠ "<undefined>" := by
      intro same
      have := congrArg (List.head? ∘ String.toList) same
      simp at this
    have index : ("@" ++ i.repr).toList.drop 1 = i.repr.toList := by
      rw [String.toList_append]
      rfl
    rw [shown, ty, held, readSlot, if_neg defined]
    simp only [index, natOfDigits?_repr, Option.map_some]
  · have shown : b.slotText = n.toInt.repr := by rw [Binding.slotText, held]; rfl
    have defined : n.toInt.repr ≠ "<undefined>" := by
      intro same
      have : '<' ∉ n.toInt.repr.toList := not_mem_repr_int (by decide) (by decide) _
      rw [same] at this
      exact this (by decide)
    rw [shown, ty, held, readSlot, if_neg defined]
    simp only [intOfDigits?_repr, Int64.ofInt_toInt, Option.map_some]
  · rw [Binding.slotText, held, ty]
    cases p <;> rfl

/-! ## Lines -/

theorem word_append {front : List Char} (solid : ' ' ∉ front) (rest : List Char) :
    word (front ++ ' ' :: rest) = (front, ' ' :: rest) := by
  rw [word, takeWhile_append_cons solid, dropWhile_append_cons solid]

theorem toList_line (b : Binding) :
    b.line.toList =
      ' ' :: ' ' :: (b.ty.keyword.toList ++ ' ' :: (b.name.toList ++ ' ' :: '=' :: ' ' ::
        b.slotText.toList)) := by
  simp [Binding.line]

theorem toList_heapLine (i : Nat) (text : String) :
    (Memory.heapLine i (.str text)).toList =
      ' ' :: ' ' :: '@' :: (i.repr.toList ++ ' ' :: '"' :: (text.toList ++ ['"'])) := by
  simp [Memory.heapLine, Value.render]

/-- A line of the table is read back, whatever the name contains. -/
theorem readRow_line {m : Memory} (wf : m.WellFormed) {b : Binding}
    (member : b ∈ m.table.bindings) : readRow b.line.toList = some b.row := by
  have keyword : ' ' ∉ b.ty.keyword.toList := by cases b.ty <;> decide
  have slot : ' ' ∉ b.slotText.toList.reverse := by
    rw [List.mem_reverse]
    exact not_mem_slotText wf member (Or.inl rfl)
  have behind : (' ' :: (b.name.toList ++ ' ' :: '=' :: ' ' :: b.slotText.toList)).reverse =
      b.slotText.toList.reverse ++ ' ' :: '=' :: ' ' :: (b.name.toList.reverse ++ [' ']) := by
    simp
  rw [toList_line, readRow]
  simp only [List.drop_succ_cons, List.drop_zero, word_append keyword, behind, word_append slot,
    String.ofList_toList, List.reverse_reverse, Ty.ofKeyword_keyword, readSlot_slotText wf member,
    Option.map_some]
  simp [Binding.row]

/-- A line of the heap is read back, whatever the text contains: the first blank after the two
leading ones ends the index, so blanks in the text do no harm. -/
theorem readEntry_heapLine (i : Nat) (text : String) :
    readEntry (Memory.heapLine i (.str text)).toList = .str text := by
  have index : ' ' ∉ i.repr.toList := not_mem_repr (by decide) i
  have marked : ' ' ∉ '@' :: i.repr.toList := by
    intro member
    rcases List.mem_cons.1 member with same | digit
    · exact absurd same (by decide)
    · exact index digit
  have split := word_append marked ('"' :: (text.toList ++ ['"']))
  rw [List.cons_append] at split
  rw [toList_heapLine, readEntry]
  simp only [List.tail_cons, split, List.drop_succ_cons, List.drop_zero, List.dropLast_concat,
    String.ofList_toList]

theorem indented_line (b : Binding) : indented b.line.toList = true := by
  rw [toList_line]
  rfl

/-! ## The lines of a dump -/

theorem splitOn_lines {lines : List (List Char)} (unbroken : ∀ line ∈ lines, '\n' ∉ line) :
    (lines.flatMap (· ++ ['\n'])).splitOn '\n' = lines ++ [[]] := by
  induction lines with
  | nil => rfl
  | cons line rest ih =>
    have first : '\n' ∉ line := unbroken line List.mem_cons_self
    have later := ih fun l member => unbroken l (List.mem_cons_of_mem _ member)
    rw [List.flatMap_cons, List.append_assoc, List.singleton_append,
      List.splitOn_append_cons_self_of_not_mem first, later, List.cons_append]

theorem toList_dump (m : Memory) :
    m.dump.toList = (m.dumpLines.map String.toList).flatMap (· ++ ['\n']) := by
  simp [Memory.dump, String.toList_join, List.flatMap_map]

section Lines

variable {m : Memory} (wf : m.WellFormed)
include wf

theorem lineFeed_not_mem_line {b : Binding} (member : b ∈ m.table.bindings)
    (name : '\n' ∉ b.name.toList) : '\n' ∉ b.line.toList := by
  have keyword : '\n' ∉ b.ty.keyword.toList := by cases b.ty <;> decide
  have slot : '\n' ∉ b.slotText.toList := not_mem_slotText wf member (Or.inr rfl)
  rw [toList_line]
  simp [keyword, name, slot]

theorem exists_text {x : Value} (member : x ∈ m.heapEntries) : ∃ text, x = .str text :=
  Value.ty_eq_str_iff.1 (wf.entries x member)

theorem lineFeed_not_mem_dumpLines (unbroken : m.Unbroken) :
    ∀ line ∈ m.dumpLines.map String.toList, '\n' ∉ line := by
  intro line member
  obtain ⟨text, present, rfl⟩ := List.mem_map.1 member
  rcases List.mem_append.1 present with header | body
  · rcases List.mem_cons.1 header with rfl | row
    · decide
    · obtain ⟨b, listed, rfl⟩ := List.mem_map.1 row
      have bound := Table.mem_byName.1 listed
      exact lineFeed_not_mem_line wf bound (unbroken.names _ (List.mem_map_of_mem bound))
  · rcases List.mem_cons.1 body with rfl | entry
    · decide
    · obtain ⟨i, bound, rfl⟩ := List.mem_mapIdx.1 entry
      have stored : m.heapEntries[i] ∈ m.heapEntries := List.getElem_mem bound
      obtain ⟨text, same⟩ := exists_text wf stored
      have index : '\n' ∉ i.repr.toList := not_mem_repr (by decide) i
      rw [same] at stored ⊢
      rw [toList_heapLine]
      simp [-Nat.toList_repr, index, unbroken.texts text stored]

theorem filterMap_readRow :
    (m.table.byName.map fun b => b.line.toList).filterMap readRow =
      m.table.byName.map Binding.row := by
  rw [List.filterMap_map, List.filterMap_eq_map_iff_forall_eq_some]
  intro b listed
  rw [Function.comp_apply]
  exact readRow_line wf (Table.mem_byName.1 listed)

theorem map_readEntry :
    (m.heapEntries.mapIdx Memory.heapLine).map (fun line => readEntry line.toList) =
      m.heapEntries := by
  refine List.ext_getElem (by simp) fun i _ bound => ?_
  obtain ⟨text, same⟩ := exists_text wf (List.getElem_mem bound)
  rw [List.getElem_map, List.getElem_mapIdx, same]
  exact readEntry_heapLine i text

/-- **The dump of a memory is read back.**  The header of the heap ends the table, since it is the
first line without a blank before it. -/
theorem ofDump_dump (unbroken : m.Unbroken) : ofDump m.dump = m.picture := by
  have split := splitOn_lines (lineFeed_not_mem_dumpLines wf unbroken)
  have all : ∀ line ∈ m.table.byName.map fun b => b.line.toList, indented line = true := by
    intro line member
    obtain ⟨b, -, rfl⟩ := List.mem_map.1 member
    exact indented_line b
  have body : (m.dumpLines.map String.toList ++ [[]]).tail =
      m.table.byName.map (fun b => b.line.toList) ++
        "heap:".toList :: (((m.heapEntries.mapIdx Memory.heapLine).map String.toList) ++ [[]]) := by
    simp [Memory.dumpLines]
  have unindented : indented "heap:".toList = false := rfl
  rw [ofDump, toList_dump, split, body, List.takeWhile_append_of_pos all,
    List.dropWhile_append_of_pos all]
  simp only [List.takeWhile_cons, List.dropWhile_cons, unindented, Bool.false_eq_true, if_false,
    List.append_nil, List.tail_cons, List.dropLast_concat, List.map_map]
  rw [filterMap_readRow wf]
  exact congrArg (Picture.mk _) (map_readEntry wf)

end Lines

end Picture

namespace Memory

/-- **A dump can be decoded.**  If no name and no text on the heap contains a line feed, then
the reader finds in the dump of a reachable memory the name, the type and the slot of each of
its bindings, and its heap.  So two such memories with one dump hold the same bindings, up to
the places of the first declarations, and the same heap; and all that can be seen of them is
the same but for these places. -/
theorem dump_decodable :
    (∀ m : Memory, m.Reachable → m.Unbroken →
      (Picture.ofDump m.dump).rows.Perm (m.table.bindings.map Binding.row) ∧
      (Picture.ofDump m.dump).heap = m.heapEntries) ∧
    ∀ m m' : Memory, m.Reachable → m'.Reachable → m.Unbroken → m'.Unbroken → m.dump = m'.dump →
      (m.table.bindings.map Binding.row).Perm (m'.table.bindings.map Binding.row) ∧
      m.heap = m'.heap ∧
      m.size = m'.size ∧
      m.heapSize = m'.heapSize ∧
      m.declarations.map (fun d => (d.name, d.ty)) =
        m'.declarations.map (fun d => (d.name, d.ty)) ∧
      ∀ s : Step, s ≠ .declarations → (m.step s).1 = (m'.step s).1 := by
  constructor
  · intro m reached unbroken
    rw [Picture.ofDump_dump reached.wellFormed unbroken]
    exact ⟨m.rows_perm, rfl⟩
  · intro m m' reached reached' unbroken unbroken' shown
    have wf := reached.wellFormed
    have wf' := reached'.wellFormed
    have same : m.picture = m'.picture := by
      rw [← Picture.ofDump_dump wf unbroken, ← Picture.ofDump_dump wf' unbroken', shown]
    have heap : m.heap = m'.heap := heap_eq_of_picture_eq same
    have rows : m.picture.rows.Perm (m'.table.bindings.map Binding.row) := by
      rw [same]
      exact m'.rows_perm
    refine ⟨m.rows_perm.symm.trans rows, heap, ?_, ?_, ?_, ?_⟩
    · rw [size_eq_length_rows, size_eq_length_rows, same]
    · rw [heapSize, heapSize, heap]
    · rw [declarations_eq_rows, declarations_eq_rows, same]
    · intro s other
      exact wf.answer_eq_of_picture_eq wf' same other

/-- A name and a text that imitate the layout, at some place of a program. -/
def imitation (site : Span) : Memory :=
  empty.after [.declare ⟨"str = @3", site⟩ "str", .write ⟨"str = @3", site⟩ (.str "\" heap: ")]

theorem imitation_unbroken (site : Span) : (imitation site).Unbroken where
  names := by
    have names : (imitation site).table.names = ["str = @3"] := rfl
    rw [names]
    decide
  texts := by
    intro text member
    have entries : (imitation site).heapEntries = [.str "\" heap: "] := rfl
    rw [entries, List.mem_singleton] at member
    cases member
    decide

theorem imitation_decoded :
    (Picture.ofDump (imitation {}).dump).rows.Perm [⟨"str = @3", .str, some (.heap 0)⟩] ∧
      (Picture.ofDump (imitation {}).dump).heap = [.str "\" heap: "] ∧
      ∀ s : Step, s ≠ .declarations →
        ((imitation {}).step s).1 = ((imitation ⟨1, 2⟩).step s).1 := by
  have reached (site : Span) : (imitation site).Reachable := ⟨_, rfl⟩
  have single (site : Span) : (imitation site).table.byName = (imitation site).table.bindings :=
    Table.byName_of_pairwise (List.pairwise_singleton _ _)
  have shown : (imitation {}).dump = (imitation ⟨1, 2⟩).dump := by
    refine dump_eq_of_picture_eq ?_
    rw [picture, picture, single, single]
    rfl
  obtain ⟨rows, heap⟩ := dump_decodable.1 _ (reached {}) (imitation_unbroken {})
  have alike := dump_decodable.2 _ _ (reached {}) (reached ⟨1, 2⟩) (imitation_unbroken {})
    (imitation_unbroken ⟨1, 2⟩) shown
  exact ⟨rows, heap, alike.2.2.2.2.2⟩

end Memory

end VarStore
