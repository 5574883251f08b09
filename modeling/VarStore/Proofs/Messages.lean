/- # VarStore.Proofs.Messages — no two faults share a message

A message names everything in its fault but the place, and it can be told from it
(`unplaced_eq_of_message_eq`), although the name stands in it as it is and may look like the rest of
another message.  What follows the name is therefore split off from behind, at the backticks: none
of the words between them contains one (`append_cons_inj_last`).  The last words tell the kind of
the fault (`parts_eq_of_message_eq`), and of a mismatch the two types are split off next, so that
the name is what is left.

The message of a corrupt index holds no name, and its numbers end at a blank.

Nothing of the place shows in a message.  So two faults have one message exactly if they are the
same but for their places (`message_eq_iff`).
-/
import VarStore.Proofs.Places
import VarStore.Proofs.Separators

namespace VarStore

set_option autoImplicit false

theorem Ty.backtick_not_mem_keyword (ty : Ty) : '`' ∉ ty.keyword.toList := by
  cases ty <;> decide

namespace Fault

/-! ## Messages with a name -/

/-- The message up to its last backtick. -/
def upToLast : Fault → String
  | undeclared v => "Variable `" ++ v.name
  | unpopulated v => "Variable `" ++ v.name
  | typeMismatch v expected found =>
      "Variable `" ++ v.name ++ "` is declared `" ++ expected.keyword ++
        "` but was given a `" ++ found.keyword
  | corruptHeapIndex _ _ => ""

/-- The message behind its last backtick. -/
def lastWords : Fault → String
  | undeclared _ => " has not been declared"
  | unpopulated _ => " was read before a value was assigned"
  | typeMismatch _ _ _ => " value"
  | corruptHeapIndex _ _ => ""

theorem message_eq {f : Fault} (mild : f.isFatal = false) :
    f.message = f.upToLast ++ ("`" ++ f.lastWords) := by
  cases f with
  | corruptHeapIndex index size => cases mild
  | _ => rfl

theorem backtick_not_mem_lastWords (f : Fault) : '`' ∉ f.lastWords.toList := by
  cases f <;> simp [lastWords]

theorem parts_eq_of_message_eq {f g : Fault} (mild : f.isFatal = false) (mild' : g.isFatal = false)
    (same : f.message = g.message) : f.upToLast = g.upToLast ∧ f.lastWords = g.lastWords := by
  rw [message_eq mild, message_eq mild'] at same
  have text : f.upToLast.toList ++ '`' :: f.lastWords.toList =
      g.upToLast.toList ++ '`' :: g.lastWords.toList := by
    simpa using congrArg String.toList same
  obtain ⟨fronts, words⟩ :=
    append_cons_inj_last f.backtick_not_mem_lastWords g.backtick_not_mem_lastWords text
  exact ⟨String.toList_injective fronts, String.toList_injective words⟩

theorem toList_upToLast_typeMismatch (v : Identifier) (expected found : Ty) :
    (typeMismatch v expected found).upToLast.toList =
      "Variable `".toList ++ v.name.toList ++ '`' :: " is declared ".toList ++
        '`' :: expected.keyword.toList ++ '`' :: " but was given a ".toList ++
        '`' :: found.keyword.toList := by
  simp [upToLast]

/-- What stands before the last words of a mismatch tells its name and its types.  What is behind
the name comes off piece by piece, the last piece first. -/
theorem typeMismatch_inj {v w : Identifier} {expected expected' found found' : Ty}
    (same : (typeMismatch v expected found).upToLast = (typeMismatch w expected' found').upToLast) :
    v.name = w.name ∧ expected = expected' ∧ found = found' := by
  have text := congrArg String.toList same
  rw [toList_upToLast_typeMismatch, toList_upToLast_typeMismatch] at text
  obtain ⟨text, last⟩ := append_cons_inj_last found.backtick_not_mem_keyword
    found'.backtick_not_mem_keyword text
  obtain ⟨text, -⟩ := append_cons_inj_last (by simp) (by simp) text
  obtain ⟨text, first⟩ := append_cons_inj_last expected.backtick_not_mem_keyword
    expected'.backtick_not_mem_keyword text
  obtain ⟨text, -⟩ := append_cons_inj_last (by simp) (by simp) text
  exact ⟨String.toList_injective (List.append_cancel_left text),
    Ty.keyword_injective (String.toList_injective first),
    Ty.keyword_injective (String.toList_injective last)⟩

/-! ## Messages without a name -/

theorem toList_message_corruptHeapIndex (index size : Nat) :
    (corruptHeapIndex index size).message.toList =
      "Heap index ".toList ++ (index.repr.toList ++
        ' ' :: ("is out of bounds for a heap of ".toList ++ (size.repr.toList ++
          ' ' :: "entries".toList))) := by
  show ("Heap index " ++ index.repr ++ " is out of bounds for a heap of " ++ size.repr ++
    " entries").toList = _
  simp

theorem corruptHeapIndex_inj {i j m n : Nat}
    (same : (corruptHeapIndex i m).message = (corruptHeapIndex j n).message) : i = j ∧ m = n := by
  have text := congrArg String.toList same
  rw [toList_message_corruptHeapIndex, toList_message_corruptHeapIndex] at text
  have noBlank (k : Nat) : ' ' ∉ k.repr.toList := not_mem_repr (by decide) k
  obtain ⟨index, rest⟩ := append_cons_inj_first (noBlank i) (noBlank j)
    (List.append_cancel_left text)
  obtain ⟨size, -⟩ := append_cons_inj_first (noBlank m) (noBlank n) (List.append_cancel_left rest)
  exact ⟨eq_of_toList_repr_eq index, eq_of_toList_repr_eq size⟩

theorem head?_message (f : Fault) :
    f.message.toList.head? = some (if f.isFatal then 'H' else 'V') := by
  cases f with
  | corruptHeapIndex index size =>
    rw [toList_message_corruptHeapIndex]
    simp [isFatal]
  | _ =>
    rw [message_eq rfl]
    simp [upToLast, isFatal]

theorem isFatal_eq_of_message_eq {f g : Fault} (same : f.message = g.message) :
    f.isFatal = g.isFatal := by
  have heads : (if f.isFatal then 'H' else 'V') = if g.isFatal then 'H' else 'V' :=
    Option.some.inj (by rw [← head?_message, ← head?_message, same])
  revert heads
  cases f.isFatal <;> cases g.isFatal <;> decide

/-- **A message tells its fault but for the place.**  The messages of faults of two kinds differ in
their last words. -/
theorem unplaced_eq_of_message_eq {f g : Fault} (same : f.message = g.message) :
    f.unplaced = g.unplaced := by
  have fatal := isFatal_eq_of_message_eq same
  cases mild : f.isFatal with
  | true =>
    cases f with
    | corruptHeapIndex i m =>
      cases g with
      | corruptHeapIndex j n =>
        obtain ⟨rfl, rfl⟩ := corruptHeapIndex_inj same
        rfl
      | _ => cases fatal
    | _ => cases mild
  | false =>
    obtain ⟨fronts, words⟩ := parts_eq_of_message_eq mild (fatal ▸ mild) same
    have named {v w : Identifier} (fronts : "Variable `" ++ v.name = "Variable `" ++ w.name) :
        v.unplaced = w.unplaced :=
      congrArg Identifier.synthetic (by simpa using fronts)
    cases f with
    | undeclared v =>
      cases g with
      | undeclared w => exact congrArg undeclared (named fronts)
      | _ => simp [lastWords] at words
    | unpopulated v =>
      cases g with
      | unpopulated w => exact congrArg unpopulated (named fronts)
      | _ => simp [lastWords] at words
    | typeMismatch v expected found =>
      cases g with
      | typeMismatch w expected' found' =>
        obtain ⟨name, rfl, rfl⟩ := typeMismatch_inj fronts
        exact congrArg (typeMismatch · expected found) (congrArg Identifier.synthetic name)
      | _ => simp [lastWords] at words
    | corruptHeapIndex i m => cases mild

/-! ## Equal faults -/

@[simp] theorem message_unplaced (f : Fault) : f.unplaced.message = f.message := by
  cases f <;> rfl

theorem message_eq_iff {f g : Fault} : f.message = g.message ↔ f.unplaced = g.unplaced := by
  constructor
  · exact unplaced_eq_of_message_eq
  · intro same
    rw [← message_unplaced f, same, message_unplaced]

/-- **Messages are unambiguous.**  Two faults have one message exactly if they are of one kind and
agree in all they hold but the place, that is in the name and, of a mismatch, in both types, or of
a corrupt index in the index and the size.  So faults are equal exactly if their messages and their
places are. -/
theorem messages_unambiguous :
    (∀ f g : Fault, f.message = g.message ↔ f.unplaced = g.unplaced) ∧
    ∀ f g : Fault, f = g ↔ f.message = g.message ∧ f.span? = g.span? := by
  refine ⟨fun f g => message_eq_iff, fun f g => ⟨?_, ?_⟩⟩
  · rintro rfl
    exact ⟨rfl, rfl⟩
  · rintro ⟨text, place⟩
    exact eq_of_unplaced_eq (message_eq_iff.1 text) place

end Fault

end VarStore
