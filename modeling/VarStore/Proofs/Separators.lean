/- # VarStore.Proofs.Separators — a part of a text ends at a mark it does not contain

Two parts of a text with a mark between them can be told apart if one of them is known not to
contain the mark: they meet at the first mark if that is the part in front
(`append_cons_inj_first`), and at the last mark if it is the part behind (`append_cons_inj_last`).

A numeral contains no mark but digits and a sign (`not_mem_repr`, `not_mem_repr_int`), and the
number is read off its digits (`natOfDigits?_repr`, `intOfDigits?_repr`).
-/
import Mathlib.Data.List.Basic

namespace VarStore

set_option autoImplicit false

section Splitting

variable {mark : Char} {front front' back back' : List Char}

theorem ne_mark_of_not_mem (clear : mark ∉ front) : ∀ c ∈ front, (c != mark) = true :=
  fun _ member => bne_iff_ne.2 fun same => clear (same ▸ member)

/-- The characters in front of the first mark. -/
theorem takeWhile_append_cons (clear : mark ∉ front) (back : List Char) :
    (front ++ mark :: back).takeWhile (· != mark) = front := by
  rw [List.takeWhile_append_of_pos (ne_mark_of_not_mem clear)]
  simp

theorem dropWhile_append_cons (clear : mark ∉ front) (back : List Char) :
    (front ++ mark :: back).dropWhile (· != mark) = mark :: back := by
  rw [List.dropWhile_append_of_pos (ne_mark_of_not_mem clear)]
  simp

/-- Texts that are split at their first mark have the same parts. -/
theorem append_cons_inj_first (clear : mark ∉ front) (clear' : mark ∉ front')
    (same : front ++ mark :: back = front' ++ mark :: back') : front = front' ∧ back = back' := by
  constructor
  · rw [← takeWhile_append_cons clear back, same, takeWhile_append_cons clear']
  · have rest := congrArg (List.dropWhile (· != mark)) same
    rw [dropWhile_append_cons clear, dropWhile_append_cons clear'] at rest
    exact (List.cons.inj rest).2

/-- Texts that are split at their last mark have the same parts. -/
theorem append_cons_inj_last (clear : mark ∉ back) (clear' : mark ∉ back')
    (same : front ++ mark :: back = front' ++ mark :: back') : front = front' ∧ back = back' := by
  have reversed : back.reverse ++ mark :: front.reverse =
      back'.reverse ++ mark :: front'.reverse := by
    simpa using congrArg List.reverse same
  obtain ⟨backs, fronts⟩ := append_cons_inj_first (by simpa using clear) (by simpa using clear')
    reversed
  exact ⟨List.reverse_injective fronts, List.reverse_injective backs⟩

end Splitting

/-! ## Numerals -/

theorem not_mem_repr {c : Char} (noDigit : c.isDigit = false) (n : Nat) : c ∉ n.repr.toList := by
  intro member
  rw [Nat.toList_repr] at member
  rw [Nat.isDigit_of_mem_toDigits (by decide) (by decide) member] at noDigit
  cases noDigit

theorem not_mem_repr_int {c : Char} (noDigit : c.isDigit = false) (noSign : c ≠ '-') (n : Int) :
    c ∉ n.repr.toList := by
  rw [Int.repr_eq_if]
  split
  · exact not_mem_repr noDigit _
  · intro member
    rw [String.toList_append] at member
    rcases List.mem_append.1 member with sign | digit
    · exact noSign (by simpa using sign)
    · exact not_mem_repr noDigit _ digit

/-- The number with the given digits, if they are digits. -/
def natOfDigits? (digits : List Char) : Option Nat :=
  if digits.all Char.isDigit then some (Nat.ofDigitChars 10 digits 0) else none

/-- The number with the given digits, which stand behind a sign if it is negative. -/
def intOfDigits? : List Char → Option Int
  | '-' :: digits => (natOfDigits? digits).map fun n : Nat => -(n : Int)
  | digits => (natOfDigits? digits).map fun n : Nat => (n : Int)

theorem natOfDigits?_repr (n : Nat) : natOfDigits? n.repr.toList = some n := by
  have digits : n.repr.toList.all Char.isDigit = true := by
    rw [List.all_eq_true, Nat.toList_repr]
    exact fun c member => Nat.isDigit_of_mem_toDigits (by decide) (by decide) member
  rw [natOfDigits?, if_pos digits, Nat.toList_repr, Nat.ofDigitChars_ten_toDigits]

theorem intOfDigits?_of_unsigned {digits : List Char} (unsigned : '-' ∉ digits) :
    intOfDigits? digits = (natOfDigits? digits).map fun n : Nat => (n : Int) := by
  unfold intOfDigits?
  split
  · exact absurd List.mem_cons_self unsigned
  · rfl

theorem intOfDigits?_repr (n : Int) : intOfDigits? n.repr.toList = some n := by
  rw [Int.repr_eq_if]
  split
  · rename_i nonneg
    rw [intOfDigits?_of_unsigned (not_mem_repr (by decide) _), natOfDigits?_repr, Option.map_some,
      Int.toNat_of_nonneg nonneg]
  · rename_i negative
    have signed : ("-" ++ (-n).toNat.repr).toList = '-' :: (-n).toNat.repr.toList := by simp
    rw [signed, intOfDigits?, natOfDigits?_repr, Option.map_some]
    have size : ((-n).toNat : Int) = -n := Int.toNat_of_nonneg (by omega)
    rw [size, Int.neg_neg]

/-- Numbers with one numeral are equal. -/
theorem eq_of_toList_repr_eq {m n : Nat} (same : m.repr.toList = n.repr.toList) : m = n := by
  have read := congrArg natOfDigits? same
  rw [natOfDigits?_repr, natOfDigits?_repr] at read
  exact Option.some.inj read

end VarStore
