/- # VarStore.Proofs.Printing — what is printed tells the value

Nothing is escaped in the text of a value, and still it can be read back (`ofText?_render`).  A
double quote in front is found with a stored text and with nothing else, and the quote that closes
it is the last character, whatever quotes stand between the two.  A number contains no letter, so it
is neither of the words for the truth values.

So no two values are printed alike (`render_injective`), and variables can be compared by what they
print (`same_eq_of_read`): both go through the value that is read, wherever it is kept.
-/
import VarStore.Proofs.Separators
import VarStore.Proofs.WellFormed

namespace VarStore

set_option autoImplicit false

namespace Value

/-! ## The text of a value -/

/-- The value that a text shows, if it is the text of one. -/
def ofText? (text : String) : Option Value :=
  if text = "true" then some (.bool true)
  else if text = "false" then some (.bool false)
  else
    match text.toList with
    | '"' :: rest => some (.str (String.ofList rest.dropLast))
    | digits => (intOfDigits? digits).map fun n => .int (Int64.ofInt n)

theorem ofText?_quoted (s : String) : ofText? ("\"" ++ s ++ "\"") = some (.str s) := by
  have quoted : ("\"" ++ s ++ "\"").toList = '"' :: (s.toList ++ ['"']) := by simp
  have other {word : String} (unquoted : word.toList.head? ≠ some '"') :
      "\"" ++ s ++ "\"" ≠ word := by
    rintro rfl
    exact unquoted (by rw [quoted]; rfl)
  rw [ofText?, if_neg (other (by decide)), if_neg (other (by decide)), quoted]
  simp only [List.dropLast_concat, String.ofList_toList]

theorem ofText?_repr (n : Int64) : ofText? n.toInt.repr = some (.int n) := by
  have solid {c : Char} (noDigit : c.isDigit = false) (noSign : c ≠ '-') :
      c ∉ n.toInt.repr.toList := not_mem_repr_int noDigit noSign n.toInt
  have other {word : String} (letter : 'e' ∈ word.toList) : n.toInt.repr ≠ word := by
    rintro rfl
    exact solid (by decide) (by decide) letter
  rw [ofText?, if_neg (other (by decide)), if_neg (other (by decide))]
  split
  · rename_i quoted
    exact absurd (quoted ▸ List.mem_cons_self) (solid (c := '"') (by decide) (by decide))
  · simp only [intOfDigits?_repr, Int64.ofInt_toInt, Option.map_some]

@[simp] theorem ofText?_render (x : Value) : ofText? x.render = some x := by
  cases x with
  | int n => exact ofText?_repr n
  | bool b => cases b <;> rfl
  | str s => exact ofText?_quoted s

theorem render_injective {x y : Value} (same : x.render = y.render) : x = y := by
  have read := congrArg ofText? same
  rw [ofText?_render, ofText?_render] at read
  exact Option.some.inj read

theorem render_inj {x y : Value} : x.render = y.render ↔ x = y :=
  ⟨render_injective, congrArg render⟩

end Value

namespace Memory

theorem print_of_read {m : Memory} {v : Identifier} {x : Value} (readable : m.read v = .ok x) :
    m.print v = .ok x.render :=
  print_eq_ok_iff.2 ⟨x, readable, rfl⟩

/-- Variables hold equal values exactly if they print equal texts. -/
theorem same_eq_of_read {m : Memory} {a b : Identifier} {x y : Value}
    (left : m.read a = .ok x) (right : m.read b = .ok y) :
    m.same a b = .ok (decide (x.render = y.render)) :=
  same_eq_ok_iff.2 ⟨x, y, left, right, by simp only [Value.render_inj]⟩

/-- **Printed values are unambiguous.**  Two values have one text exactly if they are equal.  So on
a reachable memory any two variables that have values, of whatever types and wherever these are
kept, can be printed and compared, and they are the same exactly if they print the same text. -/
theorem printed_values_unambiguous :
    (∀ x y : Value, x.render = y.render ↔ x = y) ∧
    ∀ m : Memory, m.Reachable → ∀ a b : Identifier,
      m.isPopulated a = true → m.isPopulated b = true →
      ∃ s t : String, m.print a = .ok s ∧ m.print b = .ok t ∧
        m.same a b = .ok (decide (s = t)) := by
  refine ⟨fun x y => Value.render_inj, fun m reached a b full full' => ?_⟩
  have wf := reached.wellFormed
  obtain ⟨x, left⟩ := wf.isPopulated_iff.1 full
  obtain ⟨y, right⟩ := wf.isPopulated_iff.1 full'
  exact ⟨x.render, y.render, print_of_read left, print_of_read right, same_eq_of_read left right⟩

/-- A number, a text that looks like it, and a copy of the text in a heap entry of its own. -/
theorem number_apart_from_its_text :
    let n := Identifier.synthetic "n"
    let s := Identifier.synthetic "s"
    let t := Identifier.synthetic "t"
    let m := empty.after
      [.declare n "int", .write n (.int 5), .declare s "str", .write s (.str "5"),
        .declare t "str", .copy s t]
    m.isPopulated n = true ∧ m.isPopulated s = true ∧ m.isPopulated t = true ∧
      m.print n = .ok "5" ∧ m.print s = .ok "\"5\"" ∧ m.same n s = .ok false ∧
      m.print t = .ok "\"5\"" ∧ m.same s t = .ok true := by
  intro n s t m
  have reached : m.Reachable := ⟨_, rfl⟩
  have full : m.isPopulated n = true ∧ m.isPopulated s = true ∧ m.isPopulated t = true := by
    decide +kernel
  have number : m.print n = .ok "5" := by decide +kernel
  have text : m.print s = .ok "\"5\"" := by decide +kernel
  have copied : m.print t = .ok "\"5\"" := by decide +kernel
  obtain ⟨_, _, shown, shown', apart⟩ :=
    printed_values_unambiguous.2 m reached n s full.1 full.2.1
  obtain ⟨_, _, original, copy, alike⟩ :=
    printed_values_unambiguous.2 m reached s t full.2.1 full.2.2
  cases number.symm.trans shown
  cases text.symm.trans shown'
  cases text.symm.trans original
  cases copied.symm.trans copy
  exact ⟨full.1, full.2.1, full.2.2, number, text, apart, copied, alike⟩

end Memory

end VarStore
