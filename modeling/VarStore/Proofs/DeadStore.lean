/- # VarStore.Proofs.DeadStore — a store that nothing sees can be left out

A store is dead if its variable is declared again, or takes another value, before any step names
the variable or prints the whole memory (`DeadStore`).  Such a store leaves two things behind: the
slot of its variable, and, if it was a text, an entry on the heap.

The slot is replaced before it can be seen, so without it the run is the same
(`run_refill_of_supersedes`).  The entry stays, but no variable holds it, so without it the
run is the same but for what shows the heap (`Spare.run_without`).
-/
import VarStore.Proofs.SpareEntry

namespace VarStore.Memory

set_option autoImplicit false

/-- The step gives `name` a new binding, or is accepted to write another value to it. -/
def Supersedes (name : String) (m : Memory) (s : Step) : Prop :=
  (∃ ty, s.Declares name ty) ∨
    ∃ (v : Identifier) (x : Value), s = .write v x ∧ v.name = name ∧ (m.step s).1 = .done

/-- The write of `x` to `v`, taken between `earlier` and `rest`, is superseded before any step of
`rest` names the variable or prints the memory. -/
structure DeadStore (earlier : List Step) (v : Identifier) (x : Value) (rest : List Step) :
    Prop where
  accepted : ((empty.after earlier).step (.write v x)).1 = .done
  superseded : ∃ (between : List Step) (last : Step) (later : List Step),
    rest = between ++ last :: later ∧
    (∀ s ∈ between, v.name ∉ s.names) ∧ .dump ∉ between ∧
    Supersedes v.name (empty.after (earlier ++ .write v x :: between)) last

section Superseded

variable {m : Memory} {name : String}

/-- What supersedes a slot does the same whatever the slot was. -/
theorem step_refill_of_supersedes {s : Step} (supersedes : Supersedes name m s)
    (slot : Option Slot) : (m.refill name slot).step s = m.step s := by
  rcases supersedes with ⟨ty, v, rfl, rfl⟩ | ⟨v, x, rfl, rfl, done⟩
  · simp only [step, Ty.ofKeyword_keyword, declare_refill]
  · have typed : m.typeOf v = .ok x.ty := (m.step_write v x).2.1 done
    have typed' : (m.refill v.name slot).typeOf v = .ok x.ty := by
      rw [typeOf_eq_of_reslot table_refill, typed]
    simp only [step, write_of_check_ok (check_eq_ok_iff.2 typed),
      write_of_check_ok (check_eq_ok_iff.2 typed'), store_refill]

/-- A slot that is superseded before it is seen makes no difference to a run. -/
theorem run_refill_of_supersedes {between : List Step} {last : Step} (later : List Step)
    (unnamed : ∀ s ∈ between, name ∉ s.names) (undumped : .dump ∉ between)
    (supersedes : Supersedes name (m.after between) last) (slot : Option Slot) :
    (m.refill name slot).transcript (between ++ last :: later) =
        m.transcript (between ++ last :: later) ∧
      (m.refill name slot).after (between ++ last :: later) =
        m.after (between ++ last :: later) := by
  obtain ⟨seen, reached⟩ := m.run_refill unnamed undumped slot
  have same := step_refill_of_supersedes supersedes slot
  constructor
  · rw [transcript_append, transcript_append, seen, reached, transcript_cons, transcript_cons,
      observe_fst, observe_fst, same]
  · rw [after_append, after_append, reached, after_cons, after_cons, same]

end Superseded

/-! ## What a text store leaves on the heap -/

/-- An entry that no store put into a variable is spare. -/
theorem WellFormed.spare_push {m : Memory} (wf : m.WellFormed) (x : Value) :
    Spare { m with heap := m.heap.push x } m.heapSize where
  present := by simp [heapSize]
  unheld := fun b member held => Nat.lt_irrefl _ (wf.index_lt member held)
  bounded := by
    intro b member i held
    have bound := wf.index_lt member held
    show i < (m.heap.push x).size
    rw [Array.size_push]
    exact Nat.lt_succ_of_lt bound

/-- Without the entry the memory is the one before it. -/
theorem WellFormed.push_without {m : Memory} (wf : m.WellFormed) (x : Value) :
    without { m with heap := m.heap.push x } m.heapSize = m := by
  refine eq_of_heapEntries_eq (Table.reslot_eq_self _ fun b member => ?_) ?_
  · cases filled : b.slot with
    | none => rfl
    | some slot =>
      cases slot with
      | direct y => rfl
      | heap i =>
        have below : ¬ m.heapSize < i := Nat.lt_asymm (wf.index_lt member filled)
        simp [Slot.without, below]
  · have entries : heapEntries { m with heap := m.heap.push x } = m.heapEntries ++ [x] :=
      Array.toList_push
    rw [heapEntries_without, entries, heapSize_eq_length, List.eraseIdx_append_of_length_le
      (Nat.le_refl _), Nat.sub_self, List.eraseIdx_cons_zero, List.append_nil]

/-! ## The run without the store -/

section Removal

variable {earlier rest : List Step} {v : Identifier} {x : Value}

theorem DeadStore.after_eq (dead : DeadStore earlier v x rest) :
    empty.after (earlier ++ [.write v x]) = (empty.after earlier).store v.name x := by
  have typed := ((empty.after earlier).step_write v x).2.1 dead.accepted
  have effect : (empty.after earlier).effect (.write v x) = .store v x :=
    effect_eq_store_iff.2 ⟨rfl, typed⟩
  rw [after_append, after_cons, after_nil, step_snd, effect, apply]

/-- After a dead store the run goes on as if the value were on the heap, if it is a text, and in no
variable: no later step sees that the slot from before the store is put back. -/
theorem DeadStore.run_eq (dead : DeadStore earlier v x rest) :
    let stored := (empty.after earlier).store v.name x
    let unfilled : Memory := { empty.after earlier with heap := stored.heap }
    unfilled.transcript rest = stored.transcript rest ∧ unfilled.after rest = stored.after rest := by
  intro stored unfilled
  obtain ⟨between, last, later, rfl, unnamed, undumped, supersedes⟩ := dead.superseded
  have wf := (reachable_empty.after earlier).wellFormed
  rw [List.append_cons, after_append, dead.after_eq] at supersedes
  have same := run_refill_of_supersedes later unnamed undumped supersedes
    ((empty.after earlier).slot? v.name)
  rwa [wf.refill_store] at same

/-- The run with the store, split there. -/
theorem DeadStore.transcript_eq (dead : DeadStore earlier v x rest) :
    ∃ seen, empty.transcript (earlier ++ .write v x :: rest) =
      empty.transcript earlier ++
        (.write v x, seen) :: ((empty.after earlier).store v.name x).transcript rest := by
  refine ⟨((empty.after earlier).observe (.write v x)).1, ?_⟩
  rw [transcript_append, transcript_cons]
  have stored := dead.after_eq
  rw [after_append, after_cons, after_nil] at stored
  rw [stored]

theorem DeadStore.holdsIndex (dead : DeadStore earlier v x rest) (text : x.ty = .str) :
    (empty.after (earlier ++ [.write v x])).HoldsIndex v (empty.after earlier).heapSize := by
  have typed := ((empty.after earlier).step_write v x).2.1 dead.accepted
  rw [dead.after_eq]
  refine ⟨(typeOf_store ..).trans (text ▸ typed), ?_⟩
  rw [slot?_store typed, if_pos rfl, slotFor_text text]

/-- **Dead stores can be removed.**  Without a dead store of a scalar everything is the same.
Without a dead store of a text, the run is the one without the heap entry `p` that the store
appends, and everything else is the same: the heaps are one entry shorter, every index above `p` is
smaller by one, and no variable holds `p`. -/
theorem dead_store_removable (dead : DeadStore earlier v x rest) :
    let whole := earlier ++ .write v x :: rest
    let cut := earlier ++ rest
    (x.ty ≠ .str →
      empty.transcript cut = (empty.transcript whole).eraseIdx earlier.length ∧
        empty.after cut = empty.after whole) ∧
    (x.ty = .str →
      ∃ p, (empty.after (earlier ++ [.write v x])).HoldsIndex v p ∧
        (empty.transcript cut).take earlier.length =
          (empty.transcript whole).take earlier.length ∧
        List.Forall₂ OneTextLess ((empty.transcript whole).drop (earlier.length + 1))
          ((empty.transcript cut).drop earlier.length) ∧
        p < (empty.after whole).heapSize ∧
        (empty.after cut).heapEntries = (empty.after whole).heapEntries.eraseIdx p ∧
        (empty.after cut).table.bindings =
          (empty.after whole).table.bindings.map
            (fun b => { b with slot := b.slot.map (Slot.without p) }) ∧
        ∀ b ∈ (empty.after whole).table.bindings, b.slot ≠ some (.heap p)) := by
  intro whole cut
  have wf := (reachable_empty.after earlier).wellFormed
  obtain ⟨seen, transcript⟩ := dead.transcript_eq
  obtain ⟨sameSeen, sameEnd⟩ := dead.run_eq
  have whole_after : empty.after whole = ((empty.after earlier).store v.name x).after rest := by
    rw [← dead.after_eq, ← after_append, List.append_assoc, List.singleton_append]
  have length : (empty.transcript earlier).length = earlier.length := length_transcript ..
  rw [whole_after, transcript, after_append, transcript_append, ← sameEnd, ← sameSeen]
  constructor
  · intro scalar
    have heap : ((empty.after earlier).store v.name x).heap = (empty.after earlier).heap := by
      rw [heap_store, if_neg (by simpa using scalar)]
    rw [heap, List.eraseIdx_append_of_length_le (Nat.le_of_eq length), length, Nat.sub_self]
    exact ⟨rfl, rfl⟩
  · intro text
    have heap : ((empty.after earlier).store v.name x).heap = (empty.after earlier).heap.push x := by
      rw [heap_store, if_pos (by simpa using text)]
    have spare := wf.spare_push x
    obtain ⟨less, without, last⟩ := spare.run_without rest
    rw [wf.push_without x] at less without
    rw [heap, without]
    refine ⟨_, dead.holdsIndex text, ?_, ?_, last.present, rfl, rfl, last.unheld⟩
    · rw [List.take_left' length, List.take_left' length]
    · rw [List.drop_left' length, List.append_cons, List.drop_left' (by simp)]
      exact less

end Removal

/-- A text that is replaced after the next text was stored and the heap was listed. -/
theorem dead_text_removed :
    let s := Identifier.synthetic "s"
    let t := Identifier.synthetic "t"
    let earlier : List Step := [.declare s "str", .declare t "str"]
    let rest : List Step :=
      [.write t (.str "b"), .heapEntries, .write s (.str "c"), .copy s t, .read t]
    let whole := earlier ++ .write s (.str "a") :: rest
    DeadStore earlier s (.str "a") rest ∧
      (empty.after whole).heapEntries = [.str "a", .str "b", .str "c", .str "c"] ∧
      (empty.after (earlier ++ rest)).heapEntries = [.str "b", .str "c", .str "c"] ∧
      ∀ b ∈ (empty.after whole).table.bindings, b.slot ≠ some (.heap 0) := by
  intro s t earlier rest whole
  have dead : DeadStore earlier s (.str "a") rest := by
    refine ⟨rfl, [.write t (.str "b"), .heapEntries], .write s (.str "c"), _, rfl, ?_, ?_, ?_⟩
    · decide
    · decide
    · exact Or.inr ⟨s, .str "c", rfl, rfl, rfl⟩
  obtain ⟨p, holds, -, -, -, entries, -, unheld⟩ := (dead_store_removable dead).2 rfl
  obtain rfl : p = 0 := by
    cases holds.2
    rfl
  exact ⟨dead, rfl, entries, unheld⟩

end VarStore.Memory
