/- # VarStore.Proofs.Refusal — which access is refused, and why

A step makes one access to a variable, or two: a copy and a comparison go on to their second
variable only if the first could be read.  `m.lastAccess? s` is the access that a step ends
with, so it is the one to be refused if any is.  `RefusedWith` has one rule for each fault that
a program can cause: what the memory shows of an access that is refused with this fault.

On a well-formed memory a step is refused with a fault exactly by these rules
(`WellFormed.step_eq_refused_iff`).  So each fault is about the identifier of the refused access,
and a diagnostic made from the fault has its label there (`faults_reportable`).
-/
import VarStore.Diagnostic
import VarStore.Proofs.WellFormed

namespace VarStore

set_option autoImplicit false

/-- An access to a variable that can be refused. -/
inductive Access where
  | typeOf (v : Identifier)
  | read (v : Identifier)
  | write (v : Identifier) (x : Value)
  deriving DecidableEq, Repr

/-- The identifier that the access is made with. -/
def Access.subject : Access → Identifier
  | typeOf v => v
  | read v => v
  | write v _ => v

theorem Answer.ofExcept_eq_refused_iff {α : Type} {f : α → Answer}
    (quiet : ∀ a, (f a).isError = false) {outcome : Except Fault α} {fault : Fault} :
    ofExcept f outcome = refused fault ↔ outcome = .error fault := by
  cases outcome with
  | ok a =>
    refine iff_of_false (fun same => ?_) nofun
    have loud : (f a).isError = true := congrArg isError same
    rw [quiet a] at loud
    cases loud
  | error other => simp

theorem Answer.ofExcept_eq_unknownType_iff {α : Type} {f : α → Answer}
    {outcome : Except Fault α} {u : UnknownType} :
    ofExcept f outcome = unknownType u ↔ ∃ a, outcome = .ok a ∧ f a = unknownType u := by
  cases outcome <;> simp

theorem Answer.isError_iff {answer : Answer} :
    answer.isError = true ↔ (∃ u, answer = .unknownType u) ∨ ∃ fault, answer = .refused fault := by
  cases answer <;> simp [isError]

namespace Memory

/-- The last access that a step makes. -/
def lastAccess? (m : Memory) : Step → Option Access
  | .typeOf v => some (.typeOf v)
  | .read v => some (.read v)
  | .print v => some (.read v)
  | .write v x => some (.write v x)
  | .copy source target =>
      match m.read source with
      | .ok x => some (.write target x)
      | .error _ => some (.read source)
  | .same a b =>
      match m.read a with
      | .ok _ => some (.read b)
      | .error _ => some (.read a)
  | _ => none

/-- When an access is refused, and with which fault. -/
inductive RefusedWith (m : Memory) : Access → Fault → Prop
  | undeclared {a : Access} (unknown : m.isDeclared a.subject = false) :
      RefusedWith m a (.undeclared a.subject)
  | unpopulated {v : Identifier} (known : m.isDeclared v = true)
      (unfilled : m.isPopulated v = false) : RefusedWith m (.read v) (.unpopulated v)
  | typeMismatch {v : Identifier} {x : Value} {ty : Ty} (typed : m.typeOf v = .ok ty)
      (differ : ty ≠ x.ty) : RefusedWith m (.write v x) (.typeMismatch v ty x.ty)

/-! ## One access -/

section OneAccess

variable {m : Memory} {v : Identifier} {x : Value} {fault : Fault}

theorem isDeclared_eq_false_iff :
    m.isDeclared v = false ↔ m.typeOf v = .error (.undeclared v) := by
  rw [← Bool.not_eq_true, isDeclared_iff_typeOf]
  unfold typeOf
  split <;> simp

theorem typeOf_refused_iff : m.typeOf v = .error fault ↔ m.RefusedWith (.typeOf v) fault := by
  constructor
  · intro refused
    obtain ⟨-, rfl⟩ := typeOf_eq_error_iff.1 refused
    exact .undeclared (a := .typeOf v) (isDeclared_eq_false_iff.2 refused)
  · intro refused
    cases refused with
    | undeclared unknown => exact isDeclared_eq_false_iff.1 unknown

theorem WellFormed.read_refused_iff (wf : m.WellFormed) :
    m.read v = .error fault ↔ m.RefusedWith (.read v) fault := by
  constructor
  · intro refused
    rcases wf.read_cases v with ⟨unknown, -, outcome⟩ | ⟨ty, typed, unfilled, outcome⟩ |
      ⟨x, -, -, outcome⟩
    all_goals
      rw [outcome] at refused
      cases refused
    · exact .undeclared (a := .read v) (isDeclared_eq_false_iff.2 unknown)
    · exact .unpopulated (isDeclared_iff_typeOf.2 ⟨ty, typed⟩) unfilled
  · intro refused
    cases refused with
    | undeclared unknown => exact read_of_typeOf_error (isDeclared_eq_false_iff.1 unknown)
    | unpopulated known unfilled =>
      obtain ⟨b, found⟩ := isDeclared_iff.1 known
      cases slot : b.slot with
      | none => simp [read, found, slot]
      | some filled => simp [isPopulated, found, slot] at unfilled

theorem write_refused_iff :
    (m.write v x).1 = .error fault ↔ m.RefusedWith (.write v x) fault := by
  constructor
  · intro refused
    cases typed : m.typeOf v with
    | error other =>
      rw [write_of_typeOf_error typed] at refused
      cases refused
      obtain ⟨-, rfl⟩ := typeOf_eq_error_iff.1 typed
      exact .undeclared (a := .write v x) (isDeclared_eq_false_iff.2 typed)
    | ok ty =>
      rw [write_of_typeOf_ok typed] at refused
      split at refused
      · cases refused
      · rename_i differ
        cases refused
        exact .typeMismatch typed (Ne.symm differ)
  · intro refused
    cases refused with
    | undeclared unknown =>
      have untyped : m.typeOf v = .error (.undeclared v) := isDeclared_eq_false_iff.1 unknown
      rw [write_of_typeOf_error untyped]
      rfl
    | typeMismatch typed differ => rw [write_of_typeOf_ok typed, if_neg differ.symm]

theorem exists_refusedWith_typeOf_iff :
    (∃ fault, m.RefusedWith (.typeOf v) fault) ↔ m.isDeclared v = false := by
  constructor
  · rintro ⟨fault, refused⟩
    cases refused with
    | undeclared unknown => exact unknown
  · exact fun unknown => ⟨_, .undeclared (a := .typeOf v) unknown⟩

theorem WellFormed.exists_refusedWith_read_iff (wf : m.WellFormed) :
    (∃ fault, m.RefusedWith (.read v) fault) ↔ m.isPopulated v = false := by
  constructor
  · rintro ⟨fault, refused⟩
    exact wf.isPopulated_eq_false_of_read_error (wf.read_refused_iff.2 refused)
  · intro unfilled
    cases known : m.isDeclared v with
    | false => exact ⟨_, .undeclared (a := .read v) known⟩
    | true => exact ⟨_, .unpopulated known unfilled⟩

theorem exists_refusedWith_write_iff :
    (∃ fault, m.RefusedWith (.write v x) fault) ↔ m.typeOf v ≠ .ok x.ty := by
  constructor
  · rintro ⟨fault, refused⟩ typed
    have accepted := write_fst_eq_ok_iff.2 typed
    rw [write_refused_iff.2 refused] at accepted
    cases accepted
  · intro mistyped
    cases typed : m.typeOf v with
    | error other =>
      obtain ⟨-, rfl⟩ := typeOf_eq_error_iff.1 typed
      exact ⟨_, .undeclared (a := .write v x) (isDeclared_eq_false_iff.2 typed)⟩
    | ok ty => exact ⟨_, .typeMismatch typed fun same => mistyped (same ▸ typed)⟩

/-- A variable is printed unless it cannot be read. -/
theorem print_eq_error_iff : m.print v = .error fault ↔ m.read v = .error fault := by
  unfold print
  cases m.read v <;> simp [Except.map]

end OneAccess

/-! ## Steps -/

section Steps

variable {m : Memory} {v w : Identifier} {x : Value} {other fault : Fault}

theorem same_eq_error_iff_of_read_ok (readable : m.read v = .ok x) :
    m.same v w = .error fault ↔ m.read w = .error fault := by
  unfold same
  rw [readable]
  cases m.read w <;> simp [bind, Except.bind, pure, Except.pure]

theorem same_eq_error_iff_of_read_error (unreadable : m.read v = .error other) :
    m.same v w = .error fault ↔ m.read v = .error fault := by
  unfold same
  rw [unreadable]
  simp [bind, Except.bind]

theorem copy_eq_error_iff_of_read_error (unreadable : m.read v = .error other) :
    (m.copy v w).1 = .error fault ↔ m.read v = .error fault := by
  rw [copy_of_read_error unreadable, unreadable]
  simp

end Steps

/-- Only a declaration names a type, which may be unknown. -/
theorem exists_unknownType_iff {m : Memory} {s : Step} :
    (∃ u, (m.step s).1 = .unknownType u) ↔
      ∃ v keyword, s = .declare v keyword ∧ ∀ ty : Ty, keyword ≠ ty.keyword := by
  cases s with
  | declare v keyword =>
    simp only [Memory.step]
    cases named : Ty.ofKeyword keyword with
    | ok ty => simp [Ty.ofKeyword_eq_ok_iff.1 named]
    | error u => simpa using (Ty.ofKeyword_eq_error_iff.1 named).2
  | _ => simp [Memory.step, Answer.ofExcept_eq_unknownType_iff]

/-- **Which access of a step is refused, and why.** -/
theorem WellFormed.step_eq_refused_iff {m : Memory} (wf : m.WellFormed) (s : Step)
    (fault : Fault) :
    (m.step s).1 = .refused fault ↔
      ∃ a, m.lastAccess? s = some a ∧ m.RefusedWith a fault := by
  cases s with
  | declare v keyword =>
    refine iff_of_false ?_ (by simp [lastAccess?])
    simp only [Memory.step]
    cases Ty.ofKeyword keyword <;> simp
  | typeOf v =>
    show Answer.ofExcept .ty (m.typeOf v) = _ ↔ _
    rw [Answer.ofExcept_eq_refused_iff fun _ => rfl, typeOf_refused_iff]
    simp [lastAccess?]
  | read v =>
    show Answer.ofExcept .value (m.read v) = _ ↔ _
    rw [Answer.ofExcept_eq_refused_iff fun _ => rfl, wf.read_refused_iff]
    simp [lastAccess?]
  | print v =>
    show Answer.ofExcept .text (m.print v) = _ ↔ _
    rw [Answer.ofExcept_eq_refused_iff fun _ => rfl, print_eq_error_iff, wf.read_refused_iff]
    simp [lastAccess?]
  | write v x =>
    show Answer.ofExcept (fun _ => .done) (m.write v x).1 = _ ↔ _
    rw [Answer.ofExcept_eq_refused_iff fun _ => rfl, write_refused_iff]
    simp [lastAccess?]
  | copy source target =>
    show Answer.ofExcept (fun _ => .done) (m.copy source target).1 = _ ↔ _
    rw [Answer.ofExcept_eq_refused_iff fun _ => rfl]
    cases readable : m.read source with
    | ok x =>
      rw [copy_of_read_ok readable, write_refused_iff]
      simp [lastAccess?, readable]
    | error other =>
      rw [copy_eq_error_iff_of_read_error readable, wf.read_refused_iff]
      simp [lastAccess?, readable]
  | same a b =>
    show Answer.ofExcept .truth (m.same a b) = _ ↔ _
    rw [Answer.ofExcept_eq_refused_iff fun _ => rfl]
    cases readable : m.read a with
    | ok x =>
      rw [same_eq_error_iff_of_read_ok readable, wf.read_refused_iff]
      simp [lastAccess?, readable]
    | error other =>
      rw [same_eq_error_iff_of_read_error readable, wf.read_refused_iff]
      simp [lastAccess?, readable]
  | _ => exact iff_of_false (by simp [Memory.step]) (by simp [lastAccess?])

/-! ## Faults and diagnostics -/

section Faults

variable {m : Memory} {a : Access} {fault : Fault} (refused : m.RefusedWith a fault)
include refused

theorem RefusedWith.subject?_eq : fault.subject? = some a.subject := by
  cases refused <;> rfl

theorem RefusedWith.span?_eq : fault.span? = some a.subject.span := by
  rw [Fault.span?, refused.subject?_eq]
  rfl

theorem RefusedWith.eq_undeclared_iff :
    fault = .undeclared a.subject ↔ m.isDeclared a.subject = false := by
  cases refused with
  | undeclared unknown => exact iff_of_true rfl unknown
  | unpopulated known unfilled => exact iff_of_false nofun (ne_false_of_eq_true known)
  | @typeMismatch v x ty typed differ =>
    have known : m.isDeclared v = true := isDeclared_iff_typeOf.2 ⟨ty, typed⟩
    exact iff_of_false nofun (ne_false_of_eq_true known)

theorem RefusedWith.of_unpopulated {v : Identifier} (same : fault = .unpopulated v) :
    m.isDeclared v = true ∧ m.isPopulated v = false := by
  cases refused with
  | unpopulated known unfilled =>
    cases same
    exact ⟨known, unfilled⟩
  | _ => cases same

theorem RefusedWith.of_typeMismatch {v : Identifier} {expected found : Ty}
    (same : fault = .typeMismatch v expected found) :
    m.isDeclared v = true ∧ m.typeOf v = .ok expected ∧
      (∃ x, a = .write v x ∧ x.ty = found) ∧ expected ≠ found := by
  cases refused with
  | typeMismatch typed differ =>
    cases same
    exact ⟨isDeclared_iff_typeOf.2 ⟨_, typed⟩, typed, ⟨_, rfl, rfl⟩, differ⟩
  | _ => cases same

theorem RefusedWith.help_eq_none_iff :
    fault.help = none ↔ ∃ expected found, fault = .typeMismatch a.subject expected found := by
  cases refused with
  | typeMismatch typed differ => exact iff_of_true rfl ⟨_, _, rfl⟩
  | _ => exact iff_of_false nofun nofun

end Faults

/-- The label of a fault stands at its identifier. -/
theorem exists_label_of_subject? {fault : Fault} {v : Identifier}
    (subject : fault.subject? = some v) :
    ∃ text, fault.label? = some { region := v.span.region, text := text } := by
  cases fault with
  | corruptHeapIndex index size => cases subject
  | _ =>
    cases subject
    exact ⟨_, rfl⟩

/-- **Every fault that a program causes can be reported at its place.**  It is about the
identifier of the refused access, and its kind tells what the memory shows of that variable.
A diagnostic made from it, for whatever program text, has its message and its help and one
label, at the identifier; the label ends at the later position of the span, which is a 64-bit
position.  A corrupt index, which has no place, is no answer of any step. -/
theorem faults_reportable :
    (∀ m : Memory, m.Reachable → ∀ (s : Step) (fault : Fault), (m.step s).1 = .refused fault →
      ∃ a, m.lastAccess? s = some a ∧
        fault.isFatal = false ∧
        fault.subject? = some a.subject ∧
        fault.span? = some a.subject.span ∧
        (fault = .undeclared a.subject ↔ m.isDeclared a.subject = false) ∧
        (fault = .unpopulated a.subject →
          m.isDeclared a.subject = true ∧ m.isPopulated a.subject = false) ∧
        (∀ expected found, fault = .typeMismatch a.subject expected found →
          m.isDeclared a.subject = true ∧ m.typeOf a.subject = .ok expected ∧
            (∃ x, a = .write a.subject x ∧ x.ty = found) ∧ expected ≠ found) ∧
        ∀ source : Source,
          (Diagnostic.ofFault source fault).message = fault.message ∧
          (Diagnostic.ofFault source fault).help = fault.help ∧
          (fault.help = none ↔ ∃ expected found, fault = .typeMismatch a.subject expected found) ∧
          (Diagnostic.ofFault source fault).fault = fault ∧
          ∃ text, (Diagnostic.ofFault source fault).label =
            some { region := a.subject.span.region, text := text }) ∧
    (∀ span : Span,
      span.region.offset = span.start ∧
      span.region.length.toNat = span.stop.toNat - span.start.toNat ∧
      span.region.offset.toNat + span.region.length.toNat =
        max span.start.toNat span.stop.toNat ∧
      span.region.offset.toNat + span.region.length.toNat < UInt64.size) ∧
    ∀ index size,
      Fault.span? (.corruptHeapIndex index size) = none ∧
      (∀ source, (Diagnostic.ofFault source (.corruptHeapIndex index size)).label = none) ∧
      ∀ m : Memory, m.Reachable → ∀ s : Step,
        (m.step s).1 ≠ .refused (.corruptHeapIndex index size) := by
  refine ⟨fun m reached s fault answer => ?_, fun span => ?_, fun index size => ?_⟩
  · obtain ⟨a, last, refused⟩ := (reached.wellFormed.step_eq_refused_iff s fault).1 answer
    have subject := refused.subject?_eq
    have mild : fault.isFatal = false := by
      rw [← Bool.not_eq_true, Fault.isFatal_iff, subject]
      nofun
    refine ⟨a, last, mild, subject, refused.span?_eq, refused.eq_undeclared_iff,
      refused.of_unpopulated, fun _ _ => refused.of_typeMismatch, fun source => ?_⟩
    exact ⟨rfl, rfl, refused.help_eq_none_iff, rfl, exists_label_of_subject? subject⟩
  · exact ⟨rfl, span.toNat_length, span.stop_region, span.stop_region_lt⟩
  · refine ⟨rfl, fun _ => rfl, fun m reached s answer => ?_⟩
    obtain ⟨a, -, refused⟩ := (reached.wellFormed.step_eq_refused_iff s _).1 answer
    cases refused

/-- A number for a text variable, at a place that ends before it begins. -/
theorem mismatch_at_reversed_span :
    let s : Identifier := ⟨"s", ⟨4, 5⟩⟩
    let again : Identifier := ⟨"s", ⟨9, 7⟩⟩
    let fault : Fault := .typeMismatch again .str .int
    let m := empty.after [.declare s "str"]
    (m.step (.write again (.int 3))).1 = .refused fault ∧
      m.typeOf again = .ok .str ∧
      fault.span? = some ⟨9, 7⟩ ∧
      ∃ text, (Diagnostic.ofFault ⟨"p", "str s = 3"⟩ fault).label =
        some { region := ⟨9, 0⟩, text := text } := by
  intro s again fault m
  have reached : m.Reachable := ⟨_, rfl⟩
  obtain ⟨a, last, -, -, placed, -, -, mismatch, diagnostic⟩ :=
    faults_reportable.1 m reached (.write again (.int 3)) fault rfl
  cases last
  exact ⟨rfl, (mismatch .str .int rfl).2.1, placed, (diagnostic _).2.2.2.2⟩

end Memory

end VarStore
