/- # VarStore.Proofs.ReportReader — a report can be read back

`Reported.ofReport` reads a report from front to back, with one reader for each part of the layout.
The help is the only member that may be missing; whether it is there is told by the name of the
member in its place.

A fatal fault has no such report, and its line begins in another way
(`Reported.ofReport_of_isFatal`).  So faults with one report have one message
(`message_eq_of_report_eq`), and a message tells its fault.
-/
import VarStore.Proofs.Messages
import VarStore.Proofs.Readers

namespace VarStore

set_option autoImplicit false

/-- What a report shows of a fault of the program. -/
structure Reported where
  message : String
  help : Option String
  fileName : String
  label : Label
  deriving DecidableEq, Repr

namespace Report

/-! ## The reader -/

namespace Reader

def region : Reader Region := do
  expect "\x7b"
  let offset ← member "offset" (number ',')
  let length ← member "length" (number '\x7d')
  return { offset := offset, length := length }

def label : Reader Label := do
  expect "\x7b"
  let text ← member "label" quoted
  expect ","
  let region ← member "span" region
  expect "\x7d"
  return { region := region, text := text }

/-- The help and the file name, or the file name alone: the key of the member that comes first tells
which it is. -/
def helpAndFileName : Reader (Option String × String) := do
  let key ← quoted
  expect ": "
  let value ← quoted
  if key = "help" then
    expect ","
    let fileName ← member "filename" quoted
    return (some value, fileName)
  else
    return (none, value)

def diagnostic : Reader Reported := do
  expect "\x7b"
  let message ← member "message" quoted
  expect ","
  expect (Report.member "severity" (Quoted.quote "error"))
  expect ","
  expect (Report.member "causes" (array []))
  expect ","
  let (help, fileName) ← helpAndFileName
  expect ","
  let label ← member "labels" (single label)
  expect ","
  expect (Report.member "related" (array []))
  expect "\x7d"
  return { message := message, help := help, fileName := fileName, label := label }

end Reader

/-! ## Parts of a report -/

theorem region_eq (r : Region) :
    region r = "\x7b" ++ (member "offset" (r.offset.toNat.repr ++ String.singleton ',') ++
      member "length" (r.length.toNat.repr ++ String.singleton '\x7d')) := by
  simp [region, object, bracketed, member, String.append_assoc]

theorem reads_region (r : Region) : Reads Reader.region (region r) r := by
  rw [region_eq]
  have offset := (reads_number ',' rfl r.offset).member "offset"
  have length := (reads_number '\x7d' rfl r.length).member "length"
  exact (reads_expect _).bind (offset.bind (length.map (Region.mk r.offset)))

theorem label_eq (l : Label) :
    label l = "\x7b" ++ (member "label" (Quoted.quote l.text) ++ ("," ++
      (member "span" (region l.region) ++ "\x7d"))) := by
  simp [label, object, bracketed, member, String.append_assoc]

theorem reads_label (l : Label) : Reads Reader.label (label l) l := by
  rw [label_eq]
  have text := (reads_quoted l.text).member "label"
  have span := (reads_region l.region).member "span"
  have close := (reads_expect "\x7d").map fun _ => l
  exact (reads_expect _).bind (text.bind ((reads_expect _).bind (span.bind close)))

/-- The member of the help, if there is one, and that of the file name. -/
def helpAndFileName (help : Option String) (fileName : String) : String :=
  String.intercalate "," <|
    (help.map fun help => member "help" (Quoted.quote help)).toList ++
      [member "filename" (Quoted.quote fileName)]

theorem reads_helpAndFileName (help : Option String) (fileName : String) :
    Reads Reader.helpAndFileName (helpAndFileName help fileName) (help, fileName) := by
  cases help with
  | none =>
    have other : ("filename" : String) ≠ "help" := by decide
    have value := (reads_quoted fileName).map fun fileName => ((none : Option String), fileName)
    show Reads _ (Quoted.quote "filename" ++ ": " ++ Quoted.quote fileName) _
    rw [String.append_assoc]
    refine (reads_quoted "filename").bind ((reads_expect _).bind ?_)
    simpa only [if_neg other] using value
  | some help =>
    have file := (reads_quoted fileName).member "filename"
    have text : helpAndFileName (some help) fileName = Quoted.quote "help" ++ (": " ++
        (Quoted.quote help ++ ("," ++ member "filename" (Quoted.quote fileName)))) := by
      simp [helpAndFileName, member, String.append_assoc]
    rw [text]
    refine (reads_quoted "help").bind ((reads_expect _).bind ((reads_quoted help).bind ?_))
    simp only [if_true]
    exact (reads_expect _).bind (file.map fun fileName => (some help, fileName))

theorem diagnostic_eq (d : Diagnostic) {l : Label} (labelled : d.label = some l) :
    diagnostic d = "\x7b" ++ (member "message" (Quoted.quote d.message) ++ ("," ++
      (member "severity" (Quoted.quote "error") ++ ("," ++ (member "causes" (array []) ++ ("," ++
        (helpAndFileName d.help d.fileName ++ ("," ++ (member "labels" (array [label l]) ++ ("," ++
          (member "related" (array []) ++ "\x7d"))))))))))) := by
  cases helpful : d.help with
  | none =>
    simp [diagnostic, labelled, helpful, object, bracketed, helpAndFileName, String.append_assoc]
  | some help =>
    simp [diagnostic, labelled, helpful, object, bracketed, helpAndFileName, String.append_assoc]

theorem reads_diagnostic (d : Diagnostic) {l : Label} (labelled : d.label = some l) :
    Reads Reader.diagnostic (diagnostic d)
      { message := d.message, help := d.help, fileName := d.fileName, label := l } := by
  rw [diagnostic_eq d labelled]
  have message := (reads_quoted d.message).member "message"
  have members := reads_helpAndFileName d.help d.fileName
  have labels := (reads_label l).single.member "labels"
  have close := (reads_expect "\x7d").map fun _ => Reported.mk d.message d.help d.fileName l
  refine (reads_expect _).bind (message.bind ?_)
  refine (reads_expect _).bind ((reads_expect _).bind ?_)
  refine (reads_expect _).bind ((reads_expect _).bind ?_)
  refine (reads_expect _).bind (members.bind ?_)
  refine (reads_expect _).bind (labels.bind ?_)
  exact (reads_expect _).bind ((reads_expect _).bind close)

end Report

/-- What a report shows, if it is one of a fault of the program. -/
def Reported.ofReport (text : String) : Option Reported :=
  (Report.Reader.diagnostic text.toList).map (·.1)

theorem Reported.ofReport_report (source : Source) {fault : Fault} {l : Label}
    (labelled : fault.label? = some l) :
    ofReport (report source fault) = some
      { message := fault.message
        help := fault.help
        fileName := (Diagnostic.ofFault source fault).fileName
        label := l } := by
  have mild : fault.isFatal = false := by
    cases fault with
    | corruptHeapIndex index size => cases labelled
    | _ => rfl
  have read := Report.reads_diagnostic (Diagnostic.ofFault source fault) labelled "\n".toList
  rw [ofReport, report, mild, if_neg Bool.false_ne_true, String.toList_append, read]
  rfl

/-! ## One line -/

section Lines

open Report

theorem lineFeed_not_mem_quote (s : String) : '\n' ∉ (Quoted.quote s).toList := by
  rw [Quoted.toList_quote]
  simp [Quoted.lineFeed_not_mem_escape]

theorem lineFeed_not_mem_repr (n : Nat) : '\n' ∉ n.repr.toList :=
  not_mem_repr (by decide) n

theorem lineFeed_not_mem_member {value : String} (clear : '\n' ∉ value.toList) (key : String) :
    '\n' ∉ (member key value).toList := by
  simp [member, lineFeed_not_mem_quote, clear]

theorem lineFeed_not_mem_intercalate {items : List String}
    (clear : ∀ text ∈ items, '\n' ∉ text.toList) :
    '\n' ∉ (String.intercalate "," items).toList := by
  induction items with
  | nil => simp
  | cons first rest ih =>
    have front := clear first List.mem_cons_self
    have back := ih fun text present => clear text (List.mem_cons_of_mem _ present)
    cases rest with
    | nil => simpa using front
    | cons second rest =>
      rw [String.intercalate_cons_cons]
      simp [-String.toList_intercalate, front, back]

theorem lineFeed_not_mem_bracketed {opening closing : String} {parts : List String}
    (before : '\n' ∉ opening.toList) (behind : '\n' ∉ closing.toList)
    (clear : ∀ text ∈ parts, '\n' ∉ text.toList) :
    '\n' ∉ (bracketed opening closing parts).toList := by
  have inside := lineFeed_not_mem_intercalate clear
  simp [-String.toList_intercalate, bracketed, before, inside, behind]

theorem lineFeed_not_mem_region (r : Region) : '\n' ∉ (region r).toList := by
  refine lineFeed_not_mem_bracketed (by decide) (by decide) ?_
  simp [-Nat.toList_repr, lineFeed_not_mem_member, lineFeed_not_mem_repr]

theorem lineFeed_not_mem_label (l : Label) : '\n' ∉ (label l).toList := by
  refine lineFeed_not_mem_bracketed (by decide) (by decide) ?_
  simp [lineFeed_not_mem_member, lineFeed_not_mem_quote, lineFeed_not_mem_region]

theorem lineFeed_not_mem_diagnostic (d : Diagnostic) : '\n' ∉ (diagnostic d).toList := by
  have none : '\n' ∉ (array []).toList := by decide
  have labels : '\n' ∉ (array (d.label.map label).toList).toList := by
    refine lineFeed_not_mem_bracketed (by decide) (by decide) ?_
    cases d.label <;> simp [lineFeed_not_mem_label]
  refine lineFeed_not_mem_bracketed (by decide) (by decide) ?_
  cases d.help <;> simp [lineFeed_not_mem_member, lineFeed_not_mem_quote, none, labels]

/-- A report is one line. -/
theorem exists_line (source : Source) (fault : Fault) :
    ∃ line : String, report source fault = line ++ "\n" ∧ '\n' ∉ line.toList := by
  cases mild : fault.isFatal with
  | false =>
    refine ⟨diagnostic (Diagnostic.ofFault source fault), ?_, lineFeed_not_mem_diagnostic _⟩
    rw [report, mild, if_neg Bool.false_ne_true]
  | true =>
    refine ⟨"Internal interpreter error: " ++ fault.message, ?_, ?_⟩
    · rw [report, mild, if_pos rfl]
    · cases fault with
      | corruptHeapIndex index size =>
        rw [String.toList_append, Fault.toList_message_corruptHeapIndex]
        simp [-Nat.toList_repr, lineFeed_not_mem_repr]
      | _ => cases mild

end Lines

/-! ## What a report tells -/

/-- The label of the fault can be drawn.  An empty label that stands one byte behind the end of the
text cannot, and nothing is reported of a fault with such a label. -/
def Source.Draws (source : Source) (fault : Fault) : Prop :=
  ∀ span, fault.span? = some span →
    ¬(span.length = 0 ∧ span.start.toNat = source.text.utf8ByteSize + 1)

theorem exists_subject_of_isFatal_eq_false {fault : Fault} (mild : fault.isFatal = false) :
    ∃ v, fault.subject? = some v := by
  rw [← Option.ne_none_iff_exists', ne_eq, ← Fault.isFatal_iff, mild]
  exact Bool.false_ne_true

theorem exists_label_of_isFatal_eq_false {fault : Fault} (mild : fault.isFatal = false) :
    ∃ l, fault.label? = some l := by
  obtain ⟨v, subject⟩ := exists_subject_of_isFatal_eq_false mild
  obtain ⟨text, labelled⟩ := Memory.exists_label_of_subject? subject
  exact ⟨_, labelled⟩

theorem fileName_ofFault {source : Source} {fault : Fault} {v : Identifier}
    (subject : fault.subject? = some v) :
    (Diagnostic.ofFault source fault).fileName =
      if max v.span.start.toNat v.span.stop.toNat ≤ source.text.utf8ByteSize + 1
      then source.path else "" := by
  obtain ⟨text, labelled⟩ := Memory.exists_label_of_subject? subject
  rw [Diagnostic.fileName, Diagnostic.ofFault, labelled]
  simp only [source.covers_region_iff]

/-- What is printed for a fatal fault is read as no report. -/
theorem Reported.ofReport_of_isFatal (source : Source) {fault : Fault}
    (fatal : fault.isFatal = true) : ofReport (report source fault) = none := by
  have unopened : Report.Reader.expect "\x7b" (report source fault).toList = none := by
    rw [report, fatal, if_pos rfl, Report.Reader.expect, if_neg]
    simp
  show ((Report.Reader.expect "\x7b" (report source fault).toList).bind _).map _ = none
  rw [unopened]
  rfl

/-- Faults with one report have one message, at one region, and one file is named. -/
theorem message_eq_of_report_eq {source source' : Source} {fault fault' : Fault}
    (same : report source fault = report source' fault') :
    fault.message = fault'.message ∧
      fault.span?.map Span.region = fault'.span?.map Span.region ∧
      (Diagnostic.ofFault source fault).fileName = (Diagnostic.ofFault source' fault').fileName := by
  have read := congrArg Reported.ofReport same
  cases mild : fault.isFatal with
  | false =>
    obtain ⟨l, labelled⟩ := exists_label_of_isFatal_eq_false mild
    rw [Reported.ofReport_report source labelled] at read
    cases mild' : fault'.isFatal with
    | false =>
      obtain ⟨l', labelled'⟩ := exists_label_of_isFatal_eq_false mild'
      rw [Reported.ofReport_report source' labelled', Option.some.injEq, Reported.mk.injEq] at read
      obtain ⟨message, -, fileName, rfl⟩ := read
      refine ⟨message, ?_, fileName⟩
      rw [← Fault.region_label?, ← Fault.region_label?, labelled, labelled']
    | true =>
      rw [Reported.ofReport_of_isFatal source' mild'] at read
      cases read
  | true =>
    rw [Reported.ofReport_of_isFatal source mild] at read
    cases mild' : fault'.isFatal with
    | false =>
      obtain ⟨l', labelled'⟩ := exists_label_of_isFatal_eq_false mild'
      rw [Reported.ofReport_report source' labelled'] at read
      cases read
    | true =>
      rw [report, report, mild, mild', if_pos rfl, if_pos rfl] at same
      have message : fault.message = fault'.message := by simpa using same
      cases fault with
      | corruptHeapIndex i m =>
        cases fault' with
        | corruptHeapIndex j n => exact ⟨message, rfl, rfl⟩
        | _ => cases mild'
      | _ => cases mild

/-- **A report is one line that determines its fault.**  It ends with its only line feed.  Of a
fault of the program the reader finds the message, the help or that there is none, the file name,
which is the path exactly if the label can be shown in the text, and the label with its region.  So
two faults with one report are the same but for their places, and these have one region. -/
theorem report_determines_fault :
    (∀ (source : Source) (fault : Fault), source.Draws fault →
      ∃ line : String, report source fault = line ++ "\n" ∧ '\n' ∉ line.toList) ∧
    (∀ (source : Source) (fault : Fault), source.Draws fault → fault.isFatal = false →
      ∃ v text, fault.subject? = some v ∧
        fault.label? = some { region := v.span.region, text := text } ∧
        Reported.ofReport (report source fault) = some
          { message := fault.message
            help := fault.help
            fileName :=
              if max v.span.start.toNat v.span.stop.toNat ≤ source.text.utf8ByteSize + 1
              then source.path else ""
            label := { region := { offset := v.span.start, length := v.span.length }
                       text := text } }) ∧
    ∀ (source source' : Source) (fault fault' : Fault), source.Draws fault →
      source'.Draws fault' → report source fault = report source' fault' →
      fault.unplaced = fault'.unplaced ∧
        fault.span?.map Span.region = fault'.span?.map Span.region ∧
        (Diagnostic.ofFault source fault).fileName =
          (Diagnostic.ofFault source' fault').fileName := by
  refine ⟨fun source fault _ => exists_line source fault, fun source fault _ mild => ?_,
    fun source source' fault fault' _ _ same => ?_⟩
  · obtain ⟨v, subject⟩ := exists_subject_of_isFatal_eq_false mild
    obtain ⟨text, labelled⟩ := Memory.exists_label_of_subject? subject
    refine ⟨v, text, subject, labelled, ?_⟩
    rw [Reported.ofReport_report source labelled, fileName_ofFault subject]
    rfl
  · obtain ⟨message, region, fileName⟩ := message_eq_of_report_eq same
    exact ⟨Fault.unplaced_eq_of_message_eq message, region, fileName⟩

/-- A name and a path with quotes, a backslash, a line feed and pieces of a report and a message. -/
theorem imitated_report_read :
    let source : Source := { path := "a \"b\" \\n", text := "x" }
    let v : Identifier := { name := "y` has\",\"help\": \"\n", span := { start := 1, stop := 2 } }
    let fault : Fault := .undeclared v
    source.Draws fault ∧
      (∃ line : String, report source fault = line ++ "\n" ∧ '\n' ∉ line.toList) ∧
      Reported.ofReport (report source fault) = some
        { message := fault.message
          help := fault.help
          fileName := "a \"b\" \\n"
          label := { region := { offset := 1, length := 1 }, text := "not declared" } } ∧
      ∀ (source' : Source) (fault' : Fault), source'.Draws fault' →
        report source' fault' = report source fault → fault'.unplaced = .undeclared v.unplaced := by
  intro source v fault
  have drawn : source.Draws fault := by
    intro span placed
    cases placed
    decide
  obtain ⟨line, decoded, determined⟩ := report_determines_fault
  obtain ⟨w, text, subject, labelled, read⟩ := decoded source fault drawn rfl
  cases subject
  cases labelled
  have length : v.span.length = 1 := by decide
  rw [if_pos (by decide), length] at read
  exact ⟨drawn, line source fault drawn, read,
    fun source' fault' drawn' same => (determined source' source fault' fault drawn' drawn same).1⟩

end VarStore
