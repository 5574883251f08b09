import VarStore.Span
import VarStore.Ty
import VarStore.Value
import VarStore.Identifier
import VarStore.Fault
import VarStore.Table
import VarStore.Table.Listing
import VarStore.Memory
import VarStore.Memory.Lemmas
import VarStore.Dump
import VarStore.Step
import VarStore.Run
import VarStore.Diagnostic
import VarStore.Quoted
import VarStore.Report
import VarStore.Proofs.Effect
import VarStore.Proofs.FlatStore
import VarStore.Proofs.WellFormed
import VarStore.Proofs.History
import VarStore.Proofs.HeapLog
import VarStore.Proofs.LastWrite
import VarStore.Proofs.Transcript
import VarStore.Proofs.Idle
import VarStore.Proofs.Frame
import VarStore.Proofs.Noninterference
import VarStore.Proofs.Indices
import VarStore.Proofs.Reordering
import VarStore.Proofs.Separators
import VarStore.Proofs.Picture
import VarStore.Proofs.DumpReader
import VarStore.Proofs.Construction
import VarStore.Proofs.Refusal
import VarStore.Proofs.Places
import VarStore.Proofs.Utf8Order
import VarStore.Proofs.DumpLayout
import VarStore.Proofs.Accounting
import VarStore.Proofs.Copying
import VarStore.Proofs.Reslot
import VarStore.Proofs.SpareEntry
import VarStore.Proofs.DeadStore
import VarStore.Proofs.Messages
import VarStore.Proofs.Readers
import VarStore.Proofs.ReportReader
import VarStore.Proofs.Printing
