import ConsMachine.Text.Alphanumeric
import ConsMachine.Text.Excerpt
import ConsMachine.Value.Basic
import ConsMachine.Value.Number
import ConsMachine.Value.Equality
import ConsMachine.Value.Text
import ConsMachine.Datum.Basic
import ConsMachine.Datum.Word
import ConsMachine.Datum.Token
import ConsMachine.Datum.ReadError
import ConsMachine.Datum.Reader
import ConsMachine.Error
import ConsMachine.Native.Ref
import ConsMachine.Native.Basic
import ConsMachine.Native.Slots
import ConsMachine.Native.Builtin
import ConsMachine.Native.Catalogue
import ConsMachine.Native.Host
import ConsMachine.Instruction
import ConsMachine.Globals
import ConsMachine.Machine.State
import ConsMachine.Machine.Step
import ConsMachine.Machine.Run
import ConsMachine.Machine.Depth
import ConsMachine.Session
import ConsMachine.Proofs.Steps
import ConsMachine.Proofs.Context
import ConsMachine.Proofs.Balanced
import ConsMachine.Proofs.Discipline
import ConsMachine.Proofs.Evaluator
import ConsMachine.Proofs.Agreement
import ConsMachine.Proofs.Answers
import ConsMachine.Proofs.Pending
import ConsMachine.Proofs.Data
import ConsMachine.Proofs.Grammar
import ConsMachine.Proofs.Reading
import ConsMachine.Proofs.RoundTrip
import ConsMachine.Proofs.Elision
import ConsMachine.Proofs.CodeBlocks
import ConsMachine.Proofs.Failure
import ConsMachine.Proofs.Reprinting
import ConsMachine.Proofs.EntryPoints
import ConsMachine.Proofs.Completion
import ConsMachine.Proofs.InstructionForms
import ConsMachine.Proofs.Concatenation
import ConsMachine.Proofs.Occurrences
import ConsMachine.Proofs.Segments
import ConsMachine.Proofs.TailCalls
import ConsMachine.Proofs.Identity
import ConsMachine.Proofs.FreshObjects
import ConsMachine.Proofs.Sameness
import ConsMachine.Proofs.CatalogueObjects
import ConsMachine.Proofs.Comparison
import ConsMachine.Proofs.Scopes
import ConsMachine.Proofs.Sites
import ConsMachine.Proofs.FirstOrder
import ConsMachine.Proofs.Termination
import ConsMachine.Proofs.Printing
import ConsMachine.Proofs.Excerpts
import ConsMachine.Proofs.UniqueText
import ConsMachine.Proofs.Places
import ConsMachine.Proofs.ByteOrder
import ConsMachine.Proofs.Bindings
import ConsMachine.Proofs.Histories
import ConsMachine.Proofs.Signatures
import ConsMachine.Proofs.WholeTexts
import ConsMachine.Proofs.Computations
import ConsMachine.Proofs.SumDown
