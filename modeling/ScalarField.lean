import ScalarField.Bytes
import ScalarField.Cli.Command
import ScalarField.Cli.Console
import ScalarField.Cli.Flag
import ScalarField.Cli.Workspace
import ScalarField.Code.Asm
import ScalarField.Code.Compiler
import ScalarField.Code.Encoding
import ScalarField.Code.Insn
import ScalarField.Code.Level
import ScalarField.Code.Program
import ScalarField.Code.Routine
import ScalarField.Code.Template
import ScalarField.Code.Template.Grad
import ScalarField.Code.Template.Interval
import ScalarField.Code.Template.Lanes
import ScalarField.Code.Template.Point
import ScalarField.Engine
import ScalarField.Eval.Domain
import ScalarField.Eval.Grad
import ScalarField.Eval.Interp
import ScalarField.Eval.Interval
import ScalarField.Eval.Lanes
import ScalarField.Eval.Mode
import ScalarField.Eval.Region
import ScalarField.Eval.Scalar
import ScalarField.Fault
import ScalarField.Graph.Basic
import ScalarField.Graph.Error
import ScalarField.Graph.Node
import ScalarField.Graph.Reader
import ScalarField.Graph.Writer
import ScalarField.Hash.Blake2b
import ScalarField.Heap
import ScalarField.Instr
import ScalarField.Main
import ScalarField.Number.Arith
import ScalarField.Number.Elementary
import ScalarField.Number.Format
import ScalarField.Number.Integer
import ScalarField.Number.Print
import ScalarField.Number.Read
import ScalarField.Number.Round
import ScalarField.Number.Shortest
import ScalarField.Op
import ScalarField.Proofs.Bitmap
import ScalarField.Proofs.Code.Compilable
import ScalarField.Proofs.Code.Constants
import ScalarField.Proofs.Code.Decoding
import ScalarField.Proofs.Code.Emission
import ScalarField.Proofs.Code.Encoding
import ScalarField.Proofs.Code.References
import ScalarField.Proofs.Engine.Fallback
import ScalarField.Proofs.Engine.Ownership
import ScalarField.Proofs.Engine.Provenance
import ScalarField.Proofs.Graph.Evaluation
import ScalarField.Proofs.Graph.Interning
import ScalarField.Proofs.Graph.Language
import ScalarField.Proofs.Graph.Linear
import ScalarField.Proofs.Graph.Reader
import ScalarField.Proofs.Graph.Representation
import ScalarField.Proofs.Graph.Reread
import ScalarField.Proofs.Graph.RoundTrip
import ScalarField.Proofs.Graph.Sharing
import ScalarField.Proofs.Graph.Written
import ScalarField.Proofs.Heap
import ScalarField.Proofs.Heap.Priority
import ScalarField.Proofs.Interval.Conservation
import ScalarField.Proofs.Interval.Enclosure
import ScalarField.Proofs.Interval.Fixpoint
import ScalarField.Proofs.Interval.Inclusion
import ScalarField.Proofs.Interval.Operators
import ScalarField.Proofs.Interval.Order
import ScalarField.Proofs.Interval.Period
import ScalarField.Proofs.Interval.Region
import ScalarField.Proofs.Machine.Access
import ScalarField.Proofs.Machine.Bounds
import ScalarField.Proofs.Machine.Call
import ScalarField.Proofs.Machine.Choices
import ScalarField.Proofs.Machine.Derivatives
import ScalarField.Proofs.Machine.Execution
import ScalarField.Proofs.Machine.Lanewise
import ScalarField.Proofs.Machine.Processor
import ScalarField.Proofs.Machine.Program
import ScalarField.Proofs.Machine.Register
import ScalarField.Proofs.Machine.Sequence
import ScalarField.Proofs.Machine.Simulation
import ScalarField.Proofs.Number.Exact
import ScalarField.Proofs.Number.Halfway
import ScalarField.Proofs.Number.Monotone
import ScalarField.Proofs.Number.Numeral
import ScalarField.Proofs.Number.Operands
import ScalarField.Proofs.Number.Payload
import ScalarField.Proofs.Number.Printed
import ScalarField.Proofs.Number.Remainder
import ScalarField.Proofs.Number.Rounding
import ScalarField.Proofs.Number.Shortest
import ScalarField.Proofs.Number.Value
import ScalarField.Proofs.Shell.Session
import ScalarField.Proofs.Tape.Allocation
import ScalarField.Proofs.Tape.Buffer
import ScalarField.Proofs.Tape.CheckedScan
import ScalarField.Proofs.Tape.Checking
import ScalarField.Proofs.Tape.Codec
import ScalarField.Proofs.Tape.Differentiation
import ScalarField.Proofs.Tape.Irreducible
import ScalarField.Proofs.Tape.Lanes
import ScalarField.Proofs.Tape.Liveness
import ScalarField.Proofs.Tape.Meaning
import ScalarField.Proofs.Tape.Obtained
import ScalarField.Proofs.Tape.Occupancy
import ScalarField.Proofs.Tape.OfGraph
import ScalarField.Proofs.Tape.Pressure
import ScalarField.Proofs.Tape.Primal
import ScalarField.Proofs.Tape.Receiver
import ScalarField.Proofs.Tape.Registers
import ScalarField.Proofs.Tape.Restriction
import ScalarField.Proofs.Tape.Reuse
import ScalarField.Proofs.Tape.Rewrite
import ScalarField.Proofs.Tape.Safety
import ScalarField.Proofs.Text.Blank
import ScalarField.Proofs.Text.Digits
import ScalarField.Proofs.Text.Lines
import ScalarField.Proofs.Text.Utf8
import ScalarField.Random
import ScalarField.Sample
import ScalarField.Shell.Basic
import ScalarField.Shell.Error
import ScalarField.Shell.Session
import ScalarField.Shell.Settings
import ScalarField.Shell.Values
import ScalarField.Tape.Allocation
import ScalarField.Tape.Archive
import ScalarField.Tape.Basic
import ScalarField.Tape.Choice
import ScalarField.Tape.Codec
import ScalarField.Tape.Error
import ScalarField.Tape.Liveness
import ScalarField.Tape.OfGraph
import ScalarField.Text.Display
import ScalarField.Text.Printable
import ScalarField.Text.Reading
import ScalarField.Text.Utf8
import ScalarField.Words
import ScalarField.Yaml
import ScalarField.Zstandard
