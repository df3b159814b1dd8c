import KernelListing.Batch.Log
import KernelListing.Batch.LogLine
import KernelListing.Batch.Options
import KernelListing.Batch.Run
import KernelListing.BuildError
import KernelListing.DataType
import KernelListing.Dataflow
import KernelListing.FlowGraph.Basic
import KernelListing.FlowGraph.Draft
import KernelListing.FlowGraph.Printer
import KernelListing.FlowGraph.Sequence
import KernelListing.Instruction.Basic
import KernelListing.Instruction.Printer
import KernelListing.Instruction.Reader
import KernelListing.Kernel.Basic
import KernelListing.Kernel.Canonical
import KernelListing.Kernel.Label
import KernelListing.Kernel.Listing
import KernelListing.Main
import KernelListing.Opcode
import KernelListing.Operand.Basic
import KernelListing.Operand.Printer
import KernelListing.Operand.Reader
import KernelListing.Proofs.Batch.Isolation
import KernelListing.Proofs.FlowGraph.ControlFlow
import KernelListing.Proofs.FlowGraph.Edits
import KernelListing.Proofs.FlowGraph.Faults
import KernelListing.Proofs.FlowGraph.Finish
import KernelListing.Proofs.FlowGraph.Guards
import KernelListing.Proofs.FlowGraph.Landings
import KernelListing.Proofs.FlowGraph.Layout
import KernelListing.Proofs.FlowGraph.Linearization
import KernelListing.Proofs.FlowGraph.Outline
import KernelListing.Proofs.FlowGraph.Partition
import KernelListing.Proofs.FlowGraph.Places
import KernelListing.Proofs.FlowGraph.Rebuild
import KernelListing.Proofs.FlowGraph.Relabel
import KernelListing.Proofs.FlowGraph.Segments
import KernelListing.Proofs.FlowGraph.Sequence
import KernelListing.Proofs.FlowGraph.Simulation
import KernelListing.Proofs.FlowGraph.Verdict
import KernelListing.Proofs.Instruction.Arguments
import KernelListing.Proofs.Instruction.Brackets
import KernelListing.Proofs.Instruction.Layout
import KernelListing.Proofs.Instruction.Names
import KernelListing.Proofs.Instruction.Parts
import KernelListing.Proofs.Instruction.Registers
import KernelListing.Proofs.Instruction.RoundTrip
import KernelListing.Proofs.Instruction.Slots
import KernelListing.Proofs.Instruction.Spelling
import KernelListing.Proofs.Instruction.Verbatim
import KernelListing.Proofs.Kernel.Accesses
import KernelListing.Proofs.Kernel.Canonical
import KernelListing.Proofs.Kernel.Declarations
import KernelListing.Proofs.Kernel.Hardware
import KernelListing.Proofs.Kernel.LabelLines
import KernelListing.Proofs.Kernel.LabelNames
import KernelListing.Proofs.Kernel.LabelSearch
import KernelListing.Proofs.Kernel.Labelling
import KernelListing.Proofs.Kernel.Labels
import KernelListing.Proofs.Kernel.Listing
import KernelListing.Proofs.Kernel.RegisterNames
import KernelListing.Proofs.Kernel.Registers
import KernelListing.Proofs.Kernel.Relisting
import KernelListing.Proofs.Kernel.Requests
import KernelListing.Proofs.Kernel.Rereading
import KernelListing.Proofs.Kernel.RoundTrip
import KernelListing.Proofs.Kernel.SourceOrder
import KernelListing.Proofs.Kernel.Summary
import KernelListing.Proofs.Kernel.Translation
import KernelListing.Proofs.Operand.Forms
import KernelListing.Proofs.Operand.Integer
import KernelListing.Proofs.Operand.RoundTrip
import KernelListing.Proofs.Operand.Spelling
import KernelListing.Proofs.Operand.Verbatim
import KernelListing.Proofs.Register.Agreement
import KernelListing.Proofs.Register.Assignment
import KernelListing.Proofs.Register.Bijection
import KernelListing.Proofs.Register.Declarations
import KernelListing.Proofs.Register.Names
import KernelListing.Proofs.Register.NumberTable
import KernelListing.Proofs.Register.Numbering
import KernelListing.Proofs.Register.Occurrences
import KernelListing.Proofs.Register.Reassignment
import KernelListing.Proofs.Register.Renaming
import KernelListing.Proofs.Source.Containment
import KernelListing.Proofs.Source.Lines
import KernelListing.Proofs.Source.Statements
import KernelListing.Proofs.Statement.Declaration
import KernelListing.Proofs.Statement.LineBreaks
import KernelListing.Proofs.Statement.RoundTrip
import KernelListing.Proofs.Statement.Variable
import KernelListing.Proofs.Text.Code
import KernelListing.Proofs.Text.Literal
import KernelListing.Proofs.Text.Numeral
import KernelListing.Proofs.Text.Pieces
import KernelListing.Proofs.Text.Scanner
import KernelListing.Proofs.Text.Token
import KernelListing.ReadError
import KernelListing.Reading
import KernelListing.Register.Declarations
import KernelListing.Register.NumberTable
import KernelListing.Register.Numbering
import KernelListing.Register.Walk
import KernelListing.SortedTable
import KernelListing.Source
import KernelListing.Statement.Basic
import KernelListing.Statement.Declaration
import KernelListing.Text.Blank
import KernelListing.Text.Comment
import KernelListing.Text.Control
import KernelListing.Text.IntegerLiteral
import KernelListing.Text.LabelName
import KernelListing.Text.Lines
import KernelListing.Text.Split
