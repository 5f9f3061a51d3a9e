import Mos6502.AddressingMode
import Mos6502.Assembler.Encoding
import Mos6502.Assembler.Error
import Mos6502.Assembler.Expression
import Mos6502.Assembler.Layout
import Mos6502.Assembler.Line
import Mos6502.Assembler.Listing
import Mos6502.Assembler.Number
import Mos6502.Assembler.Operand
import Mos6502.Assembler.Program
import Mos6502.Assembler.SourceMap
import Mos6502.Assembler.Statement
import Mos6502.Assembler.Symbol
import Mos6502.Bus
import Mos6502.Bus.Guard
import Mos6502.Bus.Recorder
import Mos6502.Image
import Mos6502.Index
import Mos6502.IntelHex.File
import Mos6502.IntelHex.Record
import Mos6502.Memory
import Mos6502.Mnemonic
import Mos6502.Opcode
import Mos6502.Processor.Addressing
import Mos6502.Processor.Arithmetic
import Mos6502.Processor.Basic
import Mos6502.Processor.Cycle
import Mos6502.Processor.Instruction
import Mos6502.Processor.Operation
import Mos6502.Processor.Run
import Mos6502.Processor.Step
import Mos6502.Proofs.Assembler.Agreement
import Mos6502.Proofs.Assembler.Branch
import Mos6502.Proofs.Assembler.Case
import Mos6502.Proofs.Assembler.Code
import Mos6502.Proofs.Assembler.Constant
import Mos6502.Proofs.Assembler.Counter
import Mos6502.Proofs.Assembler.Emission
import Mos6502.Proofs.Assembler.Encoding
import Mos6502.Proofs.Assembler.Extent
import Mos6502.Proofs.Assembler.Fields
import Mos6502.Proofs.Assembler.Inlining
import Mos6502.Proofs.Assembler.Label
import Mos6502.Proofs.Assembler.Layout
import Mos6502.Proofs.Assembler.Literal
import Mos6502.Proofs.Assembler.Loaded
import Mos6502.Proofs.Assembler.Notation
import Mos6502.Proofs.Assembler.Overwrite
import Mos6502.Proofs.Assembler.Plain
import Mos6502.Proofs.Assembler.Position
import Mos6502.Proofs.Assembler.Program
import Mos6502.Proofs.Assembler.Quotation
import Mos6502.Proofs.Assembler.Rejection
import Mos6502.Proofs.Assembler.Rendering
import Mos6502.Proofs.Assembler.SideBySide
import Mos6502.Proofs.Assembler.Source
import Mos6502.Proofs.Assembler.SourceMap
import Mos6502.Proofs.Assembler.Spelling
import Mos6502.Proofs.Assembler.Stability
import Mos6502.Proofs.Assembler.Width
import Mos6502.Proofs.Assembler.ZeroPage
import Mos6502.Proofs.Index
import Mos6502.Proofs.IntelHex.Acceptance
import Mos6502.Proofs.IntelHex.Canonical
import Mos6502.Proofs.IntelHex.Concatenation
import Mos6502.Proofs.IntelHex.Corruption
import Mos6502.Proofs.IntelHex.Record
import Mos6502.Proofs.IntelHex.RoundTrip
import Mos6502.Proofs.Memory
import Mos6502.Proofs.Processor.Address
import Mos6502.Proofs.Processor.Arithmetic
import Mos6502.Proofs.Processor.Budget
import Mos6502.Proofs.Processor.Changes
import Mos6502.Proofs.Processor.Comparison
import Mos6502.Proofs.Processor.Decimal
import Mos6502.Proofs.Processor.Flow
import Mos6502.Proofs.Processor.Interrupt
import Mos6502.Proofs.Processor.Lifo
import Mos6502.Proofs.Processor.Lockstep
import Mos6502.Proofs.Processor.Modify
import Mos6502.Proofs.Processor.Nesting
import Mos6502.Proofs.Processor.Overrun
import Mos6502.Proofs.Processor.Requests
import Mos6502.Proofs.Processor.StackUse
import Mos6502.Proofs.Processor.Time
import Mos6502.Proofs.Processor.Trace
import Mos6502.Proofs.Processor.Undefined
import Mos6502.Proofs.Result
import Mos6502.Proofs.Runs
import Mos6502.Proofs.Setup
import Mos6502.Proofs.Simulator
import Mos6502.Proofs.Simulator.Report
import Mos6502.Proofs.Table
import Mos6502.Proofs.Text.Lines
import Mos6502.Proofs.Text.Quote
import Mos6502.Proofs.Text.Unquoted
import Mos6502.Proofs.Word
import Mos6502.Register
import Mos6502.Setup
import Mos6502.Simulator
import Mos6502.Status
import Mos6502.Text.Blank
import Mos6502.Text.Cut
import Mos6502.Text.Digit
import Mos6502.Text.Lines
import Mos6502.Text.Quote
import Mos6502.Word
