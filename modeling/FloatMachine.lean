import FloatMachine.Binary32.Shortest
import FloatMachine.Command.Assembler
import FloatMachine.Command.Runner
import FloatMachine.Derive.MessageCode
import FloatMachine.Main
import FloatMachine.Program.Schema
import FloatMachine.Proofs.CodecExact
import FloatMachine.Proofs.ProgramImage
import FloatMachine.Proofs.TextForm
import FloatMachine.Proofs.Assembled
import FloatMachine.Proofs.Steps
import FloatMachine.Proofs.Runs
import FloatMachine.Proofs.Needs
import FloatMachine.Proofs.Capacity
import FloatMachine.Proofs.Faults
import FloatMachine.Proofs.Rounding
import FloatMachine.Proofs.Nearest
import FloatMachine.Proofs.StackPointer
import FloatMachine.Proofs.Grammar
import FloatMachine.Proofs.SourceText
import FloatMachine.Proofs.SourceProgram
import FloatMachine.Proofs.Columns
import FloatMachine.Proofs.Slices
import FloatMachine.Proofs.DecimalText
import FloatMachine.Proofs.Mapped
import FloatMachine.Proofs.Untexted
import FloatMachine.Proofs.Listing
import FloatMachine.Proofs.Parts
import FloatMachine.Proofs.Hidden
import FloatMachine.Proofs.History
import FloatMachine.Proofs.SourceLines
import FloatMachine.Proofs.Jumps
import FloatMachine.Proofs.Calls
import FloatMachine.Proofs.Values
import FloatMachine.Proofs.Numbers
import FloatMachine.Proofs.Equality
import FloatMachine.Proofs.StraightLine
import FloatMachine.Proofs.SavedPointer
import FloatMachine.Proofs.Persistence
import FloatMachine.Proofs.Peripherals
import FloatMachine.Proofs.Characters
import FloatMachine.Proofs.Segments
import FloatMachine.Proofs.Accesses
import FloatMachine.Proofs.Frame
import FloatMachine.Proofs.Nesting
import FloatMachine.Proofs.Renumbered
import FloatMachine.Proofs.InOrder
import FloatMachine.Proofs.Blame
import FloatMachine.Proofs.Joined
import FloatMachine.Proofs.Lookahead
import FloatMachine.Proofs.Truncation
import FloatMachine.Proofs.PrefixFree
import FloatMachine.Proofs.CanonicalText
import FloatMachine.Proofs.Caret
import FloatMachine.Proofs.TableText
import FloatMachine.Proofs.Gregorian
import FloatMachine.Proofs.DerivedCodec
import FloatMachine.Proofs.Placeholders
