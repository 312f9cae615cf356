import ClassPatch.Bytes.Cursor
import ClassPatch.Text.Modified
import ClassPatch.Text.Quoted
import ClassPatch.Describe
import ClassPatch.Decimal.Float
import ClassPatch.Descriptor
import ClassPatch.Member
import ClassPatch.Version
import ClassPatch.Pool.Basic
import ClassPatch.Instruction.Simple
import ClassPatch.InstructionList
import ClassPatch.Class
import ClassPatch.Bytecode.Targets
import ClassPatch.Class.Read
import ClassPatch.Class.Write
import ClassPatch.Patch.Archive
import ClassPatch.Main
import ClassPatch.Proofs.Code.Encoding
import ClassPatch.Proofs.Flow.Declared
import ClassPatch.Proofs.Class.FixedPoint
import ClassPatch.Proofs.Config.TickLength
import ClassPatch.Proofs.Code.Framing
import ClassPatch.Proofs.InstructionList.Refinement
import ClassPatch.Proofs.Pool.Rewriting
import ClassPatch.Proofs.InstructionList.Plain
import ClassPatch.Proofs.StackMap.Resolving
import ClassPatch.Proofs.Flow.Substituting
import ClassPatch.Proofs.Patch.Simultaneous
import ClassPatch.Proofs.Config.TickAnalysis
import ClassPatch.Proofs.Bytecode.Finding
import ClassPatch.Proofs.Bytecode.Format
import ClassPatch.Proofs.Code.Format
import ClassPatch.Proofs.Code.Referring
import ClassPatch.Proofs.Config.DisplayUpdate
import ClassPatch.Proofs.Flow.Sizes
import ClassPatch.Proofs.Flow.Objects
import ClassPatch.Proofs.Bytecode.Attempts
import ClassPatch.Proofs.Hierarchy.Common
import ClassPatch.Proofs.Descriptor.Grammar
import ClassPatch.Proofs.InstructionList.Ordering
import ClassPatch.Proofs.Code.Ranges
import ClassPatch.Proofs.Frame.Arrival
import ClassPatch.Proofs.Descriptor.Slots
import ClassPatch.Proofs.Patch.Untouched
import ClassPatch.Proofs.Bytecode.Passes
import ClassPatch.Proofs.Flow.Halves
