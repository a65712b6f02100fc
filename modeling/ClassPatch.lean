import ClassPatch.Agent
import ClassPatch.Bytes.Cursor
import ClassPatch.Bytes.Word
import ClassPatch.ClassFile.AccessFlags
import ClassPatch.ClassFile.Attribute
import ClassPatch.ClassFile.Basic
import ClassPatch.ClassFile.Codec
import ClassPatch.ClassFile.Edit
import ClassPatch.ClassFile.Member
import ClassPatch.Code.Assembly
import ClassPatch.Code.Body
import ClassPatch.Code.Decode
import ClassPatch.Code.Disassembly
import ClassPatch.Code.Encode
import ClassPatch.Code.Frame
import ClassPatch.Code.Instruction
import ClassPatch.Code.Jump
import ClassPatch.Code.LabelTable
import ClassPatch.Code.Layout
import ClassPatch.Code.Opcode
import ClassPatch.Code.StackMap
import ClassPatch.Code.Tables
import ClassPatch.Code.VerificationType
import ClassPatch.Config
import ClassPatch.ConstantPool.Basic
import ClassPatch.ConstantPool.Codec
import ClassPatch.ConstantPool.Constant
import ClassPatch.Descriptor.FieldType
import ClassPatch.Descriptor.Method
import ClassPatch.Dispatch
import ClassPatch.Error
import ClassPatch.Fault
import ClassPatch.Flow.Graph
import ClassPatch.Flow.Solution
import ClassPatch.Flow.State
import ClassPatch.Flow.Transfer
import ClassPatch.Notice
import ClassPatch.Patch.Basic
import ClassPatch.Patch.ConstantResult
import ClassPatch.Patch.ForcedJump
import ClassPatch.Patch.Machine
import ClassPatch.Patch.Pipeline
import ClassPatch.Patch.PropertyGuard
import ClassPatch.Patch.Target
import ClassPatch.Patch.Transform
import ClassPatch.Registry.Basic
import ClassPatch.Registry.Builtin
import ClassPatch.Text.Blank
import ClassPatch.Text.Decimal
import ClassPatch.Text.ModifiedUtf8
import ClassPatch.Text.Printable
import ClassPatch.Text.Shown
import ClassPatch.Text.Utf16
import ClassPatch.Proofs.Bytes.Reading
import ClassPatch.Proofs.ConstantPool.Growth
import ClassPatch.Proofs.ConstantPool.Interning
import ClassPatch.Proofs.Code.Targets
import ClassPatch.Proofs.Code.InstructionCodec
import ClassPatch.Proofs.Code.Placement
import ClassPatch.Proofs.Code.Readable
import ClassPatch.Proofs.Code.Writer
import ClassPatch.Proofs.Flow.Merging
import ClassPatch.Proofs.Flow.Solving
import ClassPatch.Proofs.Flow.Reachability
import ClassPatch.Proofs.Code.Lowering
import ClassPatch.Proofs.Code.Rounds
import ClassPatch.Proofs.Code.CodeBytes
import ClassPatch.Proofs.Code.TableCodec
import ClassPatch.Proofs.Code.StackMapCodec
import ClassPatch.Proofs.Code.Labels
import ClassPatch.Proofs.Code.Rebuilding
import ClassPatch.Proofs.Code.Listing
import ClassPatch.Proofs.Code.Reread
import ClassPatch.Proofs.Code.Relabelling
import ClassPatch.Proofs.Code.RereadBody
import ClassPatch.Proofs.Code.Decodable
import ClassPatch.Proofs.Patch.Rewriting
import ClassPatch.Proofs.Code.Recoding
import ClassPatch.Proofs.Patch.Atomicity
import ClassPatch.Proofs.Flow.Safety
import ClassPatch.Proofs.Code.Decoding
import ClassPatch.Proofs.Code.Limits
import ClassPatch.Proofs.Patch.ConstantResult
import ClassPatch.Proofs.Flow.Consistency
import ClassPatch.Proofs.Flow.Operations
import ClassPatch.Proofs.Flow.Words
import ClassPatch.Proofs.Flow.Heights
import ClassPatch.Proofs.Flow.Receiving
import ClassPatch.Proofs.Flow.Lockstep
import ClassPatch.Proofs.Flow.Places
import ClassPatch.Proofs.Flow.Sites
import ClassPatch.Proofs.Flow.Pruning
import ClassPatch.Proofs.Code.Reached
import ClassPatch.Proofs.Code.Emission
import ClassPatch.Proofs.Code.LocalSlots
import ClassPatch.Proofs.Code.Coverage
import ClassPatch.Proofs.Code.FrameTable
import ClassPatch.Proofs.ConstantPool.Codec
import ClassPatch.Proofs.ClassFile.Codec
import ClassPatch.Proofs.Patch.Planning
import ClassPatch.Proofs.Code.LargerPools
import ClassPatch.Proofs.Patch.ForcedJump
import ClassPatch.Proofs.Patch.PropertyGuard
import ClassPatch.Proofs.Patch.Idempotence
import ClassPatch.Proofs.ClassFile.Growth
import ClassPatch.Proofs.Code.FrameNames
import ClassPatch.Proofs.Code.Relayout
import ClassPatch.Proofs.Code.Repeating
import ClassPatch.Proofs.Bytes.Taking
import ClassPatch.Proofs.ClassFile.Canonical
import ClassPatch.Proofs.Patch.Producible
import ClassPatch.Proofs.Code.LineTable
import ClassPatch.Proofs.Code.Widening
import ClassPatch.Proofs.Code.Agreement
import ClassPatch.Proofs.Flow.Course
import ClassPatch.Proofs.Flow.Levels
import ClassPatch.Proofs.Flow.Standing
import ClassPatch.Proofs.Flow.Copies
import ClassPatch.Proofs.Flow.Locals
import ClassPatch.Proofs.Code.Reanalysis
import ClassPatch.Proofs.Code.FixedPoint
import ClassPatch.Proofs.ConstantPool.FirstIndex
import ClassPatch.Proofs.Patch.AppendOnly
import ClassPatch.Proofs.Agent.Schedule
import ClassPatch.Proofs.Agent.Versions
import ClassPatch.Proofs.Code.LabelSupply
import ClassPatch.Proofs.Code.LabelNumbers
import ClassPatch.Proofs.Patch.LabelKeeping
import ClassPatch.Proofs.Flow.Faults
import ClassPatch.Proofs.Code.LabelRounds
import ClassPatch.Proofs.Code.LabelFaults
import ClassPatch.Proofs.Patch.LabelDiscipline
import ClassPatch.Proofs.Patch.MarkedJumps
import ClassPatch.Proofs.Patch.GuardPlacement
import ClassPatch.Proofs.Code.Execution
import ClassPatch.Proofs.Flow.Paths
import ClassPatch.Proofs.Patch.GuardMeaning
import ClassPatch.Proofs.Patch.ForcedFlow
import ClassPatch.Proofs.Patch.SecondRun
import ClassPatch.Proofs.Patch.LenientMarkers
import ClassPatch.Proofs.ConstantPool.Room
import ClassPatch.Proofs.Code.StackMapRecovery
import ClassPatch.Proofs.Code.StackMapForms
import ClassPatch.Proofs.Flow.Effort
import ClassPatch.Proofs.Flow.Declaring
import ClassPatch.Proofs.Code.BranchTargets
import ClassPatch.Proofs.Code.TableBytes
import ClassPatch.Proofs.Text.Spelling
import ClassPatch.Proofs.ConstantPool.TextLookup
import ClassPatch.Proofs.Bytes.Missing
import ClassPatch.Proofs.ClassFile.Length
import ClassPatch.Proofs.ClassFile.FailedEdits
import ClassPatch.Proofs.Descriptor.Grammar
import ClassPatch.Proofs.Descriptor.Slots
import ClassPatch.Proofs.Registry.History
import ClassPatch.Proofs.Agent.Selection
import ClassPatch.Proofs.Bytes.Bounds
import ClassPatch.Proofs.Agent.Configuration
import ClassPatch.Proofs.Code.UnguardedWriter
