import Wasm.Types
import Wasm.Value
import Wasm.Trap
import Wasm.Instr.NumOp
import Wasm.Instr.Basic
import Wasm.Describe
import Wasm.Bytes.Error
import Wasm.Bytes.LittleEndian
import Wasm.Bytes.LittleEndian.Lemmas
import Wasm.Bytes.Cursor
import Wasm.Bytes.Leb128
import Wasm.Bytes.Vector
import Wasm.Module
import Wasm.Decode.Instr
import Wasm.Decode.Section
import Wasm.Decode.Module
import Wasm.Integer
import Wasm.Fp.Format
import Wasm.Fp.Round
import Wasm.Fp.Arith
import Wasm.Slot
import Wasm.Stack
import Wasm.Numeric
import Wasm.BlockEnd
import Wasm.Memory
import Wasm.Table
import Wasm.Global
import Wasm.Heap
import Wasm.Assoc
import Wasm.Link.Error
import Wasm.Host
import Wasm.Store
import Wasm.Machine.Basic
import Wasm.Machine.Step
import Wasm.Machine.Run
import Wasm.Link.Instantiate
import Wasm.Engine
import Wasm.Host.Functions
import Wasm.Proofs.Outcome
import Wasm.Proofs.Stack.Activation
import Wasm.Proofs.Stack.Effects
import Wasm.Proofs.Machine.Scope
import Wasm.Proofs.Machine.Instructions
import Wasm.Proofs.Machine.Moves
import Wasm.Proofs.Machine.Advance
import Wasm.Proofs.Machine.Reachable
import Wasm.Proofs.Machine.Isolation
import Wasm.Proofs.Calls
import Wasm.Proofs.Machine.Labels
import Wasm.Proofs.Machine.Runs
import Wasm.Proofs.Instantiate
import Wasm.Proofs.Engine
import Wasm.Proofs.Decode.Bracketing
import Wasm.Proofs.Decode.WellFormed
import Wasm.Proofs.Enclosing
import Wasm.Proofs.Structured
import Wasm.Proofs.Structured.Runs
import Wasm.Proofs.Structured.Calls
import Wasm.Proofs.Structured.Simulation
import Wasm.Proofs.Structured.Refinement
import Wasm.Proofs.Encode
import Wasm.Proofs.Encode.Reads
import Wasm.Proofs.Encode.Instr
import Wasm.Proofs.Encode.RoundTrip
import Wasm.Proofs.Decode.Relocation
import Wasm.Proofs.Decode.Sections
import Wasm.Proofs.Decode.Framing
import Wasm.Proofs.Store
import Wasm.Proofs.Stack.Contents
import Wasm.Proofs.Heap
import Wasm.Proofs.Policy
import Wasm.Proofs.Policy.Instructions
import Wasm.Proofs.Policy.Runs
import Wasm.Proofs.Sandbox
import Wasm.Proofs.Policy.Link
import Wasm.Proofs.Policy.Instantiate
import Wasm.Proofs.Policy.Host
import Wasm.Proofs.Evolution
import Wasm.Proofs.Addresses
import Wasm.Proofs.Linking.Entries
import Wasm.Proofs.Linking
import Wasm.Proofs.Results
import Wasm.Proofs.References
import Wasm.Proofs.Respects
import Wasm.Proofs.Stack.Changes
import Wasm.Proofs.Heap.Atomicity
import Wasm.Proofs.Machine.Programs
import Wasm.Proofs.Machine.Laws
import Wasm.Proofs.Atomicity
import Wasm.Proofs.Growth
import Wasm.Proofs.Frames
import Wasm.Proofs.Caps
import Wasm.Proofs.Machine.Seeking
import Wasm.Proofs.Cache
import Wasm.Proofs.Reentrancy
import Wasm.Proofs.Decode.Numbers
import Wasm.Proofs.Decode.Expressions
import Wasm.Proofs.Linking.Definitions
import Wasm.Proofs.Linking.Constants
import Wasm.Proofs.Linking.Placement
import Wasm.Proofs.Linking.Segments
import Wasm.Proofs.Linking.Failures
import Wasm.Proofs.Stack.Coherence
import Wasm.Proofs.Stack.Unwinding
import Wasm.Proofs.Memory
import Wasm.Proofs.Machine.Operands
import Wasm.Proofs.ScalarAccess
import Wasm.Proofs.TableCopy
import Wasm.Proofs.Numeric.Signatures
import Wasm.Proofs.Numeric.Integers
import Wasm.Proofs.Machine.Traps
import Wasm.Proofs.Numeric.Dispatch
import Wasm.Proofs.Matching
import Wasm.Proofs.Decode.Insertion
import Wasm.Proofs.Decode.Totals
import Wasm.Proofs.Decode.Work
import Wasm.Proofs.Decode.Offsets
