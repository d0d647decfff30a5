import Wasm.Types

namespace Wasm

inductive ControlFault
  | pastEnd
  | noFrame
  | frameIndex
  | labelDepth
  | strayEnd
  | unterminatedBlock
  | blockType
  | typedSelect
  deriving DecidableEq, Inhabited

def ControlFault.message : ControlFault → String
  | pastEnd => "execution ran past the end of a body"
  | noFrame => "no active frame"
  | frameIndex => "frame index out of sync"
  | labelDepth => "label depth exceeds nesting"
  | strayEnd => "end without open block"
  | unterminatedBlock => "unterminated block"
  | blockType => "block type"
  | typedSelect => "typed select needs one type"

inductive Space
  | func
  | table
  | memory
  | global
  | elem
  | data
  | type
  | local_
  deriving DecidableEq, Inhabited

def Space.name : Space → String
  | func => "function"
  | table => "table"
  | memory => "memory"
  | global => "global"
  | elem => "element segment"
  | data => "data segment"
  | type => "type"
  | local_ => "local"

inductive Entity
  | instance_
  | func
  | table
  | memory
  | global
  | elem
  | data
  | body
  deriving DecidableEq, Inhabited

def Entity.name : Entity → String
  | instance_ => "module"
  | func => "function"
  | table => "table"
  | memory => "memory"
  | global => "global"
  | elem => "element segment"
  | data => "data segment"
  | body => "function body"

inductive Trap
  | unreachable
  | stackUnderflow
  | stackOverflow
  | callStackExhausted
  | typeMismatch (expected found : ValType)
  | divisionByZero
  | integerOverflow
  | invalidConversion
  | memoryOutOfBounds (addr len : Nat)
  | tableOutOfBounds
  | undefinedElement (index : Nat)
  | uninitializedElement (index : Nat)
  | indirectCallTypeMismatch
  | indexOutOfRange (space : Space) (index : Nat)
  | invalidAddress (entity : Entity) (addr : Nat)
  | immutableGlobal (index : Nat)
  | exportNotFound (name : String)
  | notAFunction (name : String)
  | argumentMismatch (expected found : Nat)
  | malformedControl (fault : ControlFault)
  /-- A failure that a host function reports. -/
  | host (message : String)
  /-- A host function that breaks its declared type. -/
  | hostResults (returned expected : Nat)
  | unimplemented
  deriving DecidableEq, Inhabited

def Trap.message : Trap → String
  | unreachable => "unreachable executed"
  | stackUnderflow => "stack underflow"
  | stackOverflow => "value stack exhausted"
  | callStackExhausted => "call stack exhausted"
  | typeMismatch expected found =>
    "type mismatch: expected " ++ expected.name ++ ", found " ++ found.name
  | divisionByZero => "integer divide by zero"
  | integerOverflow => "integer overflow"
  | invalidConversion => "invalid conversion to integer"
  | memoryOutOfBounds addr len => s!"out of bounds memory access at {addr} (+{len})"
  | tableOutOfBounds => "out of bounds table access"
  | undefinedElement index => s!"undefined element {index}"
  | uninitializedElement index => s!"uninitialized element {index}"
  | indirectCallTypeMismatch => "indirect call type mismatch"
  | indexOutOfRange space index => space.name ++ s!" index {index} out of range"
  | invalidAddress entity addr => "invalid " ++ entity.name ++ s!" address {addr}"
  | immutableGlobal index => s!"global {index} is immutable"
  | exportNotFound name => "export not found: " ++ name
  | notAFunction name => "export " ++ name ++ " is not a function"
  | argumentMismatch expected found =>
    s!"argument mismatch: expected {expected} values, got {found}"
  | malformedControl fault => "malformed control flow: " ++ fault.message
  | host message => "host error: " ++ message
  | hostResults returned expected =>
    s!"host error: host function returned {returned} values, expected {expected}"
  | unimplemented => "unimplemented: instruction"

end Wasm
