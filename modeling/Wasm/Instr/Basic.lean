import Wasm.Instr.NumOp

namespace Wasm

abbrev Idx := UInt32

inductive BlockType
  | empty
  /-- No parameter and one result. -/
  | value (t : ValType)
  /-- The parameters and results of a function type. -/
  | func (type : Idx)
  deriving DecidableEq, Inhabited

/-- Number of parameters and number of results of a construct; `none` if its type is not among
`types`. -/
def BlockType.arity (types : List FuncType) : BlockType → Option (Nat × Nat)
  | .empty => some (0, 0)
  | .value _ => some (0, 1)
  | .func i => types[i.toNat]?.map fun t ↦ (t.params.length, t.results.length)

/-- The immediates of a memory access: an alignment hint, and an offset added to the address. -/
structure MemArg where
  align : UInt32
  offset : UInt32
  deriving DecidableEq, Inhabited

inductive NumType
  | i32 | i64 | f32 | f64
  deriving DecidableEq, Inhabited

@[reducible] def NumType.size : NumType → Nat
  | .i32 | .f32 => 4
  | .i64 | .f64 => 8

inductive LoadOp
  | full (t : NumType)
  | narrow (n : Narrow) (s : Sign)
  deriving DecidableEq, Inhabited

inductive StoreOp
  | full (t : NumType)
  | narrow (n : Narrow)
  deriving DecidableEq, Inhabited

def NumType.all : List NumType := [.i32, .i64, .f32, .f64]

def LoadOp.all : List LoadOp :=
  NumType.all.map .full ++ Narrow.all.flatMap fun n ↦ Sign.all.map (.narrow n)

def StoreOp.all : List StoreOp :=
  NumType.all.map .full ++ Narrow.all.map .narrow

inductive Instr
  | unreachable
  | nop
  | block (type : BlockType)
  | loop (type : BlockType)
  | if_ (type : BlockType)
  | else_
  | end_
  | br (label : Idx)
  | brIf (label : Idx)
  | brTable (targets : List Idx) (fallback : Idx)
  | return_
  | call (func : Idx)
  | callIndirect (type table : Idx)
  | refNull (t : RefType)
  | refIsNull
  | refFunc (func : Idx)
  | drop
  | select
  | selectTyped (types : List ValType)
  | localGet (i : Idx)
  | localSet (i : Idx)
  | localTee (i : Idx)
  | globalGet (i : Idx)
  | globalSet (i : Idx)
  | tableGet (table : Idx)
  | tableSet (table : Idx)
  | tableInit (elem table : Idx)
  | elemDrop (elem : Idx)
  | tableCopy (dst src : Idx)
  | tableGrow (table : Idx)
  | tableSize (table : Idx)
  | tableFill (table : Idx)
  | load (op : LoadOp) (arg : MemArg)
  | store (op : StoreOp) (arg : MemArg)
  | memorySize
  | memoryGrow
  | memoryInit (data : Idx)
  | dataDrop (data : Idx)
  | memoryCopy
  | memoryFill
  | i32Const (bits : BitVec 32)
  | i64Const (bits : BitVec 64)
  | f32Const (bits : BitVec 32)
  | f64Const (bits : BitVec 64)
  | numeric (op : NumOp)
  deriving DecidableEq, Inhabited

def Instr.opens : Instr → Bool
  | .block _ | .loop _ | .if_ _ => true
  | _ => false

/-- An instruction sequence: a function body, an initializer or an offset. -/
abbrev Code := Array Instr

end Wasm
