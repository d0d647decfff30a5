import Wasm.Numeric
import Wasm.Machine.Basic
import Wasm.Bytes.LittleEndian

namespace Wasm

open Stack

inductive Flow
  | next
  | jump (pc : Nat)
  | call (func : Nat)
  | leave
  deriving DecidableEq, Inhabited

def LoadOp.size : LoadOp → Nat
  | full t => t.size
  | narrow n _ => n.bits / 8

def LoadOp.value (v : Nat) : LoadOp → Value
  | full .i32 => .i32 (BitVec.ofNat 32 v)
  | full .i64 => .i64 (BitVec.ofNat 64 v)
  | full .f32 => .f32 (BitVec.ofNat 32 v)
  | full .f64 => .f64 (BitVec.ofNat 64 v)
  | narrow n s => .int n.width (s.resize n.width.bits (BitVec.ofNat n.bits v))

def StoreOp.size : StoreOp → Nat
  | full t => t.size
  | narrow n => n.bits / 8

def StoreOp.popOperand : StoreOp → StackM Nat
  | full .i32 => BitVec.toNat <$> popI32
  | full .i64 => BitVec.toNat <$> popI64
  | full .f32 => BitVec.toNat <$> popF32
  | full .f64 => BitVec.toNat <$> popF64
  | narrow n => BitVec.toNat <$> popInt n.width

def Frame.setLocal (i : Nat) (v : Value) : EStateM Trap Frame Unit := fun f ↦
  match f.locals[i]? with
  | some old =>
    if old.type = v.type then .ok () { f with locals := f.locals.setIfInBounds i v }
    else .error (.typeMismatch old.type v.type) f
  | none => .error (.indexOutOfRange .local_ i) f

namespace Machine

def blockArity : BlockType → Exec (Nat × Nat)
  | .func i => do
    match (BlockType.func i).arity (← instance_).mod.types with
    | some a => return a
    | none => throw (.indexOutOfRange .type i.toNat)
  | t =>
    match t.arity [] with
    | some a => return a
    | none => throw (.malformedControl .blockType)

def blockEnd : Exec BlockEnd := do
  let f ← currentFrame
  onEnds (BlockEnds.find f.func f.body (← get).pc)

def enterBlock (t : BlockType) (isLoop : Bool) : Exec Unit := do
  let (params, arity) ← blockArity t
  let e ← blockEnd
  pushLabel { arity, params, start := (← get).pc, stop := e.endPc, isLoop }

/-- Enter a construct with a condition: at its first instruction if the condition holds, else after
its `else_`. One without an `else_` is then passed over. -/
def enterIf (t : BlockType) : Exec Flow := do
  if (← popI32) ≠ 0 then
    enterBlock t false
    return .next
  let e ← blockEnd
  match e.elsePc with
  | some pc => do
    enterBlock t false
    return .jump (pc + 1)
  | none => return .jump (e.endPc + 1)

def branch (depth : Nat) : Exec Flow := do
  match ← Stack.branch depth with
  | .jump pc => return .jump pc
  | .leave => return .leave

def indirectCallee (type table : Idx) : Exec Nat := do
  let i ← popNat
  let inst ← instance_
  let expected ← check (inst.funcType type.toNat)
  let t ← Heap.table (← check (inst.tableAddr table.toNat))
  match t.elems[i]? with
  | none => throw (.undefinedElement i)
  | some (.funcref (some addr)) => do
    let f ← check ((← get).store.func addr)
    if f.type = expected then
      return addr
    throw .indirectCallTypeMismatch
  | some (.funcref none) => throw (.uninitializedElement i)
  | some v => throw (.typeMismatch .funcref v.type)

def select (condition : BitVec 32) (x y : Value) : Exec Unit :=
  pushValue (if condition ≠ 0 then x else y)

def localGet (i : Nat) : Exec Unit := do
  match (← currentFrame).locals[i]? with
  | some v => pushValue v
  | none => throw (.indexOutOfRange .local_ i)

def setLocal (i : Nat) (v : Value) : Exec Unit :=
  onFrame (Frame.setLocal i v)

def globalGet (i : Nat) : Exec Unit := do
  let g ← Heap.global (← check ((← instance_).globalAddr i))
  pushValue g.value

def globalSet (i : Nat) : Exec Unit := do
  let addr ← check ((← instance_).globalAddr i)
  let v ← popValue
  let g ← Heap.global addr
  if !g.type.mutable then
    throw (.immutableGlobal i)
  Heap.onGlobal addr (Global.set v)

def pushGrown (old : Option Nat) : Exec Unit :=
  pushValue (match old with
    | some n => .ofNat32 n
    | none => .i32 (-1))

def tableGet (table : Idx) : Exec Unit := do
  let i ← popNat
  let v ← Heap.onTable (← tableAddr table) (Table.get i)
  pushValue v

def tableSet (table : Idx) : Exec Unit := do
  let v ← popRef
  let i ← popNat
  Heap.onTable (← tableAddr table) (Table.set i v)

def tableSize (table : Idx) : Exec Unit := do
  let t ← Heap.table (← tableAddr table)
  pushValue (.ofNat32 t.size)

def tableGrow (table : Idx) : Exec Unit := do
  let n ← popNat
  let v ← popRef
  let addr ← tableAddr table
  let s := (← get).store
  pushGrown (← Heap.onTable addr (Table.grow n v s.config.maxTableElements s.allocator))

def tableFill (table : Idx) : Exec Unit := do
  let n ← popNat
  let v ← popRef
  let i ← popNat
  Heap.onTable (← tableAddr table) (Table.fill i v n)

def tableCopy (dst src : Idx) : Exec Unit := do
  let n ← popNat
  let s ← popNat
  let d ← popNat
  let dstAddr ← tableAddr dst
  let srcAddr ← tableAddr src
  Heap.copyTable dstAddr srcAddr d s n

def tableInit (elem table : Idx) : Exec Unit := do
  let n ← popNat
  let s ← popNat
  let d ← popNat
  let inst ← instance_
  let tableAddr ← check (inst.tableAddr table.toNat)
  let refs ← Heap.elem (← check (inst.elemAddr elem.toNat))
  Heap.onTable tableAddr (Table.init d refs s n)

def elemDrop (elem : Idx) : Exec Unit := do
  let _ ← Heap.dropElem (← check ((← instance_).elemAddr elem.toNat))

/-- The address of a memory access: the operand plus the offset, as natural numbers. -/
def effectiveAddr (arg : MemArg) : Exec Nat := do
  return (← popNat) + arg.offset.toNat

def load (op : LoadOp) (arg : MemArg) : Exec Unit := do
  let addr ← effectiveAddr arg
  let bs ← Heap.onMemory (← memoryAddr) (Memory.load addr op.size)
  pushValue (op.value (LittleEndian.decode bs))

def store_ (op : StoreOp) (arg : MemArg) : Exec Unit := do
  let v ← op.popOperand
  let addr ← effectiveAddr arg
  Heap.onMemory (← memoryAddr) (Memory.store addr (LittleEndian.encode op.size v))

def memorySize : Exec Unit := do
  let m ← Heap.memory (← memoryAddr)
  pushValue (.ofNat32 m.pages)

def memoryGrow : Exec Unit := do
  let n ← popNat
  let addr ← memoryAddr
  let s := (← get).store
  pushGrown (← Heap.onMemory addr (Memory.grow n s.config.maxMemoryPages s.allocator))

def memoryInit (data : Idx) : Exec Unit := do
  let n ← popNat
  let s ← popNat
  let d ← popNat
  let inst ← instance_
  let memoryAddr ← check (inst.memoryAddr 0)
  let bytes ← Heap.data (← check (inst.dataAddr data.toNat))
  Heap.onMemory memoryAddr (Memory.init d bytes s n)

def dataDrop (data : Idx) : Exec Unit := do
  let _ ← Heap.dropData (← check ((← instance_).dataAddr data.toNat))

def memoryCopy : Exec Unit := do
  let n ← popNat
  let s ← popNat
  let d ← popNat
  Heap.onMemory (← memoryAddr) (Memory.copy d s n)

def memoryFill : Exec Unit := do
  let n ← popNat
  let b ← popNat
  let d ← popNat
  Heap.onMemory (← memoryAddr) (Memory.fill d (UInt8.ofNat b) n)

def simple : Instr → Exec Unit
  | .refNull t => pushValue (.null t)
  | .refIsNull => do
    let v ← popRef
    pushValue (.ofBool v.isNull)
  | .refFunc f => do
    let addr ← check ((← instance_).funcAddr f.toNat)
    pushValue (.funcref (some addr))
  | .drop => do
    let _ ← popValue
  | .select => do
    let c ← popI32
    let y ← popValue
    let x ← popTyped y.type
    select c x y
  | .selectTyped [t] => do
    let c ← popI32
    let y ← popTyped t
    let x ← popTyped t
    select c x y
  | .selectTyped _ => throw (.malformedControl .typedSelect)
  | .localGet i => localGet i.toNat
  | .localSet i => do
    let v ← popValue
    setLocal i.toNat v
  | .localTee i => do
    let v ← peekValue
    setLocal i.toNat v
  | .globalGet i => globalGet i.toNat
  | .globalSet i => globalSet i.toNat
  | .tableGet t => tableGet t
  | .tableSet t => tableSet t
  | .tableSize t => tableSize t
  | .tableGrow t => tableGrow t
  | .tableFill t => tableFill t
  | .tableCopy d s => tableCopy d s
  | .tableInit e t => tableInit e t
  | .elemDrop e => elemDrop e
  | .load op arg => load op arg
  | .store op arg => store_ op arg
  | .memorySize => memorySize
  | .memoryGrow => memoryGrow
  | .memoryInit d => memoryInit d
  | .dataDrop d => dataDrop d
  | .memoryCopy => memoryCopy
  | .memoryFill => memoryFill
  | .i32Const bits => pushValue (.i32 bits)
  | .i64Const bits => pushValue (.i64 bits)
  | .f32Const bits => pushValue (.f32 bits)
  | .f64Const bits => pushValue (.f64 bits)
  | i => do
    unless ← i.execNumeric do
      throw .unimplemented

def exec (length : Nat) : Instr → Exec Flow
  | .unreachable => throw .unreachable
  | .nop => return .next
  | .block t => do
    enterBlock t false
    return .next
  | .loop t => do
    enterBlock t true
    return .next
  | .if_ t => enterIf t
  | .else_ => return .jump (← currentLabel 0).stop
  | .end_ => do
    if (← get).pc + 1 = length then
      return .leave
    let _ ← popLabel
    return .next
  | .br l => branch l.toNat
  | .brIf l => do
    if (← popI32) ≠ 0 then
      branch l.toNat
    else
      return .next
  | .brTable ls l => do
    let i ← popNat
    branch (ls[i]?.getD l).toNat
  | .return_ => return .leave
  | .call f => return .call (← check ((← instance_).funcAddr f.toNat))
  | .callIndirect type table => return .call (← indirectCallee type table)
  | i => do
    simple i
    return .next

def step : Exec Flow := do
  let body := (← currentFrame).body
  match body[(← get).pc]? with
  | some i => exec body.size i
  | none => throw (.malformedControl .pastEnd)

end Machine

end Wasm
