import Wasm.Instr.Basic
import Wasm.Bytes.Vector

namespace Wasm

def LoadOp.ofOpcode? (b : UInt8) : Option LoadOp :=
  if b < 0x28 then none else LoadOp.all[b.toNat - 0x28]?

def StoreOp.ofOpcode? (b : UInt8) : Option StoreOp :=
  if b < 0x36 then none else StoreOp.all[b.toNat - 0x36]?

namespace Reader

def valType : Reader ValType := do
  let start ← offset
  match ValType.ofByte? (← byte) with
  | some t => return t
  | none => fail .valueType start

def refType : Reader RefType := do
  let start ← offset
  match ValType.ofByte? (← byte) with
  | some .funcref => return .funcref
  | some .externref => return .externref
  | _ => fail .referenceType start

def blockType (types : List FuncType) : Reader BlockType := do
  let start ← offset
  let b ← peek
  if b = 0x40 then
    skip 1
    return .empty
  if let some t := ValType.ofByte? b then
    skip 1
    return .value t
  let i ← signed 33
  if i < 0 then
    fail .blockType start
  else if types.length ≤ i.toNat then
    fail .blockTypeIndex start
  else
    return .func (UInt32.ofNat i.toNat)

def memArg : Reader MemArg := do
  let align ← u32
  let offset ← u32
  return { align, offset }

def zeroByte : Reader Unit := do
  let start ← offset
  if (← byte) ≠ 0 then
    fail .zeroByte start

def prefixed (start : Nat) : Reader Instr := do
  let sub ← u32
  match sub.toNat with
  | 8 => do
    let data ← u32
    zeroByte
    return .memoryInit data
  | 9 => return .dataDrop (← u32)
  | 10 => do
    zeroByte
    zeroByte
    return .memoryCopy
  | 11 => do
    zeroByte
    return .memoryFill
  | 12 => do
    let elem ← u32
    let table ← u32
    return .tableInit elem table
  | 13 => return .elemDrop (← u32)
  | 14 => do
    let dst ← u32
    let src ← u32
    return .tableCopy dst src
  | 15 => return .tableGrow (← u32)
  | 16 => return .tableSize (← u32)
  | 17 => return .tableFill (← u32)
  | n =>
    match NumOp.bySubOpcode[n]? with
    | some op => return .numeric op
    | none => throw (.unknownOpcode 0xFC (some n) start)

def regular (start : Nat) (opcode : UInt8) : Reader Instr := do
  if let some op := LoadOp.ofOpcode? opcode then
    return .load op (← memArg)
  if let some op := StoreOp.ofOpcode? opcode then
    return .store op (← memArg)
  match NumOp.ofOpcode? opcode with
  | some op => return .numeric op
  | none => throw (.unknownOpcode opcode.toNat none start)

def instr (types : List FuncType) : Reader Instr := do
  let start ← offset
  let opcode ← byte
  match opcode.toNat with
  | 0x00 => return .unreachable
  | 0x01 => return .nop
  | 0x02 => return .block (← blockType types)
  | 0x03 => return .loop (← blockType types)
  | 0x04 => return .if_ (← blockType types)
  | 0x05 => return .else_
  | 0x0B => return .end_
  | 0x0C => return .br (← u32)
  | 0x0D => return .brIf (← u32)
  | 0x0E => do
    let targets ← vector u32
    let fallback ← u32
    return .brTable targets fallback
  | 0x0F => return .return_
  | 0x10 => return .call (← u32)
  | 0x11 => do
    let type ← u32
    let table ← u32
    return .callIndirect type table
  | 0x1A => return .drop
  | 0x1B => return .select
  | 0x1C => return .selectTyped (← vector valType)
  | 0x20 => return .localGet (← u32)
  | 0x21 => return .localSet (← u32)
  | 0x22 => return .localTee (← u32)
  | 0x23 => return .globalGet (← u32)
  | 0x24 => return .globalSet (← u32)
  | 0x25 => return .tableGet (← u32)
  | 0x26 => return .tableSet (← u32)
  | 0x3F => do
    zeroByte
    return .memorySize
  | 0x40 => do
    zeroByte
    return .memoryGrow
  | 0x41 => return .i32Const (← word 32)
  | 0x42 => return .i64Const (← word 64)
  | 0x43 => return .f32Const (BitVec.ofNat 32 (← littleEndian 4))
  | 0x44 => return .f64Const (BitVec.ofNat 64 (← littleEndian 8))
  | 0xD0 => return .refNull (← refType)
  | 0xD1 => return .refIsNull
  | 0xD2 => return .refFunc (← u32)
  | 0xFC => prefixed start
  | _ => regular start opcode

/-- Instructions up to and including the `end_` that closes depth 0, inside `depth` open
constructs. Every instruction takes a byte, so that one more step than there are bytes is never
used up. -/
def exprFrom (types : List FuncType) : (steps depth : Nat) → Reader (List Instr)
  | 0, _ => do throw (.unexpectedEnd (← offset))
  | n + 1, depth => do
    let i ← instr types
    match i, depth with
    | .end_, 0 => return [i]
    | .end_, d + 1 => return i :: (← exprFrom types n d)
    | _, d => return i :: (← exprFrom types n (if i.opens then d + 1 else d))

def expr (types : List FuncType) : Reader Code := do
  let is ← exprFrom types ((← get).remaining + 1) 0
  return is.toArray

def instrsFrom (types : List FuncType) : (steps : Nat) → Reader (List Instr)
  | 0 => return []
  | n + 1 => do
    if (← get).atEnd then
      return []
    let i ← instr types
    return i :: (← instrsFrom types n)

def instrs (types : List FuncType) : Reader Code := do
  let is ← instrsFrom types ((← get).remaining + 1)
  return is.toArray

end Reader

end Wasm
