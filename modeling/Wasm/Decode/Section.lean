import Wasm.Module
import Wasm.Decode.Instr

namespace Wasm

inductive SectionId
  | custom
  | type
  | import_
  | function
  | table
  | memory
  | global
  | export_
  | start
  | element
  | code
  | data
  | dataCount
  deriving DecidableEq, Inhabited

namespace SectionId

def all : List SectionId :=
  [custom, type, import_, function, table, memory, global, export_, start, element, code, data,
    dataCount]

def toNat : SectionId → Nat
  | custom => 0
  | type => 1
  | import_ => 2
  | function => 3
  | table => 4
  | memory => 5
  | global => 6
  | export_ => 7
  | start => 8
  | element => 9
  | code => 10
  | data => 11
  | dataCount => 12

def ofByte? (b : UInt8) : Option SectionId :=
  all[b.toNat]?

/-- Position of a section in a module. The data count stands between the elements and the code,
although its id is the largest. -/
def order : SectionId → Nat
  | dataCount => 10
  | code => 11
  | data => 12
  | s => s.toNat

def describe : SectionId → String
  | custom => "Custom"
  | type => "Type"
  | import_ => "Import"
  | function => "Function"
  | table => "Table"
  | memory => "Memory"
  | global => "Global"
  | export_ => "Export"
  | start => "Start"
  | element => "Element"
  | code => "Code"
  | data => "Data"
  | dataCount => "DataCount"

end SectionId

structure SectionHeader where
  id : SectionId
  size : UInt32
  offset : Nat
  deriving DecidableEq, Inhabited

structure Body where
  locals : List ValType
  code : Code
  deriving DecidableEq, Inhabited

inductive Section
  | custom (c : CustomSection)
  | types (ts : List FuncType)
  | imports (is : List Import)
  | funcTypes (is : List Idx)
  | tables (ts : List TableType)
  | memories (ts : List MemoryType)
  | globals (gs : List GlobalDef)
  | exports (es : List Export)
  | start (func : Idx)
  | elements (es : List ElemSegment)
  | bodies (bs : List Body)
  | data (ds : List DataSegment)
  | dataCount (n : UInt32)
  deriving DecidableEq, Inhabited

def maxLocals : Nat := 50000

namespace Reader

def sectionHeader : Reader SectionHeader := do
  let start ← offset
  let b ← byte
  match SectionId.ofByte? b with
  | none => throw (.unknownSection b.toNat start)
  | some id => do
    let size ← u32
    return { id, size, offset := ← offset }

def limits : Reader Limits := do
  let start ← offset
  match (← byte).toNat with
  | 0 => return { min := ← u32 }
  | 1 => do
    let min ← u32
    let max ← u32
    if max < min then
      fail .limitsOrder start
    else
      return { min, max := some max }
  | _ => fail .limitsFlag start

def funcType : Reader FuncType := do
  let start ← offset
  if (← byte) ≠ 0x60 then
    fail .funcTypeForm start
  else
    let params ← vector valType
    let results ← vector valType
    return { params, results }

def tableType : Reader TableType := do
  let elem ← refType
  let limits ← limits
  return { elem, limits }

def memoryType : Reader MemoryType := do
  return { limits := ← limits }

def globalType : Reader GlobalType := do
  let value ← valType
  let start ← offset
  match (← byte).toNat with
  | 0 => return { value, mutable := false }
  | 1 => return { value, mutable := true }
  | _ => fail .mutability start

def importDesc : Reader ImportDesc := do
  let start ← offset
  match (← byte).toNat with
  | 0 => return .func (← u32)
  | 1 => return .table (← tableType)
  | 2 => return .memory (← memoryType)
  | 3 => return .global (← globalType)
  | _ => fail .importKind start

def import_ : Reader Import := do
  let source ← name
  let name ← name
  let desc ← importDesc
  return { source, name, desc }

def exportKind : Reader ExternKind := do
  let start ← offset
  match (← byte).toNat with
  | 0 => return .func
  | 1 => return .table
  | 2 => return .memory
  | 3 => return .global
  | _ => fail .exportKind start

def export_ : Reader Export := do
  let name ← name
  let kind ← exportKind
  let index ← u32
  return { name, kind, index }

def globalDef (types : List FuncType) : Reader GlobalDef := do
  let type ← globalType
  let init ← expr types
  return { type, init }

def elemKind : Reader RefType := do
  let start ← offset
  if (← byte) ≠ 0 then
    fail .elementKind start
  else
    return .funcref

def funcItems : Reader ElemItems :=
  .funcs <$> vector u32

def exprItems (types : List FuncType) : Reader ElemItems :=
  .exprs <$> vector (expr types)

/-- An element segment. Of the bits of its flags, the lowest tells a segment that is not applied at
instantiation, the next an explicit table or a segment that is never used, and the third items that
are code instead of function indices. -/
def elemSegment (types : List FuncType) : Reader ElemSegment := do
  let start ← offset
  match (← u32).toNat with
  | 0 => do
    let offset ← expr types
    let items ← funcItems
    return { type := .funcref, items, mode := .active 0 offset }
  | 1 => do
    let type ← elemKind
    let items ← funcItems
    return { type, items, mode := .passive }
  | 2 => do
    let table ← u32
    let offset ← expr types
    let type ← elemKind
    let items ← funcItems
    return { type, items, mode := .active table offset }
  | 3 => do
    let type ← elemKind
    let items ← funcItems
    return { type, items, mode := .declarative }
  | 4 => do
    let offset ← expr types
    let items ← exprItems types
    return { type := .funcref, items, mode := .active 0 offset }
  | 5 => do
    let type ← refType
    let items ← exprItems types
    return { type, items, mode := .passive }
  | 6 => do
    let table ← u32
    let offset ← expr types
    let type ← refType
    let items ← exprItems types
    return { type, items, mode := .active table offset }
  | 7 => do
    let type ← refType
    let items ← exprItems types
    return { type, items, mode := .declarative }
  | _ => fail .elementFlags start

def dataMode (types : List FuncType) : Reader DataMode := do
  let start ← offset
  match (← u32).toNat with
  | 0 => return .active 0 (← expr types)
  | 1 => return .passive
  | 2 => do
    let memory ← u32
    return .active memory (← expr types)
  | _ => fail .dataFlags start

def dataSegment (types : List FuncType) : Reader DataSegment := do
  let mode ← dataMode types
  let init ← byteVector
  return { mode, init }

def localGroup : Reader (Nat × ValType) := do
  let count ← u32
  let type ← valType
  return (count.toNat, type)

def locals : Reader (List ValType) := do
  let start ← offset
  let groups ← vector localGroup
  if maxLocals < groups.foldl (fun n g ↦ n + g.1) 0 then
    fail .tooManyLocals start
  else
    return groups.flatMap fun g ↦ List.replicate g.1 g.2

def bodyContents (types : List FuncType) : Reader Body := do
  let locals ← locals
  let code ← expr types
  let c ← get
  if c.atEnd then
    return { locals, code }
  fail .bodySize c.offset

def body (types : List FuncType) : Reader Body := do
  let size ← u32
  let c ← sub size.toNat
  return (← inside c (bodyContents types)).1

/-- A custom section: a name, and the rest of the payload. -/
def custom : Reader CustomSection := do
  let name ← name
  let payload ← bytes (← get).remaining
  return { name, payload }

def payload (types : List FuncType) : SectionId → Reader Section
  | .custom => .custom <$> custom
  | .type => .types <$> vector funcType
  | .import_ => .imports <$> vector import_
  | .function => .funcTypes <$> vector u32
  | .table => .tables <$> vector tableType
  | .memory => .memories <$> vector memoryType
  | .global => .globals <$> vector (globalDef types)
  | .export_ => .exports <$> vector export_
  | .start => .start <$> u32
  | .element => .elements <$> vector (elemSegment types)
  | .code => .bodies <$> vector (body types)
  | .data => .data <$> vector (dataSegment types)
  | .dataCount => .dataCount <$> u32

end Reader

end Wasm
