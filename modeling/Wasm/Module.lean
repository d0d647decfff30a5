import Wasm.Instr.Basic

namespace Wasm

inductive ImportDesc
  | func (type : Idx)
  | table (type : TableType)
  | memory (type : MemoryType)
  | global (type : GlobalType)
  deriving DecidableEq, Inhabited

structure Import where
  source : String
  name : String
  desc : ImportDesc
  deriving DecidableEq, Inhabited

inductive ExternKind
  | func
  | table
  | memory
  | global
  deriving DecidableEq, Inhabited

def ImportDesc.kind : ImportDesc → ExternKind
  | func _ => .func
  | table _ => .table
  | memory _ => .memory
  | global _ => .global

structure Export where
  name : String
  kind : ExternKind
  index : Idx
  deriving DecidableEq, Inhabited

/-- A defined function. Its locals are those beyond the parameters, one entry each. -/
structure FuncDef where
  type : Idx
  locals : List ValType
  body : Code
  deriving DecidableEq, Inhabited

structure GlobalDef where
  type : GlobalType
  init : Code
  deriving DecidableEq, Inhabited

/-- When an element segment is used: on demand, at instantiation, or never. -/
inductive ElemMode
  | passive
  | active (table : Idx) (offset : Code)
  | declarative
  deriving DecidableEq, Inhabited

inductive ElemItems
  | funcs (indices : List Idx)
  | exprs (items : List Code)
  deriving DecidableEq, Inhabited

def ElemItems.length : ElemItems → Nat
  | funcs is => is.length
  | exprs es => es.length

structure ElemSegment where
  type : RefType
  items : ElemItems
  mode : ElemMode
  deriving DecidableEq, Inhabited

inductive DataMode
  | passive
  | active (memory : Idx) (offset : Code)
  deriving DecidableEq, Inhabited

structure DataSegment where
  mode : DataMode
  init : List UInt8
  deriving DecidableEq, Inhabited

structure CustomSection where
  name : String
  payload : List UInt8
  deriving DecidableEq, Inhabited

structure ImportCounts where
  funcs : Nat := 0
  tables : Nat := 0
  memories : Nat := 0
  globals : Nat := 0
  deriving DecidableEq, Inhabited

def ImportCounts.ofImports (imports : List Import) : ImportCounts where
  funcs := imports.countP (·.desc.kind == .func)
  tables := imports.countP (·.desc.kind == .table)
  memories := imports.countP (·.desc.kind == .memory)
  globals := imports.countP (·.desc.kind == .global)

structure Module where
  types : List FuncType := []
  imports : List Import := []
  /-- The type index of each defined function. -/
  funcTypes : List Idx := []
  tables : List TableType := []
  memories : List MemoryType := []
  globals : List GlobalDef := []
  exports : List Export := []
  start : Option Idx := none
  elements : List ElemSegment := []
  functions : List FuncDef := []
  dataCount : Option UInt32 := none
  data : List DataSegment := []
  customs : List CustomSection := []
  imported : ImportCounts := {}
  deriving DecidableEq, Inhabited

namespace Module

def totalFuncs (m : Module) : Nat := m.imported.funcs + m.funcTypes.length

def totalTables (m : Module) : Nat := m.imported.tables + m.tables.length

def totalMemories (m : Module) : Nat := m.imported.memories + m.memories.length

def totalGlobals (m : Module) : Nat := m.imported.globals + m.globals.length

def importedFuncTypes (m : Module) : List Idx :=
  m.imports.filterMap fun i ↦
    match i.desc with
    | .func t => some t
    | _ => none

def funcType? (m : Module) (i : Nat) : Option FuncType := do
  let n := m.imported.funcs
  let t ← if i < n then m.importedFuncTypes[i]? else m.funcTypes[i - n]?
  m.types[t.toNat]?

end Module

end Wasm
