import Wasm.Memory
import Wasm.Table
import Wasm.Global
import Wasm.Slot

namespace Wasm

structure Heap where
  tables : Array Table := #[]
  memories : Array Memory := #[]
  globals : Array Global := #[]
  /-- The references of the element segments, none once a segment is dropped. -/
  elems : Array (Array Value) := #[]
  /-- The bytes of the data segments, none once a segment is dropped. -/
  datas : Array (List UInt8) := #[]
  deriving Inhabited

/-- Operations on a heap. The heap after a failure is part of the result. -/
abbrev HeapM := EStateM Trap Heap

namespace Heap

variable {α : Type}

def onTable (addr : Nat) (op : TableM α) : HeapM α :=
  fun ⟨tables, memories, globals, elems, datas⟩ ↦
  if h : addr < tables.size then
    match onSlot op tables addr h with
    | .ok a tables => .ok a ⟨tables, memories, globals, elems, datas⟩
    | .error t tables => .error t ⟨tables, memories, globals, elems, datas⟩
  else
    .error (.invalidAddress .table addr) ⟨tables, memories, globals, elems, datas⟩

def onMemory (addr : Nat) (op : MemoryM α) : HeapM α :=
  fun ⟨tables, memories, globals, elems, datas⟩ ↦
  if h : addr < memories.size then
    match onSlot op memories addr h with
    | .ok a memories => .ok a ⟨tables, memories, globals, elems, datas⟩
    | .error t memories => .error t ⟨tables, memories, globals, elems, datas⟩
  else
    .error (.invalidAddress .memory addr) ⟨tables, memories, globals, elems, datas⟩

def onGlobal (addr : Nat) (op : EStateM Trap Global α) : HeapM α :=
  fun ⟨tables, memories, globals, elems, datas⟩ ↦
    if h : addr < globals.size then
      match onSlot op globals addr h with
      | .ok a globals => .ok a ⟨tables, memories, globals, elems, datas⟩
      | .error t globals => .error t ⟨tables, memories, globals, elems, datas⟩
    else
      .error (.invalidAddress .global addr) ⟨tables, memories, globals, elems, datas⟩

def table (addr : Nat) : HeapM Table := fun h ↦
  match h.tables[addr]? with
  | some t => .ok t h
  | none => .error (.invalidAddress .table addr) h

def memory (addr : Nat) : HeapM Memory := fun h ↦
  match h.memories[addr]? with
  | some m => .ok m h
  | none => .error (.invalidAddress .memory addr) h

def global (addr : Nat) : HeapM Global := fun h ↦
  match h.globals[addr]? with
  | some g => .ok g h
  | none => .error (.invalidAddress .global addr) h

def elem (addr : Nat) : HeapM (Array Value) := fun h ↦
  match h.elems[addr]? with
  | some vs => .ok vs h
  | none => .error (.invalidAddress .elem addr) h

def data (addr : Nat) : HeapM (List UInt8) := fun h ↦
  match h.datas[addr]? with
  | some bs => .ok bs h
  | none => .error (.invalidAddress .data addr) h

/-- Drop an element segment. The result is what it held. -/
def dropElem (addr : Nat) : HeapM (Array Value) := do
  let vs ← elem addr
  modify fun h ↦ { h with elems := h.elems.setIfInBounds addr #[] }
  return vs

/-- Drop a data segment. The result is what it held. -/
def dropData (addr : Nat) : HeapM (List UInt8) := do
  let bs ← data addr
  modify fun h ↦ { h with datas := h.datas.setIfInBounds addr [] }
  return bs

def copyTable (dstTable srcTable dst src len : Nat) : HeapM Unit :=
  if dstTable = srcTable then
    onTable dstTable (Table.copy dst src len)
  else do
    let vs ← onTable srcTable (Table.slice src len)
    onTable dstTable (Table.init dst vs 0 len)

end Heap

end Wasm
