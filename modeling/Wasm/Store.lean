import Wasm.Host

namespace Wasm

/-- Limits on the resources of a store. -/
structure Config where
  /-- Most frames of one invocation. -/
  maxCallDepth : Nat := 1024
  /-- Most entries of one execution stack. -/
  maxStackEntries : Nat := 1048576
  /-- Most pages of a memory. -/
  maxMemoryPages : Nat := 65536
  /-- Most slots of a table. -/
  maxTableElements : Nat := 10000000
  /-- Most invocations that are active at once, one inside the other. -/
  maxReentrancy : Nat := 64
  /-- What can be had beside what there is already. -/
  allocator : Heap → Allocator := fun _ ↦ .ample
  deriving Inhabited

/-- A function: one that a module instance defines, or one of the host. -/
inductive FuncInst
  | code (type : FuncType) (inst : Nat) (index : Nat)
  | host (f : Host.Func)
  deriving Inhabited

def FuncInst.type : FuncInst → FuncType
  | code type _ _ => type
  | host f => f.type

structure Store where
  config : Config := {}
  funcs : Array FuncInst := #[]
  instances : Array Instance := #[]
  heap : Heap := {}
  /-- Number of invocations that are active, one inside the other. -/
  active : Nat := 0
  /-- What host functions have logged. -/
  log : Array Value := #[]
  deriving Inhabited

namespace Store

variable {α : Type}

def func (s : Store) (addr : Nat) : Except Trap FuncInst :=
  match s.funcs[addr]? with
  | some f => .ok f
  | none => .error (.invalidAddress .func addr)

def instance_ (s : Store) (i : Nat) : Except Trap Instance :=
  match s.instances[i]? with
  | some inst => .ok inst
  | none => .error (.invalidAddress .instance_ i)

def export? (s : Store) (i : Nat) (name : String) : Option ExternAddr := do
  (← s.instances[i]?).export? name

/-- Operations on a store. The store after a failure is part of the result. -/
def onHeap (op : HeapM α) : EStateM Trap Store α :=
  fun ⟨config, funcs, instances, heap, active, log⟩ ↦
  match op heap with
  | .ok a heap => .ok a ⟨config, funcs, instances, heap, active, log⟩
  | .error t heap => .error t ⟨config, funcs, instances, heap, active, log⟩

def allocator (s : Store) : Allocator := s.config.allocator s.heap

def allocFunc (f : FuncInst) (s : Store) : Nat × Store :=
  (s.funcs.size, { s with funcs := s.funcs.push f })

def allocTable (t : Table) (s : Store) : Nat × Store :=
  (s.heap.tables.size, { s with heap.tables := s.heap.tables.push t })

def allocMemory (m : Memory) (s : Store) : Nat × Store :=
  (s.heap.memories.size, { s with heap.memories := s.heap.memories.push m })

def allocGlobal (g : Global) (s : Store) : Nat × Store :=
  (s.heap.globals.size, { s with heap.globals := s.heap.globals.push g })

def allocElem (refs : Array Value) (s : Store) : Nat × Store :=
  (s.heap.elems.size, { s with heap.elems := s.heap.elems.push refs })

def allocData (bytes : List UInt8) (s : Store) : Nat × Store :=
  (s.heap.datas.size, { s with heap.datas := s.heap.datas.push bytes })

def allocInstance (inst : Instance) (s : Store) : Nat × Store :=
  (s.instances.size, { s with instances := s.instances.push inst })

/-- Add a new entity to the store. The result is its address, or `none` if there is no room. -/
def alloc (s : Store) : Host.Fresh Host.Func → Option Nat × Store
  | .func f => (s.allocFunc (.host f)).map some id
  | .code type inst index => (s.allocFunc (.code type inst index)).map some id
  | .table type slots =>
    match Table.create? type s.allocator with
    | some t => (s.allocTable (t.prefill slots)).map some id
    | none => (none, s)
  | .memory type bytes =>
    match Memory.create? type s.allocator with
    | some m => (s.allocMemory (m.prefill bytes)).map some id
    | none => (none, s)
  | .global type init => (s.allocGlobal ⟨type, init⟩).map some id
  | .elem refs => (s.allocElem refs).map some id
  | .data bytes => (s.allocData bytes).map some id
  | .instance_ inst => (s.allocInstance inst).map some id

end Store

end Wasm
