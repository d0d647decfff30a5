import Wasm.Store
import Wasm.Stack
import Wasm.BlockEnd

namespace Wasm

structure Machine where
  store : Store
  stack : Stack
  ends : BlockEnds := {}
  /-- Position of the next instruction in the body of the current frame. -/
  pc : Nat := 0
  deriving Inhabited

/-- Operations on a machine. The machine after a trap is part of the result. -/
abbrev Exec := EStateM Trap Machine

namespace Machine

variable {α : Type}

@[inline] def onStack (op : StackM α) : Exec α := fun ⟨store, stack, ends, pc⟩ ↦
  match op stack with
  | .ok a stack => .ok a ⟨store, stack, ends, pc⟩
  | .error t stack => .error t ⟨store, stack, ends, pc⟩

@[inline] def onStore (op : EStateM Trap Store α) : Exec α := fun ⟨store, stack, ends, pc⟩ ↦
  match op store with
  | .ok a store => .ok a ⟨store, stack, ends, pc⟩
  | .error t store => .error t ⟨store, stack, ends, pc⟩

@[inline] def onHeap (op : HeapM α) : Exec α :=
  onStore (Store.onHeap op)

@[inline] def onEnds (op : EStateM Trap BlockEnds α) : Exec α := fun ⟨store, stack, ends, pc⟩ ↦
  match op ends with
  | .ok a ends => .ok a ⟨store, stack, ends, pc⟩
  | .error t ends => .error t ⟨store, stack, ends, pc⟩

instance : MonadLift StackM Exec := ⟨onStack⟩

instance : MonadLift HeapM Exec := ⟨onHeap⟩

@[inline] def check (r : Except Trap α) : Exec α :=
  match r with
  | .ok a => return a
  | .error t => throw t

def frameCount : Exec Nat := return (← get).stack.frames.size

def instance_ : Exec Instance := do
  let f ← Stack.currentFrame
  check ((← get).store.instance_ f.inst)

def memoryAddr : Exec Nat := do
  check ((← instance_).memoryAddr 0)

def tableAddr (i : Idx) : Exec Nat := do
  check ((← instance_).tableAddr i.toNat)

def setPc (pc : Nat) : Exec Unit :=
  modify fun m ↦ { m with pc := pc }

def resume : Exec Unit := do
  setPc (← Stack.currentFrame).pc

end Machine

end Wasm
