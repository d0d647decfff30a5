import Wasm.Host
import Wasm.Bytes.LittleEndian

namespace Wasm.Host

def echo (args : List Value) : Act :=
  .finish (.ok args)

def const (vs : List Value) (_ : List Value) : Act :=
  .finish (.ok vs)

def fail (t : Trap) (_ : List Value) : Act :=
  .finish (.error t)

def sum (args : List Value) : Act :=
  .finish (.ok [.i32 ((args.filterMap Value.i32?).foldl (· + ·) 0)])

def logArgs (args : List Value) : Act :=
  .log args (.finish (.ok []))

def forward (inst : Nat) (name : String) (args : List Value) : Act :=
  .invoke inst name args .finish

def guarded (inst : Nat) (name : String) (args : List Value) : Act :=
  .invoke inst name args fun r ↦
    .finish (.ok [.ofBool (match r with
      | .ok _ => false
      | .error _ => true)])

def argument (args : List Value) (i : Nat) : Except Trap Nat :=
  match args[i]?.bind Value.i32? with
  | some n => .ok n.toNat
  | none => .error (.host "expected i32")

def heapAct (op : HeapM (List Value)) : Act :=
  .get fun h ↦
    match op h with
    | .ok vs h => .put h (.finish (.ok vs))
    | .error t h => .put h (.finish (.error t))

def peek (memory : Nat) (args : List Value) : Act :=
  match argument args 0 with
  | .error t => .finish (.error t)
  | .ok addr => heapAct do
    let bs ← Heap.onMemory memory (Memory.load addr 1)
    return [.ofNat32 (LittleEndian.decode bs)]

/-- Set the byte of a memory at the address that is the first argument to the low byte of the
second. -/
def poke (memory : Nat) (args : List Value) : Act :=
  match argument args 0, argument args 1 with
  | .error t, _ | _, .error t => .finish (.error t)
  | .ok addr, .ok b => heapAct do
    Heap.onMemory memory (Memory.store addr [UInt8.ofNat b])
    return []

end Wasm.Host
