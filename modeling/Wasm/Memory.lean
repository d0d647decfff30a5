import Wasm.Types
import Wasm.Trap

namespace Wasm

structure Memory where
  type : MemoryType
  bytes : ByteArray
  deriving Inhabited

/-- Operations on a memory. The memory after a failure is part of the result. -/
abbrev MemoryM := EStateM Trap Memory

namespace Memory

def pageSize : Nat := 65536

/-- The bytes `b` with those from `addr` on replaced by `bs`. -/
def splice (b : ByteArray) (addr : Nat) (bs : ByteArray) : ByteArray :=
  bs.copySlice 0 b addr bs.size

def zeros (n : Nat) : ByteArray :=
  ⟨Array.replicate n 0⟩

def create? (type : MemoryType) (a : Allocator := .ample) : Option Memory :=
  let n := type.limits.min.toNat * pageSize
  if a.resizes 0 n then some ⟨type, zeros n⟩ else none

def size (m : Memory) : Nat := m.bytes.size

def pages (m : Memory) : Nat := m.size / pageSize

def InBounds (m : Memory) (addr len : Nat) : Prop := addr + len ≤ m.size

instance (m : Memory) (addr len : Nat) : Decidable (m.InBounds addr len) :=
  inferInstanceAs (Decidable (_ ≤ _))

/-- Add `delta` pages of zeros, but never beyond `cap` pages or the declared maximum. The result is
the previous number of pages, or `none` if there is no room. -/
def grow (delta cap : Nat) (a : Allocator := .ample) : MemoryM (Option Nat) := fun m ↦
  let old := m.pages
  let new := old + delta
  if new < UInt32.size ∧ new ≤ m.type.limits.top ∧ new ≤ cap ∧
      a.resizes m.size (new * pageSize) then
    let ⟨type, bytes⟩ := m
    .ok (some old) ⟨{ type with limits.min := UInt32.ofNat new }, bytes ++ zeros (delta * pageSize)⟩
  else
    .ok none m

def prefill (bs : List UInt8) (m : Memory) : Memory :=
  { m with bytes := splice m.bytes 0 (bs.take m.size).toByteArray }

def check (addr len : Nat) : MemoryM Unit := fun m ↦
  if m.InBounds addr len then .ok () m else .error (.memoryOutOfBounds addr len) m

def load (addr len : Nat) : MemoryM (List UInt8) := do
  check addr len
  return ((← get).bytes.extract addr (addr + len)).data.toList

def store (addr : Nat) (bs : List UInt8) : MemoryM Unit := do
  check addr bs.length
  modify fun ⟨type, bytes⟩ ↦ ⟨type, splice bytes addr bs.toByteArray⟩

def fill (dst : Nat) (b : UInt8) (len : Nat) : MemoryM Unit := do
  check dst len
  modify fun ⟨type, bytes⟩ ↦ ⟨type, splice bytes dst ⟨Array.replicate len b⟩⟩

def copy (dst src len : Nat) : MemoryM Unit := do
  check src len
  check dst len
  modify fun ⟨type, bytes⟩ ↦ ⟨type, splice bytes dst (bytes.extract src (src + len))⟩

def init (dst : Nat) (data : List UInt8) (src len : Nat) : MemoryM Unit := do
  if data.length < src + len then
    throw (.memoryOutOfBounds src len)
  check dst len
  modify fun ⟨type, bytes⟩ ↦ ⟨type, splice bytes dst ((data.drop src).take len).toByteArray⟩

/-- Set one byte. The result is the byte that was there before, or `none` beyond the end. -/
def poke (i : Nat) (b : UInt8) : MemoryM (Option UInt8) := fun m ↦
  if h : i < m.bytes.size then
    .ok (some (m.bytes.get i h)) { m with bytes := m.bytes.set! i b }
  else
    .ok none m

end Memory

end Wasm
