import Wasm.Value
import Wasm.Trap

namespace Wasm

structure Table where
  type : TableType
  elems : Array Value
  deriving DecidableEq, Inhabited

/-- Operations on a table. The table after a failure is part of the result. -/
abbrev TableM := EStateM Trap Table

namespace Table

def slotSize : Nat := 32

def create (type : TableType) : Table :=
  ⟨type, Array.replicate type.limits.min.toNat (.null type.elem)⟩

def create? (type : TableType) (a : Allocator := .ample) : Option Table :=
  if a.resizes 0 (type.limits.min.toNat * slotSize) then some (create type) else none

def size (t : Table) : Nat := t.elems.size

def InBounds (t : Table) (start len : Nat) : Prop := start + len ≤ t.size

instance (t : Table) (start len : Nat) : Decidable (t.InBounds start len) :=
  inferInstanceAs (Decidable (_ ≤ _))

def get (i : Nat) : TableM Value := fun t ↦
  match t.elems[i]? with
  | some v => .ok v t
  | none => .error .tableOutOfBounds t

def set (i : Nat) (v : Value) : TableM Unit := fun t ↦
  if t.InBounds i 1 then .ok () { t with elems := t.elems.setIfInBounds i v }
  else .error .tableOutOfBounds t

/-- Add `delta` slots that hold `v`, but never beyond `cap` slots or the declared maximum. The
result is the previous size, or `none` if there is no room. -/
def grow (delta : Nat) (v : Value) (cap : Nat) (a : Allocator := .ample) :
    TableM (Option Nat) := fun t ↦
  let old := t.size
  let new := old + delta
  if new < UInt32.size ∧ new ≤ t.type.limits.top ∧ new ≤ cap ∧
      a.resizes (old * slotSize) (new * slotSize) then
    let ⟨type, elems⟩ := t
    .ok (some old) ⟨{ type with limits.min := UInt32.ofNat new }, elems ++ Array.replicate delta v⟩
  else
    .ok none t

def check (start len : Nat) : TableM Unit := fun t ↦
  if t.InBounds start len then .ok () t else .error .tableOutOfBounds t

/-- The slots `elems` with those from `start` on replaced by `vs`. -/
def splice (elems : Array Value) (start : Nat) (vs : Array Value) : Array Value :=
  elems.extract 0 start ++ vs ++ elems.extract (start + vs.size)

def prefill (vs : Array Value) (t : Table) : Table :=
  { t with elems := splice t.elems 0 (vs.extract 0 t.size) }

def fill (start : Nat) (v : Value) (len : Nat) : TableM Unit := do
  check start len
  modify fun ⟨type, elems⟩ ↦ ⟨type, splice elems start (Array.replicate len v)⟩

def copy (dst src len : Nat) : TableM Unit := do
  check src len
  check dst len
  modify fun ⟨type, elems⟩ ↦ ⟨type, splice elems dst (elems.extract src (src + len))⟩

def slice (start len : Nat) : TableM (Array Value) := do
  check start len
  return (← EStateM.get).elems.extract start (start + len)

def init (dst : Nat) (vs : Array Value) (src len : Nat) : TableM Unit := do
  if vs.size < src + len then
    throw .tableOutOfBounds
  check dst len
  modify fun ⟨type, elems⟩ ↦ ⟨type, splice elems dst (vs.extract src (src + len))⟩

end Table

end Wasm
