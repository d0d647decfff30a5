import Wasm.Bytes.Error
import Wasm.Bytes.LittleEndian

namespace Wasm

/-- The unread rest of a byte sequence whose first byte has offset `base`. -/
structure Cursor where
  unread : List UInt8
  consumed : Nat := 0
  base : Nat := 0
  deriving DecidableEq, Inhabited

namespace Cursor

def ofBytes (bytes : List UInt8) (base : Nat := 0) : Cursor where
  unread := bytes
  base := base

def offset (c : Cursor) : Nat := c.base + c.consumed

def remaining (c : Cursor) : Nat := c.unread.length

def atEnd (c : Cursor) : Bool := c.unread.isEmpty

/-- Move past the next `n` bytes, or past all that are left. -/
def advance (n : Nat) (c : Cursor) : Cursor :=
  { c with unread := c.unread.drop n, consumed := c.consumed + n }

@[simp] theorem offset_advance (n : Nat) (c : Cursor) : (c.advance n).offset = c.offset + n := by
  simp only [offset, advance, Nat.add_assoc]

@[simp] theorem remaining_advance (n : Nat) (c : Cursor) :
    (c.advance n).remaining = c.remaining - n := by
  simp [remaining, advance]

theorem advance_append (bs rest : List UInt8) (consumed base : Nat) :
    advance bs.length ⟨bs ++ rest, consumed, base⟩ = ⟨rest, consumed + bs.length, base⟩ := by
  rw [advance, List.drop_left]

end Cursor

abbrev Reader := EStateM DecodeError Cursor

namespace Reader

variable {α : Type}

def offset : Reader Nat := return (← get).offset

def fail (fault : Fault) (offset : Nat) : Reader α :=
  throw (.malformed offset fault)

def peek : Reader UInt8 := do
  let c ← get
  match c.unread with
  | [] => throw (.unexpectedEnd c.offset)
  | b :: _ => return b

def byte : Reader UInt8 := do
  let b ← peek
  modify (·.advance 1)
  return b

/-- The next `n` bytes, left unread. Positions are machine words: a length that reaches past the
largest of them is told apart from one that only reaches past the end. -/
def slice (n : Nat) : Reader (List UInt8) := do
  let c ← get
  if UInt64.size ≤ c.consumed + n then
    throw (.positionOverflow c.offset)
  let bytes := c.unread.take n
  if bytes.length < n then
    throw (.unexpectedEnd c.offset)
  return bytes

def bytes (n : Nat) : Reader (List UInt8) := do
  let bytes ← slice n
  modify (·.advance n)
  return bytes

def skip (n : Nat) : Reader Unit := do
  let _ ← bytes n

def littleEndian (n : Nat) : Reader Nat :=
  LittleEndian.decode <$> bytes n

def sub (n : Nat) : Reader Cursor := do
  let base ← offset
  let bytes ← bytes n
  return .ofBytes bytes base

def inside (c : Cursor) (r : Reader α) : Reader (α × Cursor) := fun outer ↦
  match r c with
  | .ok a c' => .ok (a, c') outer
  | .error e _ => .error e outer

end Reader

end Wasm
