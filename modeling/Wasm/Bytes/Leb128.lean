import Wasm.Bytes.Cursor
import Wasm.Types

namespace Wasm

namespace Leb128

def limit (bits : Nat) : Nat := (bits + 6) / 7

def digit (b : UInt8) : BitVec 64 := (b &&& 0x7F).toBitVec.setWidth 64

/-- The last byte that a number may have belongs to it by its `used` lowest bits only. The others
are zero, or copies of the sign bit, which is the highest of those. -/
def fits : Sign → (used : Nat) → (low : BitVec 64) → Bool
  | .unsigned, used, low => low >>> used == 0
  | .signed, used, low =>
    let mask := (0x7F <<< (used - 1)) &&& 0x7F
    let tail := low &&& mask
    tail == 0 || tail == mask

/-- The sign bit of the last byte `b`, copied to the bits from `shift` on. There are none of these
where the bytes fill the word. -/
def signExtend (s : Sign) (acc : BitVec 64) (shift : Nat) (b : UInt8) : BitVec 64 :=
  if s = .signed ∧ shift < 64 ∧ b &&& 0x40 ≠ 0 then acc ||| (-1#64) <<< shift else acc

end Leb128

namespace Reader

open Leb128

def lastByte (s : Sign) (bits start shift : Nat) (b : UInt8) : Reader Unit := do
  if b &&& 0x80 ≠ 0 then
    throw (.lebTooLong (limit bits) start)
  let used := bits - shift
  if used < 7 ∧ !fits s used (digit b) then
    throw (.lebOverflow bits start)

/-- Up to `n` more bytes of a number that begins at `start`. The bytes before them have set the
lowest `shift` bits of `acc`. -/
def leb128Loop (s : Sign) (bits start : Nat) :
    (n : Nat) → (shift : Nat) → (acc : BitVec 64) → Reader (BitVec 64)
  | 0, _, _ => throw (.lebTooLong (limit bits) start)
  | n + 1, shift, acc => do
    let b ← byte
    if n = 0 then
      lastByte s bits start shift b
    let acc := acc ||| digit b <<< shift
    if b &&& 0x80 = 0 then
      return signExtend s acc (shift + 7) b
    leb128Loop s bits start n (shift + 7) acc

def leb128 (s : Sign) (bits : Nat) : Reader (BitVec 64) := do
  let start ← offset
  leb128Loop s bits start (limit bits) 0 0#64

def unsigned (bits : Nat) : Reader Nat :=
  BitVec.toNat <$> leb128 .unsigned bits

def signed (bits : Nat) : Reader Int :=
  BitVec.toInt <$> leb128 .signed bits

def u32 : Reader UInt32 :=
  UInt32.ofNat <$> unsigned 32

def u64 : Reader UInt64 :=
  UInt64.ofNat <$> unsigned 64

def word (w : Nat) : Reader (BitVec w) :=
  BitVec.ofInt w <$> signed w

end Reader

end Wasm
