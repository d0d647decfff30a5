import Wasm.Bytes.Leb128

namespace Wasm.Reader

variable {α : Type}

def times (item : Reader α) : Nat → Reader (List α)
  | 0 => return []
  | n + 1 => do
    let x ← item
    return x :: (← times item n)

def vector (item : Reader α) : Reader (List α) := do
  times item (← u32).toNat

def byteVector : Reader (List UInt8) := do
  bytes (← u32).toNat

def name : Reader String := do
  let start ← offset
  match String.fromUTF8? (← byteVector).toByteArray with
  | some s => return s
  | none => throw (.invalidUtf8 start)

end Wasm.Reader
