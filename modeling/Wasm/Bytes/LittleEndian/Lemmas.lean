import Mathlib
import Wasm.Bytes.LittleEndian

namespace Wasm.LittleEndian

theorem decode_encode (n v : Nat) : decode (encode n v) = v % 256 ^ n := by
  induction n generalizing v with
  | zero => simp [encode, decode, Nat.mod_one]
  | succ n ih => simp [encode, decode, ih, Nat.pow_succ, Nat.mul_comm, Nat.mod_mul]

theorem decode_lt (bs : List UInt8) : decode bs < 256 ^ bs.length := by
  induction bs with
  | nil => simp [decode]
  | cons b bs ih =>
    have := b.toNat_lt
    simp only [decode, List.length_cons, Nat.pow_succ]
    omega

/-- Each byte is a digit to the base 256. -/
theorem getElem?_encode (n v i : Nat) :
    (encode n v)[i]? = if i < n then some (UInt8.ofNat (v / 256 ^ i)) else none := by
  induction n generalizing v i with
  | zero => simp [encode]
  | succ n ih =>
    cases i with
    | zero => simp [encode]
    | succ i => simp [encode, ih, Nat.div_div_eq_div_mul, Nat.pow_succ, Nat.mul_comm]

end Wasm.LittleEndian
