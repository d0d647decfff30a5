import Wasm.Types

namespace Wasm

/-- A value of the machine. Floats are kept as bit patterns, so that the payload of a NaN survives
being moved around. A reference holds the address of what it refers to, `none` being null. -/
inductive Value
  | i32 (bits : BitVec 32)
  | i64 (bits : BitVec 64)
  | f32 (bits : BitVec 32)
  | f64 (bits : BitVec 64)
  | v128 (bits : BitVec 128)
  | funcref (addr : Option Nat)
  | externref (addr : Option Nat)
  deriving DecidableEq, Inhabited

namespace Value

def type : Value → ValType
  | i32 _ => .i32
  | i64 _ => .i64
  | f32 _ => .f32
  | f64 _ => .f64
  | v128 _ => .v128
  | funcref _ => .funcref
  | externref _ => .externref

@[reducible] def int : (w : Width) → BitVec w.bits → Value
  | .w32 => i32
  | .w64 => i64

@[reducible] def float : (w : Width) → BitVec w.bits → Value
  | .w32 => f32
  | .w64 => f64

def zero : ValType → Value
  | .i32 => i32 0
  | .i64 => i64 0
  | .f32 => f32 0
  | .f64 => f64 0
  | .v128 => v128 0
  | .funcref => funcref none
  | .externref => externref none

def null : RefType → Value
  | .funcref => funcref none
  | .externref => externref none

def ofBool (b : Bool) : Value :=
  i32 (if b then 1 else 0)

def ofNat32 (n : Nat) : Value :=
  i32 (BitVec.ofNat 32 n)

def i32? : Value → Option (BitVec 32)
  | i32 bits => some bits
  | _ => none

def i64? : Value → Option (BitVec 64)
  | i64 bits => some bits
  | _ => none

def f32? : Value → Option (BitVec 32)
  | f32 bits => some bits
  | _ => none

def f64? : Value → Option (BitVec 64)
  | f64 bits => some bits
  | _ => none

/-- A null reference; false of every value that is no reference. -/
def isNull : Value → Bool
  | funcref none | externref none => true
  | _ => false

@[simp] theorem type_zero (t : ValType) : (zero t).type = t := by
  cases t <;> rfl

@[simp] theorem type_null (t : RefType) : (null t).type = t.toValType := by
  cases t <;> rfl

@[simp] theorem type_int (w : Width) (bits : BitVec w.bits) : (int w bits).type = .int w := by
  cases w <;> rfl

@[simp] theorem type_float (w : Width) (bits : BitVec w.bits) : (float w bits).type = .float w := by
  cases w <;> rfl

end Value

end Wasm
