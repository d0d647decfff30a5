import Wasm.Instr.NumOp
import Wasm.Trap

namespace Wasm

variable {w : Nat}

def IUn.eval (x : BitVec w) : IUn → BitVec w
  | clz => x.clz
  | ctz => x.ctz
  | popcnt => x.cpop

namespace IBin

def shiftCount (y : BitVec w) : Nat := (y.setWidth 32).toNat % w

def rotateCount (y : BitVec w) : Nat := ((y % BitVec.ofNat w w).setWidth 32).toNat

/-- A quotient is taken toward zero, and a remainder has the sign of the dividend. The quotient of
the least number by -1 is no number of the width, but the remainder is zero. -/
def eval (x y : BitVec w) : IBin → Except Trap (BitVec w)
  | add => .ok (x + y)
  | sub => .ok (x - y)
  | mul => .ok (x * y)
  | div .signed =>
    if y = 0 then .error .divisionByZero
    else if x = BitVec.intMin w ∧ y = -1 then .error .integerOverflow
    else .ok (x.sdiv y)
  | div .unsigned => if y = 0 then .error .divisionByZero else .ok (x / y)
  | rem .signed => if y = 0 then .error .divisionByZero else .ok (x.srem y)
  | rem .unsigned => if y = 0 then .error .divisionByZero else .ok (x % y)
  | and => .ok (x &&& y)
  | or => .ok (x ||| y)
  | xor => .ok (x ^^^ y)
  | shl => .ok (x <<< shiftCount y)
  | shr .signed => .ok (x.sshiftRight (shiftCount y))
  | shr .unsigned => .ok (x >>> shiftCount y)
  | rotl => .ok (x.rotateLeft (rotateCount y))
  | rotr => .ok (x.rotateRight (rotateCount y))

end IBin

def IRel.eval (x y : BitVec w) : IRel → Bool
  | eq => x = y
  | ne => x ≠ y
  | lt .signed => x.slt y
  | lt .unsigned => x.ult y
  | gt .signed => y.slt x
  | gt .unsigned => y.ult x
  | le .signed => x.sle y
  | le .unsigned => x.ule y
  | ge .signed => y.sle x
  | ge .unsigned => y.ule x

def Sign.toInt (x : BitVec w) : Sign → Int
  | signed => x.toInt
  | unsigned => x.toNat

def Sign.resize (v : Nat) (x : BitVec w) : Sign → BitVec v
  | signed => x.signExtend v
  | unsigned => x.setWidth v

end Wasm
