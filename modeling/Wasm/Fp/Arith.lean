import Wasm.Instr.NumOp
import Wasm.Trap
import Wasm.Fp.Round

namespace Wasm.Fp

variable {w : Width}

def signed (neg : Bool) (q : Rat) : Rat :=
  if neg then -q else q

/-- The same pattern with the other sign; also of a NaN. -/
def neg (x : Bits w) : Bits w :=
  x ^^^ BitVec.ofNat w.bits (signBit w)

/-- The same pattern with a positive sign; also of a NaN. -/
def abs (x : Bits w) : Bits w :=
  x &&& ~~~BitVec.ofNat w.bits (signBit w)

/-- The pattern `x` with the sign of `y`; also of a NaN. -/
def copysign (x y : Bits w) : Bits w :=
  abs x ||| (y &&& BitVec.ofNat w.bits (signBit w))

def add (x y : Bits w) : Bits w :=
  match classify x, classify y with
  | .nan, _ | _, .nan => canonicalNan
  | .infinite s, .infinite t => if s = t then infinity s else canonicalNan
  | .infinite s, .finite _ _ | .finite _ _, .infinite s => infinity s
  | .finite s p, .finite t q => ofRat (signed s p + signed t q) (s && t)

def sub (x y : Bits w) : Bits w :=
  add x (neg y)

def mul (x y : Bits w) : Bits w :=
  match classify x, classify y with
  | .nan, _ | _, .nan => canonicalNan
  | .infinite s, .infinite t => infinity (s ^^ t)
  | .infinite s, .finite t q | .finite t q, .infinite s =>
    if q = 0 then canonicalNan else infinity (s ^^ t)
  | .finite s p, .finite t q => ofMagnitude (s ^^ t) (roundMagnitude w (p * q))

def div (x y : Bits w) : Bits w :=
  match classify x, classify y with
  | .nan, _ | _, .nan => canonicalNan
  | .infinite _, .infinite _ => canonicalNan
  | .infinite s, .finite t _ => infinity (s ^^ t)
  | .finite s _, .infinite t => ofMagnitude (s ^^ t) 0
  | .finite s p, .finite t q =>
    if q ≠ 0 then ofMagnitude (s ^^ t) (roundMagnitude w (p / q))
    else if p = 0 then canonicalNan
    else infinity (s ^^ t)

def sqrt (x : Bits w) : Bits w :=
  match classify x with
  | .nan => canonicalNan
  | .infinite s => if s then canonicalNan else x
  | .finite s q =>
    if q = 0 then x
    else if s then canonicalNan
    else ofMagnitude false (roundSqrt w q)

/-- A NaN if an operand is; of two zeros the negative one. -/
def minimum (x y : Bits w) : Bits w :=
  if isNan x || isNan y then canonicalNan
  else if key x = key y then if x.msb then x else y
  else if key x < key y then x
  else y

/-- A NaN if an operand is; of two zeros the positive one. -/
def maximum (x y : Bits w) : Bits w :=
  if isNan x || isNan y then canonicalNan
  else if key x = key y then if x.msb then y else x
  else if key x < key y then y
  else x

/-- A rounding of the magnitude to a whole number, which keeps the sign, also of a zero. -/
def integral (round : Bool → Rat → Nat) (x : Bits w) : Bits w :=
  match classify x with
  | .nan => canonicalNan
  | .infinite _ => x
  | .finite s q => ofMagnitude s (roundMagnitude w (round s q))

def down (q : Rat) : Nat := q.floor.toNat

def up (q : Rat) : Nat := q.ceil.toNat

def ceil : Bits w → Bits w :=
  integral fun s q ↦ if s then down q else up q

def floor : Bits w → Bits w :=
  integral fun s q ↦ if s then up q else down q

def trunc : Bits w → Bits w :=
  integral fun _ q ↦ down q

def nearest : Bits w → Bits w :=
  integral fun _ q ↦ roundEven q

def convert {v : Width} (x : Bits v) : Bits w :=
  match classify x with
  | .nan => canonicalNan
  | .infinite s => infinity s
  | .finite s q => ofMagnitude s (roundMagnitude w q)

def intRange (w : Width) : Sign → Int × Int
  | .signed => (-(1 <<< (w.bits - 1) : Nat), (1 <<< (w.bits - 1) : Nat))
  | .unsigned => (0, (1 <<< w.bits : Nat))

def toInt (dst : Width) (s : Sign) (x : Bits w) : Except Trap (BitVec dst.bits) :=
  match classify x with
  | .nan => .error .invalidConversion
  | .infinite _ => .error .integerOverflow
  | .finite neg q =>
    let n : Int := if neg then -down q else down q
    let (lo, hi) := intRange dst s
    if lo ≤ n ∧ n < hi then .ok (BitVec.ofInt dst.bits n) else .error .integerOverflow

def toIntSat (dst : Width) (s : Sign) (x : Bits w) : BitVec dst.bits :=
  let (lo, hi) := intRange dst s
  match classify x with
  | .nan => 0
  | .infinite neg => BitVec.ofInt dst.bits (if neg then lo else hi - 1)
  | .finite neg q =>
    let n : Int := if neg then -down q else down q
    BitVec.ofInt dst.bits (if n < lo then lo else if hi ≤ n then hi - 1 else n)

def ofInt (n : Int) : Bits w :=
  ofRat n

end Wasm.Fp

namespace Wasm

def FUn.eval {w : Width} : FUn → Fp.Bits w → Fp.Bits w
  | abs => Fp.abs
  | neg => Fp.neg
  | ceil => Fp.ceil
  | floor => Fp.floor
  | trunc => Fp.trunc
  | nearest => Fp.nearest
  | sqrt => Fp.sqrt

def FBin.eval {w : Width} : FBin → Fp.Bits w → Fp.Bits w → Fp.Bits w
  | add => Fp.add
  | sub => Fp.sub
  | mul => Fp.mul
  | div => Fp.div
  | min => Fp.minimum
  | max => Fp.maximum
  | copysign => Fp.copysign

def FRel.eval {w : Width} (op : FRel) (x y : Fp.Bits w) : Bool :=
  if Fp.isNan x || Fp.isNan y then op = ne
  else match op with
    | eq => Fp.key x = Fp.key y
    | ne => Fp.key x ≠ Fp.key y
    | lt => Fp.key x < Fp.key y
    | gt => Fp.key y < Fp.key x
    | le => Fp.key x ≤ Fp.key y
    | ge => Fp.key y ≤ Fp.key x

end Wasm
