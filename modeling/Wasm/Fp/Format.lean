import Wasm.Types

namespace Wasm.Fp

/-- A bit pattern of the given width. -/
abbrev Bits (w : Width) := BitVec w.bits

def fractionBits : Width → Nat
  | .w32 => 23
  | .w64 => 52

def exponentBits : Width → Nat
  | .w32 => 8
  | .w64 => 11

/-- Number of fractions, and so of the patterns that share a sign and an exponent. -/
def binade (w : Width) : Nat :=
  1 <<< fractionBits w

/-- The exponent of the least positive number, which is `2 ^ minExponent w`. -/
def minExponent (w : Width) : Int :=
  2 - (1 <<< (exponentBits w - 1) : Nat) - fractionBits w

/-- The bits of positive infinity, as a number. Every larger magnitude is a NaN. -/
def infinityBits (w : Width) : Nat :=
  (1 <<< exponentBits w - 1) * binade w

def signBit (w : Width) : Nat :=
  1 <<< (w.bits - 1)

/-- What a bit pattern stands for. A finite number keeps its sign apart, since zero has two. -/
inductive Class
  | nan
  | infinite (neg : Bool)
  | finite (neg : Bool) (magnitude : Rat)

variable {w : Width}

def magnitudeBits (x : Bits w) : Nat :=
  x.toNat % signBit w

def isNan (x : Bits w) : Bool :=
  infinityBits w < magnitudeBits x

def ofMagnitude (neg : Bool) (m : Nat) : Bits w :=
  BitVec.ofNat w.bits (if neg then signBit w + m else m)

def infinity (neg : Bool) : Bits w :=
  ofMagnitude neg (infinityBits w)

/-- The NaN that arithmetic makes: positive and quiet, with no payload. -/
def canonicalNan : Bits w :=
  ofMagnitude false (infinityBits w + binade w / 2)

/-- The number of units in the last place that a finite magnitude holds, and the exponent of that
unit above the least one. -/
def significand (w : Width) (m : Nat) : Nat × Nat :=
  let fraction := m % binade w
  match m / binade w with
  | 0 => (fraction, 0)
  | e + 1 => (fraction + binade w, e)

def classify (x : Bits w) : Class :=
  let m := magnitudeBits x
  if infinityBits w < m then
    .nan
  else if m = infinityBits w then
    .infinite x.msb
  else
    let (units, e) := significand w m
    .finite x.msb (units * 2 ^ (minExponent w + e))

def key (x : Bits w) : Int :=
  if x.msb then -magnitudeBits x else magnitudeBits x

end Wasm.Fp
