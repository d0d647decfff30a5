import Wasm.Fp.Format

namespace Wasm.Fp

/-- The greatest `l` with `2 ^ l ≤ q`, for a positive `q`. -/
def log2 (q : Rat) : Int :=
  let l : Int := q.num.toNat.log2 - q.den.log2
  if 2 ^ l ≤ q then l else l - 1

def nearestEven (n : Nat) (rest : Rat) : Nat :=
  if rest < 1 / 2 then n
  else if 1 / 2 < rest then n + 1
  else n + n % 2

def roundEven (q : Rat) : Nat :=
  let n := q.floor.toNat
  nearestEven n (q - n)

def roundEvenSqrt (q : Rat) : Nat :=
  let n := q.floor.toNat.sqrt
  let middle : Rat := n + 1 / 2
  if q < middle * middle then n
  else if middle * middle < q then n + 1
  else n + n % 2

/-- The bits of a magnitude whose binary logarithm is `l`, where `units e` is the magnitude rounded
to a multiple of `2 ^ e`, as a number of such multiples. The result is exact when the rounding
reaches the next power of two, and infinite when there is no finite number left. -/
def packUnits (w : Width) (l : Int) (units : Int → Nat) : Nat :=
  let e := max (l - fractionBits w) (minExponent w)
  min (units e + (e - minExponent w).toNat * binade w) (infinityBits w)

def roundMagnitude (w : Width) (q : Rat) : Nat :=
  if q = 0 then 0 else packUnits w (log2 q) fun e ↦ roundEven (q * 2 ^ (-e))

def roundSqrt (w : Width) (q : Rat) : Nat :=
  if q = 0 then 0 else packUnits w (log2 q / 2) fun e ↦ roundEvenSqrt (q * 2 ^ (-2 * e))

variable {w : Width}

def ofRat (q : Rat) (neg : Bool := false) : Bits w :=
  if q = 0 then ofMagnitude neg 0
  else if q < 0 then ofMagnitude true (roundMagnitude w (-q))
  else ofMagnitude false (roundMagnitude w q)

end Wasm.Fp
