import Wasm.Integer
import Wasm.Stack
import Wasm.Fp.Arith

namespace Wasm

open Stack

def Stack.pushResult (r : Except Trap Value) : StackM Unit :=
  match r with
  | .ok v => pushValue v
  | .error t => throw t

def NumOp.exec : NumOp → StackM Unit
  | eqz w => do
    let x ← popInt w
    pushValue (.ofBool (x = 0))
  | irel w op => do
    let y ← popInt w
    let x ← popInt w
    pushValue (.ofBool (op.eval x y))
  | frel w op => do
    let y ← popFloat w
    let x ← popFloat w
    pushValue (.ofBool (op.eval x y))
  | iun w op => do
    let x ← popInt w
    pushValue (.int w (op.eval x))
  | ibin w op => do
    let y ← popInt w
    let x ← popInt w
    pushResult ((op.eval x y).map (.int w))
  | funary w op => do
    let x ← popFloat w
    pushValue (.float w (op.eval x))
  | fbin w op => do
    let y ← popFloat w
    let x ← popFloat w
    pushValue (.float w (op.eval x y))
  | wrap => do
    let x ← popI64
    pushValue (.i32 (x.setWidth 32))
  | extend s => do
    let x ← popI32
    pushValue (.i64 (s.resize 64 x))
  | trunc dst src s => do
    let x ← popFloat src
    pushResult ((Fp.toInt dst s x).map (.int dst))
  | truncSat dst src s => do
    let x ← popFloat src
    pushValue (.int dst (Fp.toIntSat dst s x))
  | convert dst src s => do
    let x ← popInt src
    pushValue (.float dst (Fp.ofInt (s.toInt x)))
  | demote => do
    let x ← popF64
    pushValue (.f32 (Fp.convert (w := .w32) (v := .w64) x))
  | promote => do
    let x ← popF32
    pushValue (.f64 (Fp.convert (w := .w64) (v := .w32) x))
  | bitsOfFloat w => do
    let x ← popFloat w
    pushValue (.int w x)
  | floatOfBits w => do
    let x ← popInt w
    pushValue (.float w x)
  | signExtend n => do
    let x ← popInt n.width
    pushValue (.int n.width ((x.setWidth n.bits).signExtend n.width.bits))

/-- Execute a numeric instruction. The result tells whether it is one; the stack is left alone if it
is not. -/
def Instr.execNumeric : Instr → StackM Bool
  | numeric op => do
    op.exec
    return true
  | _ => return false

end Wasm
