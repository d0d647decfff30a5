import Std.Data.HashMap
import Wasm.Trap
import Wasm.Instr.Basic

namespace Wasm

structure BlockEnd where
  elsePc : Option Nat
  endPc : Nat
  deriving DecidableEq, Inhabited

/-- The end of a construct, `depth` constructs of which are open before the given instructions. The
first of them is at position `pc`, and `elsePc` is the last `else_` so far. -/
def BlockEnd.scan : List Instr → (pc depth : Nat) → (elsePc : Option Nat) → Option BlockEnd
  | [], _, _, _ => none
  | i :: is, pc, depth, elsePc =>
    match i, depth with
    | .end_, 0 => some ⟨elsePc, pc⟩
    | .end_, d + 1 => scan is (pc + 1) d elsePc
    | .else_, 0 => scan is (pc + 1) 0 (some pc)
    | _, d => scan is (pc + 1) (if i.opens then d + 1 else d) elsePc

def Code.blockEnd (code : Code) (start : Nat) : Except Trap BlockEnd :=
  match BlockEnd.scan (code.toList.drop (start + 1)) (start + 1) 0 none with
  | some e => .ok e
  | none => .error (.malformedControl .unterminatedBlock)

/-- Ends found so far, by the address of the function and the position of the opening instruction.
An initializer belongs to no function. -/
structure BlockEnds where
  found : Std.HashMap (Option Nat × Nat) BlockEnd := {}
  deriving Inhabited

/-- The end of the construct that opens at position `start` of the function `func`, whose body is
`code`. An end that was found before is not looked for again. -/
def BlockEnds.find (func : Option Nat) (code : Code) (start : Nat) :
    EStateM Trap BlockEnds BlockEnd :=
  fun ends ↦
    match ends.found[(func, start)]? with
    | some e => .ok e ends
    | none =>
      match code.blockEnd start with
      | .ok e => .ok e ⟨ends.found.insert (func, start) e⟩
      | .error t => .error t ends

end Wasm
