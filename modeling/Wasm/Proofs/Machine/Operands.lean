import Wasm.Machine.Basic
import Wasm.Proofs.Outcome

namespace Wasm

open Outcome

namespace Stack

variable {α β : Type} {s : Stack} {v : Value}

def pushed (s : Stack) (v : Value) : Stack :=
  { s with entries := s.entries.push (.value v) }

theorem pushValue_room (h : s.entries.size < s.limit) (v : Value) :
    pushValue v s = .ok () (s.pushed v) :=
  if_pos h

theorem pushed_inj {s' : Stack} {v' : Value} (h : s.pushed v = s'.pushed v') : v = v' := by
  have hback := congrArg (fun s : Stack ↦ s.entries.back?) h
  simpa [pushed] using hback

theorem popAs_pushed {t : ValType} {view : Value → Option α} {x : α} (h : view v = some x) :
    popAs t view (s.pushed v) = .ok x s := by
  simp [popAs, peekValue, dropTop, pushed, h]

theorem map_popAs_pushed {t : ValType} {view : Value → Option α} {x : α} (f : α → β)
    (h : view v = some x) : (f <$> popAs t view) (s.pushed v) = .ok (f x) s := by
  rw [map_apply, popAs_pushed h]

theorem popInt_pushed_int {w : Width} (x : BitVec w.bits) :
    popInt w (s.pushed (.int w x)) = .ok x s := by
  cases w <;> exact popAs_pushed rfl

theorem popFloat_pushed_float {w : Width} (x : BitVec w.bits) :
    popFloat w (s.pushed (.float w x)) = .ok x s := by
  cases w <;> exact popAs_pushed rfl

end Stack

namespace Machine

variable {α : Type} {m : Machine} {v : Value} {x : BitVec 32}

def pushed (m : Machine) (v : Value) : Machine :=
  { m with stack := m.stack.pushed v }

theorem onStack_pushed {op : StackM α} {x : α} (h : op (m.stack.pushed v) = .ok x m.stack) :
    onStack op (m.pushed v) = .ok x m := by
  simp only [onStack, pushed, h]

theorem onStack_popNat_pushed : onStack Stack.popNat (m.pushed (.i32 x)) = .ok x.toNat m :=
  onStack_pushed (Stack.map_popAs_pushed BitVec.toNat rfl)

end Machine

end Wasm
