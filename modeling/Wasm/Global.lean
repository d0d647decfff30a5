import Wasm.Value
import Wasm.Trap

namespace Wasm

structure Global where
  type : GlobalType
  value : Value
  deriving DecidableEq, Inhabited

/-- Replace the value by one of the declared type. Whether the variable may change at all is for the
caller to know. -/
def Global.set (v : Value) : EStateM Trap Global Unit := fun g ↦
  if v.type = g.type.value then .ok () { g with value := v }
  else .error (.typeMismatch g.type.value v.type) g

end Wasm
