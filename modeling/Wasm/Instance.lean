import Wasm.Module
import Wasm.Trap

namespace Wasm

structure ExternAddr where
  kind : ExternKind
  addr : Nat
  deriving DecidableEq, Inhabited

/-- A module in a store: for each index space the addresses of its members, imports first. -/
structure Instance where
  funcs : Array Nat := #[]
  tables : Array Nat := #[]
  memories : Array Nat := #[]
  globals : Array Nat := #[]
  elems : Array Nat := #[]
  datas : Array Nat := #[]
  exports : List (String × ExternAddr) := []
  mod : Module := {}
  deriving DecidableEq, Inhabited

namespace Instance

def lookup (space : Space) (addrs : Array Nat) (i : Nat) : Except Trap Nat :=
  match addrs[i]? with
  | some a => .ok a
  | none => .error (.indexOutOfRange space i)

def funcAddr (inst : Instance) (i : Nat) : Except Trap Nat := lookup .func inst.funcs i

def tableAddr (inst : Instance) (i : Nat) : Except Trap Nat := lookup .table inst.tables i

def memoryAddr (inst : Instance) (i : Nat) : Except Trap Nat := lookup .memory inst.memories i

def globalAddr (inst : Instance) (i : Nat) : Except Trap Nat := lookup .global inst.globals i

def elemAddr (inst : Instance) (i : Nat) : Except Trap Nat := lookup .elem inst.elems i

def dataAddr (inst : Instance) (i : Nat) : Except Trap Nat := lookup .data inst.datas i

def externAddr (inst : Instance) (kind : ExternKind) (i : Nat) : Except Trap ExternAddr :=
  ExternAddr.mk kind <$> match kind with
    | .func => inst.funcAddr i
    | .table => inst.tableAddr i
    | .memory => inst.memoryAddr i
    | .global => inst.globalAddr i

def funcType (inst : Instance) (i : Nat) : Except Trap FuncType :=
  match inst.mod.types[i]? with
  | some t => .ok t
  | none => .error (.indexOutOfRange .type i)

def export? (inst : Instance) (name : String) : Option ExternAddr :=
  inst.exports.lookup name

end Instance

end Wasm
