namespace Wasm

inductive Width
  | w32
  | w64
  deriving DecidableEq, Inhabited

@[reducible] def Width.bits : Width → Nat
  | .w32 => 32
  | .w64 => 64

inductive Sign
  | signed
  | unsigned
  deriving DecidableEq, Inhabited

inductive RefType
  | funcref
  | externref
  deriving DecidableEq, Inhabited

inductive ValType
  | i32
  | i64
  | f32
  | f64
  | v128
  | funcref
  | externref
  deriving DecidableEq, Inhabited

@[reducible] def ValType.int : Width → ValType
  | .w32 => .i32
  | .w64 => .i64

@[reducible] def ValType.float : Width → ValType
  | .w32 => .f32
  | .w64 => .f64

@[reducible] def RefType.toValType : RefType → ValType
  | .funcref => .funcref
  | .externref => .externref

def ValType.isRef : ValType → Bool
  | .funcref | .externref => true
  | _ => false

def ValType.byte : ValType → UInt8
  | .i32 => 0x7F
  | .i64 => 0x7E
  | .f32 => 0x7D
  | .f64 => 0x7C
  | .v128 => 0x7B
  | .funcref => 0x70
  | .externref => 0x6F

def ValType.all : List ValType :=
  [.i32, .i64, .f32, .f64, .v128, .funcref, .externref]

def ValType.ofByte? (b : UInt8) : Option ValType :=
  ValType.all.find? (·.byte == b)

theorem ValType.ofByte?_byte (t : ValType) : ofByte? t.byte = some t := by
  cases t <;> decide

theorem ValType.byte_of_ofByte? {b : UInt8} {t : ValType} (h : ofByte? b = some t) :
    t.byte = b := by
  simpa using List.find?_some h

def ValType.name : ValType → String
  | .i32 => "i32"
  | .i64 => "i64"
  | .f32 => "f32"
  | .f64 => "f64"
  | .v128 => "v128"
  | .funcref => "funcref"
  | .externref => "externref"

structure FuncType where
  params : List ValType
  results : List ValType
  deriving DecidableEq, Inhabited

/-- Size bounds: elements for a table, pages for a memory. -/
structure Limits where
  min : UInt32
  max : Option UInt32 := none
  deriving DecidableEq, Inhabited

def Limits.top (l : Limits) : Nat :=
  (l.max.map UInt32.toNat).getD (UInt32.size - 1)

/-- Which numbers of bytes can be had. -/
abbrev Allocator := Nat → Bool

namespace Allocator

def ample : Allocator := fun n ↦ n < 1 <<< 47

def resizes (a : Allocator) (old new : Nat) : Bool := new ≤ old || a new

end Allocator

structure TableType where
  elem : RefType
  limits : Limits
  deriving DecidableEq, Inhabited

structure MemoryType where
  limits : Limits
  deriving DecidableEq, Inhabited

structure GlobalType where
  value : ValType
  mutable : Bool
  deriving DecidableEq, Inhabited

end Wasm
