import Wasm.Types

namespace Wasm

inductive IRel
  | eq | ne
  | lt (s : Sign) | gt (s : Sign) | le (s : Sign) | ge (s : Sign)
  deriving DecidableEq, Inhabited

inductive FRel
  | eq | ne | lt | gt | le | ge
  deriving DecidableEq, Inhabited

inductive IUn
  | clz | ctz | popcnt
  deriving DecidableEq, Inhabited

inductive IBin
  | add | sub | mul
  | div (s : Sign) | rem (s : Sign)
  | and | or | xor
  | shl | shr (s : Sign) | rotl | rotr
  deriving DecidableEq, Inhabited

inductive FUn
  | abs | neg | ceil | floor | trunc | nearest | sqrt
  deriving DecidableEq, Inhabited

inductive FBin
  | add | sub | mul | div | min | max | copysign
  deriving DecidableEq, Inhabited

/-- A part of an integer that is narrower than the integer: `i64x16` is the low 16 bits of an
`i64`. -/
inductive Narrow
  | i32x8 | i32x16 | i64x8 | i64x16 | i64x32
  deriving DecidableEq, Inhabited

@[reducible] def Narrow.width : Narrow → Width
  | .i32x8 | .i32x16 => .w32
  | .i64x8 | .i64x16 | .i64x32 => .w64

@[reducible] def Narrow.bits : Narrow → Nat
  | .i32x8 | .i64x8 => 8
  | .i32x16 | .i64x16 => 16
  | .i64x32 => 32

inductive NumOp
  | eqz (w : Width)
  | irel (w : Width) (op : IRel)
  | frel (w : Width) (op : FRel)
  | iun (w : Width) (op : IUn)
  | ibin (w : Width) (op : IBin)
  | funary (w : Width) (op : FUn)
  | fbin (w : Width) (op : FBin)
  /-- Instruction `i32.wrap_i64`. -/
  | wrap
  /-- Instruction `i64.extend_i32`, signed or unsigned. -/
  | extend (s : Sign)
  /-- Integer of width `dst` from a float of width `src`; traps when there is none. -/
  | trunc (dst src : Width) (s : Sign)
  /-- Integer of width `dst` nearest to the truncation of a float of width `src`. -/
  | truncSat (dst src : Width) (s : Sign)
  /-- Float of width `dst` from an integer of width `src`. -/
  | convert (dst src : Width) (s : Sign)
  /-- Instruction `f32.demote_f64`. -/
  | demote
  /-- Instruction `f64.promote_f32`. -/
  | promote
  /-- The bits of a float as an integer. -/
  | bitsOfFloat (w : Width)
  /-- The bits of an integer as a float. -/
  | floatOfBits (w : Width)
  /-- The low part of an integer, sign-extended to the integer's width. -/
  | signExtend (n : Narrow)
  deriving DecidableEq, Inhabited

def Width.all : List Width := [.w32, .w64]

def Sign.all : List Sign := [.signed, .unsigned]

def IRel.all : List IRel :=
  [.eq, .ne] ++ [IRel.lt, .gt, .le, .ge].flatMap fun op ↦ Sign.all.map op

def FRel.all : List FRel := [.eq, .ne, .lt, .gt, .le, .ge]

def IUn.all : List IUn := [.clz, .ctz, .popcnt]

def IBin.all : List IBin :=
  [.add, .sub, .mul] ++ [IBin.div, .rem].flatMap (fun op ↦ Sign.all.map op) ++
    [.and, .or, .xor, .shl] ++ Sign.all.map .shr ++ [.rotl, .rotr]

def FUn.all : List FUn := [.abs, .neg, .ceil, .floor, .trunc, .nearest, .sqrt]

def FBin.all : List FBin := [.add, .sub, .mul, .div, .min, .max, .copysign]

def Narrow.all : List Narrow := [.i32x8, .i32x16, .i64x8, .i64x16, .i64x32]

namespace NumOp

def byOpcode : List NumOp :=
  Width.all.flatMap (fun w ↦ eqz w :: IRel.all.map (irel w))
    ++ Width.all.flatMap (fun w ↦ FRel.all.map (frel w))
    ++ Width.all.flatMap (fun w ↦ IUn.all.map (iun w) ++ IBin.all.map (ibin w))
    ++ Width.all.flatMap (fun w ↦ FUn.all.map (funary w) ++ FBin.all.map (fbin w))
    ++ wrap :: Width.all.flatMap (fun src ↦ Sign.all.map (trunc .w32 src))
    ++ Sign.all.map extend ++ Width.all.flatMap (fun src ↦ Sign.all.map (trunc .w64 src))
    ++ Width.all.flatMap (fun src ↦ Sign.all.map (convert .w32 src)) ++ [demote]
    ++ Width.all.flatMap (fun src ↦ Sign.all.map (convert .w64 src)) ++ [promote]
    ++ Width.all.map bitsOfFloat ++ Width.all.map floatOfBits
    ++ Narrow.all.map signExtend

def bySubOpcode : List NumOp :=
  Width.all.flatMap fun dst ↦ Width.all.flatMap fun src ↦ Sign.all.map (truncSat dst src)

def ofOpcode? (b : UInt8) : Option NumOp :=
  if b < 0x45 then none else byOpcode[b.toNat - 0x45]?

theorem length_bySubOpcode : bySubOpcode.length = 8 := by rfl

end NumOp

end Wasm
