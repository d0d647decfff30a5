import Wasm.Value
import Wasm.Instr.Basic

namespace Wasm

namespace Describe

def parts (name : String) (xs : List String) : String :=
  name ++ "(" ++ ", ".intercalate xs ++ ")"

def fields (name : String) (xs : List (String × String)) : String :=
  name ++ " \x7b " ++ ", ".intercalate (xs.map fun x ↦ x.1 ++ ": " ++ x.2) ++ " \x7d"

def list (xs : List String) : String :=
  "[" ++ ", ".intercalate xs ++ "]"

end Describe

open Describe

def Width.describe : Width → String
  | .w32 => "32"
  | .w64 => "64"

def Sign.describe : Sign → String
  | .signed => "S"
  | .unsigned => "U"

def ValType.describe : ValType → String
  | .i32 => "I32"
  | .i64 => "I64"
  | .f32 => "F32"
  | .f64 => "F64"
  | .v128 => "V128"
  | .funcref => "FuncRef"
  | .externref => "ExternRef"

def RefType.describe (t : RefType) : String :=
  t.toValType.describe

def FuncType.describe (t : FuncType) : String :=
  fields "FuncType"
    [("params", list (t.params.map ValType.describe)),
      ("results", list (t.results.map ValType.describe))]

def Value.describe : Value → String
  | i32 bits => parts "I32" [toString bits.toInt]
  | i64 bits => parts "I64" [toString bits.toInt]
  | f32 bits => parts "F32" [toString bits.toNat]
  | f64 bits => parts "F64" [toString bits.toNat]
  | v128 bits => parts "V128" [toString bits.toNat]
  | funcref addr => parts "FuncRef" [address addr]
  | externref addr => parts "ExternRef" [address addr]
where
  address : Option Nat → String
    | none => "None"
    | some a => parts "Some" [toString a]

def IRel.describe : IRel → String
  | .eq => "Eq"
  | .ne => "Ne"
  | .lt s => "Lt" ++ s.describe
  | .gt s => "Gt" ++ s.describe
  | .le s => "Le" ++ s.describe
  | .ge s => "Ge" ++ s.describe

def FRel.describe : FRel → String
  | .eq => "Eq"
  | .ne => "Ne"
  | .lt => "Lt"
  | .gt => "Gt"
  | .le => "Le"
  | .ge => "Ge"

def IUn.describe : IUn → String
  | .clz => "Clz"
  | .ctz => "Ctz"
  | .popcnt => "Popcnt"

def IBin.describe : IBin → String
  | .add => "Add"
  | .sub => "Sub"
  | .mul => "Mul"
  | .div s => "Div" ++ s.describe
  | .rem s => "Rem" ++ s.describe
  | .and => "And"
  | .or => "Or"
  | .xor => "Xor"
  | .shl => "Shl"
  | .shr s => "Shr" ++ s.describe
  | .rotl => "Rotl"
  | .rotr => "Rotr"

def FUn.describe : FUn → String
  | .abs => "Abs"
  | .neg => "Neg"
  | .ceil => "Ceil"
  | .floor => "Floor"
  | .trunc => "Trunc"
  | .nearest => "Nearest"
  | .sqrt => "Sqrt"

def FBin.describe : FBin → String
  | .add => "Add"
  | .sub => "Sub"
  | .mul => "Mul"
  | .div => "Div"
  | .min => "Min"
  | .max => "Max"
  | .copysign => "Copysign"

def NumType.describe : NumType → String
  | .i32 => "I32"
  | .i64 => "I64"
  | .f32 => "F32"
  | .f64 => "F64"

def Narrow.describe (verb : String) (n : Narrow) : String :=
  "I" ++ n.width.describe ++ verb ++ toString n.bits

def LoadOp.describe : LoadOp → String
  | full t => t.describe ++ "Load"
  | narrow n s => n.describe "Load" ++ s.describe

def StoreOp.describe : StoreOp → String
  | full t => t.describe ++ "Store"
  | narrow n => n.describe "Store"

def NumOp.describe : NumOp → String
  | eqz w => "I" ++ w.describe ++ "Eqz"
  | irel w op => "I" ++ w.describe ++ op.describe
  | frel w op => "F" ++ w.describe ++ op.describe
  | iun w op => "I" ++ w.describe ++ op.describe
  | ibin w op => "I" ++ w.describe ++ op.describe
  | funary w op => "F" ++ w.describe ++ op.describe
  | fbin w op => "F" ++ w.describe ++ op.describe
  | wrap => "I32WrapI64"
  | extend s => "I64ExtendI32" ++ s.describe
  | trunc dst src s => "I" ++ dst.describe ++ "TruncF" ++ src.describe ++ s.describe
  | truncSat dst src s => "I" ++ dst.describe ++ "TruncSatF" ++ src.describe ++ s.describe
  | convert dst src s => "F" ++ dst.describe ++ "ConvertI" ++ src.describe ++ s.describe
  | demote => "F32DemoteF64"
  | promote => "F64PromoteF32"
  | bitsOfFloat w => "I" ++ w.describe ++ "ReinterpretF" ++ w.describe
  | floatOfBits w => "F" ++ w.describe ++ "ReinterpretI" ++ w.describe
  | signExtend n => n.describe "Extend" ++ "S"

def BlockType.describe : BlockType → String
  | empty => "Empty"
  | value t => parts "Value" [t.describe]
  | func i => parts "Func" [toString i.toNat]

def MemArg.describe (arg : MemArg) : String :=
  fields "MemArg" [("align", toString arg.align.toNat), ("offset", toString arg.offset.toNat)]

def Instr.describe : Instr → String
  | unreachable => "Unreachable"
  | nop => "Nop"
  | block t => parts "Block" [t.describe]
  | loop t => parts "Loop" [t.describe]
  | if_ t => parts "If" [t.describe]
  | else_ => "Else"
  | end_ => "End"
  | br l => parts "Br" [index l]
  | brIf l => parts "BrIf" [index l]
  | brTable ls l => fields "BrTable" [("targets", list (ls.map index)), ("default", index l)]
  | return_ => "Return"
  | call f => parts "Call" [index f]
  | callIndirect type table =>
    fields "CallIndirect" [("type_idx", index type), ("table", index table)]
  | refNull t => parts "RefNull" [t.describe]
  | refIsNull => "RefIsNull"
  | refFunc f => parts "RefFunc" [index f]
  | drop => "Drop"
  | select => "Select"
  | selectTyped ts => parts "SelectTyped" [list (ts.map ValType.describe)]
  | localGet i => parts "LocalGet" [index i]
  | localSet i => parts "LocalSet" [index i]
  | localTee i => parts "LocalTee" [index i]
  | globalGet i => parts "GlobalGet" [index i]
  | globalSet i => parts "GlobalSet" [index i]
  | tableGet t => parts "TableGet" [index t]
  | tableSet t => parts "TableSet" [index t]
  | tableInit e t => fields "TableInit" [("elem", index e), ("table", index t)]
  | elemDrop e => parts "ElemDrop" [index e]
  | tableCopy d s => fields "TableCopy" [("dst", index d), ("src", index s)]
  | tableGrow t => parts "TableGrow" [index t]
  | tableSize t => parts "TableSize" [index t]
  | tableFill t => parts "TableFill" [index t]
  | load op arg => parts op.describe [arg.describe]
  | store op arg => parts op.describe [arg.describe]
  | memorySize => "MemorySize"
  | memoryGrow => "MemoryGrow"
  | memoryInit d => parts "MemoryInit" [index d]
  | dataDrop d => parts "DataDrop" [index d]
  | memoryCopy => "MemoryCopy"
  | memoryFill => "MemoryFill"
  | i32Const bits => parts "I32Const" [toString bits.toInt]
  | i64Const bits => parts "I64Const" [toString bits.toInt]
  | f32Const bits => parts "F32Const" [toString bits.toNat]
  | f64Const bits => parts "F64Const" [toString bits.toNat]
  | numeric op => op.describe
where
  index (i : Idx) : String := toString i.toNat

end Wasm
