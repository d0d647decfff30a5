import Wasm.Trap
import Wasm.Describe

namespace Wasm

inductive Site
  | importType
  | funcImport
  | tableImport
  | tableImportLimits
  | memoryImportLimits
  | globalImport
  | funcType
  | table
  | tableAllocation
  | memory
  | memoryAllocation
  | instance_
  | globalInit
  | elemFunc
  | elemItem
  | elemSegment
  | elemOffset
  | elemTable
  | dataSegment
  | dataOffset
  | dataMemory
  | export_
  | start
  deriving DecidableEq, Inhabited

def Site.name : Site → String
  | importType => "import type"
  | funcImport => "function import"
  | tableImport => "table import element type"
  | tableImportLimits => "table import limits"
  | memoryImportLimits => "memory import limits"
  | globalImport => "global import"
  | funcType => "function type"
  | table => "table"
  | tableAllocation => "table allocation"
  | memory => "memory"
  | memoryAllocation => "memory allocation"
  | instance_ => "module instance"
  | globalInit => "global initializer"
  | elemFunc => "element function"
  | elemItem => "element item"
  | elemSegment => "element segment"
  | elemOffset => "element offset"
  | elemTable => "element table"
  | dataSegment => "data segment"
  | dataOffset => "data offset"
  | dataMemory => "data memory"
  | export_ => "export"
  | start => "start function"

inductive Shape
  | value (t : ValType)
  | ref (t : RefType)
  | func (t : FuncType)
  | atLeast (n : Nat)
  | size (n : Nat)
  deriving DecidableEq, Inhabited

def Shape.describe : Shape → String
  | value t => t.describe
  | ref t => t.describe
  | func t => t.describe
  | atLeast n => s!"min >= {n}"
  | size n => s!"size {n}"

inductive LinkError
  | unresolvedImport (source name : String)
  | typeMismatch (site : Site) (expected found : Shape)
  | indexOutOfBounds (site : Site) (index : Nat)
  | resourceLimit (site : Site) (requested limit : Nat)
  | elemOutOfBounds
  | dataOutOfBounds
  | initTrap (site : Site) (trap : Trap)
  | startTrap (trap : Trap)
  deriving DecidableEq, Inhabited

def LinkError.message : LinkError → String
  | unresolvedImport source name => "unresolved import: " ++ source ++ "." ++ name
  | typeMismatch site expected found =>
    "type mismatch (" ++ site.name ++ "): expected " ++ expected.describe ++
      ", found " ++ found.describe
  | indexOutOfBounds site index => "index out of bounds (" ++ site.name ++ s!"): {index}"
  | resourceLimit site requested limit =>
    site.name ++ s!" exceeds configured limit: requested {requested}, limit {limit}"
  | elemOutOfBounds => "element segment initialization out of bounds"
  | dataOutOfBounds => "data segment initialization out of bounds"
  | initTrap site _ => "trap while evaluating " ++ site.name
  | startTrap _ => "trap while running start function"

end Wasm
