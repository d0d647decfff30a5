namespace Wasm

inductive Fault
  | blockType
  | blockTypeIndex
  | valueType
  | referenceType
  | zeroByte
  | limitsOrder
  | limitsFlag
  | funcTypeForm
  | mutability
  | importKind
  | exportKind
  | elementKind
  | elementFlags
  | dataFlags
  | tooManyLocals
  | bodySize
  | duplicateSection
  | sectionOrder
  deriving DecidableEq, Inhabited

def Fault.message : Fault → String
  | blockType => "invalid block type"
  | blockTypeIndex => "block type index out of range"
  | valueType => "invalid value type"
  | referenceType => "invalid reference type"
  | zeroByte => "zero byte expected"
  | limitsOrder => "limits maximum below minimum"
  | limitsFlag => "invalid limits flag"
  | funcTypeForm => "expected function type form 0x60"
  | mutability => "invalid global mutability"
  | importKind => "invalid import kind"
  | exportKind => "invalid export kind"
  | elementKind => "invalid element kind"
  | elementFlags => "invalid element segment flags"
  | dataFlags => "invalid data segment flags"
  | tooManyLocals => "too many locals"
  | bodySize => "function body size mismatch"
  | duplicateSection => "duplicate section"
  | sectionOrder => "section out of order"

/-- Why decoding failed. Offsets count bytes from the start of the whole input. -/
inductive DecodeError
  | unexpectedEnd (offset : Nat)
  /-- The number read does not fit the width. -/
  | lebOverflow (bits offset : Nat)
  /-- The number read has more bytes than any number of its width needs. -/
  | lebTooLong (limit offset : Nat)
  | invalidUtf8 (offset : Nat)
  /-- A length reaches past the largest position that a machine word can hold. -/
  | positionOverflow (offset : Nat)
  | badMagic (found : Nat)
  | unsupportedVersion (found : Nat)
  | unknownSection (id offset : Nat)
  /-- Here `sub` is the number behind the `0xFC` byte. -/
  | unknownOpcode (opcode : Nat) (sub : Option Nat) (offset : Nat)
  | sectionSize (id declared consumed : Nat)
  | bodyCount (functions bodies : Nat)
  | dataCount (declared found : Nat)
  | malformed (offset : Nat) (fault : Fault)
  deriving DecidableEq, Inhabited

def hexDigits (width n : Nat) : String :=
  let ds := Nat.toDigits 16 n
  String.ofList (List.replicate (width - ds.length) '0' ++ ds)

def DecodeError.message : DecodeError → String
  | unexpectedEnd offset => s!"unexpected EOF at offset {offset}"
  | lebOverflow bits offset => s!"LEB128 overflow (target bits={bits}) at offset {offset}"
  | lebTooLong limit offset => s!"too many bytes in LEB128 (limit={limit}) at offset {offset}"
  | invalidUtf8 offset => s!"invalid UTF-8 string at offset {offset}"
  | positionOverflow offset => s!"malformed binary at offset {offset}: position overflow"
  | badMagic found => "bad magic number 0x" ++ hexDigits 8 found
  | unsupportedVersion found => s!"unsupported binary version {found}"
  | unknownSection id offset => s!"unknown section id {id} at offset {offset}"
  | unknownOpcode opcode none offset =>
    "unknown opcode 0x" ++ hexDigits 2 opcode ++ s!" at offset {offset}"
  | unknownOpcode opcode (some sub) offset =>
    "unknown opcode 0x" ++ hexDigits 2 opcode ++ s!" {sub} at offset {offset}"
  | sectionSize id declared consumed =>
    s!"section {id} declared {declared} bytes but {consumed} were decoded"
  | bodyCount functions bodies =>
    s!"function section declares {functions} functions but code section has {bodies} bodies"
  | dataCount declared found =>
    s!"data count section declares {declared} segments but data section has {found}"
  | malformed offset fault => s!"malformed module at offset {offset}: " ++ fault.message

end Wasm
