import Wasm.Proofs.Decode.WellFormed

namespace Wasm

namespace Leb128

def encode (n : Nat) : List UInt8 :=
  if n < 128 then [UInt8.ofNat n] else UInt8.ofNat (n % 128 + 128) :: encode (n / 128)

def encodeSigned (i : Int) : List UInt8 :=
  if -64 ≤ i ∧ i < 64 then [UInt8.ofNat (i % 128).toNat]
  else UInt8.ofNat ((i % 128).toNat + 128) :: encodeSigned (i / 128)
termination_by i.natAbs

def u32 (n : UInt32) : List UInt8 := encode n.toNat

end Leb128

open Leb128

def vectorOf (items : List (List UInt8)) : List UInt8 := encode items.length ++ items.flatten

def byteVectorOf (bs : List UInt8) : List UInt8 := encode bs.length ++ bs

def nameOf (s : String) : List UInt8 := byteVectorOf s.toUTF8.data.toList

namespace NumOp

def signBit : Sign → UInt8
  | .signed => 0
  | .unsigned => 1

def irelCode : IRel → UInt8
  | .eq => 0
  | .ne => 1
  | .lt s => 2 + signBit s
  | .gt s => 4 + signBit s
  | .le s => 6 + signBit s
  | .ge s => 8 + signBit s

def frelCode : FRel → UInt8
  | .eq => 0
  | .ne => 1
  | .lt => 2
  | .gt => 3
  | .le => 4
  | .ge => 5

def iunCode : IUn → UInt8
  | .clz => 0
  | .ctz => 1
  | .popcnt => 2

def ibinCode : IBin → UInt8
  | .add => 0
  | .sub => 1
  | .mul => 2
  | .div s => 3 + signBit s
  | .rem s => 5 + signBit s
  | .and => 7
  | .or => 8
  | .xor => 9
  | .shl => 10
  | .shr s => 11 + signBit s
  | .rotl => 13
  | .rotr => 14

def funaryCode : FUn → UInt8
  | .abs => 0
  | .neg => 1
  | .ceil => 2
  | .floor => 3
  | .trunc => 4
  | .nearest => 5
  | .sqrt => 6

def fbinCode : FBin → UInt8
  | .add => 0
  | .sub => 1
  | .mul => 2
  | .div => 3
  | .min => 4
  | .max => 5
  | .copysign => 6

def opcode : NumOp → UInt8
  | eqz .w32 => 0x45
  | irel .w32 op => 0x46 + irelCode op
  | eqz .w64 => 0x50
  | irel .w64 op => 0x51 + irelCode op
  | frel .w32 op => 0x5B + frelCode op
  | frel .w64 op => 0x61 + frelCode op
  | iun .w32 op => 0x67 + iunCode op
  | ibin .w32 op => 0x6A + ibinCode op
  | iun .w64 op => 0x79 + iunCode op
  | ibin .w64 op => 0x7C + ibinCode op
  | funary .w32 op => 0x8B + funaryCode op
  | fbin .w32 op => 0x92 + fbinCode op
  | funary .w64 op => 0x99 + funaryCode op
  | fbin .w64 op => 0xA0 + fbinCode op
  | wrap => 0xA7
  | trunc .w32 .w32 s => 0xA8 + signBit s
  | trunc .w32 .w64 s => 0xAA + signBit s
  | extend s => 0xAC + signBit s
  | trunc .w64 .w32 s => 0xAE + signBit s
  | trunc .w64 .w64 s => 0xB0 + signBit s
  | convert .w32 .w32 s => 0xB2 + signBit s
  | convert .w32 .w64 s => 0xB4 + signBit s
  | demote => 0xB6
  | convert .w64 .w32 s => 0xB7 + signBit s
  | convert .w64 .w64 s => 0xB9 + signBit s
  | promote => 0xBB
  | bitsOfFloat .w32 => 0xBC
  | bitsOfFloat .w64 => 0xBD
  | floatOfBits .w32 => 0xBE
  | floatOfBits .w64 => 0xBF
  | signExtend .i32x8 => 0xC0
  | signExtend .i32x16 => 0xC1
  | signExtend .i64x8 => 0xC2
  | signExtend .i64x16 => 0xC3
  | signExtend .i64x32 => 0xC4
  | truncSat .w32 .w32 s => signBit s
  | truncSat .w32 .w64 s => 2 + signBit s
  | truncSat .w64 .w32 s => 4 + signBit s
  | truncSat .w64 .w64 s => 6 + signBit s

def isPrefixed : NumOp → Bool
  | truncSat .. => true
  | _ => false

end NumOp

def LoadOp.opcode : LoadOp → UInt8
  | full .i32 => 0x28
  | full .i64 => 0x29
  | full .f32 => 0x2A
  | full .f64 => 0x2B
  | narrow .i32x8 s => 0x2C + NumOp.signBit s
  | narrow .i32x16 s => 0x2E + NumOp.signBit s
  | narrow .i64x8 s => 0x30 + NumOp.signBit s
  | narrow .i64x16 s => 0x32 + NumOp.signBit s
  | narrow .i64x32 s => 0x34 + NumOp.signBit s

def StoreOp.opcode : StoreOp → UInt8
  | full .i32 => 0x36
  | full .i64 => 0x37
  | full .f32 => 0x38
  | full .f64 => 0x39
  | narrow .i32x8 => 0x3A
  | narrow .i32x16 => 0x3B
  | narrow .i64x8 => 0x3C
  | narrow .i64x16 => 0x3D
  | narrow .i64x32 => 0x3E

def RefType.byte (t : RefType) : UInt8 := t.toValType.byte

def BlockType.encode : BlockType → List UInt8
  | empty => [0x40]
  | value t => [t.byte]
  | func i => encodeSigned i.toNat

def MemArg.encode (a : MemArg) : List UInt8 := u32 a.align ++ u32 a.offset

def Instr.encode : Instr → List UInt8
  | unreachable => [0x00]
  | nop => [0x01]
  | block t => 0x02 :: t.encode
  | loop t => 0x03 :: t.encode
  | if_ t => 0x04 :: t.encode
  | else_ => [0x05]
  | end_ => [0x0B]
  | br l => 0x0C :: u32 l
  | brIf l => 0x0D :: u32 l
  | brTable ls l => 0x0E :: (vectorOf (ls.map u32) ++ u32 l)
  | return_ => [0x0F]
  | call f => 0x10 :: u32 f
  | callIndirect type table => 0x11 :: (u32 type ++ u32 table)
  | drop => [0x1A]
  | select => [0x1B]
  | selectTyped ts => 0x1C :: vectorOf (ts.map fun t ↦ [t.byte])
  | localGet i => 0x20 :: u32 i
  | localSet i => 0x21 :: u32 i
  | localTee i => 0x22 :: u32 i
  | globalGet i => 0x23 :: u32 i
  | globalSet i => 0x24 :: u32 i
  | tableGet t => 0x25 :: u32 t
  | tableSet t => 0x26 :: u32 t
  | load op a => op.opcode :: a.encode
  | store op a => op.opcode :: a.encode
  | memorySize => [0x3F, 0x00]
  | memoryGrow => [0x40, 0x00]
  | i32Const b => 0x41 :: encodeSigned b.toInt
  | i64Const b => 0x42 :: encodeSigned b.toInt
  | f32Const b => 0x43 :: LittleEndian.encode 4 b.toNat
  | f64Const b => 0x44 :: LittleEndian.encode 8 b.toNat
  | refNull t => [0xD0, t.byte]
  | refIsNull => [0xD1]
  | refFunc f => 0xD2 :: u32 f
  | memoryInit d => 0xFC :: (u32 8 ++ (u32 d ++ [0x00]))
  | dataDrop d => 0xFC :: (u32 9 ++ u32 d)
  | memoryCopy => 0xFC :: (u32 10 ++ [0x00, 0x00])
  | memoryFill => 0xFC :: (u32 11 ++ [0x00])
  | tableInit elem table => 0xFC :: (u32 12 ++ (u32 elem ++ u32 table))
  | elemDrop e => 0xFC :: (u32 13 ++ u32 e)
  | tableCopy dst src => 0xFC :: (u32 14 ++ (u32 dst ++ u32 src))
  | tableGrow t => 0xFC :: (u32 15 ++ u32 t)
  | tableSize t => 0xFC :: (u32 16 ++ u32 t)
  | tableFill t => 0xFC :: (u32 17 ++ u32 t)
  | numeric op => if op.isPrefixed then 0xFC :: Leb128.encode op.opcode.toNat else [op.opcode]

def Code.encode (code : Code) : List UInt8 := code.toList.flatMap Instr.encode

def Limits.encode (l : Limits) : List UInt8 :=
  match l.max with
  | none => 0x00 :: u32 l.min
  | some max => 0x01 :: (u32 l.min ++ u32 max)

def FuncType.encode (t : FuncType) : List UInt8 :=
  0x60 :: (vectorOf (t.params.map fun t ↦ [t.byte]) ++ vectorOf (t.results.map fun t ↦ [t.byte]))

def TableType.encode (t : TableType) : List UInt8 := t.elem.byte :: t.limits.encode

def MemoryType.encode (t : MemoryType) : List UInt8 := t.limits.encode

def GlobalType.encode (t : GlobalType) : List UInt8 :=
  [t.value.byte, if t.mutable then 0x01 else 0x00]

def ImportDesc.encode : ImportDesc → List UInt8
  | func t => 0x00 :: u32 t
  | table t => 0x01 :: t.encode
  | memory t => 0x02 :: t.encode
  | global t => 0x03 :: t.encode

def Import.encode (i : Import) : List UInt8 := nameOf i.source ++ (nameOf i.name ++ i.desc.encode)

def ExternKind.byte : ExternKind → UInt8
  | func => 0x00
  | table => 0x01
  | memory => 0x02
  | global => 0x03

def Export.encode (e : Export) : List UInt8 := nameOf e.name ++ (e.kind.byte :: u32 e.index)

def GlobalDef.encode (g : GlobalDef) : List UInt8 := g.type.encode ++ g.init.encode

def ElemItems.encode : ElemItems → List UInt8
  | funcs is => vectorOf (is.map u32)
  | exprs es => vectorOf (es.map Code.encode)

/-- An element segment, with its table written out where the format lets one leave out table 0 if
`wide` is set. -/
def ElemSegment.encode (wide : Bool) (e : ElemSegment) : List UInt8 :=
  match e.mode, e.items with
  | .active table offset, .funcs is =>
    if table = 0 ∧ wide = false then u32 0 ++ (offset.encode ++ e.items.encode)
    else u32 2 ++ (u32 table ++ (offset.encode ++ (0x00 :: (ElemItems.funcs is).encode)))
  | .passive, .funcs is => u32 1 ++ (0x00 :: (ElemItems.funcs is).encode)
  | .declarative, .funcs is => u32 3 ++ (0x00 :: (ElemItems.funcs is).encode)
  | .active table offset, .exprs es =>
    if table = 0 ∧ e.type = .funcref ∧ wide = false then
      u32 4 ++ (offset.encode ++ (ElemItems.exprs es).encode)
    else u32 6 ++ (u32 table ++ (offset.encode ++ (e.type.byte :: (ElemItems.exprs es).encode)))
  | .passive, .exprs es => u32 5 ++ (e.type.byte :: (ElemItems.exprs es).encode)
  | .declarative, .exprs es => u32 7 ++ (e.type.byte :: (ElemItems.exprs es).encode)

def DataSegment.encode (wide : Bool) (d : DataSegment) : List UInt8 :=
  match d.mode with
  | .passive => u32 1 ++ byteVectorOf d.init
  | .active memory offset =>
    if memory = 0 ∧ wide = false then u32 0 ++ (offset.encode ++ byteVectorOf d.init)
    else u32 2 ++ (u32 memory ++ (offset.encode ++ byteVectorOf d.init))

def runs : List ValType → List (Nat × ValType)
  | [] => []
  | t :: ts =>
    match runs ts with
    | [] => [(1, t)]
    | (n, t') :: gs => if t = t' then (n + 1, t) :: gs else (1, t) :: (n, t') :: gs

def Body.contents (b : Body) : List UInt8 :=
  vectorOf ((runs b.locals).map fun g ↦ encode g.1 ++ [g.2.byte]) ++ b.code.encode

def Body.encode (b : Body) : List UInt8 := byteVectorOf b.contents

/-- What the format leaves open. -/
structure Layout where
  /-- The element segments that name their table although they need not. -/
  wideElem : Nat → Bool := fun _ ↦ false
  /-- The data segments that name their memory although they need not. -/
  wideData : Nat → Bool := fun _ ↦ false
  /-- The sections that are written even if they are empty. -/
  keeps : SectionId → Bool := fun _ ↦ false
  /-- Number of custom sections right before the place of a section. The others stand last. -/
  customs : SectionId → Nat := fun _ ↦ 0

def Section.payload (l : Layout) : Section → List UInt8
  | custom c => nameOf c.name ++ c.payload
  | types ts => vectorOf (ts.map FuncType.encode)
  | imports is => vectorOf (is.map Import.encode)
  | funcTypes is => vectorOf (is.map u32)
  | tables ts => vectorOf (ts.map TableType.encode)
  | memories ts => vectorOf (ts.map MemoryType.encode)
  | globals gs => vectorOf (gs.map GlobalDef.encode)
  | exports es => vectorOf (es.map Export.encode)
  | start f => u32 f
  | elements es => vectorOf (es.mapIdx fun i e ↦ e.encode (l.wideElem i))
  | bodies bs => vectorOf (bs.map Body.encode)
  | data ds => vectorOf (ds.mapIdx fun i d ↦ d.encode (l.wideData i))
  | dataCount n => u32 n

def Section.encode (l : Layout) (s : Section) : List UInt8 :=
  UInt8.ofNat s.id.toNat :: byteVectorOf (s.payload l)

def SectionId.inOrder : List SectionId :=
  [type, import_, function, table, memory, global, export_, start, element, dataCount, code, data]

namespace Module

variable (m : Module) (l : Layout)

def section? : SectionId → Option Section
  | .custom => none
  | .type => listed .type m.types .types
  | .import_ => listed .import_ m.imports .imports
  | .function => listed .function m.funcTypes .funcTypes
  | .table => listed .table m.tables .tables
  | .memory => listed .memory m.memories .memories
  | .global => listed .global m.globals .globals
  | .export_ => listed .export_ m.exports .exports
  | .start => m.start.map .start
  | .element => listed .element m.elements .elements
  | .dataCount => m.dataCount.map .dataCount
  | .code => listed .code (m.functions.map fun f ↦ ⟨f.locals, f.body⟩) .bodies
  | .data => listed .data m.data .data
where
  listed {α : Type} (id : SectionId) (xs : List α) (s : List α → Section) : Option Section :=
    if xs.isEmpty && !l.keeps id then none else some (s xs)

def sectionsFrom : List SectionId → List CustomSection → List Section
  | [], cs => cs.map .custom
  | id :: ids, cs => (cs.take (l.customs id)).map .custom ++
    ((m.section? l id).toList ++ sectionsFrom ids (cs.drop (l.customs id)))

def sections : List Section := m.sectionsFrom l SectionId.inOrder m.customs

def encode : List UInt8 :=
  [0x00, 0x61, 0x73, 0x6D] ++
    ([0x01, 0x00, 0x00, 0x00] ++ (m.sections l).flatMap (Section.encode l))

end Module

end Wasm
