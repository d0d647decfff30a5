import Wasm.Proofs.Decode.Progress

namespace Wasm

/-- A cursor, and how much work has been done. -/
structure Meter where
  cursor : Cursor
  work : Nat := 0

abbrev Metered := EStateM DecodeError Meter

namespace Metered

variable {α : Type}

def spend (n : Nat) : Metered Unit := modify fun m ↦ { m with work := m.work + n }

def charge (cost : Nat → Nat) (r : Reader α) : Metered α := fun m ↦
  let after := fun c ↦ ⟨c, m.work + cost (m.cursor.remaining - c.remaining)⟩
  match r m.cursor with
  | .ok a c => .ok a (after c)
  | .error e c => .error e (after c)

def free (r : Reader α) : Metered α := charge (fun _ ↦ 0) r

def read (r : Reader α) : Metered α := charge (· + 1) r

def inside (c : Cursor) (x : Metered α) : Metered (α × Cursor) := fun outer ↦
  match x { outer with cursor := c } with
  | .ok a m => .ok (a, m.cursor) { outer with work := m.work }
  | .error e m => .error e { outer with work := m.work }

def times (item : Metered α) : Nat → Metered (List α)
  | 0 => return []
  | n + 1 => do
    spend 1
    let x ← item
    return x :: (← times item n)

def vector (item : Metered α) : Metered (List α) := do
  times item (← read Reader.u32).toNat

def instr (types : List FuncType) : Metered Instr := do
  let opcode := (← get).cursor.unread.head?
  if opcode = some 0x0E then
    let _ ← read Reader.byte
    let targets ← vector (read Reader.u32)
    let fallback ← read Reader.u32
    return .brTable targets fallback
  else if opcode = some 0x1C then
    let _ ← read Reader.byte
    return .selectTyped (← vector (read Reader.valType))
  else
    read (Reader.instr types)

/-- `Reader.exprFrom` for instructions that are read by `next`. -/
def exprFrom (next : Metered Instr) : (steps depth : Nat) → Metered (List Instr)
  | 0, _ => do throw (.unexpectedEnd (← free Reader.offset))
  | n + 1, depth => do
    spend 1
    let i ← next
    if i = .end_ then
      match depth with
      | 0 => return [i]
      | d + 1 => return i :: (← exprFrom next n d)
    else
      return i :: (← exprFrom next n (if i.opens then depth + 1 else depth))

def expr (limit : Nat) (next : Metered Instr) : Metered Code := do
  return (← exprFrom next limit 0).toArray

def funcType : Metered FuncType := do
  let start ← free Reader.offset
  if (← read Reader.byte) ≠ 0x60 then
    free (Reader.fail .funcTypeForm start)
  else
    let params ← vector (read Reader.valType)
    let results ← vector (read Reader.valType)
    return { params, results }

section Code

variable (limit : Nat) (types : List FuncType)

def globalDef : Metered GlobalDef := do
  let type ← read Reader.globalType
  let init ← expr limit (instr types)
  return { type, init }

def funcItems : Metered ElemItems :=
  .funcs <$> vector (read Reader.u32)

def exprItems : Metered ElemItems :=
  .exprs <$> vector (expr limit (instr types))

def elemSegment : Metered ElemSegment := do
  let start ← free Reader.offset
  match (← read Reader.u32).toNat with
  | 0 => do
    let offset ← expr limit (instr types)
    let items ← funcItems
    return { type := .funcref, items, mode := .active 0 offset }
  | 1 => do
    let type ← read Reader.elemKind
    let items ← funcItems
    return { type, items, mode := .passive }
  | 2 => do
    let table ← read Reader.u32
    let offset ← expr limit (instr types)
    let type ← read Reader.elemKind
    let items ← funcItems
    return { type, items, mode := .active table offset }
  | 3 => do
    let type ← read Reader.elemKind
    let items ← funcItems
    return { type, items, mode := .declarative }
  | 4 => do
    let offset ← expr limit (instr types)
    let items ← exprItems limit types
    return { type := .funcref, items, mode := .active 0 offset }
  | 5 => do
    let type ← read Reader.refType
    let items ← exprItems limit types
    return { type, items, mode := .passive }
  | 6 => do
    let table ← read Reader.u32
    let offset ← expr limit (instr types)
    let type ← read Reader.refType
    let items ← exprItems limit types
    return { type, items, mode := .active table offset }
  | 7 => do
    let type ← read Reader.refType
    let items ← exprItems limit types
    return { type, items, mode := .declarative }
  | _ => free (Reader.fail .elementFlags start)

def dataMode : Metered DataMode := do
  let start ← free Reader.offset
  match (← read Reader.u32).toNat with
  | 0 => return .active 0 (← expr limit (instr types))
  | 1 => return .passive
  | 2 => do
    let memory ← read Reader.u32
    return .active memory (← expr limit (instr types))
  | _ => free (Reader.fail .dataFlags start)

def dataSegment : Metered DataSegment := do
  let mode ← dataMode limit types
  let init ← read Reader.byteVector
  return { mode, init }

def locals : Metered (List ValType) := do
  let start ← free Reader.offset
  let groups ← vector (read Reader.localGroup)
  spend groups.length
  if maxLocals < groups.foldl (fun n g ↦ n + g.1) 0 then
    free (Reader.fail .tooManyLocals start)
  else
    return groups.flatMap fun g ↦ List.replicate g.1 g.2

def bodyContents : Metered Body := do
  let locals ← locals
  let code ← expr limit (instr types)
  let c := (← get).cursor
  if c.atEnd then
    return { locals, code }
  free (Reader.fail .bodySize c.offset)

def body : Metered Body := do
  let size ← read Reader.u32
  let c ← free (Reader.sub size.toNat)
  return (← inside c (bodyContents limit types)).1

def payload : SectionId → Metered Section
  | .custom => .custom <$> read Reader.custom
  | .type => .types <$> vector funcType
  | .import_ => do
    let imports ← vector (read Reader.import_)
    spend imports.length
    return .imports imports
  | .function => .funcTypes <$> vector (read Reader.u32)
  | .table => .tables <$> vector (read Reader.tableType)
  | .memory => .memories <$> vector (read Reader.memoryType)
  | .global => .globals <$> vector (globalDef limit types)
  | .export_ => .exports <$> vector (read Reader.export_)
  | .start => .start <$> read Reader.u32
  | .element => .elements <$> vector (elemSegment limit types)
  | .code => .bodies <$> vector (body limit types)
  | .data => .data <$> vector (dataSegment limit types)
  | .dataCount => .dataCount <$> read Reader.u32

end Code

def section_ (limit : Nat) (d : Draft) : Metered Draft := do
  let h ← read Reader.sectionHeader
  let c ← free (Reader.sub h.size.toNat)
  let order ← MonadExcept.ofExcept (d.place h)
  let (s, c) ← inside c (payload limit d.mod.types h.id)
  if c.atEnd then
    return { d.add s with order }
  throw (.sectionSize h.id.toNat h.size.toNat c.consumed)

def sections (next : Draft → Metered Draft) : (steps : Nat) → Draft → Metered Draft
  | 0, d => return d
  | n + 1, d => do
    if (← get).cursor.atEnd then
      return d
    spend 1
    sections next n (← next d)

def module_ (limit : Nat) : Metered Module := do
  read Reader.header
  let d ← sections (section_ limit) limit {}
  spend d.mod.funcTypes.length
  MonadExcept.ofExcept d.finish

end Metered

end Wasm
