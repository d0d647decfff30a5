import Wasm.Decode.Section

namespace Wasm

def magic : Nat := 0x6D736100

def version : Nat := 1

/-- A module under construction: its function bodies are not yet paired with their types. -/
structure Draft where
  mod : Module := {}
  bodies : List Body := []
  /-- Position of the last section that is not custom. -/
  order : Nat := 0
  deriving DecidableEq, Inhabited

namespace Draft

def add (d : Draft) : Section → Draft
  | .custom c => { d with mod.customs := d.mod.customs ++ [c] }
  | .types ts => { d with mod.types := ts }
  | .imports is => { d with mod.imports := is, mod.imported := .ofImports is }
  | .funcTypes is => { d with mod.funcTypes := is }
  | .tables ts => { d with mod.tables := ts }
  | .memories ts => { d with mod.memories := ts }
  | .globals gs => { d with mod.globals := gs }
  | .exports es => { d with mod.exports := es }
  | .start f => { d with mod.start := some f }
  | .elements es => { d with mod.elements := es }
  | .bodies bs => { d with bodies := bs }
  | .data ds => { d with mod.data := ds }
  | .dataCount n => { d with mod.dataCount := some n }

/-- The position that a section moves the draft to, if the section may stand after those before
it. -/
def place (d : Draft) (h : SectionHeader) : Except DecodeError Nat :=
  if h.id = .custom then
    .ok d.order
  else if h.id.order = d.order then
    .error (.malformed h.offset .duplicateSection)
  else if h.id.order < d.order then
    .error (.malformed h.offset .sectionOrder)
  else
    .ok h.id.order

def finish (d : Draft) : Except DecodeError Module :=
  let m := d.mod
  if m.funcTypes.length ≠ d.bodies.length then
    .error (.bodyCount m.funcTypes.length d.bodies.length)
  else if m.dataCount.any (·.toNat ≠ m.data.length) then
    .error (.dataCount (m.dataCount.getD 0).toNat m.data.length)
  else
    let func := fun type (b : Body) ↦ ⟨type, b.locals, b.code⟩
    .ok { m with functions := List.zipWith func m.funcTypes d.bodies }

end Draft

namespace Reader

def header : Reader Unit := do
  let found ← littleEndian 4
  if found ≠ magic then
    throw (.badMagic found)
  let found ← littleEndian 4
  if found ≠ version then
    throw (.unsupportedVersion found)

def section_ (d : Draft) : Reader Draft := do
  let h ← sectionHeader
  let c ← sub h.size.toNat
  let order ← MonadExcept.ofExcept (d.place h)
  let (s, c) ← inside c (payload d.mod.types h.id)
  if c.atEnd then
    return { d.add s with order }
  throw (.sectionSize h.id.toNat h.size.toNat c.consumed)

/-- All sections up to the end of the input. Every section takes two bytes, so that one more step
than there are bytes is never used up. -/
def sections : (steps : Nat) → Draft → Reader Draft
  | 0, d => return d
  | n + 1, d => do
    if (← get).atEnd then
      return d
    sections n (← section_ d)

def module_ : Reader Module := do
  header
  let d ← sections ((← get).remaining + 1) {}
  MonadExcept.ofExcept d.finish

end Reader

def Module.decode (bytes : List UInt8) : Except DecodeError Module :=
  match Reader.module_ (.ofBytes bytes) with
  | .ok m _ => .ok m
  | .error e _ => .error e

end Wasm
