import Wasm.Machine.Run

namespace Wasm

abbrev Link := Action LinkError

namespace Link

variable {α β : Type}

def outOfBounds (site : Site) : Trap → LinkError
  | .indexOutOfRange _ i => .indexOutOfBounds site i
  | t => .initTrap site t

def fail (e : LinkError) : Link α :=
  throw (.failed e)

def require (e : LinkError) : Option α → Link α
  | some a => return a
  | none => fail e

def lookup (site : Site) (r : Except Trap α) : Link α :=
  Stop.check (r.mapError (outOfBounds site))

def onHeap (fault : Trap → LinkError) (op : HeapM α) : Link α :=
  Stop.mapError fault (Stop.lift (Store.onHeap op))

def alloc (op : Store → Nat × Store) : Link Nat :=
  modifyGet op

def getInstance (i : Nat) : Link Instance := do
  Stop.check (((← get).instance_ i).mapError (.initTrap .instance_))

def modifyInstance (i : Nat) (f : Instance → Instance) : Link Unit := do
  let _ ← getInstance i
  modify fun s ↦ { s with instances := s.instances.modify i f }

def bindImport (m : Module) (r : Host.Resolver) (inst : Instance) (i : Import) : Link Instance := do
  let unresolved := LinkError.unresolvedImport i.source i.name
  match i.desc with
  | .func t => do
    let type ← require (.indexOutOfBounds .importType t.toNat) m.types[t.toNat]?
    let f ← require unresolved (r.func i.source i.name type)
    if f.type ≠ type then
      fail (.typeMismatch .funcImport (.func type) (.func f.type))
    let addr ← alloc (Store.allocFunc (.host f))
    return { inst with funcs := inst.funcs.push addr }
  | .table type => do
    let addr ← require unresolved (r.table i.source i.name type)
    let t ← require unresolved (← get).heap.tables[addr]?
    if t.type.elem ≠ type.elem then
      fail (.typeMismatch .tableImport (.ref type.elem) (.ref t.type.elem))
    if t.size < type.limits.min.toNat then
      fail (.typeMismatch .tableImportLimits (.atLeast type.limits.min.toNat) (.size t.size))
    return { inst with tables := inst.tables.push addr }
  | .memory type => do
    let addr ← require unresolved (r.memory i.source i.name type)
    let m ← require unresolved (← get).heap.memories[addr]?
    if m.pages < type.limits.min.toNat then
      fail (.typeMismatch .memoryImportLimits (.atLeast type.limits.min.toNat) (.size m.pages))
    return { inst with memories := inst.memories.push addr }
  | .global type => do
    let v ← require unresolved (r.global i.source i.name type)
    if v.type ≠ type.value then
      fail (.typeMismatch .globalImport (.value type.value) (.value v.type))
    let addr ← alloc (Store.allocGlobal ⟨type, v⟩)
    return { inst with globals := inst.globals.push addr }

def defineFunc (m : Module) (handle : Nat) (inst : Instance) (f : Idx × Nat) : Link Instance := do
  let type ← require (.indexOutOfBounds .funcType f.1.toNat) (m.funcType? (m.imported.funcs + f.2))
  let addr ← alloc (Store.allocFunc (.code type handle f.2))
  return { inst with funcs := inst.funcs.push addr }

def defineTable (inst : Instance) (type : TableType) : Link Instance := do
  let s ← get
  let most := s.config.maxTableElements
  if most < type.limits.min.toNat then
    fail (.resourceLimit .table type.limits.min.toNat most)
  let t ← require (.resourceLimit .tableAllocation type.limits.min.toNat most)
    (Table.create? type s.allocator)
  let addr ← alloc (Store.allocTable t)
  return { inst with tables := inst.tables.push addr }

def defineMemory (inst : Instance) (type : MemoryType) : Link Instance := do
  let s ← get
  let most := s.config.maxMemoryPages
  if most < type.limits.min.toNat then
    fail (.resourceLimit .memory type.limits.min.toNat most)
  let m ← require (.resourceLimit .memoryAllocation type.limits.min.toNat most)
    (Memory.create? type s.allocator)
  let addr ← alloc (Store.allocMemory m)
  return { inst with memories := inst.memories.push addr }

def define (m : Module) (r : Host.Resolver) (handle : Nat) : Link Instance := do
  let inst ← m.imports.foldlM (bindImport m r) { mod := m }
  let inst ← m.funcTypes.zipIdx.foldlM (defineFunc m handle) inst
  let inst ← m.tables.foldlM defineTable inst
  m.memories.foldlM defineMemory inst

variable (run : Runner) (handle : Nat)

def eval (site : Site) (code : Code) : Link Value :=
  Stop.mapError (.initTrap site) (run.eval handle code)

def evalOffset (site : Site) (code : Code) : Link Nat := do
  let v ← eval run handle site code
  match v.i32? with
  | some n => return n.toNat
  | none => fail (.typeMismatch site (.value .i32) (.value v.type))

def defineGlobal (g : GlobalDef) : Link Unit := do
  let v ← eval run handle .globalInit g.init
  if v.type ≠ g.type.value then
    fail (.typeMismatch .globalInit (.value g.type.value) (.value v.type))
  let addr ← alloc (Store.allocGlobal ⟨g.type, v⟩)
  modifyInstance handle fun inst ↦ { inst with globals := inst.globals.push addr }

def elemRefs : ElemItems → Link (List Value)
  | .funcs is => do
    let inst ← getInstance handle
    is.mapM fun i ↦ return .funcref (some (← lookup .elemFunc (inst.funcAddr i.toNat)))
  | .exprs es => es.mapM (eval run handle .elemItem)

def defineElem (e : ElemSegment) : Link Nat := do
  let refs ← elemRefs run handle e.items
  alloc (Store.allocElem refs.toArray)

/-- Put an element segment to its use at instantiation: an active one is copied to its table and
dropped, a declarative one is only dropped. -/
def applyElem (e : ElemSegment × Nat) : Link Unit := do
  match e.1.mode with
  | .passive => return ()
  | .declarative => do
    let _ ← onHeap (outOfBounds .elemSegment) (Heap.dropElem e.2)
  | .active table offset => do
    let dst ← evalOffset run handle .elemOffset offset
    let addr ← lookup .elemTable ((← getInstance handle).tableAddr table.toNat)
    let refs ← onHeap (outOfBounds .elemSegment) (Heap.dropElem e.2)
    onHeap (fun _ ↦ .elemOutOfBounds) (Heap.onTable addr (Table.init dst refs 0 refs.size))

def applyData (d : DataSegment × Nat) : Link Unit := do
  match d.1.mode with
  | .passive => return ()
  | .active memory offset => do
    let dst ← evalOffset run handle .dataOffset offset
    let addr ← lookup .dataMemory ((← getInstance handle).memoryAddr memory.toNat)
    let bytes ← onHeap (outOfBounds .dataSegment) (Heap.dropData d.2)
    onHeap (fun _ ↦ .dataOutOfBounds) (Heap.onMemory addr (Memory.init dst bytes 0 bytes.length))

def bindExports (inst : Instance) (es : List Export) : Link (List (String × ExternAddr)) :=
  es.foldlM (fun found e ↦ do
    let addr ← lookup .export_ (inst.externAddr e.kind e.index.toNat)
    return assocInsert e.name addr found) []

def runStart (f : Idx) : Link Unit := do
  let addr ← lookup .start ((← getInstance handle).funcAddr f.toNat)
  let _ ← Stop.mapError .startTrap (run.call addr [])

end Link

open Link in
/-- Instantiate a module. The result is the address of the instance. -/
def Runner.instantiate (run : Runner) (m : Module) (r : Host.Resolver) : Link Nat := do
  let handle ← alloc (Store.allocInstance { mod := m })
  let inst ← define m r handle
  modifyInstance handle fun i ↦
    { i with
      funcs := inst.funcs, tables := inst.tables, memories := inst.memories
      globals := inst.globals }
  m.globals.forM (defineGlobal run handle)
  let elems ← m.elements.mapM (defineElem run handle)
  modifyInstance handle fun i ↦ { i with elems := elems.toArray }
  (m.elements.zip elems).forM (applyElem run handle)
  let datas ← m.data.mapM fun d ↦ alloc (Store.allocData d.init)
  modifyInstance handle fun i ↦ { i with datas := datas.toArray }
  (m.data.zip datas).forM (applyData run handle)
  let exports ← bindExports (← getInstance handle) m.exports
  modifyInstance handle fun i ↦ { i with exports := exports }
  if let some f := m.start then
    runStart run handle f
  return handle

def Link.instantiate (callHost : HostCall) (fuel : Nat) : Module → Host.Resolver → Link Nat :=
  (Runner.machine callHost fuel).instantiate

end Wasm
