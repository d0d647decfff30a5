import Wasm.Proofs.Linking
import Wasm.Proofs.Linking.Constants
import Wasm.Proofs.Linking.Placement
import Wasm.Proofs.Reentrancy

namespace Wasm

def Code.offset? (code : Code) : Option Nat :=
  match code.toList with
  | [.i32Const k, .end_] => some k.toNat
  | _ => none

namespace Instance

def funcRef? (inst : Instance) (f : Idx) : Option Value :=
  inst.funcs[f.toNat]?.map fun a ↦ .funcref (some a)

theorem funcRef?_eq_some {inst : Instance} {f : Idx} {a : Nat}
    (h : inst.funcs[f.toNat]? = some a) : inst.funcRef? f = some (.funcref (some a)) := by
  rw [funcRef?, h]
  rfl

def ref? (inst : Instance) (code : Code) : Option Value :=
  match code.toList with
  | [.refFunc f, .end_] => inst.funcRef? f
  | [.refNull t, .end_] => some (.null t)
  | _ => none

def refs (inst : Instance) : ElemItems → List Value
  | .funcs is => is.filterMap inst.funcRef?
  | .exprs codes => codes.filterMap inst.ref?

def Provides (inst : Instance) (e : Export) : Prop :=
  ∃ x, inst.externAddr e.kind e.index.toNat = .ok x

def elemPlacement (inst : Instance) : Placement ElemSegment Value (Array Value) Table where
  held e := (inst.refs e.items).toArray
  left e :=
    match e.mode with
    | .passive => (inst.refs e.items).toArray
    | _ => #[]
  write? e :=
    match e.mode with
    | .active table offset => do
      return ⟨← inst.tables[table.toNat]?, ← offset.offset?, inst.refs e.items⟩
    | _ => none
  size := Table.size
  put := Table.put
  size_put start vs t := by
    rw [Table.size, Table.put, List.size_toArray, length_overwrite]
    rfl

def dataPlacement (inst : Instance) : Placement DataSegment UInt8 (List UInt8) Memory where
  held d := d.init
  left d :=
    match d.mode with
    | .passive => d.init
    | _ => []
  write? d :=
    match d.mode with
    | .active memory offset => do
      return ⟨← inst.memories[memory.toNat]?, ← offset.offset?, d.init⟩
    | _ => none
  size := Memory.size
  put := Memory.put
  size_put start bs m := by
    rw [Memory.size, Memory.put, ByteArray.size, List.size_toArray, length_overwrite]
    rfl

end Instance

/-- An element segment whose offset is a constant and whose items are references, where there are so
many functions and tables. -/
structure ElemSegment.Plain (funcs tables : Nat) (e : ElemSegment) : Prop where
  active : ∀ table offset, e.mode = .active table offset →
    table.toNat < tables ∧ ∃ k, offset = #[.i32Const k, .end_]
  indices : ∀ is, e.items = .funcs is → ∀ f ∈ is, f.toNat < funcs
  codes : ∀ codes, e.items = .exprs codes → ∀ code ∈ codes,
    (∃ t, code = #[.refNull t, .end_]) ∨ ∃ f, f.toNat < funcs ∧ code = #[.refFunc f, .end_]

def DataSegment.Plain (memories : Nat) (d : DataSegment) : Prop :=
  ∀ memory offset, d.mode = .active memory offset →
    memory.toNat < memories ∧ ∃ k, offset = #[.i32Const k, .end_]

structure Module.PlainSegments (m : Module) : Prop where
  start : m.start = none
  globals : m.globals = []
  elems : ∀ e ∈ m.elements, e.Plain m.totalFuncs m.totalTables
  datas : ∀ d ∈ m.data, d.Plain m.totalMemories

section Arrays

variable {κ : Type} {xs : Array κ} {a : Nat} {x : κ}

theorem getElem?_added (base : Array κ) (pre post : List κ) (y : κ) :
    (base ++ (pre ++ y :: post).toArray)[base.size + pre.length]? = some y := by
  simp

theorem setIfInBounds_added (base : Array κ) (pre post : List κ) (y z : κ) :
    (base ++ (pre ++ y :: post).toArray).setIfInBounds (base.size + pre.length) z =
      base ++ (pre ++ z :: post).toArray := by
  apply Array.toList_inj.mp
  simp

theorem modify_of_getElem? (h : xs[a]? = some x) (f : κ → κ) :
    xs.modify a f = xs.setIfInBounds a (f x) := by
  apply Array.ext_getElem?
  intro i
  rw [Array.getElem?_modify, Array.getElem?_setIfInBounds]
  grind

end Arrays

namespace Link

variable {callHost : HostCall} {fuel handle : Nat} {inst : Instance} {s : Store}

def elemView (s : Store) (ts : Array Table) (segs : List (Array Value)) : Store :=
  { s with heap := { s.heap with tables := ts, elems := s.heap.elems ++ segs.toArray } }

def dataView (s : Store) (ms : Array Memory) (segs : List (List UInt8)) : Store :=
  { s with heap := { s.heap with memories := ms, datas := s.heap.datas ++ segs.toArray } }

theorem lookup_some {site : Site} {space : Space} {addrs : Array Nat} {i a : Nat}
    (h : addrs[i]? = some a) : lookup site (Instance.lookup space addrs i) s = .ok a s := by
  rw [Instance.lookup, h]
  rfl

section Table

variable {ts : Array Table} {segs : List (Array Value)} {a start : Nat} {vs : Array Value}

theorem dropElem_view (pre post : List (Array Value)) :
    onHeap (outOfBounds .elemSegment) (Heap.dropElem (s.heap.elems.size + pre.length))
      (elemView s ts (pre ++ vs :: post)) = .ok vs (elemView s ts (pre ++ #[] :: post)) := by
  simp only [onHeap_apply, Heap.dropElem_apply, elemView, getElem?_added, setIfInBounds_added]

theorem initTable_view {t : Table} (ht : ts[a]? = some t) (hfit : start + vs.size ≤ t.size) :
    onHeap (fun _ ↦ .elemOutOfBounds) (Heap.onTable a (Table.init start vs 0 vs.size))
      (elemView s ts segs) =
      .ok () (elemView s (ts.modify a (Table.put start vs.toList)) segs) := by
  simp only [onHeap_apply, Heap.onTable_apply, elemView, ht, Table.init_put, hfit, if_true,
    modify_of_getElem? ht]

theorem initTable_view_fail (h : ¬ ∃ t, ts[a]? = some t ∧ start + vs.size ≤ t.size) :
    onHeap (fun _ ↦ .elemOutOfBounds) (Heap.onTable a (Table.init start vs 0 vs.size))
      (elemView s ts segs) = .error (.failed .elemOutOfBounds) (elemView s ts segs) := by
  cases ht : ts[a]? with
  | none => simp only [onHeap_apply, Heap.onTable_apply, elemView, ht]
  | some t =>
    have hfit : ¬ start + vs.size ≤ t.size := fun hfit ↦ h ⟨t, ht, hfit⟩
    simp only [onHeap_apply, Heap.onTable_apply, elemView, ht, Table.init_put, hfit, if_false,
      setIfInBounds_of_getElem? ht]

end Table

section Memory

variable {ms : Array Memory} {segs : List (List UInt8)} {a start : Nat} {bs : List UInt8}

theorem dropData_view (pre post : List (List UInt8)) :
    onHeap (outOfBounds .dataSegment) (Heap.dropData (s.heap.datas.size + pre.length))
      (dataView s ms (pre ++ bs :: post)) = .ok bs (dataView s ms (pre ++ [] :: post)) := by
  simp only [onHeap_apply, Heap.dropData_apply, dataView, getElem?_added, setIfInBounds_added]

theorem initMemory_view {m : Memory} (hm : ms[a]? = some m) (hfit : start + bs.length ≤ m.size) :
    onHeap (fun _ ↦ .dataOutOfBounds) (Heap.onMemory a (Memory.init start bs 0 bs.length))
      (dataView s ms segs) = .ok () (dataView s (ms.modify a (Memory.put start bs)) segs) := by
  simp only [onHeap_apply, Heap.onMemory_apply, dataView, hm, Memory.init_put, hfit, if_true,
    modify_of_getElem? hm]

theorem initMemory_view_fail (h : ¬ ∃ m, ms[a]? = some m ∧ start + bs.length ≤ m.size) :
    onHeap (fun _ ↦ .dataOutOfBounds) (Heap.onMemory a (Memory.init start bs 0 bs.length))
      (dataView s ms segs) = .error (.failed .dataOutOfBounds) (dataView s ms segs) := by
  cases hm : ms[a]? with
  | none => simp only [onHeap_apply, Heap.onMemory_apply, dataView, hm]
  | some m =>
    have hfit : ¬ start + bs.length ≤ m.size := fun hfit ↦ h ⟨m, hm, hfit⟩
    simp only [onHeap_apply, Heap.onMemory_apply, dataView, hm, Memory.init_put, hfit, if_false,
      setIfInBounds_of_getElem? hm]

end Memory

theorem alloc_apply (op : Store → Nat × Store) : alloc op s = .ok (op s).1 (op s).2 := rfl

section Parts

variable (hinst : s.instances[handle]? = some inst) (hroom : 2 ≤ s.config.maxStackEntries)
  (hfuel : 2 ≤ fuel)

include hinst hroom hfuel

theorem applyElem_active {e : ElemSegment} {table : Idx} {k : BitVec 32} {a : Nat}
    (hmode : e.mode = .active table #[.i32Const k, .end_]) (ha : inst.tables[table.toNat]? = some a)
    (ts : Array Table) (pre post : List (Array Value)) (vs : Array Value) :
    applyElem (.machine callHost fuel) handle (e, s.heap.elems.size + pre.length)
        (elemView s ts (pre ++ vs :: post)) =
      onHeap (fun _ ↦ .elemOutOfBounds) (Heap.onTable a (Table.init k.toNat vs 0 vs.size))
        (elemView s ts (pre ++ #[] :: post)) := by
  have hfound : getInstance handle (elemView s ts (pre ++ vs :: post)) =
      .ok inst (elemView s ts (pre ++ vs :: post)) := getInstance_some hinst
  have hoffset : evalOffset (.machine callHost fuel) handle .elemOffset #[.i32Const k, .end_]
      (elemView s ts (pre ++ vs :: post)) = .ok k.toNat (elemView s ts (pre ++ vs :: post)) := by
    apply evalOffset_i32Const
    · exact hroom
    · exact hfuel
  simp only [applyElem, hmode, Outcome.bind_apply, hoffset, hfound, Instance.tableAddr,
    lookup_some ha, dropElem_view]

theorem applyData_active {d : DataSegment} {memory : Idx} {k : BitVec 32} {a : Nat}
    (hmode : d.mode = .active memory #[.i32Const k, .end_])
    (ha : inst.memories[memory.toNat]? = some a) (ms : Array Memory) (pre post : List (List UInt8))
    (bs : List UInt8) :
    applyData (.machine callHost fuel) handle (d, s.heap.datas.size + pre.length)
        (dataView s ms (pre ++ bs :: post)) =
      onHeap (fun _ ↦ .dataOutOfBounds) (Heap.onMemory a (Memory.init k.toNat bs 0 bs.length))
        (dataView s ms (pre ++ [] :: post)) := by
  have hfound : getInstance handle (dataView s ms (pre ++ bs :: post)) =
      .ok inst (dataView s ms (pre ++ bs :: post)) := getInstance_some hinst
  have hoffset : evalOffset (.machine callHost fuel) handle .dataOffset #[.i32Const k, .end_]
      (dataView s ms (pre ++ bs :: post)) = .ok k.toNat (dataView s ms (pre ++ bs :: post)) := by
    apply evalOffset_i32Const
    · exact hroom
    · exact hfuel
  simp only [applyData, hmode, Outcome.bind_apply, hoffset, hfound, Instance.memoryAddr,
    lookup_some ha, dropData_view]

theorem applyElem_performs {e : ElemSegment} (he : e.Plain inst.funcs.size inst.tables.size) :
    inst.elemPlacement.PerformedBy (applyElem (.machine callHost fuel) handle) .elemOutOfBounds
      s.heap.elems.size (elemView s) e := by
  cases hmode : e.mode with
  | passive =>
    have hleft : inst.elemPlacement.left e = inst.elemPlacement.held e := by
      simp only [Instance.elemPlacement, hmode]
    apply Placement.PerformedBy.of_none
    · simp only [Instance.elemPlacement, hmode]
    · intro ts pre post
      simp only [applyElem, hmode, hleft]
      rfl
  | declarative =>
    have hleft : inst.elemPlacement.left e = #[] := by
      simp only [Instance.elemPlacement, hmode]
    apply Placement.PerformedBy.of_none
    · simp only [Instance.elemPlacement, hmode]
    · intro ts pre post
      simp only [applyElem, hmode, hleft, Outcome.bind_apply, dropElem_view]
      rfl
  | active table offset =>
    obtain ⟨htable, k, rfl⟩ := he.active table offset hmode
    have ha := Array.getElem?_eq_getElem htable
    have hleft : inst.elemPlacement.left e = #[] := by
      simp only [Instance.elemPlacement, hmode]
    apply Placement.PerformedBy.of_some
      (w := ⟨inst.tables[table.toNat], k.toNat, inst.refs e.items⟩)
    · simp only [Instance.elemPlacement, hmode, ha]
      rfl
    · intro ts pre post t ht hle
      rw [applyElem_active hinst hroom hfuel hmode ha, hleft]
      exact initTable_view ht hle
    · intro ts pre post hfit
      rw [applyElem_active hinst hroom hfuel hmode ha, hleft]
      exact initTable_view_fail hfit

theorem applyData_performs {d : DataSegment} (hd : d.Plain inst.memories.size) :
    inst.dataPlacement.PerformedBy (applyData (.machine callHost fuel) handle) .dataOutOfBounds
      s.heap.datas.size (dataView s) d := by
  cases hmode : d.mode with
  | passive =>
    have hleft : inst.dataPlacement.left d = inst.dataPlacement.held d := by
      simp only [Instance.dataPlacement, hmode]
    apply Placement.PerformedBy.of_none
    · simp only [Instance.dataPlacement, hmode]
    · intro ms pre post
      simp only [applyData, hmode, hleft]
      rfl
  | active memory offset =>
    obtain ⟨hmemory, k, rfl⟩ := hd memory offset hmode
    have ha := Array.getElem?_eq_getElem hmemory
    have hleft : inst.dataPlacement.left d = [] := by
      simp only [Instance.dataPlacement, hmode]
    apply Placement.PerformedBy.of_some (w := ⟨inst.memories[memory.toNat], k.toNat, d.init⟩)
    · simp only [Instance.dataPlacement, hmode, ha]
      rfl
    · intro ms pre post m hm hle
      rw [applyData_active hinst hroom hfuel hmode ha, hleft]
      exact initMemory_view hm hle
    · intro ms pre post hfit
      rw [applyData_active hinst hroom hfuel hmode ha, hleft]
      exact initMemory_view_fail hfit

theorem eval_ref {code : Code} (hcode : (∃ t, code = #[.refNull t, .end_]) ∨
    ∃ f : Idx, f.toNat < inst.funcs.size ∧ code = #[.refFunc f, .end_]) (site : Site) :
    ∃ v, inst.ref? code = some v ∧ eval (.machine callHost fuel) handle site code s = .ok v s := by
  rcases hcode with ⟨t, rfl⟩ | ⟨f, hf, rfl⟩
  · exact ⟨.null t, rfl, eval_push (Machine.pushes_refNull s handle t) hroom hfuel site⟩
  · have ha := Array.getElem?_eq_getElem hf
    exact ⟨.funcref (some inst.funcs[f.toNat]), Instance.funcRef?_eq_some ha,
      eval_push (Machine.pushes_refFunc hinst ha) hroom hfuel site⟩

theorem elemRefs_eq {e : ElemSegment} (he : e.Plain inst.funcs.size inst.tables.size) :
    elemRefs (.machine callHost fuel) handle e.items s = .ok (inst.refs e.items) s := by
  cases hitems : e.items with
  | funcs is =>
    rw [elemRefs, Outcome.bind_apply, getInstance_some hinst]
    apply mapM_filterMap
    intro f hf
    have hlt := he.indices is hitems f hf
    have ha := Array.getElem?_eq_getElem hlt
    refine ⟨.funcref (some inst.funcs[f.toNat]), Instance.funcRef?_eq_some ha, ?_⟩
    rw [Outcome.bind_apply, Instance.funcAddr, lookup_some ha]
    rfl
  | exprs codes =>
    apply mapM_filterMap
    intro code hcode
    exact eval_ref hinst hroom hfuel (he.codes codes hitems code hcode) .elemItem

theorem defineElem_view {e : ElemSegment} (he : e.Plain inst.funcs.size inst.tables.size)
    (segs : List (Array Value)) :
    defineElem (.machine callHost fuel) handle e (elemView s s.heap.tables segs) =
      .ok (s.heap.elems.size + segs.length)
        (elemView s s.heap.tables (segs ++ [inst.elemPlacement.held e])) := by
  have hrefs : elemRefs (.machine callHost fuel) handle e.items (elemView s s.heap.tables segs) =
      .ok (inst.refs e.items) (elemView s s.heap.tables segs) := by
    apply elemRefs_eq
    · exact hinst
    · exact hroom
    · exact hfuel
    · exact he
  rw [defineElem, Outcome.bind_apply, hrefs]
  dsimp only
  rw [alloc_apply]
  simp [Store.allocElem, elemView, Instance.elemPlacement]

omit hinst hroom hfuel in
theorem allocData_view (d : DataSegment) (segs : List (List UInt8)) :
    alloc (Store.allocData d.init) (dataView s s.heap.memories segs) =
      .ok (s.heap.datas.size + segs.length)
        (dataView s s.heap.memories (segs ++ [inst.dataPlacement.held d])) := by
  rw [alloc_apply]
  simp [Store.allocData, dataView, Instance.dataPlacement]

theorem elems_install {es : List ElemSegment}
    (hes : ∀ e ∈ es, e.Plain inst.funcs.size inst.tables.size) :
    Installs inst.elemPlacement (defineElem (.machine callHost fuel) handle)
      (fun addrs i ↦ { i with elems := addrs.toArray }) (applyElem (.machine callHost fuel) handle)
      .elemOutOfBounds handle s.heap.elems.size elemView s s.heap.tables es := by
  constructor
  · rw [elemView, Array.append_empty]
  · intro e he
    exact defineElem_view hinst hroom hfuel (hes e he)
  · intro segs
    have hfound : (elemView s s.heap.tables segs).instances[handle]? = some inst := hinst
    rw [modifyInstance_some hfound]
    rfl
  · intro e he
    have hfound := s.instances_noting hinst
      fun i ↦ { i with elems := (List.range' s.heap.elems.size es.length).toArray }
    exact applyElem_performs hfound hroom hfuel (hes e he)

theorem datas_install {ds : List DataSegment} (hds : ∀ d ∈ ds, d.Plain inst.memories.size) :
    Installs inst.dataPlacement (fun d ↦ alloc (Store.allocData d.init))
      (fun addrs i ↦ { i with datas := addrs.toArray }) (applyData (.machine callHost fuel) handle)
      .dataOutOfBounds handle s.heap.datas.size dataView s s.heap.memories ds := by
  constructor
  · rw [dataView, Array.append_empty]
  · intro d _
    exact allocData_view d
  · intro segs
    have hfound : (dataView s s.heap.memories segs).instances[handle]? = some inst := hinst
    rw [modifyInstance_some hfound]
    rfl
  · intro d hd
    have hfound := s.instances_noting hinst
      fun i ↦ { i with datas := (List.range' s.heap.datas.size ds.length).toArray }
    exact applyData_performs hfound hroom hfuel (hds d hd)

end Parts

variable {m : Module} {r : Host.Resolver} {s₁ : Store}

theorem elemsUsed_eq : elemsUsed callHost fuel m r = do
    let handle ← withGlobals callHost fuel m r
    install (defineElem (.machine callHost fuel) handle)
      (fun addrs i ↦ { i with elems := addrs.toArray })
      (applyElem (.machine callHost fuel) handle) handle m.elements
    return handle := by
  simp only [elemsUsed, withElems, install, bind_assoc, pure_bind]

theorem datasUsed_eq : datasUsed callHost fuel m r = do
    let handle ← elemsUsed callHost fuel m r
    install (fun d ↦ alloc (Store.allocData d.init))
      (fun addrs i ↦ { i with datas := addrs.toArray })
      (applyData (.machine callHost fuel) handle) handle m.data
    return handle := by
  simp only [datasUsed, withDatas, install, bind_assoc, pure_bind]

theorem lookup_export (inst : Instance) (e : Export) (s : Store) :
    (∃ x, lookup .export_ (inst.externAddr e.kind e.index.toNat) s = .ok x s) ∨
    ¬ inst.Provides e ∧ lookup .export_ (inst.externAddr e.kind e.index.toNat) s =
      .error (.failed (.indexOutOfBounds .export_ e.index.toNat)) s := by
  have hspace : ∃ space addrs, inst.externAddr e.kind e.index.toNat =
      ExternAddr.mk e.kind <$> Instance.lookup space addrs e.index.toNat := by
    unfold Instance.externAddr
    cases e.kind <;> exact ⟨_, _, rfl⟩
  obtain ⟨space, addrs, hspace⟩ := hspace
  rw [Instance.Provides, hspace, Instance.lookup]
  cases addrs[e.index.toNat]? with
  | some a => exact .inl ⟨_, rfl⟩
  | none =>
    refine .inr ⟨?_, rfl⟩
    rintro ⟨x, ⟨⟩⟩

theorem bindExports_apply (inst : Instance) (es : List Export) (s : Store) :
    (∃ found, bindExports inst es s = .ok found s) ∨ ∃ e ∈ es, ¬ inst.Provides e ∧
      bindExports inst es s = .error (.failed (.indexOutOfBounds .export_ e.index.toNat)) s := by
  unfold bindExports
  -- What is bound already does not matter.
  generalize ([] : List (String × ExternAddr)) = done
  induction es generalizing done with
  | nil => exact .inl ⟨done, rfl⟩
  | cons e es ih =>
    rw [List.foldlM_cons, Outcome.bind_apply, Outcome.bind_apply]
    rcases lookup_export inst e s with ⟨x, hx⟩ | ⟨hnone, hx⟩
    · rw [hx]
      rcases ih (assocInsert e.name x done) with hok | ⟨e', he', hnone, herr⟩
      · exact .inl hok
      · exact .inr ⟨e', .tail _ he', hnone, herr⟩
    · rw [hx]
      exact .inr ⟨e, .head _, hnone, rfl⟩

/-- What stands in the way of exports is nothing but an index. -/
theorem ready_apply (hdone : datasUsed callHost fuel m r s = .ok handle s₁)
    (hinst : s₁.instances[handle]? = some inst) :
    ∃ s' inst', s'.heap = s₁.heap ∧ s'.instances[handle]? = some inst' ∧
      inst'.elems = inst.elems ∧ inst'.datas = inst.datas ∧
      (ready callHost fuel m r s = .ok handle s' ∨ ∃ e ∈ m.exports, ¬ inst.Provides e ∧
        ready callHost fuel m r s =
          .error (.failed (.indexOutOfBounds .export_ e.index.toNat)) s') := by
  rw [ready, Outcome.bind_apply, hdone]
  dsimp only
  rw [Outcome.bind_apply, getInstance_some hinst]
  dsimp only
  rw [Outcome.bind_apply]
  rcases bindExports_apply inst m.exports s₁ with ⟨found, hfound⟩ | ⟨e, he, hnone, herr⟩
  · rw [hfound]
    dsimp only
    rw [Outcome.bind_apply, modifyInstance_some hinst]
    exact ⟨s₁.noting handle fun i ↦ { i with exports := found }, { inst with exports := found },
      rfl, s₁.instances_noting hinst _, rfl, rfl, .inl rfl⟩
  · rw [herr]
    exact ⟨s₁, inst, rfl, hinst, rfl, rfl, .inr ⟨e, he, hnone, rfl⟩⟩

open ImportCounts in
theorem outlined_sizes (hm : m.imported = .ofImports m.imports) (hglobals : m.globals = [])
    (h : outlined m r s = .ok handle s₁) : ∃ inst, s₁.instances[handle]? = some inst ∧
      inst.funcs.size = m.totalFuncs ∧ inst.tables.size = m.totalTables ∧
      inst.memories.size = m.totalMemories := by
  obtain ⟨inst, hinst, hcov, -⟩ := outlined_covers h
  have hall : inst.Covers m r handle m.decls s₁ := by
    rwa [Module.decls, hglobals, List.map_nil, List.append_nil]
  have hsize (kind : ExternKind) := hall.size kind
  simp only [Module.length_importsOf hm] at hsize
  refine ⟨inst, hinst, ?_, ?_, ?_⟩
  · exact (hsize .func).trans (by simp [Module.definitionsOf, Module.totalFuncs, of])
  · exact (hsize .table).trans (by simp [Module.definitionsOf, Module.totalTables, of])
  · exact (hsize .memory).trans (by simp [Module.definitionsOf, Module.totalMemories, of])

end Link

namespace Engine

open Link

/-- Imports and definitions have succeeded, and nothing but constants is left to evaluate. If every
segment fits, the active ones overwrite tables and memories in order, and afterwards only passive
ones hold anything. Otherwise the first segment that does not fit ends the instantiation: all that
come before it have been used, and neither it nor what comes after it has changed a table or a
memory. -/
theorem instantiate_segments {bytes : List UInt8} {m : Module} {r : Host.Resolver}
    {s s₁ : Store} {fuel handle : Nat} (hm : Module.decode bytes = .ok m) (hplain : m.PlainSegments)
    (hroom : 2 ≤ s.config.maxStackEntries) (hfuel : 2 ≤ fuel)
    (houtlined : outlined m r s = .ok handle s₁) :
    ∃ inst, s₁.instances[handle]? = some inst ∧ inst.funcs.size = m.totalFuncs ∧
      inst.tables.size = m.totalTables ∧ inst.memories.size = m.totalMemories ∧
      ((∀ e ∈ m.elements, inst.elemPlacement.Fits s₁.heap.tables e) →
        (∀ d ∈ m.data, inst.dataPlacement.Fits s₁.heap.memories d) →
        ∃ s' inst', s'.heap = { s₁.heap with
            tables := m.elements.foldl inst.elemPlacement.place s₁.heap.tables
            memories := m.data.foldl inst.dataPlacement.place s₁.heap.memories
            elems := s₁.heap.elems ++ (m.elements.map inst.elemPlacement.left).toArray
            datas := s₁.heap.datas ++ (m.data.map inst.dataPlacement.left).toArray } ∧
          s'.instances[handle]? = some inst' ∧
          inst'.elems = (List.range' s₁.heap.elems.size m.elements.length).toArray ∧
          inst'.datas = (List.range' s₁.heap.datas.size m.data.length).toArray ∧
          (instantiate fuel m r s = .ok handle s' ∨ ∃ e ∈ m.exports, ¬ inst.Provides e ∧
            instantiate fuel m r s =
              .error (.failed (.indexOutOfBounds .export_ e.index.toNat)) s')) ∧
      (∀ before e after, m.elements = before ++ e :: after →
        (∀ e' ∈ before, inst.elemPlacement.Fits s₁.heap.tables e') →
        ¬ inst.elemPlacement.Fits s₁.heap.tables e →
        ∃ s', instantiate fuel m r s = .error (.failed .elemOutOfBounds) s' ∧
          s'.heap = { s₁.heap with
            tables := before.foldl inst.elemPlacement.place s₁.heap.tables
            elems := s₁.heap.elems ++ (before.map inst.elemPlacement.left ++
              inst.elemPlacement.left e :: after.map inst.elemPlacement.held).toArray }) ∧
      (∀ before d after, (∀ e ∈ m.elements, inst.elemPlacement.Fits s₁.heap.tables e) →
        m.data = before ++ d :: after →
        (∀ d' ∈ before, inst.dataPlacement.Fits s₁.heap.memories d') →
        ¬ inst.dataPlacement.Fits s₁.heap.memories d →
        ∃ s', instantiate fuel m r s = .error (.failed .dataOutOfBounds) s' ∧
          s'.heap = { s₁.heap with
            tables := m.elements.foldl inst.elemPlacement.place s₁.heap.tables
            memories := before.foldl inst.dataPlacement.place s₁.heap.memories
            elems := s₁.heap.elems ++ (m.elements.map inst.elemPlacement.left).toArray
            datas := s₁.heap.datas ++ (before.map inst.dataPlacement.left ++
              inst.dataPlacement.left d :: after.map inst.dataPlacement.held).toArray }) := by
  obtain ⟨inst, hinst, hfuncs, htables, hmemories⟩ :=
    outlined_sizes (Module.imported_decode hm) hplain.globals houtlined
  have hes : ∀ e ∈ m.elements, e.Plain inst.funcs.size inst.tables.size := by
    rw [hfuncs, htables]
    exact hplain.elems
  have hds : ∀ d ∈ m.data, d.Plain inst.memories.size := by
    rw [hmemories]
    exact hplain.datas
  have hroom₁ : 2 ≤ s₁.config.maxStackEntries := by
    rw [((steady_outlined m r).ok houtlined).config]
    exact hroom
  have hglobals : withGlobals (hostCall fuel fuel) fuel m r s = .ok handle s₁ := by
    rw [withGlobals, Outcome.bind_apply, houtlined, hplain.globals]
    rfl
  have hready : instantiate fuel m r s = ready (hostCall fuel fuel) fuel m r s := by
    rw [instantiate, instantiate_eq, hplain.start]
    exact congrFun (bind_pure _) s
  -- The store after the element segments, which the data segments are added to.
  have helem := @elems_install (hostCall fuel fuel) fuel handle inst s₁ hinst hroom₁ hfuel _ hes
  let s₂ := elemView (s₁.noting handle fun i ↦
    { i with elems := (List.range' s₁.heap.elems.size m.elements.length).toArray })
    (m.elements.foldl inst.elemPlacement.place s₁.heap.tables)
    (m.elements.map inst.elemPlacement.left)
  have hinst₂ : s₂.instances[handle]? = some { inst with
      elems := (List.range' s₁.heap.elems.size m.elements.length).toArray } :=
    s₁.instances_noting hinst _
  have hdata := @datas_install (hostCall fuel fuel) fuel handle _ s₂ hinst₂ hroom₁ hfuel _ hds
  have hused (helems : ∀ e ∈ m.elements, inst.elemPlacement.Fits s₁.heap.tables e) :
      elemsUsed (hostCall fuel fuel) fuel m r s = .ok handle s₂ := by
    rw [elemsUsed_eq, Outcome.bind_apply, hglobals]
    dsimp only
    rw [Outcome.bind_apply, helem.install_ok helems]
    rfl
  refine ⟨inst, hinst, hfuncs, htables, hmemories, fun helems hdatas ↦ ?_,
    fun before e after hsplit hbefore he ↦ ?_, fun before d after helems hsplit hbefore hd ↦ ?_⟩
  · have hall : datasUsed (hostCall fuel fuel) fuel m r s = .ok handle (dataView
        (s₂.noting handle fun i ↦
          { i with datas := (List.range' s₁.heap.datas.size m.data.length).toArray })
        (m.data.foldl inst.dataPlacement.place s₁.heap.memories)
        (m.data.map inst.dataPlacement.left)) := by
      rw [datasUsed_eq, Outcome.bind_apply, hused helems]
      dsimp only
      rw [Outcome.bind_apply, hdata.install_ok hdatas]
      rfl
    rw [hready]
    exact ready_apply hall (Store.instances_noting hinst₂ _)
  · have hfail := helem.install_fail hsplit hbefore he
    rw [hready, ready, Outcome.bind_apply, datasUsed_eq, Outcome.bind_apply, elemsUsed_eq,
      Outcome.bind_apply, hglobals]
    dsimp only
    rw [Outcome.bind_apply, hfail]
    exact ⟨_, rfl, rfl⟩
  · have hfail := hdata.install_fail hsplit hbefore hd
    rw [hready, ready, Outcome.bind_apply, datasUsed_eq, Outcome.bind_apply, hused helems]
    dsimp only
    rw [Outcome.bind_apply, hfail]
    exact ⟨_, rfl, rfl⟩

/-- Two imports of tables, which may turn out to be one, and segments that overlap in it. The offset
of the last data segment is out of reach when it is read as unsigned. -/
def overlapping : Module where
  types := [⟨[], []⟩]
  imports := [⟨"h", "t", .table ⟨.funcref, ⟨2, none⟩⟩⟩, ⟨"h", "u", .table ⟨.funcref, ⟨2, none⟩⟩⟩]
  funcTypes := [0]
  memories := [⟨⟨0, none⟩⟩]
  elements := [⟨.funcref, .funcs [0, 0], .active 0 #[.i32Const 0, .end_]⟩,
    ⟨.funcref, .exprs [#[.refNull .funcref, .end_]], .active 1 #[.i32Const 1, .end_]⟩,
    ⟨.funcref, .exprs [#[.refFunc 0, .end_]], .passive⟩]
  functions := [⟨0, [], #[.end_]⟩]
  data := [⟨.active 0 #[.i32Const 0, .end_], []⟩, ⟨.active 0 #[.i32Const (-1), .end_], [7]⟩]
  imported := { tables := 2 }

def overlappingBytes : List UInt8 :=
  [0x00, 0x61, 0x73, 0x6D, 1, 0, 0, 0,
    1, 4, 1, 0x60, 0, 0,
    2, 17, 2, 1, 0x68, 1, 0x74, 1, 0x70, 0, 2, 1, 0x68, 1, 0x75, 1, 0x70, 0, 2,
    3, 2, 1, 0,
    5, 3, 1, 0, 0,
    9, 24, 3, 0, 0x41, 0, 0x0B, 2, 0, 0, 6, 1, 0x41, 1, 0x0B, 0x70, 1, 0xD0, 0x70, 0x0B,
    5, 0x70, 1, 0xD2, 0, 0x0B,
    10, 4, 1, 2, 0, 0x0B,
    11, 12, 2, 0, 0x41, 0, 0x0B, 0, 0, 0x41, 0x7F, 0x0B, 1, 7]

def firstTable : Host.Resolver :=
  { noSupply with table := fun _ _ _ ↦ some 0 }

def oneTable : Store :=
  { heap := { tables := #[.create ⟨.funcref, ⟨2, none⟩⟩] } }

theorem plainSegments_overlapping : overlapping.PlainSegments where
  start := rfl
  globals := rfl
  elems := by
    intro e he
    simp only [overlapping, List.mem_cons, List.not_mem_nil, or_false] at he
    rcases he with rfl | rfl | rfl
    · refine ⟨?_, ?_, nofun⟩
      · rintro table offset ⟨⟩
        exact ⟨by decide, 0, rfl⟩
      · rintro is ⟨⟩ f hf
        simp only [List.mem_cons, List.not_mem_nil, or_false, or_self] at hf
        rw [hf]
        decide
    · refine ⟨?_, nofun, ?_⟩
      · rintro table offset ⟨⟩
        exact ⟨by decide, 1, rfl⟩
      · rintro codes ⟨⟩ code hcode
        exact .inl ⟨.funcref, List.mem_singleton.mp hcode⟩
    · refine ⟨nofun, nofun, ?_⟩
      rintro codes ⟨⟩ code hcode
      exact .inr ⟨0, by decide, List.mem_singleton.mp hcode⟩
  datas := by
    intro d hd memory offset hmode
    simp only [overlapping, List.mem_cons, List.not_mem_nil, or_false] at hd
    rcases hd with rfl | rfl
    · cases hmode
      exact ⟨by decide, 0, rfl⟩
    · cases hmode
      exact ⟨by decide, -1, rfl⟩

theorem instantiate_segments_overlapping :
    Module.decode overlappingBytes = .ok overlapping ∧ overlapping.PlainSegments ∧
    ∃ s', instantiate 2 overlapping firstTable oneTable = .error (.failed .dataOutOfBounds) s' ∧
      s'.heap.tables.map (·.elems) = #[#[.funcref (some 0), .funcref none]] ∧
      s'.heap.elems = #[#[], #[], #[.funcref (some 0)]] ∧ s'.heap.datas = #[[], []] := by
  have hm : Module.decode overlappingBytes = .ok overlapping := by decide +kernel
  have houtlined := Outcome.eq_ok_final
    (show Outcome.value? (outlined overlapping firstTable oneTable) = some 0 by decide +kernel)
  obtain ⟨inst, hinst, -, -, -, -, -, hfail⟩ :=
    instantiate_segments hm plainSegments_overlapping (by decide) le_rfl houtlined
  have hmade : (Outcome.final (outlined overlapping firstTable oneTable)).instances[0]? =
      some { mod := overlapping, funcs := #[0], tables := #[0, 0], memories := #[0] } := by
    decide +kernel
  obtain rfl := Option.some.inj (hmade.symm.trans hinst)
  obtain ⟨s', herror, hheap⟩ := hfail [⟨.active 0 #[.i32Const 0, .end_], []⟩]
    ⟨.active 0 #[.i32Const (-1), .end_], [7]⟩ [] (by decide +kernel) rfl (by decide +kernel)
    (by decide +kernel)
  refine ⟨hm, plainSegments_overlapping, s', herror, ?_, ?_, ?_⟩
  · rw [hheap]
    decide +kernel
  · rw [hheap]
    decide +kernel
  · rw [hheap]
    decide +kernel

end Engine

end Wasm
