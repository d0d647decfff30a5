import Wasm.Proofs.Linking.Entries
import Wasm.Proofs.Decode.WellFormed

namespace Wasm

variable {m : Module} {r : Host.Resolver} {handle : Nat} {s s' : Store} {inst : Instance}
  {ds : List Decl}

namespace Link

open Policy

variable {Q : Host.Act → Prop} {fuel n : Nat}

theorem evolves_eval {site : Site} {code : Code} {v : Value} (hs : s.Orderly Q)
    (h : eval (.machine (Engine.hostCall fuel n) fuel) handle site code s = .ok v s') :
    s.Evolves s' ∧ s'.Orderly Q :=
  (evolve_links.eval ⟨.refl s, hs⟩ trivial (evolve_steps _ s) site).evolves h

theorem evolves_defineElems {es : List ElemSegment} {addrs : List Nat} (hs : s.Orderly Q)
    (h : es.mapM (defineElem (.machine (Engine.hostCall fuel n) fuel) handle) s = .ok addrs s') :
    s.Evolves s' ∧ s'.Orderly Q := by
  refine Settles.evolves (settles_each (P := fun _ _ ↦ True) (fun _ _ _ _ _ ↦ trivial)
    ⟨.refl s, hs⟩ ?_) h
  intro before e after addrs s₁ _ _ hlead
  refine (evolve_links.defineElem hlead.store trivial ?_).imp fun _ _ _ _ ↦ trivial
  exact fun _ _ _ _ s₂ _ _ ↦ ⟨evolve_steps _ s₂, fun _ _ _ ↦ trivial⟩

theorem evolves_applyElems {es : List (ElemSegment × Nat)} (hs : s.Orderly Q)
    (h : es.forM (applyElem (.machine (Engine.hostCall fuel n) fuel) handle) s = .ok () s') :
    s.Evolves s' ∧ s'.Orderly Q := by
  refine Settles.evolves (Settles.forM (I := fun _ ↦ True) (E := LinkError.Within (fun _ ↦ True))
    ⟨.refl s, hs⟩ trivial ?_) h
  intro before e after s₁ _ _ hlead _
  exact evolve_links.applyElem hlead.store trivial trivial fun _ _ _ ↦ evolve_steps _ s₁

theorem evolves_allocDatas {ds : List DataSegment} {addrs : List Nat} (hs : s.Orderly Q)
    (h : ds.mapM (fun d ↦ alloc (Store.allocData d.init)) s = .ok addrs s') :
    s.Evolves s' ∧ s'.Orderly Q := by
  refine Settles.evolves (settles_each (P := fun _ _ ↦ True) (fun _ _ _ _ _ ↦ trivial)
    ⟨.refl s, hs⟩ ?_) h
  intro before d after addrs s₁ _ _ hlead
  exact ⟨evolve_links.allocData d.init hlead.store, trivial⟩

theorem evolves_applyDatas {ds : List (DataSegment × Nat)} (hs : s.Orderly Q)
    (h : ds.forM (applyData (.machine (Engine.hostCall fuel n) fuel) handle) s = .ok () s') :
    s.Evolves s' ∧ s'.Orderly Q := by
  refine Settles.evolves (Settles.forM (I := fun _ ↦ True) (E := LinkError.Within (fun _ ↦ True))
    ⟨.refl s, hs⟩ trivial ?_) h
  intro before d after s₁ _ _ hlead _
  exact evolve_links.applyData hlead.store trivial trivial fun _ _ _ ↦ evolve_steps _ s₁

theorem evolves_runStart {f : Idx} (hs : s.Orderly Q)
    (h : runStart (.machine (Engine.hostCall fuel n) fuel) handle f s = .ok () s') :
    s.Evolves s' ∧ s'.Orderly Q :=
  (evolve_links.runStart ⟨.refl s, hs⟩ trivial
    fun _ addr _ _ _ ↦ evolve_carries addr [] _).evolves h

structure Placed (m : Module) (r : Host.Resolver) (handle : Nat) (Q : Host.Act → Prop)
    (ds : List Decl) (s : Store) (inst : Instance) : Prop where
  found : s.instances[handle]? = some inst
  covers : inst.Covers m r handle ds s
  orderly : s.Orderly Q

-- What runs in between leaves the instance as it is, and keeps what stands at its addresses.
theorem Placed.evolves (h : Placed m r handle Q ds s inst) (hs : s.Evolves s' ∧ s'.Orderly Q) :
    Placed m r handle Q ds s' inst := by
  obtain ⟨inst', hfound, rfl⟩ := hs.1.instances.exists_of_some h.found
  exact ⟨hfound, h.covers.mono hs.1.retains, hs.2⟩

theorem Placed.modify {f : Instance → Instance} (h : Placed m r handle Q ds s inst)
    (hmod : modifyInstance handle f s = .ok () s')
    (hf : ∀ kind, (f inst).addrs kind = inst.addrs kind) : Placed m r handle Q ds s' (f inst) := by
  obtain ⟨hfound, hret, hord⟩ := modifyInstance_ok hmod h.found
  refine ⟨hfound, fun kind ↦ ?_, hord Q h.orderly⟩
  rw [hf kind]
  exact h.covers.mono hret kind

/-- The instance has the entries of the module that are imported or defined, in order. -/
theorem outlined_covers (h : outlined m r s = .ok handle s') :
    ∃ inst, s'.instances[handle]? = some inst ∧ inst.Covers m r handle (m.imports.map .imported ++
      m.funcTypes.zipIdx.map (fun f ↦ .func f.2) ++ m.tables.map .table ++ m.memories.map .memory)
      s' ∧ ∀ Q, r.Orderly Q → s.Orderly Q → s'.Orderly Q := by
  obtain ⟨i, s₁, halloc, hdefine⟩ := Outcome.bind_ok h
  cases halloc
  obtain ⟨inst, s₂, hinst, hmodify⟩ := Outcome.bind_ok hdefine
  obtain ⟨_, s₃, hmodify, ⟨⟩⟩ := Outcome.bind_ok hmodify
  obtain ⟨hcov, hsame, hord⟩ := define_covers hinst
  have hfound : s₂.instances[s.instances.size]? = some { mod := m } := by
    rw [hsame]
    exact Array.getElem?_push_size
  obtain ⟨hfound, hret, hkeep⟩ := modifyInstance_ok hmodify hfound
  refine ⟨_, hfound, fun kind ↦ ?_, fun Q hr hs ↦ hkeep Q (hord Q hr hs)⟩
  have hmono := hcov.mono hret kind
  cases kind <;> exact hmono

theorem outlined_placed (h : outlined m r s = .ok handle s') (hr : r.Orderly Q) (hs : s.Orderly Q) :
    ∃ inst, Placed m r handle Q (m.imports.map .imported ++
      m.funcTypes.zipIdx.map (fun f ↦ .func f.2) ++ m.tables.map .table ++ m.memories.map .memory)
      s' inst := by
  obtain ⟨inst, hfound, hcov, hord⟩ := outlined_covers h
  exact ⟨inst, hfound, hcov, hord Q hr hs⟩

theorem defineGlobal_placed {g : GlobalDef}
    (h : defineGlobal (.machine (Engine.hostCall fuel n) fuel) handle g s = .ok () s')
    (hp : Placed m r handle Q ds s inst) :
    ∃ inst', Placed m r handle Q (ds ++ [.global g.type]) s' inst' := by
  obtain ⟨v, s₁, heval, htyped⟩ := Outcome.bind_ok h
  have hp₁ := hp.evolves (evolves_eval hp.orderly heval)
  obtain ⟨htype, halloc⟩ := unless_ok htyped
  obtain ⟨a, s₂, ⟨⟩, hmodify⟩ := Outcome.bind_ok halloc
  obtain ⟨hfound, hret, hord⟩ := modifyInstance_ok hmodify hp₁.found
  have hrefl := Store.Retains.refl s₁
  have hpush : s₁.Retains (s₁.allocGlobal ⟨g.type, v⟩).2 :=
    { hrefl with globals := hrefl.globals.push _ }
  have hat : Decl.At m r handle (s₁.allocGlobal ⟨g.type, v⟩).2 s₁.heap.globals.size
      (.global g.type) :=
    ⟨v, _, Array.getElem?_push_size, rfl, not_not.mp htype, fun _ ↦ rfl⟩
  exact ⟨_, hfound, (hp₁.covers.add hpush hat).mono hret, hord Q hp₁.orderly⟩

theorem defineGlobals_placed {gs : List GlobalDef}
    (h : gs.forM (defineGlobal (.machine (Engine.hostCall fuel n) fuel) handle) s = .ok () s')
    (hp : Placed m r handle Q ds s inst) :
    ∃ inst', Placed m r handle Q (ds ++ gs.map fun g ↦ .global g.type) s' inst' := by
  induction gs generalizing s inst ds with
  | nil =>
    cases h
    exact ⟨inst, by simpa using hp⟩
  | cons g gs ih =>
    obtain ⟨_, s₁, hg, hgs⟩ := Outcome.bind_ok h
    obtain ⟨inst₁, hp₁⟩ := defineGlobal_placed hg hp
    obtain ⟨inst₂, hp₂⟩ := ih hgs hp₁
    rw [List.append_assoc, List.singleton_append] at hp₂
    exact ⟨inst₂, hp₂⟩

theorem length_mapM {α β ε : Type} {f : α → Action ε β} {xs : List α} {ys : List β}
    (h : xs.mapM f s = .ok ys s') : ys.length = xs.length := by
  induction xs generalizing s ys with
  | nil =>
    cases h
    rfl
  | cons x xs ih =>
    rw [List.mapM_cons] at h
    obtain ⟨y, s₁, _, hxs⟩ := Outcome.bind_ok h
    obtain ⟨ys, s₂, hys, ⟨⟩⟩ := Outcome.bind_ok hxs
    rw [List.length_cons, List.length_cons, ih hys]

/-- The names that are bound are those of the exports, each to the address that the last export of
the name selects. -/
def Selects (inst : Instance) (es : List Export) (lookup : String → Option ExternAddr) : Prop :=
  ∀ name, match es.reverse.find? (·.name = name) with
    | some e => ∃ x, inst.externAddr e.kind e.index.toNat = .ok x ∧ lookup name = some x
    | none => lookup name = none

theorem lookup_ok {α : Type} {site : Site} {x : Except Trap α} {y : α}
    (h : lookup site x s = .ok y s') : x = .ok y ∧ s' = s := by
  cases x with
  | error t => cases h
  | ok z =>
    cases h
    exact ⟨rfl, rfl⟩

theorem bindExports_selects {es : List Export} {found : List (String × ExternAddr)}
    (h : bindExports inst es s = .ok found s') :
    s' = s ∧ Selects inst es fun name ↦ found.lookup name := by
  -- The last export of a name is the first one of the reversed list, so the list grows at its end.
  induction es using List.reverseRecOn generalizing found s' with
  | nil =>
    cases h
    exact ⟨rfl, fun _ ↦ rfl⟩
  | append_singleton es e ih =>
    unfold bindExports at h
    rw [List.foldlM_append] at h
    obtain ⟨before, s₁, hbefore, hlast⟩ := Outcome.bind_ok h
    obtain ⟨rfl, hsel⟩ := ih hbefore
    simp only [List.foldlM_cons, List.foldlM_nil, bind_pure] at hlast
    obtain ⟨x, s₂, hlookup, ⟨⟩⟩ := Outcome.bind_ok hlast
    obtain ⟨hx, rfl⟩ := lookup_ok hlookup
    refine ⟨rfl, fun name ↦ ?_⟩
    rw [List.reverse_append, List.reverse_singleton, List.singleton_append, List.find?_cons]
    dsimp only
    rw [lookup_assocInsert]
    by_cases hname : e.name = name
    · rw [decide_eq_true hname, if_pos hname.symm]
      exact ⟨x, hx, rfl⟩
    · rw [decide_eq_false hname, if_neg (Ne.symm hname)]
      exact hsel name

variable (hr : r.Orderly Q) (hs : s.Orderly Q)

include hr hs

theorem withGlobals_placed
    (h : withGlobals (Engine.hostCall fuel n) fuel m r s = .ok handle s') :
    ∃ inst, Placed m r handle Q m.decls s' inst := by
  obtain ⟨i, s₁, houtlined, hglobals⟩ := Outcome.bind_ok h
  obtain ⟨_, s₂, hglobals, ⟨⟩⟩ := Outcome.bind_ok hglobals
  obtain ⟨inst, hp⟩ := outlined_placed houtlined hr hs
  exact defineGlobals_placed hglobals hp

theorem withElems_placed {elems : List Nat}
    (h : withElems (Engine.hostCall fuel n) fuel m r s = .ok (handle, elems) s') :
    ∃ inst, Placed m r handle Q m.decls s' inst ∧ inst.elems.size = m.elements.length := by
  obtain ⟨i, s₁, hglobals, hrest⟩ := Outcome.bind_ok h
  obtain ⟨addrs, s₂, helems, hmodify⟩ := Outcome.bind_ok hrest
  obtain ⟨_, s₃, hmodify, ⟨⟩⟩ := Outcome.bind_ok hmodify
  obtain ⟨inst, hp⟩ := withGlobals_placed hr hs hglobals
  have hp₂ := hp.evolves (evolves_defineElems hp.orderly helems)
  refine ⟨_, hp₂.modify hmodify fun kind ↦ ?_, ?_⟩
  · cases kind <;> rfl
  · rw [List.size_toArray, length_mapM helems]

theorem elemsUsed_placed
    (h : elemsUsed (Engine.hostCall fuel n) fuel m r s = .ok handle s') :
    ∃ inst, Placed m r handle Q m.decls s' inst ∧ inst.elems.size = m.elements.length := by
  obtain ⟨⟨i, elems⟩, s₁, helems, hrest⟩ := Outcome.bind_ok h
  obtain ⟨_, s₂, huse, ⟨⟩⟩ := Outcome.bind_ok hrest
  obtain ⟨inst, hp, hsize⟩ := withElems_placed hr hs helems
  exact ⟨inst, hp.evolves (evolves_applyElems hp.orderly huse), hsize⟩

theorem withDatas_placed {datas : List Nat}
    (h : withDatas (Engine.hostCall fuel n) fuel m r s = .ok (handle, datas) s') :
    ∃ inst, Placed m r handle Q m.decls s' inst ∧ inst.elems.size = m.elements.length ∧
      inst.datas.size = m.data.length := by
  obtain ⟨i, s₁, helems, hrest⟩ := Outcome.bind_ok h
  obtain ⟨addrs, s₂, hdatas, hmodify⟩ := Outcome.bind_ok hrest
  obtain ⟨_, s₃, hmodify, ⟨⟩⟩ := Outcome.bind_ok hmodify
  obtain ⟨inst, hp, hsize⟩ := elemsUsed_placed hr hs helems
  have hp₂ := hp.evolves (evolves_allocDatas hp.orderly hdatas)
  refine ⟨_, hp₂.modify hmodify fun kind ↦ ?_, hsize, ?_⟩
  · cases kind <;> rfl
  · rw [List.size_toArray, length_mapM hdatas]

theorem datasUsed_placed
    (h : datasUsed (Engine.hostCall fuel n) fuel m r s = .ok handle s') :
    ∃ inst, Placed m r handle Q m.decls s' inst ∧ inst.elems.size = m.elements.length ∧
      inst.datas.size = m.data.length := by
  obtain ⟨⟨i, datas⟩, s₁, hdatas, hrest⟩ := Outcome.bind_ok h
  obtain ⟨_, s₂, huse, ⟨⟩⟩ := Outcome.bind_ok hrest
  obtain ⟨inst, hp, hsizes⟩ := withDatas_placed hr hs hdatas
  exact ⟨inst, hp.evolves (evolves_applyDatas hp.orderly huse), hsizes⟩

theorem ready_placed (h : ready (Engine.hostCall fuel n) fuel m r s = .ok handle s') :
    ∃ inst, Placed m r handle Q m.decls s' inst ∧ inst.elems.size = m.elements.length ∧
      inst.datas.size = m.data.length ∧ Selects inst m.exports inst.export? := by
  obtain ⟨i, s₁, hused, hrest⟩ := Outcome.bind_ok h
  obtain ⟨inst', s₂, hget, hexports⟩ := Outcome.bind_ok hrest
  obtain ⟨found, s₃, hbind, hend⟩ := Outcome.bind_ok hexports
  obtain ⟨_, s₄, hmodify, ⟨⟩⟩ := Outcome.bind_ok hend
  obtain ⟨inst, hp, helems, hdatas⟩ := datasUsed_placed hr hs hused
  obtain ⟨hfound, rfl⟩ := getInstance_ok hget
  obtain rfl := Option.some.inj (hfound.symm.trans hp.found)
  obtain ⟨rfl, hsel⟩ := bindExports_selects hbind
  refine ⟨_, hp.modify hmodify fun kind ↦ ?_, helems, hdatas, hsel⟩
  cases kind <;> rfl

theorem instantiate_placed
    (h : instantiate (Engine.hostCall fuel n) fuel m r s = .ok handle s') :
    ∃ inst, Placed m r handle Q m.decls s' inst ∧ inst.elems.size = m.elements.length ∧
      inst.datas.size = m.data.length ∧ Selects inst m.exports inst.export? := by
  rw [instantiate_eq] at h
  obtain ⟨i, s₁, hready, hstart⟩ := Outcome.bind_ok h
  obtain ⟨inst, hp, hsizes⟩ := ready_placed hr hs hready
  cases hm : m.start with
  | none =>
    rw [hm] at hstart
    cases hstart
    exact ⟨inst, hp, hsizes⟩
  | some f =>
    rw [hm] at hstart
    obtain ⟨_, s₂, hrun, ⟨⟩⟩ := Outcome.bind_ok hstart
    exact ⟨inst, hp.evolves (evolves_runStart hp.orderly hrun), hsizes⟩

end Link

/-- The instance of a module, in which every entry of an index space, each segment and each exported
name is what the module declares. -/
structure Instance.Realizes (m : Module) (r : Host.Resolver) (handle : Nat) (s : Store)
    (inst : Instance) : Prop where
  size_funcs : inst.funcs.size = m.totalFuncs
  size_tables : inst.tables.size = m.totalTables
  size_memories : inst.memories.size = m.totalMemories
  size_globals : inst.globals.size = m.totalGlobals
  imports : ∀ (kind : ExternKind) (k : Nat) (i : Import), (m.importsOf kind)[k]? = some i →
    ∃ a, (inst.addrs kind)[k]? = some a ∧ i.At m r s a
  code : ∀ k, k < m.funcTypes.length → ∃ a type, inst.funcs[m.imported.funcs + k]? = some a ∧
    s.funcs[a]? = some (.code type handle k)
  func : ∀ i, i < m.totalFuncs → ∃ a f, inst.funcs[i]? = some a ∧ s.funcs[a]? = some f ∧
    m.funcType? i = some f.type
  table : ∀ i, i < m.totalTables → ∃ a type, inst.tables[i]? = some a ∧
    m.tableTypes[i]? = some type ∧ s.HasTable a type
  memory : ∀ i, i < m.totalMemories → ∃ a type, inst.memories[i]? = some a ∧
    m.memoryTypes[i]? = some type ∧ s.HasMemory a type
  global : ∀ i, i < m.totalGlobals → ∃ a type, inst.globals[i]? = some a ∧
    m.globalTypes[i]? = some type ∧ ∃ v, s.HasGlobal a type v
  size_elems : inst.elems.size = m.elements.length
  size_datas : inst.datas.size = m.data.length
  exports : Link.Selects inst m.exports (s.export? handle)

open ImportCounts in
/-- Instantiation gives every import and every definition the address of what is declared, however
much code and how many host functions are run on the way. -/
theorem Engine.instantiate_realizes {bytes : List UInt8} {fuel : Nat}
    (hm : Module.decode bytes = .ok m) (hr : r.Orderly (fun _ ↦ True))
    (hs : s.Orderly (fun _ ↦ True)) (h : instantiate fuel m r s = .ok handle s') :
    ∃ inst, s'.instances[handle]? = some inst ∧ inst.Realizes m r handle s' := by
  obtain ⟨inst, hp, helems, hdatas, hsel⟩ := Link.instantiate_placed hr hs h
  have himported := Module.imported_decode hm
  have hsize (kind : ExternKind) := hp.covers.size kind
  simp only [Module.length_importsOf himported] at hsize
  refine ⟨inst, hp.found, {
    size_funcs := (hsize .func).trans (by simp [Module.definitionsOf, Module.totalFuncs, of])
    size_tables := (hsize .table).trans (by simp [Module.definitionsOf, Module.totalTables, of])
    size_memories :=
      (hsize .memory).trans (by simp [Module.definitionsOf, Module.totalMemories, of])
    size_globals := (hsize .global).trans (by simp [Module.definitionsOf, Module.totalGlobals, of])
    imports := fun kind k i ↦ hp.covers.import_at
    code := fun k hk ↦ ?_
    func := fun i ↦ hp.covers.func_at himported
    table := fun i ↦ hp.covers.table_at himported
    memory := fun i ↦ hp.covers.memory_at himported
    global := fun i ↦ hp.covers.global_at himported
    size_elems := helems
    size_datas := hdatas
    exports := ?_ }⟩
  · obtain ⟨a, type, ha, -, hf⟩ := hp.covers.code_at himported hk
    exact ⟨a, type, ha, hf⟩
  · have hexport : s'.export? handle = inst.export? := by
      funext name
      simp [Store.export?, hp.found]
    rwa [hexport]

namespace Engine

/-- A module with imports of three kinds in no order of kinds, definitions of all four, and a name
that is exported twice. Its start function is imported. -/
def assorted : Module where
  types := [⟨[], []⟩, ⟨[], [.i32]⟩]
  imports := [⟨"h", "g", .global ⟨.i32, false⟩⟩, ⟨"h", "f", .func 0⟩,
    ⟨"h", "t", .table ⟨.funcref, ⟨1, none⟩⟩⟩]
  funcTypes := [1]
  tables := [⟨.funcref, ⟨3, none⟩⟩]
  memories := [⟨⟨1, none⟩⟩]
  globals := [⟨⟨.i32, true⟩, #[.globalGet 0, .end_]⟩]
  exports := [⟨"x", .global, 1⟩, ⟨"x", .func, 1⟩]
  start := some 0
  elements := [⟨.funcref, .funcs [1], .passive⟩]
  functions := [⟨1, [], #[.i32Const 7, .end_]⟩]
  imported := { funcs := 1, tables := 1, globals := 1 }

def assortedBytes : List UInt8 :=
  [0x00, 0x61, 0x73, 0x6D, 1, 0, 0, 0,
    1, 8, 2, 0x60, 0, 0, 0x60, 0, 1, 0x7F,
    2, 22, 3, 1, 0x68, 1, 0x67, 3, 0x7F, 0, 1, 0x68, 1, 0x66, 0, 0, 1, 0x68, 1, 0x74, 1, 0x70, 0, 1,
    3, 2, 1, 1,
    4, 4, 1, 0x70, 0, 3,
    5, 3, 1, 0, 1,
    6, 6, 1, 0x7F, 1, 0x23, 0, 0x0B,
    7, 9, 2, 1, 0x78, 3, 1, 1, 0x78, 0, 1,
    8, 1, 0,
    9, 5, 1, 1, 0, 1, 1,
    10, 6, 1, 4, 0, 0x41, 7, 0x0B]

def supplyAssorted : Host.Resolver where
  func _ _ type := some ⟨type, fun _ ↦
    .instantiate {} ⟨fun _ _ _ ↦ none, fun _ _ _ ↦ none, fun _ _ _ ↦ none, fun _ _ _ ↦ none⟩
      fun _ ↦ .finish (.ok [])⟩
  table _ _ _ := some 0
  memory _ _ _ := none
  global _ _ _ := some (.i32 5)

def beforeAssorted : Store where
  heap.tables := #[.create ⟨.funcref, ⟨2, none⟩⟩]

theorem orderly_supplyAssorted : supplyAssorted.Orderly (fun _ ↦ True) := by
  rintro _ _ _ f ⟨⟩ args
  exact .instantiate trivial nofun fun _ ↦ .finish trivial

theorem orderly_beforeAssorted : beforeAssorted.Orderly (fun _ ↦ True) := by
  intro a f hf
  simp [beforeAssorted] at hf

theorem instantiate_realizes_assorted :
    Module.decode assortedBytes = .ok assorted ∧
    ∃ s' inst, instantiate 16 assorted supplyAssorted beforeAssorted = .ok 0 s' ∧
      s'.instances[0]? = some inst ∧ inst.Realizes assorted supplyAssorted 0 s' := by
  have hdecode : Module.decode assortedBytes = .ok assorted := by decide +kernel
  have hrun := Outcome.eq_ok_final
    (show Outcome.value? (instantiate 16 assorted supplyAssorted beforeAssorted) = some 0 by
      decide +kernel)
  obtain ⟨inst, hinst, hreal⟩ :=
    instantiate_realizes hdecode orderly_supplyAssorted orderly_beforeAssorted hrun
  exact ⟨hdecode, _, inst, hrun, hinst, hreal⟩

end Engine

end Wasm
