import Wasm.Proofs.Policy.Link

namespace Wasm

namespace Link

variable (callHost : HostCall) (fuel : Nat) (m : Module) (r : Host.Resolver)

/-- Instantiation up to the imports and definitions, except for the globals. -/
def outlined : Link Nat := do
  let handle ← alloc (Store.allocInstance { mod := m })
  let inst ← define m r handle
  modifyInstance handle fun i ↦
    { i with
      funcs := inst.funcs, tables := inst.tables, memories := inst.memories
      globals := inst.globals }
  return handle

def withGlobals : Link Nat := do
  let handle ← outlined m r
  m.globals.forM (defineGlobal (.machine callHost fuel) handle)
  return handle

def withElems : Link (Nat × List Nat) := do
  let handle ← withGlobals callHost fuel m r
  let elems ← m.elements.mapM (defineElem (.machine callHost fuel) handle)
  modifyInstance handle fun i ↦ { i with elems := elems.toArray }
  return (handle, elems)

def elemsUsed : Link Nat := do
  let (handle, elems) ← withElems callHost fuel m r
  (m.elements.zip elems).forM (applyElem (.machine callHost fuel) handle)
  return handle

def withDatas : Link (Nat × List Nat) := do
  let handle ← elemsUsed callHost fuel m r
  let datas ← m.data.mapM fun d ↦ alloc (Store.allocData d.init)
  modifyInstance handle fun i ↦ { i with datas := datas.toArray }
  return (handle, datas)

def datasUsed : Link Nat := do
  let (handle, datas) ← withDatas callHost fuel m r
  (m.data.zip datas).forM (applyData (.machine callHost fuel) handle)
  return handle

/-- Instantiation up to the start function. -/
def ready : Link Nat := do
  let handle ← datasUsed callHost fuel m r
  let exports ← bindExports (← getInstance handle) m.exports
  modifyInstance handle fun i ↦ { i with exports := exports }
  return handle

theorem instantiate_eq : instantiate callHost fuel m r = do
    let handle ← ready callHost fuel m r
    if let some f := m.start then
      runStart (.machine callHost fuel) handle f
    return handle := by
  cases hstart : m.start <;>
    simp only [instantiate, Runner.instantiate, ready, datasUsed, withDatas, elemsUsed, withElems,
      withGlobals, outlined, bind_assoc, pure_bind, hstart]

/-- The store in which an import is bound. -/
inductive Binds (s : Store) (i : Import) : Store → Prop
  | mk {before after : List Import} {inst : Instance} {s' : Store} :
    m.imports = before ++ i :: after →
    before.foldlM (bindImport m r) { mod := m } (s.allocInstance { mod := m }).2 = .ok inst s' →
    Binds s i s'

/-- The stores in which instantiation evaluates the initializers of the module, for the instance
`handle`. -/
inductive Evaluates (s : Store) (handle : Nat) : Code → Store → Prop
  | global {before after : List GlobalDef} {g : GlobalDef} {s₁ s₂ : Store} :
    outlined m r s = .ok handle s₁ → m.globals = before ++ g :: after →
    before.forM (defineGlobal (.machine callHost fuel) handle) s₁ = .ok () s₂ →
    Evaluates s handle g.init s₂
  | item {before after : List ElemSegment} {e : ElemSegment} {addrs : List Nat}
    {sooner later : List Code} {code : Code} {vs : List Value} {s₁ s₂ s₃ : Store} :
    withGlobals callHost fuel m r s = .ok handle s₁ → m.elements = before ++ e :: after →
    before.mapM (defineElem (.machine callHost fuel) handle) s₁ = .ok addrs s₂ →
    e.items = .exprs (sooner ++ code :: later) →
    sooner.mapM (eval (.machine callHost fuel) handle .elemItem) s₂ = .ok vs s₃ →
    Evaluates s handle code s₃
  | elemOffset {before after : List (ElemSegment × Nat)} {e : ElemSegment} {addrs : List Nat}
    {addr : Nat} {table : Idx} {offset : Code} {s₁ s₂ : Store} :
    withElems callHost fuel m r s = .ok (handle, addrs) s₁ →
    m.elements.zip addrs = before ++ (e, addr) :: after →
    before.forM (applyElem (.machine callHost fuel) handle) s₁ = .ok () s₂ →
    e.mode = .active table offset → Evaluates s handle offset s₂
  | dataOffset {before after : List (DataSegment × Nat)} {d : DataSegment} {addrs : List Nat}
    {addr : Nat} {memory : Idx} {offset : Code} {s₁ s₂ : Store} :
    withDatas callHost fuel m r s = .ok (handle, addrs) s₁ →
    m.data.zip addrs = before ++ (d, addr) :: after →
    before.forM (applyData (.machine callHost fuel) handle) s₁ = .ok () s₂ →
    d.mode = .active memory offset → Evaluates s handle offset s₂

/-- The values that the items of element segments have, in the course of an instantiation. -/
inductive Item (s : Store) (v : Value) : Prop
  | mk {handle : Nat} {before after : List ElemSegment} {e : ElemSegment} {addrs : List Nat}
    {sooner later : List Code} {code : Code} {vs : List Value} {s₁ s₂ s₃ s₄ : Store} :
    withGlobals callHost fuel m r s = .ok handle s₁ → m.elements = before ++ e :: after →
    before.mapM (defineElem (.machine callHost fuel) handle) s₁ = .ok addrs s₂ →
    e.items = .exprs (sooner ++ code :: later) →
    sooner.mapM (eval (.machine callHost fuel) handle .elemItem) s₂ = .ok vs s₃ →
    eval (.machine callHost fuel) handle .elemItem code s₃ = .ok v s₄ → Item s v

/-- The store in which instantiation calls the start function. -/
inductive Starts (s : Store) (addr : Nat) : Store → Prop
  | mk {handle : Nat} {f : Idx} {inst : Instance} {s' : Store} :
    ready callHost fuel m r s = .ok handle s' → m.start = some f →
    s'.instances[handle]? = some inst → inst.funcAddr f.toNat = .ok addr → Starts s addr s'

end Link

namespace Policy

open Link

variable {R : Policy} {s : Store}

variable {Own : Nat → Prop} {M : Module → Prop} {H : Host.Func → Prop} {m : Module}
  {r : Host.Resolver} {callHost : HostCall} {fuel : Nat}

/-- What a policy asks of one instantiation, on the store `s`. -/
structure Serves (R : Policy) (M : Module → Prop) (H : Host.Func → Prop) (callHost : HostCall)
    (fuel : Nat) (m : Module) (r : Host.Resolver) (s : Store) : Prop where
  mod : M m
  func : ∀ i ∈ m.imports, ∀ type f, r.func i.source i.name type = some f → H f
  global : ∀ i s', Binds m r s i s' → ∀ type v, i.desc = .global type →
    r.global i.source i.name type = some v → R.value s' v
  init : ∀ handle code s', Evaluates callHost fuel m r s handle code s' →
    R.Steps callHost (Machine.startConst handle code) s'
  item : ∀ v, Item callHost fuel m r s v → R.slot v
  start : ∀ addr s', Starts callHost fuel m r s addr s' → s'.Accepts addr [] →
    R.Carries callHost addr [] s'.busier

variable {handle : Nat} {s₁ : Store} (hL : R.Links Own M H)

include hL

theorem Links.record {e : Entity} {addrs : List Nat} {f : Instance → Instance} (hs : R.store s)
    (hh : R.grants s .instance_ handle) (ho : Own handle) (haddrs : ∀ a ∈ addrs, R.grants s e a)
    (hf : ∀ inst, inst.All (R.grants s) → (f inst).mod = inst.mod ∧ (f inst).All (R.grants s)) :
    R.Settles (LinkError.Within R.trap)
      (fun x s' ↦ (R.grants s' .instance_ x.1 ∧ Own x.1) ∧ ∀ a ∈ x.2, R.grants s' e a) s
      ((do Link.modifyInstance handle f; return (handle, addrs)) s) := by
  refine (hL.modifyInstance hs hh ho fun inst hinst ↦ hf inst (hL.spans hs hinst)).bind
    fun _ s' _ hlead _ ↦ settles_pure hlead.store ⟨⟨hlead.grants _ _ hh, ho⟩, fun a ha ↦ ?_⟩
  exact hlead.grants _ _ (haddrs a ha)

variable (hS : R.Serves M H callHost fuel m r s) (hs : R.store s)

include hS

include hs in
theorem Links.outlined :
    R.Settles (LinkError.Within R.trap)
      (fun handle s' ↦ R.grants s' .instance_ handle ∧ Own handle) s (Link.outlined m r s) := by
  have ho : Own s.instances.size := hL.own hs
  refine (hL.alloc (e := .instance_) (hL.allocInstance hs hS.mod) ?_).bind
    fun handle s₁ halloc hlead h ↦ ?_
  · simp [Store.allocInstance, Store.count]
  obtain ⟨rfl, hh⟩ := h
  cases halloc
  have howner :
      (s.allocInstance { mod := m }).2.instances[s.instances.size]? = some { mod := m } := by
    simp [Store.allocInstance]
  refine (hL.define hlead.store howner hS.mod rfl hS.func ?_).bind fun inst s₂ _ hlead₂ h₂ ↦ ?_
  · intro before i after inst s' hxs hbefore
    exact hS.global i s' (.mk hxs hbefore)
  have hh₂ := hlead₂.grants _ _ hh
  refine (hL.modifyInstance hlead₂.store hh₂ ho ?_).bind fun _ s₃ _ hlead₃ _ ↦ ?_
  · intro owner howner'
    have hall := hL.spans hlead₂.store howner'
    exact ⟨rfl, { hall with
      funcs := h₂.2.funcs, tables := h₂.2.tables, memories := h₂.2.memories
      globals := h₂.2.globals }⟩
  · exact settles_pure hlead₃.store ⟨hlead₃.grants _ _ hh₂, ho⟩

-- Each stage is proved for the parts that are done before some point as well, since initializers
-- are evaluated there.

theorem Links.globals (hdone : Link.outlined m r s = .ok handle s₁) (hs₁ : R.store s₁)
    (hh : R.grants s₁ .instance_ handle) (ho : Own handle) {before after : List GlobalDef}
    (hxs : m.globals = before ++ after) :
    R.Settles (LinkError.Within R.trap) (fun _ _ ↦ True) s₁
      (before.forM (Link.defineGlobal (.machine callHost fuel) handle) s₁) := by
  refine Settles.forM (I := fun _ ↦ True) hs₁ trivial fun sooner g later s' hg hsooner hlead _ ↦ ?_
  have hsplit : m.globals = sooner ++ g :: (later ++ after) := by
    rw [hxs, hg, List.append_assoc, List.cons_append]
  exact hL.defineGlobal hlead.store (hlead.grants _ _ hh) ho
    (hS.init _ _ _ (.global hdone hsplit hsooner))

include hs in
theorem Links.withGlobals :
    R.Settles (LinkError.Within R.trap)
      (fun handle s' ↦ R.grants s' .instance_ handle ∧ Own handle) s
      (Link.withGlobals callHost fuel m r s) := by
  refine (hL.outlined hS hs).bind fun handle s₁ hdone hlead₁ h ↦ ?_
  have hall := hL.globals hS hdone hlead₁.store h.1 h.2 (List.append_nil m.globals).symm
  exact hall.bind fun _ s₂ _ hlead₂ _ ↦ settles_pure hlead₂.store ⟨hlead₂.grants _ _ h.1, h.2⟩

theorem Links.items (hdone : Link.withGlobals callHost fuel m r s = .ok handle s₁)
    {before after : List ElemSegment} {e : ElemSegment} {addrs : List Nat} {s₂ : Store}
    (hxs : m.elements = before ++ e :: after)
    (hbefore : before.mapM (Link.defineElem (.machine callHost fuel) handle) s₁ = .ok addrs s₂)
    (hs₂ : R.store s₂) (hh : R.grants s₂ .instance_ handle) {sooner later : List Code}
    (he : e.items = .exprs (sooner ++ later)) :
    R.Settles (LinkError.Within R.trap) (fun vs s' ↦ ∀ v ∈ vs, R.value s' v) s₂
      (sooner.mapM (Link.eval (.machine callHost fuel) handle .elemItem) s₂) := by
  refine settles_each (fun _ _ _ h ↦ h.value) hs₂ fun sooner' code later' vs s' hc hvs hlead ↦ ?_
  have hsplit : e.items = .exprs (sooner' ++ code :: (later' ++ later)) := by
    rw [he, hc, List.append_assoc, List.cons_append]
  exact hL.eval hlead.store (hlead.grants _ _ hh)
    (hS.init _ _ _ (.item hdone hxs hbefore hsplit hvs)) _

theorem Links.elems (hdone : Link.withGlobals callHost fuel m r s = .ok handle s₁)
    (hs₁ : R.store s₁) (hh : R.grants s₁ .instance_ handle) {before after : List ElemSegment}
    (hxs : m.elements = before ++ after) :
    R.Settles (LinkError.Within R.trap) (fun addrs s' ↦ ∀ a ∈ addrs, R.grants s' .elem a) s₁
      (before.mapM (Link.defineElem (.machine callHost fuel) handle) s₁) := by
  refine settles_each (P := fun s' a ↦ R.grants s' .elem a) (fun _ _ a h ↦ h.grants _ a) hs₁ ?_
  intro sooner e later addrs s' he hsooner hlead
  have hsplit : m.elements = sooner ++ e :: (later ++ after) := by
    rw [hxs, he, List.append_assoc, List.cons_append]
  refine hL.defineElem hlead.store (hlead.grants _ _ hh) fun first code last vs s'' hitems hvs ↦ ?_
  exact ⟨hS.init _ _ _ (.item hdone hsplit hsooner hitems hvs),
    fun v _ hv ↦ hS.item v (.mk hdone hsplit hsooner hitems hvs hv)⟩

include hs in
theorem Links.withElems :
    R.Settles (LinkError.Within R.trap)
      (fun x s' ↦ (R.grants s' .instance_ x.1 ∧ Own x.1) ∧ ∀ a ∈ x.2, R.grants s' .elem a) s
      (Link.withElems callHost fuel m r s) := by
  refine (hL.withGlobals hS hs).bind fun handle s₁ hdone hlead₁ h ↦ ?_
  have hall := hL.elems hS hdone hlead₁.store h.1 (List.append_nil m.elements).symm
  refine hall.bind fun addrs s₂ _ hlead₂ haddrs ↦ ?_
  refine hL.record hlead₂.store (hlead₂.grants _ _ h.1) h.2 haddrs fun inst hinst ↦ ⟨rfl, ?_⟩
  exact { hinst with elems := fun a ha ↦ haddrs a (List.mem_toArray.mp ha) }

theorem Links.elemUses {addrs : List Nat}
    (hdone : Link.withElems callHost fuel m r s = .ok (handle, addrs) s₁) (hs₁ : R.store s₁)
    (hh : R.grants s₁ .instance_ handle) (haddrs : ∀ a ∈ addrs, R.grants s₁ .elem a)
    {before after : List (ElemSegment × Nat)} (hxs : m.elements.zip addrs = before ++ after) :
    R.Settles (LinkError.Within R.trap) (fun _ _ ↦ True) s₁
      (before.forM (Link.applyElem (.machine callHost fuel) handle) s₁) := by
  refine Settles.forM (I := fun _ ↦ True) hs₁ trivial ?_
  rintro sooner ⟨e, addr⟩ later s' he hsooner hlead -
  have hsplit : m.elements.zip addrs = sooner ++ (e, addr) :: (later ++ after) := by
    rw [hxs, he, List.append_assoc, List.cons_append]
  have hmem : (e, addr) ∈ m.elements.zip addrs := by
    rw [hsplit]
    exact List.mem_append_right _ (List.mem_cons_self ..)
  exact hL.applyElem hlead.store (hlead.grants _ _ hh)
    (hlead.grants _ _ (haddrs addr (List.of_mem_zip hmem).2))
    fun table offset hmode ↦ hS.init _ _ _ (.elemOffset hdone hsplit hsooner hmode)

include hs in
theorem Links.elemsUsed :
    R.Settles (LinkError.Within R.trap)
      (fun handle s' ↦ R.grants s' .instance_ handle ∧ Own handle) s
      (Link.elemsUsed callHost fuel m r s) := by
  refine (hL.withElems hS hs).bind fun x s₁ hdone hlead₁ h ↦ ?_
  have hall := hL.elemUses hS hdone hlead₁.store h.1.1 h.2 (List.append_nil _).symm
  exact hall.bind fun _ s₂ _ hlead₂ _ ↦ settles_pure hlead₂.store ⟨hlead₂.grants _ _ h.1.1, h.1.2⟩

include hs in
theorem Links.withDatas :
    R.Settles (LinkError.Within R.trap)
      (fun x s' ↦ (R.grants s' .instance_ x.1 ∧ Own x.1) ∧ ∀ a ∈ x.2, R.grants s' .data a) s
      (Link.withDatas callHost fuel m r s) := by
  refine (hL.elemsUsed hS hs).bind fun handle s₁ _ hlead₁ h ↦ ?_
  refine (settles_each (P := fun s' a ↦ R.grants s' .data a) (fun _ _ a h ↦ h.grants _ a)
    hlead₁.store ?_).bind fun addrs s₂ _ hlead₂ haddrs ↦ ?_
  · intro before d after addrs s' _ _ hlead
    refine (hL.alloc (e := .data) (hL.allocData d.init hlead.store) ?_).imp fun _ _ _ h ↦ h.2
    simp [Store.allocData, Store.count]
  · refine hL.record hlead₂.store (hlead₂.grants _ _ h.1) h.2 haddrs fun inst hinst ↦ ⟨rfl, ?_⟩
    exact { hinst with datas := fun a ha ↦ haddrs a (List.mem_toArray.mp ha) }

theorem Links.dataUses {addrs : List Nat}
    (hdone : Link.withDatas callHost fuel m r s = .ok (handle, addrs) s₁) (hs₁ : R.store s₁)
    (hh : R.grants s₁ .instance_ handle) (haddrs : ∀ a ∈ addrs, R.grants s₁ .data a)
    {before after : List (DataSegment × Nat)} (hxs : m.data.zip addrs = before ++ after) :
    R.Settles (LinkError.Within R.trap) (fun _ _ ↦ True) s₁
      (before.forM (Link.applyData (.machine callHost fuel) handle) s₁) := by
  refine Settles.forM (I := fun _ ↦ True) hs₁ trivial ?_
  rintro sooner ⟨d, addr⟩ later s' hd hsooner hlead -
  have hsplit : m.data.zip addrs = sooner ++ (d, addr) :: (later ++ after) := by
    rw [hxs, hd, List.append_assoc, List.cons_append]
  have hmem : (d, addr) ∈ m.data.zip addrs := by
    rw [hsplit]
    exact List.mem_append_right _ (List.mem_cons_self ..)
  exact hL.applyData hlead.store (hlead.grants _ _ hh)
    (hlead.grants _ _ (haddrs addr (List.of_mem_zip hmem).2))
    fun memory offset hmode ↦ hS.init _ _ _ (.dataOffset hdone hsplit hsooner hmode)

include hs in
theorem Links.datasUsed :
    R.Settles (LinkError.Within R.trap)
      (fun handle s' ↦ R.grants s' .instance_ handle ∧ Own handle) s
      (Link.datasUsed callHost fuel m r s) := by
  refine (hL.withDatas hS hs).bind fun x s₁ hdone hlead₁ h ↦ ?_
  have hall := hL.dataUses hS hdone hlead₁.store h.1.1 h.2 (List.append_nil _).symm
  exact hall.bind fun _ s₂ _ hlead₂ _ ↦ settles_pure hlead₂.store ⟨hlead₂.grants _ _ h.1.1, h.1.2⟩

include hs in
theorem Links.ready :
    R.Settles (LinkError.Within R.trap) (fun handle s' ↦ R.grants s' .instance_ handle) s
      (Link.ready callHost fuel m r s) := by
  refine (hL.datasUsed hS hs).bind fun handle s₁ _ hlead₁ h ↦ ?_
  obtain ⟨hh, ho⟩ := h
  refine (hL.getInstance hlead₁.store hh).bind fun inst s₂ _ _ h ↦ ?_
  obtain ⟨rfl, hinst⟩ := h
  refine (hL.bindExports hlead₁.store (hL.spans hlead₁.store hinst) m.exports).bind
    fun found s₃ _ _ h ↦ ?_
  obtain ⟨rfl, hfound⟩ := h
  refine (hL.modifyInstance hlead₁.store hh ho ?_).bind fun _ s₄ _ hlead₄ _ ↦
    settles_pure hlead₄.store (hlead₄.grants _ _ hh)
  exact fun inst' hinst' ↦ ⟨rfl, { hL.spans hlead₁.store hinst' with exports := hfound }⟩

include hs in
/-- Instantiation keeps to the policy, and its result is the address of a granted instance. -/
theorem Links.instantiate :
    R.Settles (LinkError.Within R.trap) (fun handle s' ↦ R.grants s' .instance_ handle) s
      (Link.instantiate callHost fuel m r s) := by
  rw [instantiate_eq]
  refine (hL.ready hS hs).bind fun handle s₁ hdone hlead₁ hh ↦ ?_
  cases hstart : m.start with
  | none => exact settles_pure hlead₁.store hh
  | some f =>
    refine (hL.runStart hlead₁.store hh fun inst addr hinst haddr ↦ ?_).bind fun _ s₂ _ hlead₂ _ ↦
      settles_pure hlead₂.store (hlead₂.grants _ _ hh)
    exact hS.start _ _ (.mk hdone hstart hinst haddr)

include hs in
theorem Links.evaluates {code : Code} {s' : Store}
    (h : Evaluates callHost fuel m r s handle code s') :
    R.store s' ∧ R.grants s' .instance_ handle := by
  cases h with
  | global hdone hxs hbefore =>
    obtain ⟨hlead₁, hh, ho⟩ := hdone ▸ hL.outlined hS hs
    obtain ⟨hlead₂, -⟩ := hbefore ▸ hL.globals hS hdone hlead₁.store hh ho hxs
    exact ⟨hlead₂.store, hlead₂.grants _ _ hh⟩
  | item hdone hxs hbefore he hvs =>
    obtain ⟨hlead₁, hh, -⟩ := hdone ▸ hL.withGlobals hS hs
    obtain ⟨hlead₂, -⟩ := hbefore ▸ hL.elems hS hdone hlead₁.store hh hxs
    have hh₂ := hlead₂.grants _ _ hh
    obtain ⟨hlead₃, -⟩ := hvs ▸ hL.items hS hdone hxs hbefore hlead₂.store hh₂ he
    exact ⟨hlead₃.store, hlead₃.grants _ _ hh₂⟩
  | elemOffset hdone hxs hbefore hmode =>
    obtain ⟨hlead₁, ⟨hh, -⟩, haddrs⟩ := hdone ▸ hL.withElems hS hs
    obtain ⟨hlead₂, -⟩ := hbefore ▸ hL.elemUses hS hdone hlead₁.store hh haddrs hxs
    exact ⟨hlead₂.store, hlead₂.grants _ _ hh⟩
  | dataOffset hdone hxs hbefore hmode =>
    obtain ⟨hlead₁, ⟨hh, -⟩, haddrs⟩ := hdone ▸ hL.withDatas hS hs
    obtain ⟨hlead₂, -⟩ := hbefore ▸ hL.dataUses hS hdone hlead₁.store hh haddrs hxs
    exact ⟨hlead₂.store, hlead₂.grants _ _ hh⟩

include hs in
theorem Links.starts {addr : Nat} {s' : Store} (h : Starts callHost fuel m r s addr s') :
    R.store s' ∧ R.grants s' .func addr := by
  cases h with
  | mk hdone hstart hinst haddr =>
    obtain ⟨hlead, -⟩ := hdone ▸ hL.ready hS hs
    exact ⟨hlead.store, (hL.spans hlead.store hinst).funcs addr (lookup_mem haddr)⟩

end Policy

end Wasm
