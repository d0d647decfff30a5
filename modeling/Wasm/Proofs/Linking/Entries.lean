import Wasm.Proofs.Evolution

namespace Wasm

structure Store.Retains (s s' : Store) : Prop where
  funcs : Persists Eq s.funcs s'.funcs
  tables : Persists (Table.Updates fun _ ↦ True) s.heap.tables s'.heap.tables
  memories : Persists Memory.Updates s.heap.memories s'.heap.memories
  globals : Persists Global.Evolves s.heap.globals s'.heap.globals

namespace Store

variable {s s' : Store}

theorem Evolves.retains (h : s.Evolves s') : s.Retains s' :=
  ⟨h.funcs, h.tables, h.memories, h.globals⟩

theorem Retains.refl (s : Store) : s.Retains s := (Evolves.refl s).retains

def HasTable (s : Store) (a : Nat) (type : TableType) : Prop :=
  ∃ t, s.heap.tables[a]? = some t ∧ t.type.elem = type.elem ∧ type.limits.min.toNat ≤ t.size

def HasMemory (s : Store) (a : Nat) (type : MemoryType) : Prop :=
  ∃ mem, s.heap.memories[a]? = some mem ∧ type.limits.min.toNat ≤ mem.pages

def HasGlobal (s : Store) (a : Nat) (type : GlobalType) (v : Value) : Prop :=
  ∃ g, s.heap.globals[a]? = some g ∧ g.type = type ∧ g.value.type = type.value ∧
    (type.mutable = false → g.value = v)

theorem Retains.func (h : s.Retains s') {a : Nat} {f : FuncInst} (hf : s.funcs[a]? = some f) :
    s'.funcs[a]? = some f := by
  obtain ⟨g, hg, rfl⟩ := h.funcs.exists_of_some hf
  exact hg

theorem Retains.hasTable (h : s.Retains s') {a : Nat} {type : TableType} :
    s.HasTable a type → s'.HasTable a type := by
  rintro ⟨t, ht, helem, hmin⟩
  obtain ⟨t', ht', hup⟩ := h.tables.exists_of_some ht
  exact ⟨t', ht', hup.elem.trans helem, hmin.trans hup.size⟩

theorem Retains.hasMemory (h : s.Retains s') {a : Nat} {type : MemoryType} :
    s.HasMemory a type → s'.HasMemory a type := by
  rintro ⟨mem, hmem, hmin⟩
  obtain ⟨mem', hmem', hup⟩ := h.memories.exists_of_some hmem
  exact ⟨mem', hmem', hmin.trans (Nat.div_le_div_right hup.size)⟩

theorem Retains.hasGlobal (h : s.Retains s') {a : Nat} {type : GlobalType} {v : Value} :
    s.HasGlobal a type v → s'.HasGlobal a type v := by
  rintro ⟨g, hg, rfl, htyped, hfixed⟩
  obtain ⟨g', hg', hup⟩ := h.globals.exists_of_some hg
  exact ⟨g', hg', hup.type, hup.typed htyped, fun hm ↦ (hup.fixed hm).trans (hfixed hm)⟩

end Store

def Instance.addrs (inst : Instance) : ExternKind → Array Nat
  | .func => inst.funcs
  | .table => inst.tables
  | .memory => inst.memories
  | .global => inst.globals

def Instance.add (inst : Instance) (a : Nat) : ExternKind → Instance
  | .func => { inst with funcs := inst.funcs.push a }
  | .table => { inst with tables := inst.tables.push a }
  | .memory => { inst with memories := inst.memories.push a }
  | .global => { inst with globals := inst.globals.push a }

theorem Instance.addrs_add (inst : Instance) (a : Nat) (kind kind' : ExternKind) :
    ((inst.add a kind).addrs kind').toList =
      (inst.addrs kind').toList ++ if kind = kind' then [a] else [] := by
  cases kind <;> cases kind' <;> simp [add, addrs]

/-- What stands at the address of an import. Tables and memories are those that were supplied, and a
global that cannot be set still has the value that was supplied. -/
def Import.At (m : Module) (r : Host.Resolver) (s : Store) (a : Nat) (i : Import) : Prop :=
  match i.desc with
  | .func t => ∃ f, m.types[t.toNat]? = some f.type ∧ r.func i.source i.name f.type = some f ∧
    s.funcs[a]? = some (.host f)
  | .table type => r.table i.source i.name type = some a ∧ s.HasTable a type
  | .memory type => r.memory i.source i.name type = some a ∧ s.HasMemory a type
  | .global type => ∃ v, r.global i.source i.name type = some v ∧ s.HasGlobal a type v

/-- An entry of an index space: an import, or a definition. -/
inductive Decl
  | imported (i : Import)
  | func (index : Nat)
  | table (type : TableType)
  | memory (type : MemoryType)
  | global (type : GlobalType)

def Decl.kind : Decl → ExternKind
  | imported i => i.desc.kind
  | func _ => .func
  | table _ => .table
  | memory _ => .memory
  | global _ => .global

def Decl.At (m : Module) (r : Host.Resolver) (handle : Nat) (s : Store) (a : Nat) : Decl → Prop
  | imported i => i.At m r s a
  | func k => ∃ type, m.funcType? (m.imported.funcs + k) = some type ∧
    s.funcs[a]? = some (.code type handle k)
  | table type => s.HasTable a type
  | memory type => s.HasMemory a type
  | global type => ∃ v, s.HasGlobal a type v

def Module.decls (m : Module) : List Decl :=
  m.imports.map .imported ++ m.funcTypes.zipIdx.map (fun f ↦ .func f.2) ++ m.tables.map .table ++
    m.memories.map .memory ++ m.globals.map (fun g ↦ .global g.type)

variable {m : Module} {r : Host.Resolver} {handle : Nat} {s s' : Store} {inst : Instance}
  {ds : List Decl} {d : Decl} {a : Nat}

theorem Decl.At.mono (hs : s.Retains s') (h : d.At m r handle s a) : d.At m r handle s' a := by
  cases d with
  | imported i =>
    simp only [Decl.At, Import.At] at h ⊢
    cases hd : i.desc with
    | func t =>
      simp only [hd] at h ⊢
      obtain ⟨f, htype, hsupply, hf⟩ := h
      exact ⟨f, htype, hsupply, hs.func hf⟩
    | table type =>
      simp only [hd] at h ⊢
      exact ⟨h.1, hs.hasTable h.2⟩
    | memory type =>
      simp only [hd] at h ⊢
      exact ⟨h.1, hs.hasMemory h.2⟩
    | global type =>
      simp only [hd] at h ⊢
      obtain ⟨v, hv, hg⟩ := h
      exact ⟨v, hv, hs.hasGlobal hg⟩
  | func k =>
    obtain ⟨type, htype, hf⟩ := h
    exact ⟨type, htype, hs.func hf⟩
  | table type => exact hs.hasTable h
  | memory type => exact hs.hasMemory h
  | global type =>
    obtain ⟨v, hv⟩ := h
    exact ⟨v, hs.hasGlobal hv⟩

def Instance.Covers (m : Module) (r : Host.Resolver) (handle : Nat) (ds : List Decl) (s : Store)
    (inst : Instance) : Prop :=
  ∀ kind, List.Forall₂ (fun d a ↦ Decl.At m r handle s a d) (ds.filter (·.kind = kind))
    (inst.addrs kind).toList

namespace Instance.Covers

theorem mono (h : inst.Covers m r handle ds s) (hs : s.Retains s') :
    inst.Covers m r handle ds s' :=
  fun kind ↦ (h kind).imp fun _ _ ↦ .mono hs

theorem add (h : inst.Covers m r handle ds s) (hs : s.Retains s') (hd : d.At m r handle s' a) :
    (inst.add a d.kind).Covers m r handle (ds ++ [d]) s' := by
  intro kind
  rw [List.filter_append, Instance.addrs_add]
  refine List.rel_append (h.mono hs kind) ?_
  by_cases hk : d.kind = kind
  · simp [hk, hd]
  · simp [hk]

end Instance.Covers

namespace Link

variable {inst' : Instance} {α : Type}

theorem require_ok {β : Type} {e : LinkError} {x : Option α} {k : α → Link β} {b : β}
    (h : (require e x >>= k) s = .ok b s') : ∃ y, x = some y ∧ k y s = .ok b s' := by
  cases x with
  | none => cases h
  | some y => exact ⟨y, rfl, h⟩

theorem unless_ok {c : Prop} [Decidable c] {e : LinkError} {k : PUnit → Link α} {y : α}
    (h : (if c then fail e >>= k else k ⟨⟩ : Link α) s = .ok y s') : ¬ c ∧ k ⟨⟩ s = .ok y s' := by
  by_cases hc : c
  · rw [if_pos hc] at h
    cases h
  · rw [if_neg hc] at h
    exact ⟨hc, h⟩

structure Adds (m : Module) (r : Host.Resolver) (handle : Nat) (d : Decl) (inst : Instance)
    (s : Store) (inst' : Instance) (s' : Store) : Prop where
  retains : s.Retains s'
  added : ∃ a, inst' = inst.add a d.kind ∧ d.At m r handle s' a
  instances : s'.instances = s.instances
  orderly : ∀ Q, r.Orderly Q → s.Orderly Q → s'.Orderly Q

theorem bindImport_adds {i : Import} (h : bindImport m r inst i s = .ok inst' s') :
    Adds m r handle (.imported i) inst s inst' s' := by
  have hrefl := Store.Retains.refl s
  unfold bindImport at h
  cases hd : i.desc with
  | func t =>
    rw [hd] at h
    obtain ⟨type, htype, hsupply⟩ := require_ok h
    obtain ⟨f, hf, htyped⟩ := require_ok hsupply
    obtain ⟨hsame, halloc⟩ := unless_ok htyped
    obtain rfl := not_not.mp hsame
    cases halloc
    have hat : Import.At m r (s.allocFunc (.host f)).2 s.funcs.size i := by
      simp only [Import.At, hd]
      exact ⟨f, htype, hf, Array.getElem?_push_size⟩
    refine ⟨{ hrefl with funcs := hrefl.funcs.push _ }, ⟨_, ?_, hat⟩, rfl, fun Q hr hs ↦ ?_⟩
    · simp [Decl.kind, ImportDesc.kind, hd, Instance.add]
    · apply Policy.orderly_allocFunc hs
      rintro _ ⟨⟩
      exact hr i.source i.name f.type f hf
  | table type =>
    rw [hd] at h
    obtain ⟨a, ha, hfound⟩ := require_ok h
    obtain ⟨_, _, ⟨⟩, hfound⟩ := Outcome.bind_ok hfound
    obtain ⟨t, ht, hfits⟩ := require_ok hfound
    obtain ⟨helem, hlarge⟩ := unless_ok hfits
    obtain ⟨hlimits, hdone⟩ := unless_ok hlarge
    cases hdone
    have hat : Import.At m r s a i := by
      simp only [Import.At, hd]
      exact ⟨ha, t, ht, not_not.mp helem, Nat.not_lt.mp hlimits⟩
    refine ⟨hrefl, ⟨a, ?_, hat⟩, rfl, fun Q hr hs ↦ hs⟩
    simp [Decl.kind, ImportDesc.kind, hd, Instance.add]
  | memory type =>
    rw [hd] at h
    obtain ⟨a, ha, hfound⟩ := require_ok h
    obtain ⟨_, _, ⟨⟩, hfound⟩ := Outcome.bind_ok hfound
    obtain ⟨mem, hmem, hlarge⟩ := require_ok hfound
    obtain ⟨hlimits, hdone⟩ := unless_ok hlarge
    cases hdone
    have hat : Import.At m r s a i := by
      simp only [Import.At, hd]
      exact ⟨ha, mem, hmem, Nat.not_lt.mp hlimits⟩
    refine ⟨hrefl, ⟨a, ?_, hat⟩, rfl, fun Q hr hs ↦ hs⟩
    simp [Decl.kind, ImportDesc.kind, hd, Instance.add]
  | global type =>
    rw [hd] at h
    obtain ⟨v, hv, htyped⟩ := require_ok h
    obtain ⟨hsame, halloc⟩ := unless_ok htyped
    cases halloc
    have hat : Import.At m r (s.allocGlobal ⟨type, v⟩).2 s.heap.globals.size i := by
      simp only [Import.At, hd]
      exact ⟨v, hv, _, Array.getElem?_push_size, rfl, not_not.mp hsame, fun _ ↦ rfl⟩
    refine ⟨{ hrefl with globals := hrefl.globals.push _ }, ⟨_, ?_, hat⟩, rfl, fun Q hr hs ↦ hs⟩
    simp [Decl.kind, ImportDesc.kind, hd, Instance.add]

theorem defineFunc_adds {f : Idx × Nat} (h : defineFunc m handle inst f s = .ok inst' s') :
    Adds m r handle (.func f.2) inst s inst' s' := by
  have hrefl := Store.Retains.refl s
  obtain ⟨type, htype, halloc⟩ := require_ok h
  cases halloc
  refine ⟨{ hrefl with funcs := hrefl.funcs.push _ }, ⟨_, rfl, type, htype, ?_⟩, rfl,
    fun Q hr hs ↦ ?_⟩
  · exact Array.getElem?_push_size
  · exact Policy.orderly_allocFunc hs nofun

theorem defineTable_adds {type : TableType} (h : defineTable inst type s = .ok inst' s') :
    Adds m r handle (.table type) inst s inst' s' := by
  have hrefl := Store.Retains.refl s
  obtain ⟨_, _, ⟨⟩, hroom⟩ := Outcome.bind_ok h
  obtain ⟨-, hcreate⟩ := unless_ok hroom
  obtain ⟨t, ht, halloc⟩ := require_ok hcreate
  cases halloc
  refine ⟨{ hrefl with tables := hrefl.tables.push _ }, ⟨_, rfl, ?_⟩, rfl, fun Q hr hs ↦ hs⟩
  obtain rfl := Table.eq_of_create? ht
  refine ⟨_, Array.getElem?_push_size, rfl, ?_⟩
  simp [Table.create, Table.size]

theorem defineMemory_adds {type : MemoryType} (h : defineMemory inst type s = .ok inst' s') :
    Adds m r handle (.memory type) inst s inst' s' := by
  have hrefl := Store.Retains.refl s
  obtain ⟨_, _, ⟨⟩, hroom⟩ := Outcome.bind_ok h
  obtain ⟨-, hcreate⟩ := unless_ok hroom
  obtain ⟨mem, hmem, halloc⟩ := require_ok hcreate
  cases halloc
  refine ⟨{ hrefl with memories := hrefl.memories.push _ }, ⟨_, rfl, ?_⟩, rfl, fun Q hr hs ↦ hs⟩
  refine ⟨_, Array.getElem?_push_size, ?_⟩
  unfold Memory.create? at hmem
  dsimp only at hmem
  split at hmem
  · cases hmem
    simp [Memory.pages, Memory.size, Memory.zeros, ByteArray.size, Memory.pageSize]
  · cases hmem

theorem foldlM_covers {α : Type} {f : Instance → α → Link Instance} {g : α → Decl}
    {xs : List α} (h : xs.foldlM f inst s = .ok inst' s')
    (hf : ∀ x inst s inst' s', f inst x s = .ok inst' s' → Adds m r handle (g x) inst s inst' s')
    (hinst : inst.Covers m r handle ds s) :
    inst'.Covers m r handle (ds ++ xs.map g) s' ∧ s'.instances = s.instances ∧
      ∀ Q, r.Orderly Q → s.Orderly Q → s'.Orderly Q := by
  induction xs generalizing inst s ds with
  | nil =>
    cases h
    exact ⟨by simpa using hinst, rfl, fun _ _ hs ↦ hs⟩
  | cons x xs ih =>
    rw [List.foldlM_cons] at h
    obtain ⟨inst₁, s₁, hx, hxs⟩ := Outcome.bind_ok h
    have hadds := hf _ _ _ _ _ hx
    obtain ⟨a, rfl, hat⟩ := hadds.added
    obtain ⟨hcov, hsame, hord⟩ := ih hxs (hinst.add hadds.retains hat)
    refine ⟨?_, hsame.trans hadds.instances, fun Q hr hs ↦ hord Q hr (hadds.orderly Q hr hs)⟩
    rw [List.map_cons]
    rwa [List.append_assoc, List.singleton_append] at hcov

theorem define_covers (h : define m r handle s = .ok inst s') :
    inst.Covers m r handle (m.imports.map .imported ++ m.funcTypes.zipIdx.map (fun f ↦ .func f.2) ++
      m.tables.map .table ++ m.memories.map .memory) s' ∧ s'.instances = s.instances ∧
      ∀ Q, r.Orderly Q → s.Orderly Q → s'.Orderly Q := by
  obtain ⟨inst₁, s₁, himports, hfuncs⟩ := Outcome.bind_ok h
  obtain ⟨inst₂, s₂, hfuncs, htables⟩ := Outcome.bind_ok hfuncs
  obtain ⟨inst₃, s₃, htables, hmemories⟩ := Outcome.bind_ok htables
  have hblank : Instance.Covers m r handle [] s { mod := m } := by
    intro kind
    cases kind <;> exact .nil
  obtain ⟨hcov₁, hsame₁, hord₁⟩ :=
    foldlM_covers himports (fun _ _ _ _ _ ↦ bindImport_adds) hblank
  obtain ⟨hcov₂, hsame₂, hord₂⟩ :=
    foldlM_covers hfuncs (fun _ _ _ _ _ ↦ defineFunc_adds) hcov₁
  obtain ⟨hcov₃, hsame₃, hord₃⟩ :=
    foldlM_covers htables (fun _ _ _ _ _ ↦ defineTable_adds) hcov₂
  obtain ⟨hcov₄, hsame₄, hord₄⟩ :=
    foldlM_covers hmemories (fun _ _ _ _ _ ↦ defineMemory_adds) hcov₃
  refine ⟨hcov₄, hsame₄.trans (hsame₃.trans (hsame₂.trans hsame₁)), fun Q hr hs ↦ ?_⟩
  exact hord₄ Q hr (hord₃ Q hr (hord₂ Q hr (hord₁ Q hr hs)))

theorem getInstance_ok (h : getInstance handle s = .ok inst s') :
    s.instances[handle]? = some inst ∧ s' = s := by
  obtain ⟨_, _, ⟨⟩, hcheck⟩ := Outcome.bind_ok h
  unfold Store.instance_ at hcheck
  cases hinst : s.instances[handle]? with
  | none =>
    rw [hinst] at hcheck
    cases hcheck
  | some i =>
    rw [hinst] at hcheck
    cases hcheck
    exact ⟨rfl, rfl⟩

theorem modifyInstance_ok {f : Instance → Instance} (h : modifyInstance handle f s = .ok () s')
    (hinst : s.instances[handle]? = some inst) :
    s'.instances[handle]? = some (f inst) ∧ s.Retains s' ∧ ∀ Q, s.Orderly Q → s'.Orderly Q := by
  obtain ⟨_, s₁, hget, hmodify⟩ := Outcome.bind_ok h
  obtain ⟨-, rfl⟩ := getInstance_ok hget
  cases hmodify
  refine ⟨?_, { Store.Retains.refl s₁ with }, fun _ hs ↦ hs⟩
  simp [Array.getElem?_modify, hinst]

end Link

namespace ImportDesc

def func? : ImportDesc → Option Idx
  | func type => some type
  | _ => none

def table? : ImportDesc → Option TableType
  | table type => some type
  | _ => none

def memory? : ImportDesc → Option MemoryType
  | memory type => some type
  | _ => none

def global? : ImportDesc → Option GlobalType
  | global type => some type
  | _ => none

structure Asked {τ : Type} (kind : ExternKind) (make : τ → ImportDesc)
    (asked : ImportDesc → Option τ) : Prop where
  some_iff : ∀ desc type, asked desc = some type ↔ desc = make type
  kind_iff : ∀ desc, (asked desc).isSome = true ↔ desc.kind = kind

theorem asked_func : Asked .func func func? := by
  constructor <;> rintro ⟨⟩ <;> simp [func?, kind]

theorem asked_table : Asked .table table table? := by
  constructor <;> rintro ⟨⟩ <;> simp [table?, kind]

theorem asked_memory : Asked .memory memory memory? := by
  constructor <;> rintro ⟨⟩ <;> simp [memory?, kind]

theorem asked_global : Asked .global global global? := by
  constructor <;> rintro ⟨⟩ <;> simp [global?, kind]

end ImportDesc

def ImportCounts.of (n : ImportCounts) : ExternKind → Nat
  | .func => n.funcs
  | .table => n.tables
  | .memory => n.memories
  | .global => n.globals

namespace Module

variable {kind : ExternKind} {τ : Type} {make : τ → ImportDesc} {asked : ImportDesc → Option τ}

def tableTypes (m : Module) : List TableType :=
  m.imports.filterMap (·.desc.table?) ++ m.tables

def memoryTypes (m : Module) : List MemoryType :=
  m.imports.filterMap (·.desc.memory?) ++ m.memories

def globalTypes (m : Module) : List GlobalType :=
  m.imports.filterMap (·.desc.global?) ++ m.globals.map (·.type)

def importsOf (m : Module) (kind : ExternKind) : List Import :=
  m.imports.filter (·.desc.kind = kind)

def definitionsOf (m : Module) : ExternKind → List Decl
  | .func => m.funcTypes.zipIdx.map fun f ↦ .func f.2
  | .table => m.tables.map .table
  | .memory => m.memories.map .memory
  | .global => (m.globals.map (·.type)).map .global

theorem filter_decls (m : Module) (kind : ExternKind) :
    m.decls.filter (·.kind = kind) = (m.importsOf kind).map .imported ++ m.definitionsOf kind := by
  have himports : (m.imports.map Decl.imported).filter (·.kind = kind) =
      (m.importsOf kind).map .imported := List.filter_map
  rw [decls, List.filter_append, List.filter_append, List.filter_append, List.filter_append,
    himports]
  cases kind <;> simp [definitionsOf, List.filter_map, Function.comp_def, Decl.kind]

theorem length_importsOf (hm : m.imported = .ofImports m.imports) (kind : ExternKind) :
    (m.importsOf kind).length = m.imported.of kind := by
  rw [hm, importsOf, ← List.countP_eq_length_filter]
  cases kind <;> exact List.countP_congr fun i _ ↦ by simp

theorem importsOf_asked (h : ImportDesc.Asked kind make asked) :
    (m.importsOf kind).map (asked ·.desc) = (m.imports.filterMap (asked ·.desc)).map some := by
  unfold importsOf
  induction m.imports with
  | nil => rfl
  | cons i is ih =>
    by_cases hi : i.desc.kind = kind
    · obtain ⟨type, htype⟩ := Option.isSome_iff_exists.mp ((h.kind_iff i.desc).mpr hi)
      rw [List.filter_cons_of_pos (by simpa using hi), List.filterMap_cons, List.map_cons, ih]
      simp only [htype, List.map_cons]
    · have hnone : asked i.desc = none := by
        rw [← Option.not_isSome_iff_eq_none, h.kind_iff]
        exact hi
      rw [List.filter_cons_of_neg (by simpa using hi), List.filterMap_cons, ih]
      simp only [hnone]

theorem exists_asked (h : ImportDesc.Asked kind make asked) {k : Nat} {i : Import}
    (hi : (m.importsOf kind)[k]? = some i) :
    ∃ type, (m.imports.filterMap (asked ·.desc))[k]? = some type ∧ i.desc = make type := by
  have hk := congrArg (·[k]?) (importsOf_asked (m := m) h)
  simp only [List.getElem?_map, hi, Option.map_some] at hk
  cases htype : (m.imports.filterMap (asked ·.desc))[k]? with
  | none =>
    rw [htype] at hk
    cases hk
  | some type =>
    rw [htype] at hk
    exact ⟨type, rfl, (h.some_iff _ _).mp (Option.some.inj hk)⟩

end Module

theorem forall₂_getElem? {α β : Type} {R : α → β → Prop} {xs : List α} {ys : List β}
    (h : List.Forall₂ R xs ys) {i : Nat} {x : α} (hx : xs[i]? = some x) :
    ∃ y, ys[i]? = some y ∧ R x y := by
  obtain ⟨hlt, rfl⟩ := List.getElem?_eq_some_iff.mp hx
  have hlt' := hlt.trans_eq h.length_eq
  exact ⟨ys[i], List.getElem?_eq_getElem hlt', h.get hlt hlt'⟩

namespace Instance.Covers

variable (h : inst.Covers m r handle m.decls s) {kind : ExternKind} {k : Nat}

include h

theorem entries (kind : ExternKind) : List.Forall₂ (fun d a ↦ Decl.At m r handle s a d)
    ((m.importsOf kind).map .imported ++ m.definitionsOf kind) (inst.addrs kind).toList := by
  rw [← Module.filter_decls]
  exact h kind

theorem size (kind : ExternKind) :
    (inst.addrs kind).size = (m.importsOf kind).length + (m.definitionsOf kind).length := by
  simpa using (h.entries kind).length_eq.symm

theorem import_at {i : Import} (hi : (m.importsOf kind)[k]? = some i) :
    ∃ a, (inst.addrs kind)[k]? = some a ∧ i.At m r s a := by
  have hlt := (List.getElem?_eq_some_iff.mp hi).1
  have hk : ((m.importsOf kind).map Decl.imported ++ m.definitionsOf kind)[k]? =
      some (.imported i) := by
    rw [List.getElem?_append_left (by simpa using hlt), List.getElem?_map, hi]
    rfl
  obtain ⟨a, ha, hat⟩ := forall₂_getElem? (h.entries kind) hk
  exact ⟨a, by simpa using ha, hat⟩

theorem definition_at (hd : (m.definitionsOf kind)[k]? = some d) :
    ∃ a, (inst.addrs kind)[(m.importsOf kind).length + k]? = some a ∧ d.At m r handle s a := by
  have hk : ((m.importsOf kind).map Decl.imported ++ m.definitionsOf kind)[
      (m.importsOf kind).length + k]? = some d := by
    rw [List.getElem?_append_right (by simp)]
    simpa using hd
  obtain ⟨a, ha, hat⟩ := forall₂_getElem? (h.entries kind) hk
  exact ⟨a, by simpa using ha, hat⟩

theorem declared_at {τ : Type} {make : τ → ImportDesc} {asked : ImportDesc → Option τ}
    {define : τ → Decl} {types : List τ} (hasked : ImportDesc.Asked kind make asked)
    (hdefs : m.definitionsOf kind = types.map define)
    (hk : k < (m.importsOf kind).length + types.length) :
    ∃ a type, (inst.addrs kind)[k]? = some a ∧
      (m.imports.filterMap (asked ·.desc) ++ types)[k]? = some type ∧
      ((∃ i : Import, i.desc = make type ∧ i.At m r s a) ∨ (define type).At m r handle s a) := by
  have hlen : (m.importsOf kind).length = (m.imports.filterMap (asked ·.desc)).length := by
    simpa using congrArg List.length (Module.importsOf_asked (m := m) hasked)
  by_cases hlt : k < (m.importsOf kind).length
  · have hi := List.getElem?_eq_getElem hlt
    obtain ⟨a, ha, hat⟩ := h.import_at hi
    obtain ⟨type, htype, hmake⟩ := Module.exists_asked hasked hi
    refine ⟨a, type, ha, ?_, .inl ⟨_, hmake, hat⟩⟩
    rw [List.getElem?_append_left (hlen ▸ hlt), htype]
  · obtain ⟨j, rfl⟩ := Nat.exists_eq_add_of_le (Nat.not_lt.mp hlt)
    obtain ⟨type, htype⟩ : ∃ type, types[j]? = some type :=
      ⟨_, List.getElem?_eq_getElem (Nat.lt_of_add_lt_add_left hk)⟩
    have hd : (m.definitionsOf kind)[j]? = some (define type) := by
      rw [hdefs, List.getElem?_map, htype]
      rfl
    obtain ⟨a, ha, hat⟩ := h.definition_at hd
    refine ⟨a, type, ha, ?_, .inr hat⟩
    rw [hlen, List.getElem?_append_right (by omega), Nat.add_sub_cancel_left, htype]

end Instance.Covers

namespace Instance.Covers

variable (h : inst.Covers m r handle m.decls s) (hm : m.imported = .ofImports m.imports) {i k : Nat}

include h hm

theorem code_at (hk : k < m.funcTypes.length) :
    ∃ a type, inst.funcs[m.imported.funcs + k]? = some a ∧
      m.funcType? (m.imported.funcs + k) = some type ∧
      s.funcs[a]? = some (.code type handle k) := by
  have hd : (m.definitionsOf .func)[k]? = some (.func k) := by
    simp [Module.definitionsOf, hk]
  obtain ⟨a, ha, type, htype, hf⟩ := h.definition_at hd
  rw [Module.length_importsOf hm] at ha
  exact ⟨a, type, ha, htype, hf⟩

theorem func_at (hi : i < m.totalFuncs) :
    ∃ a f, inst.funcs[i]? = some a ∧ s.funcs[a]? = some f ∧ m.funcType? i = some f.type := by
  by_cases hlt : i < m.imported.funcs
  · have himport := List.getElem?_eq_getElem (hlt.trans_eq (Module.length_importsOf hm .func).symm)
    obtain ⟨a, ha, hat⟩ := h.import_at himport
    obtain ⟨t, ht, hdesc⟩ := Module.exists_asked ImportDesc.asked_func himport
    simp only [Import.At, hdesc] at hat
    obtain ⟨f, htype, -, hf⟩ := hat
    refine ⟨a, _, ha, hf, ?_⟩
    have hthis : m.importedFuncTypes[i]? = some t := ht
    simp only [Module.funcType?, if_pos hlt, hthis]
    exact htype
  · obtain ⟨k, rfl⟩ := Nat.exists_eq_add_of_le (Nat.not_lt.mp hlt)
    obtain ⟨a, type, ha, htype, hf⟩ := h.code_at hm (Nat.lt_of_add_lt_add_left hi)
    exact ⟨a, _, ha, hf, htype⟩

theorem table_at (hi : i < m.totalTables) :
    ∃ a type, inst.tables[i]? = some a ∧ m.tableTypes[i]? = some type ∧ s.HasTable a type := by
  have hlt := hi.trans_eq (congrArg (· + _) (Module.length_importsOf hm .table).symm)
  obtain ⟨a, type, ha, htype, ⟨imp, hdesc, hat⟩ | hat⟩ :=
    h.declared_at ImportDesc.asked_table rfl hlt
  · simp only [Import.At, hdesc] at hat
    exact ⟨a, type, ha, htype, hat.2⟩
  · exact ⟨a, type, ha, htype, hat⟩

theorem memory_at (hi : i < m.totalMemories) :
    ∃ a type, inst.memories[i]? = some a ∧ m.memoryTypes[i]? = some type ∧ s.HasMemory a type := by
  have hlt := hi.trans_eq (congrArg (· + _) (Module.length_importsOf hm .memory).symm)
  obtain ⟨a, type, ha, htype, ⟨imp, hdesc, hat⟩ | hat⟩ :=
    h.declared_at ImportDesc.asked_memory rfl hlt
  · simp only [Import.At, hdesc] at hat
    exact ⟨a, type, ha, htype, hat.2⟩
  · exact ⟨a, type, ha, htype, hat⟩

theorem global_at (hi : i < m.totalGlobals) :
    ∃ a type, inst.globals[i]? = some a ∧ m.globalTypes[i]? = some type ∧
      ∃ v, s.HasGlobal a type v := by
  have hlt : i < (m.importsOf .global).length + (m.globals.map (·.type)).length := by
    rw [Module.length_importsOf hm, List.length_map]
    exact hi
  obtain ⟨a, type, ha, htype, ⟨imp, hdesc, hat⟩ | hat⟩ :=
    h.declared_at ImportDesc.asked_global rfl hlt
  · simp only [Import.At, hdesc] at hat
    obtain ⟨v, -, hv⟩ := hat
    exact ⟨a, type, ha, htype, v, hv⟩
  · exact ⟨a, type, ha, htype, hat⟩

end Instance.Covers

end Wasm
