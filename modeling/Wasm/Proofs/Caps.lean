import Wasm.Proofs.Machine.Laws
import Wasm.Proofs.Growth

namespace Wasm

open Outcome Stack

namespace Machine

structure Shallow (m m' : Machine) : Prop where
  config : m'.store.config = m.store.config
  depth : m'.stack.frames.size ≤ max m.stack.frames.size m.store.config.maxCallDepth

theorem law_shallow {callHost : HostCall}
    (hhost : ∀ f args s, (final (callHost f args s)).config = s.config) :
    Law callHost Shallow where
  refl m := ⟨rfl, le_max_left ..⟩
  trans m m' m'' h h' := by
    refine ⟨h'.config.trans h.config, h'.depth.trans ?_⟩
    rw [h.config]
    exact max_le h.depth (le_max_right ..)
  evolves h := ⟨(congrArg Store.config h.store :), h.stack.frames ▸ le_max_left ..⟩
  enter _ _ _ _ hdepth _ := by
    refine ⟨rfl, le_max_of_le_right ?_⟩
    simpa [entered] using hdepth
  leave m := ⟨rfl, le_max_of_le_left (by simp)⟩
  host m f args := ⟨hhost f args m.store, le_max_left ..⟩

/-- The stack of a machine keeps to the limits of the store that the machine runs on, where `depth`
frames are admitted. -/
structure Limited (s : Store) (depth : Nat) (m : Machine) : Prop where
  entries : m.stack.entries.size ≤ s.config.maxStackEntries
  frames : m.stack.frames.size ≤ depth

theorem Occurs.entries {callHost : HostCall} {s : Store} {m : Machine}
    (h : Occurs callHost s m) : m.stack.entries.size ≤ s.config.maxStackEntries := by
  have hlimit : m.stack.limit = s.config.maxStackEntries := by
    obtain hm | ⟨inst, code, -, hm⟩ := (law_confined callHost).occurs h
    · exact hm.limit
    · exact hm.limit
  exact hlimit ▸ h.fits

section Depth

variable {callHost : HostCall} (hhost : ∀ f args s, (final (callHost f args s)).config = s.config)

include hhost

theorem limited_runFunc (steps func : Nat) (args : List Value) (arity : Nat) (s : Store) :
    Limited s s.config.maxCallDepth
      (final (runFunc callHost steps func args arity (fresh s))) where
  entries := (Occurs.func steps func args arity).entries
  frames := by
    have hdepth := ((law_shallow hhost).runFunc steps func args arity (fresh s)).depth
    simpa [fresh] using hdepth

theorem limited_runConst (steps inst : Nat) (code : Code) (s : Store) :
    Limited s (max 1 s.config.maxCallDepth)
      (final (runConst callHost steps inst code (fresh s))) where
  entries := (Occurs.const steps inst code).entries
  frames := by
    obtain hm | ⟨-, hm⟩ := (law_shallow hhost).runConst steps inst code (fresh s)
    · rw [hm]
      exact Nat.zero_le _
    · simpa [fresh, entered] using hm.depth

end Depth

end Machine

theorem Limits.top_congr {l l' : Limits} (h : l.max = l'.max) : l.top = l'.top := by
  rw [Limits.top, Limits.top, h]

theorem Limits.Ordered.le_top {l : Limits} (h : l.Ordered) : l.min.toNat ≤ l.top := by
  unfold Limits.top
  cases hmax : l.max with
  | none => exact Nat.le_pred_of_lt l.min.toNat_lt
  | some max => exact UInt32.le_iff_toNat_le.mp (h max hmax)

structure Table.KeepsTo (cap : Nat) (type : TableType) (t : Table) : Prop where
  elem : t.type.elem = type.elem
  max : t.type.limits.max = type.limits.max
  slots : t.size ≤ cap
  declared : type.limits.Ordered → t.size ≤ type.limits.top

structure Memory.KeepsTo (cap : Nat) (type : MemoryType) (m : Memory) : Prop where
  max : m.type.limits.max = type.limits.max
  whole : m.size = m.pages * pageSize
  pages : m.pages ≤ cap
  declared : type.limits.Ordered → m.pages ≤ type.limits.top

namespace Table.KeepsTo

variable {cap : Nat} {type : TableType}

theorem create (h : type.limits.min.toNat ≤ cap) : (Table.create type).KeepsTo cap type where
  elem := rfl
  max := rfl
  slots := by simpa [Table.create, Table.size] using h
  declared hord := by simpa [Table.create, Table.size] using hord.le_top

theorem revises {t t' : Table} {V : Value → Prop} (h : t.KeepsTo cap type)
    (ht : t.Revises cap V t') : t'.KeepsTo cap type := by
  refine ⟨ht.elem.trans h.elem, ht.max.trans h.max, ?_, fun hord ↦ ?_⟩
  · obtain hsame | hroom := ht.bound
    · exact hsame ▸ h.slots
    · exact hroom.1
  · obtain hsame | hroom := ht.bound
    · exact hsame ▸ h.declared hord
    · exact Limits.top_congr h.max ▸ hroom.2

end Table.KeepsTo

namespace Memory.KeepsTo

variable {cap : Nat} {type : MemoryType} {m m' : Memory}

theorem of_size {n : Nat} (hmax : m.type.limits.max = type.limits.max)
    (hsize : m.size = n * pageSize) (hcap : n ≤ cap)
    (hdeclared : type.limits.Ordered → n ≤ type.limits.top) : m.KeepsTo cap type := by
  have hpages : m.pages = n := by
    rw [Memory.pages, hsize]
    exact Nat.mul_div_cancel n (by decide)
  exact ⟨hmax, hpages ▸ hsize, hpages ▸ hcap, fun hord ↦ hpages ▸ hdeclared hord⟩

theorem create {a : Allocator} (h : type.limits.min.toNat ≤ cap)
    (hm : Memory.create? type a = some m) : m.KeepsTo cap type := by
  unfold Memory.create? at hm
  dsimp only at hm
  split at hm
  · cases hm
    exact .of_size rfl (size_replicate _ _) h fun hord ↦ hord.le_top
  · cases hm

theorem revises (h : m.KeepsTo cap type) (hm : m.Revises cap m') : m'.KeepsTo cap type := by
  have hmax := hm.max.trans h.max
  obtain hsame | ⟨n, hsize, hcap, htop⟩ := hm.bound
  · exact .of_size hmax (hsame.trans h.whole) h.pages h.declared
  · rw [h.whole, ← Nat.add_mul] at hsize
    exact .of_size hmax hsize hcap fun _ ↦ Limits.top_congr h.max ▸ htop

end Memory.KeepsTo

section Arrays

variable {α : Type} {P : Nat → α → Prop} {xs : Array α}

theorem each_setIfInBounds (h : ∀ b y, xs[b]? = some y → P b y) {a : Nat} {x : α} (hx : P a x) :
    ∀ b y, (xs.setIfInBounds a x)[b]? = some y → P b y := by
  intro b y hy
  rw [Array.getElem?_setIfInBounds] at hy
  split at hy
  · rename_i hab
    subst hab
    split at hy
    · cases hy
      exact hx
    · cases hy
  · exact h b y hy

theorem each_push (h : ∀ b y, xs[b]? = some y → P b y) {x : α} (hx : P xs.size x) :
    ∀ b y, (xs.push x)[b]? = some y → P b y := by
  intro b y hy
  rw [Array.getElem?_push] at hy
  split at hy
  · rename_i hb
    cases hy
    exact hb ▸ hx
  · exact h b y hy

end Arrays

/-- The limits of the store are those of `c`, and every table and memory keeps to them and to its
declaration in a module of the kind `M`. Those at addresses of the kind `F` are exempt. -/
structure Store.Capped (c : Config) (M : Module → Prop) (F : Entity → Nat → Prop) (s : Store) :
    Prop where
  config : s.config = c
  tables : ∀ (a : Nat) (t : Table), s.heap.tables[a]? = some t → ¬ F .table a →
    ∃ m type, M m ∧ type ∈ m.tables ∧ t.KeepsTo c.maxTableElements type
  memories : ∀ (a : Nat) (mem : Memory), s.heap.memories[a]? = some mem → ¬ F .memory a →
    ∃ m type, M m ∧ type ∈ m.memories ∧ mem.KeepsTo c.maxMemoryPages type

namespace Store.Capped

variable {c : Config} {M : Module → Prop} {F : Entity → Nat → Prop} {s s' : Store}

theorem congr (h : s.Capped c M F) (hc : s'.config = s.config)
    (ht : s'.heap.tables = s.heap.tables) (hm : s'.heap.memories = s.heap.memories) :
    s'.Capped c M F where
  config := hc.trans h.config
  tables := ht ▸ h.tables
  memories := hm ▸ h.memories

theorem setTable (h : s.Capped c M F) {a : Nat} {t t' : Table} {V : Value → Prop}
    (ht : s.heap.tables[a]? = some t) (hrev : t.Revises s.config.maxTableElements V t') :
    Capped c M F { s with heap.tables := s.heap.tables.setIfInBounds a t' } := by
  refine { h with tables := each_setIfInBounds h.tables fun hF ↦ ?_ }
  obtain ⟨m, type, hm, htype, hkeeps⟩ := h.tables a t ht hF
  exact ⟨m, type, hm, htype, hkeeps.revises (h.config ▸ hrev)⟩

theorem setMemory (h : s.Capped c M F) {a : Nat} {mem mem' : Memory}
    (hmem : s.heap.memories[a]? = some mem) (hrev : mem.Revises s.config.maxMemoryPages mem') :
    Capped c M F { s with heap.memories := s.heap.memories.setIfInBounds a mem' } := by
  refine { h with memories := each_setIfInBounds h.memories fun hF ↦ ?_ }
  obtain ⟨m, type, hm, htype, hkeeps⟩ := h.memories a mem hmem hF
  exact ⟨m, type, hm, htype, hkeeps.revises (h.config ▸ hrev)⟩

theorem pushTable (h : s.Capped c M F) {t : Table}
    (ht : ¬ F .table s.heap.tables.size →
      ∃ m type, M m ∧ type ∈ m.tables ∧ t.KeepsTo c.maxTableElements type) :
    Capped c M F (s.allocTable t).2 :=
  { h with tables := each_push h.tables ht }

theorem pushMemory (h : s.Capped c M F) {mem : Memory}
    (hmem : ¬ F .memory s.heap.memories.size →
      ∃ m type, M m ∧ type ∈ m.memories ∧ mem.KeepsTo c.maxMemoryPages type) :
    Capped c M F (s.allocMemory mem).2 :=
  { h with memories := each_push h.memories hmem }

theorem empty (c : Config) (M : Module → Prop) (F : Entity → Nat → Prop) :
    Capped c M F { config := c } where
  config := rfl
  tables _ _ h := absurd h (by simp)
  memories _ _ h := absurd h (by simp)

end Store.Capped

theorem Module.ordered_decode {m : Module} (h : ∃ bytes, Module.decode bytes = .ok m) {l : Limits}
    (hl : l ∈ m.limits) : l.Ordered := by
  obtain ⟨bytes, hdecode⟩ := h
  obtain ⟨d, hd, hm⟩ := Module.decode_ok hdecode
  obtain ⟨-, -, rfl⟩ := Module.finish_ok hm
  exact hd.limits l hl

theorem Module.limits_of_table {m : Module} {type : TableType} (h : type ∈ m.tables) :
    type.limits ∈ m.limits :=
  List.mem_append_left _ (List.mem_append_left _ (List.mem_map_of_mem h))

theorem Module.limits_of_memory {m : Module} {type : MemoryType} (h : type ∈ m.memories) :
    type.limits ∈ m.limits :=
  List.mem_append_left _ (List.mem_append_right _ (List.mem_map_of_mem h))

def Host.Fresh.entity {F : Type} : Host.Fresh F → Entity
  | .func _ | .code _ _ _ => .func
  | .table _ _ => .table
  | .memory _ _ => .memory
  | .global _ _ => .global
  | .elem _ => .elem
  | .data _ => .data
  | .instance_ _ => .instance_

namespace Policy

def cap (c : Config) (M : Module → Prop) (F : Entity → Nat → Prop) : Policy where
  store s := s.Capped c M F
  grants _ _ _ := True
  trap _ := True

variable {c : Config} {M : Module → Prop} {F : Entity → Nat → Prop} {s s' : Store}

theorem cap_leads (h : s'.Capped c M F) : (cap c M F).Leads s s' :=
  ⟨h, fun _ _ _ ↦ trivial⟩

theorem cap_same (hs : s.Capped c M F) (hc : s'.config = s.config)
    (ht : s'.heap.tables = s.heap.tables) (hm : s'.heap.memories = s.heap.memories) :
    (cap c M F).Leads s s' :=
  cap_leads (hs.congr hc ht hm)

theorem cap_links : (cap c M F).Links (fun _ ↦ True) M (fun _ ↦ True) where
  trap _ := trivial
  missing _ _ _ := trivial
  owner _ _ _ := by constructor <;> intros <;> trivial
  reference _ := trivial
  tableValue _ _ _ _ := ⟨fun _ _ ↦ trivial, trivial⟩
  globalValue _ _ _ _ := trivial
  elemValue _ _ _ _ := ⟨fun _ _ ↦ trivial, trivial⟩
  table hs _ ht hrev := cap_leads (Store.Capped.setTable hs ht hrev)
  memory hs _ hm hrev := cap_leads (Store.Capped.setMemory hs hm hrev)
  global hs _ _ _ := cap_same hs rfl rfl rfl
  elem hs _ := cap_same hs rfl rfl rfl
  data hs _ := cap_same hs rfl rfl rfl
  code _ _ _ := trivial
  body _ _ _ _ _ := trivial
  active _ hs := cap_same hs rfl rfl rfl
  present _ _ := trivial
  spans _ _ := by constructor <;> intros <;> trivial
  own _ := trivial
  allocInstance hs _ := cap_same hs rfl rfl rfl
  modify hs _ _ _ _ := cap_same hs rfl rfl rfl
  allocHost hs _ := cap_same hs rfl rfl rfl
  allocCode hs _ _ _ := cap_same hs rfl rfl rfl
  allocTable {s m type} hs hm htype hroom := by
    have hconfig : s.config = c := hs.config
    exact cap_leads (hs.pushTable fun _ ↦ ⟨m, type, hm, htype, .create (hconfig ▸ hroom)⟩)
  allocMemory {s m type mem} hs hm htype hroom hmem := by
    have hconfig : s.config = c := hs.config
    exact cap_leads (hs.pushMemory fun _ ↦ ⟨m, type, hm, htype, .create (hconfig ▸ hroom) hmem⟩)
  allocGlobal hs _ _ := cap_same hs rfl rfl rfl
  allocElem hs _ := cap_same hs rfl rfl rfl
  allocData _ hs := cap_same hs rfl rfl rfl

/-- What the host adds is exempt. -/
theorem cap_alloc (hs : s.Capped c M F) {e : Host.Fresh Host.Func}
    (he : ∀ a, (s.alloc e).1 = some a → F e.entity a) : (cap c M F).Leads s (s.alloc e).2 := by
  cases e with
  | table type slots =>
    unfold Store.alloc at he ⊢
    dsimp only at he ⊢
    split
    · rename_i t ht
      rw [ht] at he
      exact cap_leads (hs.pushTable fun hF ↦ absurd (he _ rfl) hF)
    · exact .refl hs
  | memory type bytes =>
    unfold Store.alloc at he ⊢
    dsimp only at he ⊢
    split
    · rename_i mem hmem
      rw [hmem] at he
      exact cap_leads (hs.pushMemory fun hF ↦ absurd (he _ rfl) hF)
    · exact .refl hs
  | func f => exact cap_same hs rfl rfl rfl
  | code type inst index => exact cap_same hs rfl rfl rfl
  | instance_ inst => exact cap_same hs rfl rfl rfl
  | global type init => exact cap_same hs rfl rfl rfl
  | elem refs => exact cap_same hs rfl rfl rfl
  | data bytes => exact cap_same hs rfl rfl rfl

end Policy

namespace Engine

open Policy

/-- A module that is instantiated in the course of what a client does. -/
def Instantiated (fuel : Nat) (client : Host.Act) (s₀ : Store) (m : Module) : Prop :=
  ∃ n r k s, Asked fuel client s₀ n (.instantiate m r k) s

/-- The addresses of what a client and the host functions it leads to add to the store. -/
def Added (fuel : Nat) (client : Host.Act) (s₀ : Store) (e : Entity) (a : Nat) : Prop :=
  ∃ n fresh k s, Asked fuel client s₀ n (.alloc fresh k) s ∧ fresh.entity = e ∧
    (s.alloc fresh).1 = some a

variable {fuel : Nat} {client : Host.Act} {s₀ : Store}

/-- All that a host can ask for keeps to the limits, but for replacing the heap. -/
theorem cap_conducts (c : Config)
    (hput : ∀ n heap next s, ¬ Asked fuel client s₀ n (.put heap next) s) :
    (cap c (Instantiated fuel client s₀) (Added fuel client s₀)).Conducts
      (Instantiated fuel client s₀) (fun _ ↦ True) fuel (Asked fuel client s₀) where
  items _ _ := trivial
  next hA hfol := .next hA (hfol.imp fun _ _ ↦ trivial)
  host hA hcons _ := .host hA hcons
  honors {n act s} hA hs := by
    cases act with
    | finish result =>
      cases result with
      | ok vs => exact fun _ _ _ _ ↦ trivial
      | error t => trivial
    | log vs next => exact cap_same hs rfl rfl rfl
    | readLog k => trivial
    | get k => trivial
    | put heap next => exact absurd hA (hput n heap next s)
    | alloc e k => exact cap_alloc hs fun a ha ↦ ⟨n, e, k, s, hA, rfl, ha⟩
    | call func args k => exact ⟨fun _ _ _ _ ↦ trivial, fun _ ↦ trivial⟩
    | invoke inst name args k => exact ⟨fun _ _ _ _ ↦ trivial, fun _ ↦ trivial⟩
    | instantiate m r k =>
      exact ⟨⟨n, r, k, s, hA⟩, fun _ _ _ _ _ ↦ trivial, fun _ _ _ _ _ _ _ _ _ ↦ trivial⟩

/-- The stores that there are while a request is served: the one it is made on, and those of the
machines that run for it. -/
inductive During (callHost : HostCall) (fuel : Nat) (act : Host.Act) (s : Store) : Store → Prop
  | asked : During callHost fuel act s s
  | running {m : Machine} : Running callHost fuel act s m → During callHost fuel act s m.store

theorem capped_during {c : Config}
    (hput : ∀ n heap next s, ¬ Asked fuel client { config := c } n (.put heap next) s) {n : Nat}
    {act : Host.Act} {s s' : Store} (h : Asked fuel client { config := c } n act s)
    (hs' : During (hostCall fuel n) fuel act s s') :
    s'.Capped c (Instantiated fuel client { config := c }) (Added fuel client { config := c }) := by
  have hC := cap_conducts c hput
  obtain ⟨hA, hs⟩ := cap_links.asked hC .client (Store.Capped.empty c _ _) h
  cases hs' with
  | asked => exact hs
  | running hm =>
    exact (cap_links.safe (cap_links.attends hC n act s hA) hs (hC.honors hA hs) hm).store

/-- At every moment a machine keeps to the limits on its stack. If the host never replaces the heap,
then every table and memory, but for those that the host has added, keeps to the limits of the store
and, if it comes from a decoded module, to its declared maximum. -/
theorem caps_hold :
    (∀ fuel n steps func args arity s,
      Machine.Limited s s.config.maxCallDepth
        (final (Machine.runFunc (hostCall fuel n) steps func args arity (Machine.fresh s)))) ∧
    (∀ fuel n steps inst code s,
      Machine.Limited s (max 1 s.config.maxCallDepth)
        (final (Machine.runConst (hostCall fuel n) steps inst code (Machine.fresh s)))) ∧
    ∀ fuel client config,
      (∀ n heap next s, ¬ Asked fuel client { config } n (.put heap next) s) →
      ∀ n act s s', Asked fuel client { config } n act s →
        During (hostCall fuel n) fuel act s s' → s'.config = config ∧
        (∀ (a : Nat) (t : Table), s'.heap.tables[a]? = some t →
          ¬ Added fuel client { config } .table a → ∃ m type,
            Instantiated fuel client { config } m ∧ type ∈ m.tables ∧
            t.type.limits.max = type.limits.max ∧ t.size ≤ config.maxTableElements ∧
            ((∃ bytes, Module.decode bytes = .ok m) → t.size ≤ type.limits.top)) ∧
        ∀ (a : Nat) (mem : Memory), s'.heap.memories[a]? = some mem →
          ¬ Added fuel client { config } .memory a → ∃ m type,
            Instantiated fuel client { config } m ∧ type ∈ m.memories ∧
            mem.type.limits.max = type.limits.max ∧ mem.size = mem.pages * Memory.pageSize ∧
            mem.pages ≤ config.maxMemoryPages ∧
            ((∃ bytes, Module.decode bytes = .ok m) → mem.pages ≤ type.limits.top) := by
  have hhost (fuel n : Nat) (f : Host.Func) (args : List Value) (s : Store) :=
    (extends_hostCall fuel n f args s).config
  refine ⟨fun fuel n ↦ Machine.limited_runFunc (hhost fuel n),
    fun fuel n ↦ Machine.limited_runConst (hhost fuel n), ?_⟩
  intro fuel client config hput n act s s' hasked hs'
  have hcapped := capped_during hput hasked hs'
  refine ⟨hcapped.config, fun a t ht hadded ↦ ?_, fun a mem hmem hadded ↦ ?_⟩
  · obtain ⟨m, type, hm, htype, hkeeps⟩ := hcapped.tables a t ht hadded
    refine ⟨m, type, hm, htype, hkeeps.max, hkeeps.slots, fun hdecoded ↦ hkeeps.declared ?_⟩
    exact Module.ordered_decode hdecoded (Module.limits_of_table htype)
  · obtain ⟨m, type, hm, htype, hkeeps⟩ := hcapped.memories a mem hmem hadded
    refine ⟨m, type, hm, htype, hkeeps.max, hkeeps.whole, hkeeps.pages,
      fun hdecoded ↦ hkeeps.declared ?_⟩
    exact Module.ordered_decode hdecoded (Module.limits_of_memory htype)

def crowded : Module where
  types := [⟨[], []⟩]
  funcTypes := [0]
  tables := [⟨.funcref, ⟨1, some 3⟩⟩]
  memories := [⟨⟨0, some 1⟩⟩]
  start := some 0
  functions := [⟨0, [], #[.refNull .funcref, .i32Const 1, .tableGrow 0, .drop,
    .refNull .funcref, .i32Const 1, .tableGrow 0, .drop, .end_]⟩]

def crowdedBytes : List UInt8 :=
  [0x00, 0x61, 0x73, 0x6D, 1, 0, 0, 0,
    1, 4, 1, 0x60, 0, 0,
    3, 2, 1, 0,
    4, 5, 1, 0x70, 1, 1, 3,
    5, 4, 1, 1, 0, 1,
    8, 1, 0,
    10, 20, 1, 18, 0, 0xD0, 0x70, 0x41, 1, 0xFC, 15, 0, 0x1A,
    0xD0, 0x70, 0x41, 1, 0xFC, 15, 0, 0x1A, 0x0B]

def crowding : Host.Act :=
  .instantiate crowded
    { func := fun _ _ _ ↦ none, table := fun _ _ _ ↦ none, memory := fun _ _ _ ↦ none
      global := fun _ _ _ ↦ none } fun _ ↦ .finish (.ok [])

def tight : Config := { maxTableElements := 2 }

theorem caps_hold_crowding :
    Module.decode crowdedBytes = .ok crowded ∧
    (∀ n heap next s, ¬ Asked 16 crowding { config := tight } n (.put heap next) s) ∧
    (final (perform (hostCall 16 16) 16 crowding { config := tight })).heap.tables.map
      (·.size) = #[2] ∧
    ∀ n act s, Asked 16 crowding { config := tight } n act s →
      ∀ (a : Nat) (t : Table), s.heap.tables[a]? = some t → t.size ≤ 2 := by
  have horderly : crowding.Orderly fun act ↦
      (∀ heap next, act ≠ .put heap next) ∧ ∀ e k, act ≠ .alloc e k :=
    .instantiate ⟨nofun, nofun⟩ nofun fun _ ↦ .finish ⟨nofun, nofun⟩
  have hput : ∀ n heap next s, ¬ Asked 16 crowding { config := tight } n (.put heap next) s :=
    fun n heap next s h ↦ (asked_orderly horderly h).1 heap next rfl
  refine ⟨by decide +kernel, hput, by decide +kernel, fun n act s h a t ht ↦ ?_⟩
  have hadded : ¬ Added 16 crowding { config := tight } .table a :=
    fun ⟨_, e, k, _, halloc, _⟩ ↦ (asked_orderly horderly halloc).2 e k rfl
  obtain ⟨_, htables, _⟩ := caps_hold.2.2 16 crowding tight hput n act s s h .asked
  obtain ⟨_, _, _, _, _, hsize, _⟩ := htables a t ht hadded
  exact hsize

end Engine

end Wasm
