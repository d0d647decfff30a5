import Wasm.Proofs.Heap
import Wasm.Proofs.Store

namespace Wasm

structure Policy where
  store : Store → Prop
  /-- The addresses that may be used in a store. -/
  grants : Store → Entity → Nat → Prop
  trap : Trap → Prop
  /-- The values that a slot of a table or of an element segment may hold. -/
  slot : Value → Prop := fun _ ↦ True

/-- Number of entities of a kind. Bodies have no addresses in a store. -/
def Store.count (s : Store) : Entity → Nat
  | .instance_ => s.instances.size
  | .func => s.funcs.size
  | .table => s.heap.tables.size
  | .memory => s.heap.memories.size
  | .global => s.heap.globals.size
  | .elem => s.heap.elems.size
  | .data => s.heap.datas.size
  | .body => 0

namespace Policy

variable (R : Policy)

def value (s : Store) (v : Value) : Prop := ∀ a, v = .funcref (some a) → R.grants s .func a

def held (s : Store) (v : Value) : Prop := R.value s v ∧ R.slot v

def entry (s : Store) : Entry → Prop
  | .value v => R.value s v
  | .label _ => True
  | .frame f => R.grants s .instance_ f.inst ∧ ∀ v ∈ f.locals, R.value s v

structure Safe (m : Machine) : Prop where
  store : R.store m.store
  stack : m.stack.Holds (R.entry m.store)

/-- What is granted once stays granted. -/
structure Leads (s s' : Store) : Prop where
  store : R.store s'
  grants : ∀ e a, R.grants s e a → R.grants s' e a

/-- The addresses that code of the instance can get at are granted. Of its memories these are the
first at most. -/
structure Owns (s : Store) (inst : Instance) : Prop where
  funcs : ∀ a ∈ inst.funcs, R.grants s .func a
  tables : ∀ a ∈ inst.tables, R.grants s .table a
  memory : ∀ a, inst.memories[0]? = some a → R.grants s .memory a
  globals : ∀ a ∈ inst.globals, R.grants s .global a
  elems : ∀ a ∈ inst.elems, R.grants s .elem a
  datas : ∀ a ∈ inst.datas, R.grants s .data a
  exports : ∀ name a, inst.export? name = some ⟨.func, a⟩ → R.grants s .func a

/-- A policy that tolerates every trap, but for addresses that name nothing: of these it tolerates
the ones it grants. -/
structure Reports : Prop where
  trap {t : Trap} : t.dangling = false → R.trap t
  missing {s : Store} {e : Entity} {a : Nat} : R.store s → R.grants s e a → s.count e ≤ a →
    R.trap (.invalidAddress e a)

/-- A policy that admits whatever instructions do in the frame of a granted instance. -/
structure Admits : Prop extends R.Reports where
  owner {s : Store} {i : Nat} {inst : Instance} : R.store s → R.grants s .instance_ i →
    s.instances[i]? = some inst → R.Owns s inst
  reference {v : Value} : v.type.isRef = true → R.slot v
  tableValue {s : Store} {a : Nat} {t : Table} : R.store s → s.heap.tables[a]? = some t →
    ∀ v ∈ t.elems, R.held s v
  globalValue {s : Store} {a : Nat} {g : Global} : R.store s → s.heap.globals[a]? = some g →
    R.value s g.value
  elemValue {s : Store} {a : Nat} {vs : Array Value} : R.store s → s.heap.elems[a]? = some vs →
    ∀ v ∈ vs, R.held s v
  table {s : Store} {a : Nat} {t t' : Table} : R.store s → R.grants s .table a →
    s.heap.tables[a]? = some t → t.Revises s.config.maxTableElements (R.held s) t' →
    R.Leads s { s with heap.tables := s.heap.tables.setIfInBounds a t' }
  memory {s : Store} {a : Nat} {m m' : Memory} : R.store s → R.grants s .memory a →
    s.heap.memories[a]? = some m → m.Revises s.config.maxMemoryPages m' →
    R.Leads s { s with heap.memories := s.heap.memories.setIfInBounds a m' }
  global {s : Store} {a : Nat} {g g' : Global} : R.store s → R.grants s .global a →
    s.heap.globals[a]? = some g → g.Updates (R.value s) g' →
    R.Leads s { s with heap.globals := s.heap.globals.setIfInBounds a g' }
  elem {s : Store} {a : Nat} : R.store s → R.grants s .elem a →
    R.Leads s { s with heap.elems := s.heap.elems.setIfInBounds a #[] }
  data {s : Store} {a : Nat} : R.store s → R.grants s .data a →
    R.Leads s { s with heap.datas := s.heap.datas.setIfInBounds a [] }

variable {R} {α β : Type} {s : Store}

theorem value_scalar {v : Value} (h : v.Scalar) : R.value s v := fun a ha ↦ absurd ha (h a)

theorem value_zero (t : ValType) : R.value s (.zero t) := value_scalar (by cases t <;> nofun)

theorem Leads.refl (h : R.store s) : R.Leads s s := ⟨h, fun _ _ ha ↦ ha⟩

theorem Leads.trans {s' s'' : Store} (h : R.Leads s s') (h' : R.Leads s' s'') : R.Leads s s'' :=
  ⟨h'.store, fun e a ha ↦ h'.grants e a (h.grants e a ha)⟩

theorem Leads.value {s' : Store} (h : R.Leads s s') {v : Value} (hv : R.value s v) :
    R.value s' v :=
  fun a ha ↦ h.grants _ _ (hv a ha)

theorem Leads.held {s' : Store} (h : R.Leads s s') {v : Value} (hv : R.held s v) :
    R.held s' v :=
  ⟨h.value hv.1, hv.2⟩

theorem Leads.entry {s' : Store} (h : R.Leads s s') {e : Entry} (he : R.entry s e) :
    R.entry s' e := by
  cases e with
  | value v => exact h.value he
  | label l => trivial
  | frame f => exact ⟨h.grants _ _ he.1, fun v hv ↦ h.value (he.2 v hv)⟩

theorem Leads.safe {m m' : Machine} (h : R.Leads m.store m'.store) (hm : R.Safe m)
    (hstack : m'.stack = m.stack) : R.Safe m' := by
  refine ⟨h.store, fun e he ↦ h.entry (hm.stack e ?_)⟩
  rw [← hstack]
  exact he

variable (R) in
def Reads (s : Store) (op : Exec α) (Q : α → Prop) : Prop :=
  ∀ m : Machine, m.store = s → R.Safe m → match op m with
    | .ok a m' => m'.store = s ∧ R.Safe m' ∧ Q a
    | .error t m' => m'.store = s ∧ R.trap t

variable (R) in
def Acts (s : Store) (op : Exec α) (Q : α → Store → Prop) : Prop :=
  ∀ m : Machine, m.store = s → R.Safe m → match op m with
    | .ok a m' => R.Leads s m'.store ∧ R.Safe m' ∧ Q a m'.store
    | .error t m' => R.Leads s m'.store ∧ R.trap t

variable (R) in
def Alters (s : Store) (op : HeapM α) (Q : α → Prop) : Prop :=
  match op s.heap with
  | .ok a heap => R.Leads s { s with heap } ∧ Q a
  | .error t heap => R.Leads s { s with heap } ∧ R.trap t

section Rules

variable {Q : α → Prop} {P : α → Store → Prop}

theorem Reads.pure {a : α} (h : Q a) : R.Reads s (pure a) Q := fun _ hs hm ↦ ⟨hs, hm, h⟩

theorem Reads.throw {t : Trap} (ht : R.trap t) : R.Reads s (throw t : Exec α) Q :=
  fun _ hs _ ↦ ⟨hs, ht⟩

theorem Acts.pure {a : α} (h : P a s) : R.Acts s (pure a) P := by
  rintro m rfl hm
  exact ⟨.refl hm.store, hm, h⟩

theorem Acts.throw {t : Trap} (ht : R.trap t) : R.Acts s (throw t : Exec α) P := by
  rintro m rfl hm
  exact ⟨.refl hm.store, ht⟩

theorem Reads.bind {op : Exec β} {k : β → Exec α} {T : β → Prop} (h : R.Reads s op T)
    (hk : ∀ b, T b → R.Reads s (k b) Q) : R.Reads s (op >>= k) Q := by
  intro m hs hm
  have hop := h m hs hm
  rw [Outcome.bind_apply]
  generalize op m = r at hop
  cases r with
  | error t m' => exact hop
  | ok b m' => exact hk b hop.2.2 m' hop.1 hop.2.1

theorem Reads.imp {op : Exec α} {T : α → Prop} (h : R.Reads s op T) (hT : ∀ a, T a → Q a) :
    R.Reads s op Q := by
  intro m hs hm
  have hop := h m hs hm
  generalize op m = r at hop
  cases r with
  | error t m' => exact hop
  | ok a m' => exact ⟨hop.1, hop.2.1, hT a hop.2.2⟩

theorem Reads.get {k : Machine → Exec α} (hk : ∀ m : Machine, m.store = s → R.Reads s (k m) Q) :
    R.Reads s (get >>= k) Q :=
  fun m hs hm ↦ hk m hs m hs hm

theorem Acts.get {k : Machine → Exec α} (hk : ∀ m : Machine, m.store = s → R.Acts s (k m) P) :
    R.Acts s (get >>= k) P :=
  fun m hs hm ↦ hk m hs m hs hm

theorem Reads.then {op : Exec β} {k : β → Exec α} {T : β → Prop} (h : R.Reads s op T)
    (hk : ∀ b, T b → R.Acts s (k b) P) : R.Acts s (op >>= k) P := by
  intro m hs hm
  have hop := h m hs hm
  rw [Outcome.bind_apply]
  generalize op m = r at hop
  cases r with
  | error t m' =>
    have hlead : R.Leads s s := .refl (hs ▸ hm.store)
    exact ⟨hop.1 ▸ hlead, hop.2⟩
  | ok b m' => exact hk b hop.2.2 m' hop.1 hop.2.1

theorem Reads.acts {op : Exec α} (h : R.Reads s op Q) (hQ : ∀ a, Q a → P a s) :
    R.Acts s op P := by
  intro m hs hm
  have hop := h m hs hm
  have hlead : R.Leads s s := .refl (hs ▸ hm.store)
  generalize op m = r at hop
  cases r with
  | error t m' =>
    obtain ⟨hstore, ht⟩ := hop
    exact ⟨hstore ▸ hlead, ht⟩
  | ok a m' =>
    obtain ⟨hstore, hm', ha⟩ := hop
    exact ⟨hstore ▸ hlead, hm', hstore ▸ hQ a ha⟩

theorem Acts.bind {op : Exec β} {k : β → Exec α} {T : β → Store → Prop} (h : R.Acts s op T)
    (hk : ∀ b s', R.Leads s s' → T b s' → R.Acts s' (k b) P) : R.Acts s (op >>= k) P := by
  intro m hs hm
  have hop := h m hs hm
  rw [Outcome.bind_apply]
  generalize op m = r at hop
  cases r with
  | error t m' => exact hop
  | ok b m' =>
    obtain ⟨hlead, hm', hb⟩ := hop
    have hrest := hk b m'.store hlead hb m' rfl hm'
    simp only
    generalize k b m' = r at hrest
    cases r with
    | error t m'' => exact ⟨hlead.trans hrest.1, hrest.2⟩
    | ok a m'' => exact ⟨hlead.trans hrest.1, hrest.2⟩

/-- Operations on the stack leave the store alone. -/
theorem Reports.onStack (hR : R.Reports) {op : StackM α} (h : Stack.Keeps (R.entry s) op Q) :
    R.Reads s (Machine.onStack op) Q := by
  intro m hs hm
  subst hs
  have hop := h m.stack hm.stack
  simp only [Machine.onStack]
  generalize op m.stack = r at hop
  cases r with
  | error t stack => exact ⟨rfl, hR.trap hop⟩
  | ok a stack => exact ⟨rfl, ⟨hm.store, hop.1⟩, hop.2⟩

end Rules

section Heap

variable (hR : R.Admits) {Q : α → Prop}

theorem reads_onHeap {op : HeapM α} (h : match op s.heap with
      | .ok a heap => heap = s.heap ∧ Q a
      | .error t heap => heap = s.heap ∧ R.trap t) : R.Reads s (Machine.onHeap op) Q := by
  intro m hs hm
  subst hs
  rw [Machine.onHeap_apply]
  generalize op m.store.heap = r at h
  cases r with
  | error t heap =>
    obtain ⟨rfl, ht⟩ := h
    exact ⟨rfl, ht⟩
  | ok a heap =>
    obtain ⟨rfl, ha⟩ := h
    exact ⟨rfl, hm, ha⟩

theorem Alters.acts {op : HeapM α} (h : R.Alters s op Q) :
    R.Acts s (Machine.onHeap op) fun a _ ↦ Q a := by
  rintro m rfl hm
  unfold Alters at h
  rw [Machine.onHeap_apply]
  generalize op m.store.heap = r at h
  cases r with
  | error t heap => exact h
  | ok a heap => exact ⟨h.1, h.1.safe hm rfl, h.2⟩

include hR

theorem Admits.onTable (hs : R.store s) {a : Nat} (ha : R.grants s .table a) {op : TableM α}
    (h : Table.Changes s.config.maxTableElements (R.held s) op Q) :
    R.Alters s (Heap.onTable a op) Q := by
  rw [Alters, Heap.onTable_apply]
  cases ht : s.heap.tables[a]? with
  | none =>
    exact ⟨.refl hs, hR.missing hs ha (Array.getElem?_eq_none_iff.mp ht)⟩
  | some t =>
    have hop := h t (hR.tableValue hs ht)
    simp only
    generalize op t = r at hop
    cases r with
    | error e t' => exact ⟨hR.table hs ha ht hop.1, hR.trap hop.2⟩
    | ok x t' => exact ⟨hR.table hs ha ht hop.1, hop.2⟩

theorem Admits.onMemory (hs : R.store s) {a : Nat} (ha : R.grants s .memory a) {op : MemoryM α}
    (h : Memory.Changes s.config.maxMemoryPages op) :
    R.Alters s (Heap.onMemory a op) fun _ ↦ True := by
  rw [Alters, Heap.onMemory_apply]
  cases hm : s.heap.memories[a]? with
  | none => exact ⟨.refl hs, hR.missing hs ha (Array.getElem?_eq_none_iff.mp hm)⟩
  | some m =>
    have hop := h m
    simp only
    generalize op m = r at hop
    cases r with
    | error e m' => exact ⟨hR.memory hs ha hm hop.1, hR.trap hop.2⟩
    | ok x m' => exact ⟨hR.memory hs ha hm hop, trivial⟩

theorem Admits.setGlobal (hs : R.store s) {a : Nat} (ha : R.grants s .global a) {g : Global}
    (hg : s.heap.globals[a]? = some g) (hmut : g.type.mutable = true) {v : Value}
    (hv : R.value s v) : R.Alters s (Heap.onGlobal a (Global.set v)) fun _ ↦ True := by
  rw [Alters, Heap.onGlobal_apply, hg]
  simp only [Global.set]
  by_cases htype : v.type = g.type.value
  · simp only [htype, if_true]
    exact ⟨hR.global hs ha hg ⟨hmut, rfl, htype, hv⟩, trivial⟩
  · simp only [htype, if_false]
    refine ⟨?_, hR.trap rfl⟩
    have hsame : s.heap.globals.setIfInBounds a g = s.heap.globals := by
      obtain ⟨hlt, rfl⟩ := Array.getElem?_eq_some_iff.mp hg
      simp [Array.setIfInBounds, hlt]
    rw [hsame]
    exact .refl hs

theorem Admits.dropElem (hs : R.store s) {a : Nat} (ha : R.grants s .elem a) :
    R.Alters s (Heap.dropElem a) fun vs ↦ ∀ v ∈ vs, R.held s v := by
  rw [Alters, Heap.dropElem_apply]
  cases hvs : s.heap.elems[a]? with
  | none => exact ⟨.refl hs, hR.missing hs ha (Array.getElem?_eq_none_iff.mp hvs)⟩
  | some vs => exact ⟨hR.elem hs ha, hR.elemValue hs hvs⟩

theorem Admits.dropData (hs : R.store s) {a : Nat} (ha : R.grants s .data a) :
    R.Alters s (Heap.dropData a) fun _ ↦ True := by
  rw [Alters, Heap.dropData_apply]
  cases hbs : s.heap.datas[a]? with
  | none => exact ⟨.refl hs, hR.missing hs ha (Array.getElem?_eq_none_iff.mp hbs)⟩
  | some bs => exact ⟨hR.data hs ha, trivial⟩

/-- Looking up an entity by its address. -/
theorem Admits.look {op : HeapM α} {e : Entity} {a : Nat} {xs : Array α}
    (hsome : ∀ x, xs[a]? = some x → op s.heap = .ok x s.heap)
    (hnone : xs[a]? = none → op s.heap = .error (.invalidAddress e a) s.heap)
    (hcount : s.count e = xs.size) (hs : R.store s) (ha : R.grants s e a) :
    R.Reads s (Machine.onHeap op) fun x ↦ xs[a]? = some x := by
  refine reads_onHeap ?_
  cases hx : xs[a]? with
  | none =>
    rw [hnone hx]
    exact ⟨rfl, hR.missing hs ha (hcount ▸ Array.getElem?_eq_none_iff.mp hx)⟩
  | some x =>
    rw [hsome x hx]
    exact ⟨rfl, rfl⟩

theorem Admits.table_reads (hs : R.store s) {a : Nat} (ha : R.grants s .table a) :
    R.Reads s (Machine.onHeap (Heap.table a)) fun t ↦ s.heap.tables[a]? = some t :=
  hR.look (fun _ h ↦ by rw [Heap.table, h]) (fun h ↦ by rw [Heap.table, h]) rfl hs ha

theorem Admits.memory_reads (hs : R.store s) {a : Nat} (ha : R.grants s .memory a) :
    R.Reads s (Machine.onHeap (Heap.memory a)) fun m ↦ s.heap.memories[a]? = some m :=
  hR.look (fun _ h ↦ by rw [Heap.memory, h]) (fun h ↦ by rw [Heap.memory, h]) rfl hs ha

theorem Admits.global_reads (hs : R.store s) {a : Nat} (ha : R.grants s .global a) :
    R.Reads s (Machine.onHeap (Heap.global a)) fun g ↦ s.heap.globals[a]? = some g :=
  hR.look (fun _ h ↦ by rw [Heap.global, h]) (fun h ↦ by rw [Heap.global, h]) rfl hs ha

theorem Admits.elem_reads (hs : R.store s) {a : Nat} (ha : R.grants s .elem a) :
    R.Reads s (Machine.onHeap (Heap.elem a)) fun vs ↦ s.heap.elems[a]? = some vs :=
  hR.look (fun _ h ↦ by rw [Heap.elem, h]) (fun h ↦ by rw [Heap.elem, h]) rfl hs ha

theorem Admits.data_reads (hs : R.store s) {a : Nat} (ha : R.grants s .data a) :
    R.Reads s (Machine.onHeap (Heap.data a)) fun bs ↦ s.heap.datas[a]? = some bs :=
  hR.look (fun _ h ↦ by rw [Heap.data, h]) (fun h ↦ by rw [Heap.data, h]) rfl hs ha

end Heap

end Policy

end Wasm
