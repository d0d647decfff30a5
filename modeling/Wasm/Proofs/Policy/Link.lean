import Wasm.Proofs.Policy.Runs
import Wasm.Proofs.Instantiate

namespace Wasm

def ExternKind.entity : ExternKind → Entity
  | func => .func
  | table => .table
  | memory => .memory
  | global => .global

structure Instance.All (P : Entity → Nat → Prop) (inst : Instance) : Prop where
  funcs : ∀ a ∈ inst.funcs, P .func a
  tables : ∀ a ∈ inst.tables, P .table a
  memories : ∀ a ∈ inst.memories, P .memory a
  globals : ∀ a ∈ inst.globals, P .global a
  elems : ∀ a ∈ inst.elems, P .elem a
  datas : ∀ a ∈ inst.datas, P .data a
  exports : ∀ x ∈ inst.exports, P x.2.kind.entity x.2.addr

theorem Instance.All.imp {P Q : Entity → Nat → Prop} {inst : Instance} (h : inst.All P)
    (hPQ : ∀ e a, P e a → Q e a) : inst.All Q where
  funcs a ha := hPQ _ _ (h.funcs a ha)
  tables a ha := hPQ _ _ (h.tables a ha)
  memories a ha := hPQ _ _ (h.memories a ha)
  globals a ha := hPQ _ _ (h.globals a ha)
  elems a ha := hPQ _ _ (h.elems a ha)
  datas a ha := hPQ _ _ (h.datas a ha)
  exports x hx := hPQ _ _ (h.exports x hx)

theorem Instance.All.blank {P : Entity → Nat → Prop} (m : Module) :
    Instance.All P { mod := m } := by
  constructor <;> simp

namespace Policy

open Link

/-- A policy that admits instantiation of modules of the kind `M` with host functions of the kind
`H`. Instances of the kind `Own` are under construction. -/
structure Links (R : Policy) (Own : Nat → Prop) (M : Module → Prop) (H : Host.Func → Prop) :
    Prop extends R.Admits, R.Enters where
  present {s : Store} {e : Entity} {a : Nat} : R.store s → a < s.count e → R.grants s e a
  spans {s : Store} {i : Nat} {inst : Instance} : R.store s → s.instances[i]? = some inst →
    inst.All (R.grants s)
  own {s : Store} : R.store s → Own s.instances.size
  allocInstance {s : Store} {m : Module} : R.store s → M m →
    R.Leads s (s.allocInstance { mod := m }).2
  modify {s : Store} {i : Nat} {inst : Instance} {f : Instance → Instance} : R.store s → Own i →
    s.instances[i]? = some inst → (f inst).mod = inst.mod → (f inst).All (R.grants s) →
    R.Leads s { s with instances := s.instances.modify i f }
  allocHost {s : Store} {f : Host.Func} : R.store s → H f → R.Leads s (s.allocFunc (.host f)).2
  allocCode {s : Store} {i k : Nat} {owner : Instance} {type : FuncType} : R.store s →
    s.instances[i]? = some owner → M owner.mod → k < owner.mod.funcTypes.length →
    R.Leads s (s.allocFunc (.code type i k)).2
  allocTable {s : Store} {m : Module} {type : TableType} : R.store s → M m → type ∈ m.tables →
    type.limits.min.toNat ≤ s.config.maxTableElements → R.Leads s (s.allocTable (.create type)).2
  allocMemory {s : Store} {m : Module} {type : MemoryType} {mem : Memory} : R.store s → M m →
    type ∈ m.memories → type.limits.min.toNat ≤ s.config.maxMemoryPages →
    Memory.create? type s.allocator = some mem → R.Leads s (s.allocMemory mem).2
  allocGlobal {s : Store} {type : GlobalType} {v : Value} : R.store s → R.value s v →
    v.type = type.value → R.Leads s (s.allocGlobal ⟨type, v⟩).2
  allocElem {s : Store} {refs : Array Value} : R.store s → (∀ v ∈ refs, R.held s v) →
    R.Leads s (s.allocElem refs).2
  allocData {s : Store} (bytes : List UInt8) : R.store s → R.Leads s (s.allocData bytes).2

variable {R : Policy} {s : Store} {ε δ α β : Type} {E : ε → Prop}

section Rules

variable {Q : α → Store → Prop}

theorem Settles.bind {op : Action ε β} {k : β → Action ε α} {T : β → Store → Prop}
    (h : R.Settles E T s (op s))
    (hk : ∀ b s', op s = .ok b s' → R.Leads s s' → T b s' → R.Settles E Q s' (k b s')) :
    R.Settles E Q s ((op >>= k) s) := by
  rw [Outcome.bind_apply]
  generalize hr : op s = r at h
  cases r with
  | error e s' => cases e <;> exact h
  | ok b s' => exact (hk b s' hr h.1 h.2).after h.1

theorem Settles.imp {T : α → Store → Prop} {r : EStateM.Result (Stop ε) Store α}
    (h : R.Settles E T s r) (hT : ∀ a s', R.Leads s s' → T a s' → Q a s') : R.Settles E Q s r := by
  cases r with
  | ok a s' => exact ⟨h.1, hT a s' h.1 h.2⟩
  | error e s' => cases e <;> exact h

theorem Settles.of_ok {T : α → Store → Prop} {r : EStateM.Result (Stop ε) Store α}
    (h : R.Settles E T s r) (hT : ∀ a s', r = .ok a s' → T a s' → Q a s') : R.Settles E Q s r := by
  cases r with
  | ok a s' => exact ⟨h.1, hT a s' rfl h.2⟩
  | error e s' => cases e <;> exact h

theorem Settles.mapError {op : Action δ α} {f : δ → ε} {D : δ → Prop}
    (h : R.Settles D Q s (op s)) (hf : ∀ d, D d → E (f d)) :
    R.Settles E Q s (Stop.mapError f op s) := by
  unfold Stop.mapError
  generalize op s = r at h
  cases r with
  | ok a s' => exact h
  | error e s' =>
    cases e with
    | failed d => exact ⟨h.1, hf d h.2⟩
    | outOfFuel => exact h

/-- A fold, where each step is known to come after the steps before it. -/
theorem Settles.foldlM {f : β → α → Action ε β} {I : β → Store → Prop} {xs : List α} {b : β}
    (hs : R.store s) (hb : I b s)
    (hstep : ∀ before x after b' s', xs = before ++ x :: after → before.foldlM f b s = .ok b' s' →
      R.Leads s s' → I b' s' → R.Settles E I s' (f b' x s')) :
    R.Settles E I s (xs.foldlM f b s) := by
  have hrest : ∀ after before b' s', xs = before ++ after → before.foldlM f b s = .ok b' s' →
      R.Leads s s' → I b' s' → R.Settles E I s' (after.foldlM f b' s') := by
    intro after
    induction after with
    | nil => exact fun _ b' s' _ _ hlead hI ↦ ⟨.refl hlead.store, hI⟩
    | cons x after ih =>
      intro before b' s' hxs hbefore hlead hI
      rw [List.foldlM_cons]
      refine (hstep before x after b' s' hxs hbefore hlead hI).bind fun b'' s'' hx hlead' hI' ↦ ?_
      refine ih (before ++ [x]) b'' s'' (by simpa using hxs) ?_ (hlead.trans hlead') hI'
      rw [List.foldlM_append, Outcome.bind_apply, hbefore]
      simp only [List.foldlM_cons, List.foldlM_nil, bind_pure]
      exact hx
  exact hrest xs [] b s rfl rfl (.refl hs) hb

theorem Settles.forM {f : α → Action ε Unit} {I : Store → Prop} {xs : List α} (hs : R.store s)
    (hI : I s)
    (hstep : ∀ before x after s', xs = before ++ x :: after → before.forM f s = .ok () s' →
      R.Leads s s' → I s' → R.Settles E (fun _ ↦ I) s' (f x s')) :
    R.Settles E (fun _ ↦ I) s (xs.forM f s) := by
  have hfold (ys : List α) : ys.forM f = ys.foldlM (fun _ x ↦ f x) () := by
    induction ys with
    | nil => rfl
    | cons y ys ih =>
      rw [List.foldlM_cons]
      exact bind_congr fun _ ↦ ih
  rw [hfold]
  refine Settles.foldlM hs hI fun before x after _ s' hxs hbefore ↦ ?_
  exact hstep before x after s' hxs ((hfold before).symm ▸ hbefore)

theorem Settles.mapM {f : α → Action ε β} {I : List β → Store → Prop} {xs : List α}
    (hs : R.store s) (hI : I [] s)
    (hstep : ∀ before x after bs s', xs = before ++ x :: after → before.mapM f s = .ok bs s' →
      R.Leads s s' → I bs s' → R.Settles E (fun b ↦ I (bs ++ [b])) s' (f x s')) :
    R.Settles E I s (xs.mapM f s) := by
  have hfold (ys : List α) : ys.mapM f =
      ys.foldlM (fun bs x ↦ do let b ← f x; return bs ++ [b]) [] := by
    induction ys using List.reverseRecOn with
    | nil => rfl
    | append_singleton ys y ih => simp [List.mapM_append, List.foldlM_append, ih]
  rw [hfold]
  refine Settles.foldlM hs hI fun before x after bs s' hxs hbefore hlead hbs ↦ ?_
  rw [← hfold] at hbefore
  refine (hstep before x after bs s' hxs hbefore hlead hbs).bind fun b s'' _ hlead' hb ↦ ?_
  exact ⟨.refl hlead'.store, hb⟩

end Rules

section Parts

variable {Own : Nat → Prop} {M : Module → Prop} {H : Host.Func → Prop} {m : Module}
  {r : Host.Resolver} {callHost : HostCall} {fuel handle : Nat} {Q : α → Store → Prop}

theorem settles_pure {a : α} (hs : R.store s) (ha : Q a s) :
    R.Settles E Q s ((pure a : Action ε α) s) :=
  ⟨.refl hs, ha⟩

theorem settles_fail {e : LinkError} (hs : R.store s) (he : e.trap? = none) :
    R.Settles (LinkError.Within R.trap) Q s ((fail e : Link α) s) := by
  refine ⟨.refl hs, fun t ht ↦ ?_⟩
  rw [he] at ht
  cases ht

theorem settles_require {e : LinkError} {x : Option β} {k : β → Link α} (hs : R.store s)
    (he : e.trap? = none)
    (hk : ∀ b, x = some b → R.Settles (LinkError.Within R.trap) Q s (k b s)) :
    R.Settles (LinkError.Within R.trap) Q s ((require e x >>= k) s) := by
  cases x with
  | some b => exact hk b rfl
  | none => exact settles_fail hs he

theorem settles_unless {c : Prop} [Decidable c] {e : LinkError} {k : PUnit → Link α}
    (hs : R.store s) (he : e.trap? = none)
    (hk : ¬ c → R.Settles (LinkError.Within R.trap) Q s (k ⟨⟩ s)) :
    R.Settles (LinkError.Within R.trap) Q s
      ((if c then fail e >>= k else k ⟨⟩ : Link α) s) := by
  by_cases hc : c
  · simp only [hc, if_true]
    exact settles_fail hs he
  · simp only [hc, if_false]
    exact hk hc

theorem settles_lookup (hR : R.Reports) {site : Site} {x : Except Trap α} (hs : R.store s)
    (ht : ∀ t, x = .error t → t.dangling = false) (hQ : ∀ a, x = .ok a → Q a s) :
    R.Settles (LinkError.Within R.trap) Q s (lookup site x s) := by
  cases x with
  | ok a => exact ⟨.refl hs, hQ a rfl⟩
  | error t => exact ⟨.refl hs, outOfBounds_within (hR.trap (ht t rfl)) site⟩

theorem settles_onHeap {fault : Trap → LinkError} {op : HeapM α} {P : α → Prop}
    (h : R.Alters s op P) (hf : ∀ t, R.trap t → (fault t).Within R.trap) :
    R.Settles (LinkError.Within R.trap) (fun a _ ↦ P a) s (onHeap fault op s) := by
  rw [onHeap_apply]
  unfold Alters at h
  generalize op s.heap = r at h
  cases r with
  | ok a heap => exact h
  | error t heap => exact ⟨h.1, hf t h.2⟩

/-- One more address in an index space. -/
theorem mem_push_grants {e : Entity} {addrs : Array Nat} {s' : Store} {a : Nat}
    (h : ∀ b ∈ addrs, R.grants s e b) (hlead : R.Leads s s') (ha : R.grants s' e a) :
    ∀ b ∈ addrs.push a, R.grants s' e b := by
  intro b hb
  obtain hb | rfl := Array.mem_push.mp hb
  · exact hlead.grants _ _ (h b hb)
  · exact ha

/-- A fold over definitions, which leaves the instances as they are. -/
theorem settles_definitions {f : Instance → α → Link Instance} {xs : List α} {inst : Instance}
    (hs : R.store s) (hinst : inst.All (R.grants s))
    (hf : ∀ before x after inst' s', xs = before ++ x :: after →
      before.foldlM f inst s = .ok inst' s' → R.Leads s s' → s'.instances = s.instances →
      inst'.All (R.grants s') → R.Settles (LinkError.Within R.trap)
        (fun inst'' s'' ↦ s''.instances = s'.instances ∧ inst''.All (R.grants s'')) s'
        (f inst' x s')) :
    R.Settles (LinkError.Within R.trap)
      (fun inst' s' ↦ s'.instances = s.instances ∧ inst'.All (R.grants s')) s
      (xs.foldlM f inst s) := by
  refine Settles.foldlM hs ⟨rfl, hinst⟩ fun before x after inst' s' hxs hbefore hlead h ↦ ?_
  refine (hf before x after inst' s' hxs hbefore hlead h.1 h.2).imp fun _ _ _ h' ↦ ?_
  exact ⟨h'.1.trans h.1, h'.2⟩

/-- Results one after the other, each of a kind `P` that later stores keep. -/
theorem settles_each {f : α → Link β} {xs : List α} {P : Store → β → Prop}
    (hP : ∀ s s' b, R.Leads s s' → P s b → P s' b) (hs : R.store s)
    (hf : ∀ before x after bs s', xs = before ++ x :: after → before.mapM f s = .ok bs s' →
      R.Leads s s' → R.Settles (LinkError.Within R.trap) (fun b s'' ↦ P s'' b) s' (f x s')) :
    R.Settles (LinkError.Within R.trap) (fun bs s' ↦ ∀ b ∈ bs, P s' b) s (xs.mapM f s) := by
  refine Settles.mapM hs nofun fun before x after bs s' hxs hbefore hlead hbs ↦ ?_
  refine (hf before x after bs s' hxs hbefore hlead).imp fun b s'' hlead' hb c hc ↦ ?_
  obtain hc | hc := List.mem_append.mp hc
  · exact hP s' s'' c hlead' (hbs c hc)
  · rw [List.mem_singleton.mp hc]
    exact hb

theorem lookup_address {space : Space} {addrs : Array Nat} {i : Nat} {t : Trap}
    (h : Instance.lookup space addrs i = .error t) : t.dangling = false := by
  unfold Instance.lookup at h
  split at h <;> cases h
  rfl

theorem lookup_mem {space : Space} {addrs : Array Nat} {i a : Nat}
    (h : Instance.lookup space addrs i = .ok a) : a ∈ addrs := by
  unfold Instance.lookup at h
  split at h
  · rename_i hmem
    cases h
    exact Array.mem_of_getElem? hmem
  · cases h

theorem ok_of_map {γ : Type} {f : γ → β} {x : Except Trap γ} {b : β} (h : f <$> x = .ok b) :
    ∃ a, x = .ok a ∧ f a = b := by
  cases x with
  | error t => cases h
  | ok a => exact ⟨a, rfl, Except.ok.inj h⟩

theorem mem_of_mem_assocInsert {κ ν : Type} [DecidableEq κ] {k : κ} {v : ν} {xs : List (κ × ν)}
    {x : κ × ν} (h : x ∈ assocInsert k v xs) : x = (k, v) ∨ x ∈ xs := by
  fun_induction assocInsert k v xs with grind

theorem externAddr_grants {P : Entity → Nat → Prop} {inst : Instance} (h : inst.All P)
    {kind : ExternKind} {i : Nat} {x : ExternAddr} (hx : inst.externAddr kind i = .ok x) :
    P x.kind.entity x.addr := by
  unfold Instance.externAddr at hx
  cases kind with
  | func =>
    obtain ⟨a, ha, rfl⟩ := ok_of_map hx
    exact h.funcs a (lookup_mem ha)
  | table =>
    obtain ⟨a, ha, rfl⟩ := ok_of_map hx
    exact h.tables a (lookup_mem ha)
  | memory =>
    obtain ⟨a, ha, rfl⟩ := ok_of_map hx
    exact h.memories a (lookup_mem ha)
  | global =>
    obtain ⟨a, ha, rfl⟩ := ok_of_map hx
    exact h.globals a (lookup_mem ha)

theorem externAddr_address {inst : Instance} {kind : ExternKind} {i : Nat} {t : Trap}
    (h : inst.externAddr kind i = .error t) : t.dangling = false := by
  have hmap := error_of_map h
  cases kind <;> exact lookup_address hmap

variable (hL : R.Links Own M H)

include hL

theorem Links.alloc {op : Store → Nat × Store} {e : Entity} (h : R.Leads s (op s).2)
    (hcount : (op s).1 < (op s).2.count e) :
    R.Settles (LinkError.Within R.trap) (fun a s' ↦ s' = (op s).2 ∧ R.grants s' e a) s
      (Link.alloc op s) :=
  ⟨h, rfl, hL.present h.store hcount⟩

theorem Links.getInstance (hs : R.store s) (hh : R.grants s .instance_ handle) :
    R.Settles (LinkError.Within R.trap)
      (fun inst s' ↦ s' = s ∧ s.instances[handle]? = some inst) s (getInstance handle s) := by
  simp only [Link.getInstance, Outcome.bind_apply, Outcome.get_apply, Store.instance_]
  cases hi : s.instances[handle]? with
  | none =>
    refine ⟨.refl hs, ?_⟩
    rintro t ⟨⟩
    exact hL.missing hs hh (Array.getElem?_eq_none_iff.mp hi)
  | some inst => exact ⟨.refl hs, rfl, rfl⟩

theorem Links.modifyInstance {f : Instance → Instance} (hs : R.store s)
    (hh : R.grants s .instance_ handle) (ho : Own handle)
    (hf : ∀ inst, s.instances[handle]? = some inst →
      (f inst).mod = inst.mod ∧ (f inst).All (R.grants s)) :
    R.Settles (LinkError.Within R.trap) (fun _ _ ↦ True) s (modifyInstance handle f s) := by
  refine (hL.getInstance hs hh).bind fun inst s' _ _ h ↦ ?_
  obtain ⟨rfl, hinst⟩ := h
  obtain ⟨hmod, hall⟩ := hf inst hinst
  exact ⟨hL.modify hs ho hinst hmod hall, trivial⟩

/-- What the definitions add to an instance. Instances as such stay as they are. -/
theorem Links.bindImport {inst : Instance} (hs : R.store s) (hinst : inst.All (R.grants s))
    (i : Import) (hfunc : ∀ type f, r.func i.source i.name type = some f → H f)
    (hglobal : ∀ type v, i.desc = .global type → r.global i.source i.name type = some v →
      R.value s v) :
    R.Settles (LinkError.Within R.trap)
      (fun inst' s' ↦ s'.instances = s.instances ∧ inst'.All (R.grants s')) s
      (bindImport m r inst i s) := by
  unfold Link.bindImport
  cases hd : i.desc with
  | func t =>
    refine settles_require hs rfl fun type _ ↦ settles_require hs rfl fun f hf ↦
      settles_unless hs rfl fun _ ↦ ?_
    have hlead := hL.allocHost hs (hfunc type f hf)
    refine (hL.alloc (e := .func) hlead ?_).bind fun a s' _ hlead' h ↦ settles_pure hlead'.store ?_
    · simp [Store.allocFunc, Store.count]
    · obtain ⟨rfl, ha⟩ := h
      exact ⟨rfl, { hinst.imp hlead'.grants with funcs := mem_push_grants hinst.funcs hlead' ha }⟩
  | table type =>
    refine settles_require hs rfl fun a _ ↦ ?_
    change R.Settles _ _ s ((Link.require _ s.heap.tables[a]? >>= _) s)
    refine settles_require hs rfl fun t ht ↦ settles_unless hs rfl fun _ ↦
      settles_unless hs rfl fun _ ↦ settles_pure hs ⟨rfl, ?_⟩
    have ha : R.grants s .table a := hL.present hs (Array.getElem?_eq_some_iff.mp ht).1
    exact { hinst with tables := mem_push_grants hinst.tables (.refl hs) ha }
  | memory type =>
    refine settles_require hs rfl fun a _ ↦ ?_
    change R.Settles _ _ s ((Link.require _ s.heap.memories[a]? >>= _) s)
    refine settles_require hs rfl fun t ht ↦ settles_unless hs rfl fun _ ↦
      settles_pure hs ⟨rfl, ?_⟩
    have ha : R.grants s .memory a := hL.present hs (Array.getElem?_eq_some_iff.mp ht).1
    exact { hinst with memories := mem_push_grants hinst.memories (.refl hs) ha }
  | global type =>
    refine settles_require hs rfl fun v hv ↦ settles_unless hs rfl fun htype ↦ ?_
    have hlead := hL.allocGlobal hs (hglobal type v hd hv) (not_not.mp htype)
    refine (hL.alloc (e := .global) hlead ?_).bind fun a s' _ hlead' h ↦
      settles_pure hlead'.store ?_
    · simp [Store.allocGlobal, Store.count]
    · obtain ⟨rfl, ha⟩ := h
      exact ⟨rfl, { hinst.imp hlead'.grants with
        globals := mem_push_grants hinst.globals hlead' ha }⟩

theorem Links.defineFunc {inst : Instance} (hs : R.store s) (hinst : inst.All (R.grants s))
    {owner : Instance} (howner : s.instances[handle]? = some owner) (hm : M owner.mod)
    {f : Idx × Nat} (hf : f.2 < owner.mod.funcTypes.length) :
    R.Settles (LinkError.Within R.trap)
      (fun inst' s' ↦ s'.instances = s.instances ∧ inst'.All (R.grants s')) s
      (defineFunc m handle inst f s) := by
  refine settles_require hs rfl fun type _ ↦ ?_
  have hlead : R.Leads s (s.allocFunc (.code type handle f.2)).2 := hL.allocCode hs howner hm hf
  refine (hL.alloc (e := .func) hlead ?_).bind fun a s' _ hlead' h ↦ settles_pure hlead'.store ?_
  · simp [Store.allocFunc, Store.count]
  · obtain ⟨rfl, ha⟩ := h
    exact ⟨rfl, { hinst.imp hlead'.grants with funcs := mem_push_grants hinst.funcs hlead' ha }⟩

theorem Links.defineTable {inst : Instance} (hs : R.store s) (hinst : inst.All (R.grants s))
    {type : TableType} (hm : M m) (htype : type ∈ m.tables) :
    R.Settles (LinkError.Within R.trap)
      (fun inst' s' ↦ s'.instances = s.instances ∧ inst'.All (R.grants s')) s
      (defineTable inst type s) := by
  change R.Settles _ _ s ((if s.config.maxTableElements < type.limits.min.toNat then _ else _ :
    Link Instance) s)
  refine settles_unless hs rfl fun hroom ↦ settles_require hs rfl fun t ht ↦ ?_
  have hlead := hL.allocTable hs hm htype (Nat.not_lt.mp hroom)
  rw [← Table.eq_of_create? ht] at hlead
  refine (hL.alloc (e := .table) hlead ?_).bind fun a s' _ hlead' h ↦ settles_pure hlead'.store ?_
  · simp [Store.allocTable, Store.count]
  · obtain ⟨rfl, ha⟩ := h
    exact ⟨rfl, { hinst.imp hlead'.grants with tables := mem_push_grants hinst.tables hlead' ha }⟩

theorem Links.defineMemory {inst : Instance} (hs : R.store s) (hinst : inst.All (R.grants s))
    {type : MemoryType} (hm : M m) (htype : type ∈ m.memories) :
    R.Settles (LinkError.Within R.trap)
      (fun inst' s' ↦ s'.instances = s.instances ∧ inst'.All (R.grants s')) s
      (defineMemory inst type s) := by
  change R.Settles _ _ s ((if s.config.maxMemoryPages < type.limits.min.toNat then _ else _ :
    Link Instance) s)
  refine settles_unless hs rfl fun hroom ↦ settles_require hs rfl fun mem hmem ↦ ?_
  have hlead := hL.allocMemory hs hm htype (Nat.not_lt.mp hroom) hmem
  refine (hL.alloc (e := .memory) hlead ?_).bind fun a s' _ hlead' h ↦ settles_pure hlead'.store ?_
  · simp [Store.allocMemory, Store.count]
  · obtain ⟨rfl, ha⟩ := h
    exact ⟨rfl,
      { hinst.imp hlead'.grants with memories := mem_push_grants hinst.memories hlead' ha }⟩

theorem Links.define (hs : R.store s) {owner : Instance}
    (howner : s.instances[handle]? = some owner) (hm : M owner.mod) (hmod : owner.mod = m)
    (hfunc : ∀ i ∈ m.imports, ∀ type f, r.func i.source i.name type = some f → H f)
    (hglobal : ∀ before i after inst s', m.imports = before ++ i :: after →
      before.foldlM (Link.bindImport m r) { mod := m } s = .ok inst s' →
      ∀ type v, i.desc = .global type → r.global i.source i.name type = some v → R.value s' v) :
    R.Settles (LinkError.Within R.trap)
      (fun inst s' ↦ s'.instances = s.instances ∧ inst.All (R.grants s')) s
      (define m r handle s) := by
  refine (settles_definitions (R := R) hs (.blank m) ?_).bind fun inst s₁ _ hlead₁ h₁ ↦ ?_
  · intro before i after inst s' hxs hbefore hlead _ hinst
    refine hL.bindImport hlead.store hinst i (hfunc i ?_)
      (hglobal before i after inst s' hxs hbefore)
    rw [hxs]
    exact List.mem_append_right _ (List.mem_cons_self ..)
  refine (settles_definitions (R := R) hlead₁.store h₁.2 ?_).bind fun inst s₂ _ hlead₂ h₂ ↦ ?_
  · intro before f after inst s' hxs _ hlead hsame hinst
    have howner' : s'.instances[handle]? = some owner := by
      rw [hsame, h₁.1]
      exact howner
    have hmem : f ∈ m.funcTypes.zipIdx := by
      rw [hxs]
      exact List.mem_append_right _ (List.mem_cons_self ..)
    refine hL.defineFunc hlead.store hinst howner' hm ?_
    rw [hmod]
    exact List.snd_lt_of_mem_zipIdx hmem
  refine (settles_definitions (R := R) hlead₂.store h₂.2 ?_).bind fun inst s₃ _ hlead₃ h₃ ↦ ?_
  · intro before type after inst s' hxs _ hlead _ hinst
    refine hL.defineTable hlead.store hinst (hmod ▸ hm) ?_
    rw [hxs]
    exact List.mem_append_right _ (List.mem_cons_self ..)
  refine (settles_definitions (R := R) hlead₃.store h₃.2 ?_).imp fun inst s₄ _ h₄ ↦ ?_
  · intro before type after inst s' hxs _ hlead _ hinst
    refine hL.defineMemory hlead.store hinst (hmod ▸ hm) ?_
    rw [hxs]
    exact List.mem_append_right _ (List.mem_cons_self ..)
  · exact ⟨h₄.1.trans (h₃.1.trans (h₂.1.trans h₁.1)), h₄.2⟩

theorem Links.eval (hs : R.store s) (hh : R.grants s .instance_ handle) {code : Code}
    (hsteps : R.Steps callHost (Machine.startConst handle code) s) (site : Site) :
    R.Settles (LinkError.Within R.trap) (fun v s' ↦ R.value s' v) s
      (eval (.machine callHost fuel) handle site code s) := by
  refine (hL.toReports.evalConst hs hh hsteps).mapError fun t ht ↦ ?_
  rintro u ⟨⟩
  exact ht

theorem Links.evalOffset (hs : R.store s) (hh : R.grants s .instance_ handle) {code : Code}
    (hsteps : R.Steps callHost (Machine.startConst handle code) s) (site : Site) :
    R.Settles (LinkError.Within R.trap) (fun _ _ ↦ True) s
      (evalOffset (.machine callHost fuel) handle site code s) := by
  refine (hL.eval hs hh hsteps site).bind fun v s' _ hlead _ ↦ ?_
  cases v.i32? with
  | some n => exact settles_pure hlead.store trivial
  | none => exact settles_fail hlead.store rfl

theorem Links.defineGlobal (hs : R.store s) (hh : R.grants s .instance_ handle) (ho : Own handle)
    {g : GlobalDef} (hsteps : R.Steps callHost (Machine.startConst handle g.init) s) :
    R.Settles (LinkError.Within R.trap) (fun _ _ ↦ True) s
      (defineGlobal (.machine callHost fuel) handle g s) := by
  refine (hL.eval hs hh hsteps _).bind fun v s₁ _ hlead₁ hv ↦
    settles_unless hlead₁.store rfl fun htype ↦ ?_
  have halloc := hL.allocGlobal hlead₁.store hv (not_not.mp htype)
  refine (hL.alloc (e := .global) halloc ?_).bind fun a s₂ _ hlead₂ h ↦ ?_
  · simp [Store.allocGlobal, Store.count]
  have hh₂ := hlead₂.grants _ _ (hlead₁.grants _ _ hh)
  refine hL.modifyInstance hlead₂.store hh₂ ho fun inst hinst ↦ ?_
  have hall := hL.spans hlead₂.store hinst
  exact ⟨rfl, { hall with globals := mem_push_grants hall.globals (.refl hlead₂.store) h.2 }⟩

theorem Links.elemRefs (hs : R.store s) (hh : R.grants s .instance_ handle) (items : ElemItems)
    (hitem : ∀ before code after vs s', items = .exprs (before ++ code :: after) →
      before.mapM (Link.eval (.machine callHost fuel) handle .elemItem) s = .ok vs s' →
      R.Steps callHost (Machine.startConst handle code) s' ∧
        ∀ v s'', Link.eval (.machine callHost fuel) handle .elemItem code s' = .ok v s'' →
          R.slot v) :
    R.Settles (LinkError.Within R.trap) (fun vs s' ↦ ∀ v ∈ vs, R.held s' v) s
      (elemRefs (.machine callHost fuel) handle items s) := by
  cases items with
  | funcs is =>
    refine (hL.getInstance hs hh).bind fun inst s' _ _ h ↦ ?_
    obtain ⟨rfl, hinst⟩ := h
    have hall := hL.spans hs hinst
    refine settles_each (fun _ _ _ h ↦ h.held) hs fun before i after vs s' _ _ hlead ↦ ?_
    refine (settles_lookup (Q := fun a s' ↦ R.grants s' .func a) hL.toReports hlead.store
      (fun t ↦ lookup_address) ?_).bind fun a s'' _ hlead' ha ↦ settles_pure hlead'.store ?_
    · exact fun a h ↦ hlead.grants _ _ (hall.funcs a (lookup_mem h))
    · refine ⟨?_, hL.reference rfl⟩
      rintro b ⟨⟩
      exact ha
  | exprs es =>
    refine settles_each (fun _ _ _ h ↦ h.held) hs fun before code after vs s' hxs hbefore hlead ↦ ?_
    subst hxs
    obtain ⟨hsteps, hslot⟩ := hitem before code after vs s' rfl hbefore
    refine (hL.eval hlead.store (hlead.grants _ _ hh) hsteps _).of_ok fun v s'' hv hvalue ↦ ?_
    exact ⟨hvalue, hslot v s'' hv⟩

theorem Links.defineElem (hs : R.store s) (hh : R.grants s .instance_ handle) {e : ElemSegment}
    (hitem : ∀ before code after vs s', e.items = .exprs (before ++ code :: after) →
      before.mapM (Link.eval (.machine callHost fuel) handle .elemItem) s = .ok vs s' →
      R.Steps callHost (Machine.startConst handle code) s' ∧
        ∀ v s'', Link.eval (.machine callHost fuel) handle .elemItem code s' = .ok v s'' →
          R.slot v) :
    R.Settles (LinkError.Within R.trap) (fun a s' ↦ R.grants s' .elem a) s
      (defineElem (.machine callHost fuel) handle e s) := by
  refine (hL.elemRefs hs hh e.items hitem).bind fun refs s' _ hlead hrefs ↦ ?_
  have halloc : R.Leads s' (s'.allocElem refs.toArray).2 :=
    hL.allocElem hlead.store fun v hv ↦ hrefs v (List.mem_toArray.mp hv)
  refine (hL.alloc (e := .elem) halloc ?_).imp fun a s'' _ h ↦ h.2
  simp [Store.allocElem, Store.count]

theorem Links.applyElem (hs : R.store s) (hh : R.grants s .instance_ handle) {e : ElemSegment}
    {addr : Nat} (ha : R.grants s .elem addr)
    (hsteps : ∀ table offset, e.mode = .active table offset →
      R.Steps callHost (Machine.startConst handle offset) s) :
    R.Settles (LinkError.Within R.trap) (fun _ _ ↦ True) s
      (applyElem (.machine callHost fuel) handle (e, addr) s) := by
  unfold Link.applyElem
  cases hmode : e.mode with
  | passive => exact settles_pure hs trivial
  | declarative =>
    refine (settles_onHeap (hL.dropElem hs ha) fun t ht ↦ outOfBounds_within ht _).bind
      fun _ s' _ hlead _ ↦ ?_
    exact settles_pure hlead.store trivial
  | active table offset =>
    refine (hL.evalOffset hs hh (hsteps table offset hmode) _).bind fun dst s₁ _ hlead₁ _ ↦ ?_
    refine (hL.getInstance hlead₁.store (hlead₁.grants _ _ hh)).bind fun inst s₂ _ _ h ↦ ?_
    obtain ⟨rfl, hinst⟩ := h
    have hall := hL.spans hlead₁.store hinst
    refine (settles_lookup (Q := fun a s' ↦ s' = s₂ ∧ a ∈ inst.tables) hL.toReports hlead₁.store
      (fun t ↦ lookup_address) fun a h ↦ ⟨rfl, lookup_mem h⟩).bind fun a s₃ _ _ h ↦ ?_
    obtain ⟨rfl, hmem⟩ := h
    refine (settles_onHeap (hL.dropElem hlead₁.store (hlead₁.grants _ _ ha)) fun t ht ↦
      outOfBounds_within ht _).bind fun refs s₄ _ hlead₄ hrefs ↦ ?_
    have htable := hlead₄.grants _ _ (hall.tables a hmem)
    refine (settles_onHeap (hL.onTable hlead₄.store htable
      (Table.changes_init dst 0 refs.size fun v hv ↦ hlead₄.held (hrefs v hv))) ?_)
    rintro t _ u ⟨⟩

theorem Links.applyData (hs : R.store s) (hh : R.grants s .instance_ handle) {d : DataSegment}
    {addr : Nat} (ha : R.grants s .data addr)
    (hsteps : ∀ memory offset, d.mode = .active memory offset →
      R.Steps callHost (Machine.startConst handle offset) s) :
    R.Settles (LinkError.Within R.trap) (fun _ _ ↦ True) s
      (applyData (.machine callHost fuel) handle (d, addr) s) := by
  unfold Link.applyData
  cases hmode : d.mode with
  | passive => exact settles_pure hs trivial
  | active memory offset =>
    refine (hL.evalOffset hs hh (hsteps memory offset hmode) _).bind fun dst s₁ _ hlead₁ _ ↦ ?_
    refine (hL.getInstance hlead₁.store (hlead₁.grants _ _ hh)).bind fun inst s₂ _ _ h ↦ ?_
    obtain ⟨rfl, hinst⟩ := h
    have hall := hL.spans hlead₁.store hinst
    refine (settles_lookup (Q := fun a s' ↦ s' = s₂ ∧ a ∈ inst.memories) hL.toReports hlead₁.store
      (fun t ↦ lookup_address) fun a h ↦ ⟨rfl, lookup_mem h⟩).bind fun a s₃ _ _ h ↦ ?_
    obtain ⟨rfl, hmem⟩ := h
    refine (settles_onHeap (hL.dropData hlead₁.store (hlead₁.grants _ _ ha)) fun t ht ↦
      outOfBounds_within ht _).bind fun bytes s₄ _ hlead₄ _ ↦ ?_
    have hmemory := hlead₄.grants _ _ (hall.memories a hmem)
    refine settles_onHeap (hL.onMemory hlead₄.store hmemory
      (Memory.changes_init dst bytes 0 bytes.length)) ?_
    rintro t _ u ⟨⟩

theorem Links.bindExports {inst : Instance} (hs : R.store s) (hinst : inst.All (R.grants s))
    (es : List Export) :
    R.Settles (LinkError.Within R.trap)
      (fun found s' ↦ s' = s ∧ ∀ x ∈ found, R.grants s x.2.kind.entity x.2.addr) s
      (bindExports inst es s) := by
  refine Settles.foldlM hs ⟨rfl, nofun⟩ fun before e after found s' _ _ hlead h ↦ ?_
  obtain ⟨rfl, hfound⟩ := h
  refine (settles_lookup (Q := fun x s'' ↦ s'' = s' ∧ R.grants s' x.kind.entity x.addr)
    hL.toReports hs (fun t ↦ externAddr_address) fun x h ↦ ⟨rfl, externAddr_grants hinst h⟩).bind
    fun x s'' _ _ hx ↦ ?_
  obtain ⟨rfl, hx⟩ := hx
  refine settles_pure hs ⟨rfl, fun y hy ↦ ?_⟩
  obtain rfl | hy := mem_of_mem_assocInsert hy
  · exact hx
  · exact hfound y hy

theorem Links.runStart (hs : R.store s) (hh : R.grants s .instance_ handle) {f : Idx}
    (hstart : ∀ inst addr, s.instances[handle]? = some inst → inst.funcAddr f.toNat = .ok addr →
      s.Accepts addr [] → R.Carries callHost addr [] s.busier) :
    R.Settles (LinkError.Within R.trap) (fun _ _ ↦ True) s
      (runStart (.machine callHost fuel) handle f s) := by
  refine (hL.getInstance hs hh).bind fun inst s₁ _ _ h ↦ ?_
  obtain ⟨rfl, hinst⟩ := h
  have hall := hL.spans hs hinst
  refine (settles_lookup (Q := fun a s' ↦ s' = s₁ ∧ inst.funcAddr f.toNat = .ok a) hL.toReports hs
    (fun t ↦ lookup_address) fun a h ↦ ⟨rfl, h⟩).bind fun a s₂ _ _ h ↦ ?_
  obtain ⟨rfl, haddr⟩ := h
  have hf := hall.funcs a (lookup_mem haddr)
  have hcall : R.Settles R.trap (fun vs s' ↦ ∀ v ∈ vs, R.value s' v) s₂
      (Action.call callHost fuel a [] s₂) :=
    hL.actionCall hs nofun (fun _ ↦ hf) (fun hle ↦ hL.missing hs hf hle) (hstart inst a hinst haddr)
  refine (hcall.mapError ?_).bind fun _ s₃ _ hlead _ ↦ settles_pure hlead.store trivial
  rintro t ht u ⟨⟩
  exact ht

end Parts

end Policy

end Wasm
