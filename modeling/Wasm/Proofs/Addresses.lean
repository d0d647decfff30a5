import Wasm.Proofs.Evolution
import Wasm.Proofs.Decode.WellFormed

namespace Wasm

def Store.Knows (s : Store) (v : Value) : Prop := ∀ a, v = .funcref (some a) → a < s.funcs.size

/-- Every address that a store holds is one of the store. -/
structure Store.WellFormed (s : Store) : Prop where
  instances : ∀ (i : Nat) (inst : Instance), s.instances[i]? = some inst →
    inst.All fun e a ↦ a < s.count e
  funcs : ∀ (a : Nat) (type : FuncType) (i k : Nat), s.funcs[a]? = some (.code type i k) →
    ∃ owner, s.instances[i]? = some owner ∧ k < owner.mod.functions.length
  tables : ∀ (a : Nat) (t : Table), s.heap.tables[a]? = some t → ∀ v ∈ t.elems, s.Knows v
  globals : ∀ (a : Nat) (g : Global), s.heap.globals[a]? = some g → s.Knows g.value
  elems : ∀ (a : Nat) (vs : Array Value), s.heap.elems[a]? = some vs → ∀ v ∈ vs, s.Knows v

/-- Every address that a machine holds is one of its store. -/
structure Machine.WellFormed (m : Machine) : Prop where
  store : m.store.WellFormed
  operands : ∀ v, Entry.value v ∈ m.stack.entries → m.store.Knows v
  locals : ∀ f, Entry.frame f ∈ m.stack.entries → ∀ v ∈ f.locals, m.store.Knows v

def Host.Fresh.values {F : Type} : Host.Fresh F → List Value
  | .table _ slots => slots.toList
  | .global _ init => [init]
  | .elem refs => refs.toList
  | _ => []

/-- What a function or an instance of a module is made of is in the store, and the module is a
decoded one. -/
def Host.Fresh.Rooted {F : Type} (s : Store) : Host.Fresh F → Prop
  | .code _ i k => ∃ owner, s.instances[i]? = some owner ∧ k < owner.mod.functions.length
  | .instance_ inst => (inst.All fun e a ↦ a < s.count e) ∧
    ∃ bytes, Module.decode bytes = .ok inst.mod
  | _ => True

/-- What the host supplies with a request is there: it refers to no function but one of the store.
It replaces no heap, and brings in none but decoded modules. -/
def Host.Act.Supplied (s : Store) : Host.Act → Prop
  | .finish (.ok vs) => ∀ v ∈ vs, s.Knows v
  | .put _ _ => False
  | .alloc e _ => (∀ v ∈ e.values, s.Knows v) ∧ e.Rooted s
  | .call _ args _ => ∀ v ∈ args, s.Knows v
  | .invoke _ _ args _ => ∀ v ∈ args, s.Knows v
  | .instantiate m r _ => (∃ bytes, Module.decode bytes = .ok m) ∧
    ∀ i s', Link.Binds m r s i s' → ∀ type v, i.desc = .global type →
      r.global i.source i.name type = some v → s'.Knows v
  | _ => True

def Host.Act.Aimed (s : Store) : Host.Act → Prop
  | .call func _ _ => func < s.funcs.size
  | .invoke inst _ _ _ => inst < s.instances.size
  | _ => True

def Host.Callable.Candid (f : Host.Func) : Prop :=
  ∀ args, (f.run args).Within (fun _ ↦ True) (·.dangling = false)

/-- Of a well-formed store moreover: its functions have their bodies, and if `P` then its host
functions are candid. -/
structure Store.Valid (P : Prop) (s : Store) : Prop extends s.WellFormed where
  bodies : ∀ (i : Nat) (inst : Instance), s.instances[i]? = some inst →
    inst.mod.functions.length = inst.mod.funcTypes.length
  hosts : P → ∀ (a : Nat) (f : Host.Func), s.funcs[a]? = some (.host f) → Host.Callable.Candid f

structure Store.Adds (P : Prop) (s s' : Store) : Prop where
  count : ∀ e, s.count e ≤ s'.count e
  owners : ∀ (i : Nat) (inst : Instance), s.instances[i]? = some inst →
    ∃ inst', s'.instances[i]? = some inst' ∧ inst'.mod = inst.mod
  instances : ∀ (i : Nat) (inst : Instance), s'.instances[i]? = some inst →
    s.instances[i]? = some inst ∨ (inst.All fun e a ↦ a < s'.count e) ∧
      inst.mod.functions.length = inst.mod.funcTypes.length
  code : ∀ (a : Nat) (type : FuncType) (i k : Nat), s'.funcs[a]? = some (.code type i k) →
    s.funcs[a]? = some (.code type i k) ∨
      ∃ owner, s'.instances[i]? = some owner ∧ k < owner.mod.functions.length
  hosts : P → ∀ (a : Nat) (f : Host.Func), s'.funcs[a]? = some (.host f) →
    s.funcs[a]? = some (.host f) ∨ Host.Callable.Candid f
  tables : ∀ (a : Nat) (t : Table), s'.heap.tables[a]? = some t →
    s.heap.tables[a]? = some t ∨ ∀ v ∈ t.elems, s'.Knows v
  globals : ∀ (a : Nat) (g : Global), s'.heap.globals[a]? = some g →
    s.heap.globals[a]? = some g ∨ s'.Knows g.value
  elems : ∀ (a : Nat) (vs : Array Value), s'.heap.elems[a]? = some vs →
    s.heap.elems[a]? = some vs ∨ ∀ v ∈ vs, s'.Knows v

theorem Module.length_functions_decode {bytes : List UInt8} {m : Module}
    (h : Module.decode bytes = .ok m) : m.functions.length = m.funcTypes.length := by
  obtain ⟨d, -, hm⟩ := Module.decode_ok h
  obtain ⟨hlen, -, rfl⟩ := Module.finish_ok hm
  simp [hlen]

section Arrays

variable {α : Type} {xs : Array α} {a b : Nat} {x y : α}

theorem getElem?_setIfInBounds_cases (h : (xs.setIfInBounds a x)[b]? = some y) :
    xs[b]? = some y ∨ y = x := by
  rw [Array.getElem?_setIfInBounds] at h
  split at h
  · split at h
    · exact .inr (Option.some.inj h).symm
    · cases h
  · exact .inl h

theorem getElem?_push_of_some (h : xs[b]? = some y) (x : α) : (xs.push x)[b]? = some y := by
  obtain ⟨hlt, rfl⟩ := Array.getElem?_eq_some_iff.mp h
  exact Array.getElem?_push_lt hlt

theorem getElem?_push_cases (h : (xs.push x)[b]? = some y) : xs[b]? = some y ∨ y = x := by
  rw [Array.getElem?_push] at h
  split at h
  · exact .inr (Option.some.inj h).symm
  · exact .inl h

end Arrays

namespace Store

variable {P : Prop} {s s' : Store}

theorem Knows.mono {v : Value} (hv : s.Knows v) (h : ∀ e, s.count e ≤ s'.count e) : s'.Knows v :=
  fun a ha ↦ (hv a ha).trans_le (h .func)

theorem Valid.adds (h : s.Valid P) (hadd : Adds P s s') : s'.Valid P where
  instances i inst hi := by
    obtain hold | hnew := hadd.instances i inst hi
    · exact (h.instances i inst hold).imp fun e a ha ↦ ha.trans_le (hadd.count e)
    · exact hnew.1
  funcs a type i k hf := by
    obtain hold | hnew := hadd.code a type i k hf
    · obtain ⟨owner, howner, hk⟩ := h.funcs a type i k hold
      obtain ⟨owner', howner', hmod⟩ := hadd.owners i owner howner
      exact ⟨owner', howner', hmod ▸ hk⟩
    · exact hnew
  tables a t ht := by
    obtain hold | hnew := hadd.tables a t ht
    · exact fun v hv ↦ (h.tables a t hold v hv).mono hadd.count
    · exact hnew
  globals a g hg := by
    obtain hold | hnew := hadd.globals a g hg
    · exact (h.globals a g hold).mono hadd.count
    · exact hnew
  elems a vs hvs := by
    obtain hold | hnew := hadd.elems a vs hvs
    · exact fun v hv ↦ (h.elems a vs hold v hv).mono hadd.count
    · exact hnew
  bodies i inst hi := by
    obtain hold | hnew := hadd.instances i inst hi
    · exact h.bodies i inst hold
    · exact hnew.2
  hosts hP a f hf := by
    obtain hold | hnew := hadd.hosts hP a f hf
    · exact h.hosts hP a f hold
    · exact hnew

/-- Neither the number of active runs nor the log holds addresses. -/
theorem Adds.aside (active : Nat) (log : Array Value) : Adds P s { s with active, log } :=
  ⟨fun e ↦ by cases e <;> exact le_rfl, fun _ inst hi ↦ ⟨inst, hi, rfl⟩, fun _ _ ↦ .inl,
    fun _ _ _ _ ↦ .inl, fun _ _ _ ↦ .inl, fun _ _ ↦ .inl, fun _ _ ↦ .inl, fun _ _ ↦ .inl⟩

theorem Adds.ofHeap {heap : Heap} (hcount : ∀ e, s.count e ≤ { s with heap }.count e)
    (ht : ∀ (a : Nat) (t : Table), heap.tables[a]? = some t →
      s.heap.tables[a]? = some t ∨ ∀ v ∈ t.elems, s.Knows v)
    (hg : ∀ (a : Nat) (g : Global), heap.globals[a]? = some g →
      s.heap.globals[a]? = some g ∨ s.Knows g.value)
    (he : ∀ (a : Nat) (vs : Array Value), heap.elems[a]? = some vs →
      s.heap.elems[a]? = some vs ∨ ∀ v ∈ vs, s.Knows v) : Adds P s { s with heap } :=
  ⟨hcount, fun _ inst hi ↦ ⟨inst, hi, rfl⟩, fun _ _ ↦ .inl, fun _ _ _ _ ↦ .inl, fun _ _ _ ↦ .inl,
    ht, hg, he⟩

theorem Adds.func {g : FuncInst}
    (hcode : ∀ type i k, g = .code type i k →
      ∃ owner, s.instances[i]? = some owner ∧ k < owner.mod.functions.length)
    (hhost : P → ∀ f, g = .host f → Host.Callable.Candid f) : Adds P s (s.allocFunc g).2 where
  count e := by cases e <;> simp [Store.count, Store.allocFunc]
  owners _ inst hi := ⟨inst, hi, rfl⟩
  instances _ _ hi := .inl hi
  code _ type i k hf := (getElem?_push_cases hf).imp_right fun h ↦ hcode type i k h.symm
  hosts hP _ f hf := (getElem?_push_cases hf).imp_right fun h ↦ hhost hP f h.symm
  tables _ _ := .inl
  globals _ _ := .inl
  elems _ _ := .inl

end Store

namespace Policy

/-- Well-formed stores. If `P` then no address leads nowhere. -/
def valid (P : Prop) : Policy where
  store := Store.Valid P
  grants s e a := a < s.count e
  trap t := P → t.dangling = false

variable {P : Prop} {s : Store}

theorem valid_leads {s' : Store} (hs : s.Valid P) (h : Store.Adds P s s') : (valid P).Leads s s' :=
  ⟨hs.adds h, fun e _ ha ↦ Nat.lt_of_lt_of_le ha (h.count e)⟩

theorem valid_admits : (valid P).Admits where
  trap ht _ := ht
  missing _ ha hle := absurd (Nat.lt_of_lt_of_le ha hle) (lt_irrefl _)
  owner {s i inst} hs _ hi := by
    have hall := hs.instances i inst hi
    refine ⟨hall.funcs, hall.tables, fun a ha ↦ hall.memories a (Array.mem_of_getElem? ha),
      hall.globals, hall.elems, hall.datas, fun name a ha ↦ ?_⟩
    obtain ⟨l₁, l₂, hsplit, -⟩ := List.lookup_eq_some_iff.mp ha
    refine hall.exports (name, ⟨.func, a⟩) ?_
    rw [hsplit]
    exact List.mem_append_right _ (List.mem_cons_self ..)
  reference _ := trivial
  tableValue {s a t} hs ht v hv := ⟨hs.tables a t ht v hv, trivial⟩
  globalValue {s a g} hs hg := hs.globals a g hg
  elemValue {s a vs} hs hvs v hv := ⟨hs.elems a vs hvs v hv, trivial⟩
  table {s a t t'} hs _ ht hup := by
    refine valid_leads hs (.ofHeap (fun e ↦ ?_) (fun b u hu ↦ ?_) (fun _ _ ↦ .inl) fun _ _ ↦ .inl)
    · cases e <;> simp [Store.count]
    · refine (getElem?_setIfInBounds_cases hu).imp_right ?_
      rintro rfl v hv
      exact (hup.values v hv).elim (hs.tables a t ht v) And.left
  memory hs _ _ _ := by
    refine valid_leads hs (.ofHeap (fun e ↦ ?_) (fun _ _ ↦ .inl) (fun _ _ ↦ .inl) fun _ _ ↦ .inl)
    cases e <;> simp [Store.count]
  global {s a g g'} hs _ _ hup := by
    refine valid_leads hs (.ofHeap (fun e ↦ ?_) (fun _ _ ↦ .inl) (fun b h hh ↦ ?_) fun _ _ ↦ .inl)
    · cases e <;> simp [Store.count]
    · refine (getElem?_setIfInBounds_cases hh).imp_right ?_
      rintro rfl
      exact hup.value
  elem hs _ := by
    refine valid_leads hs (.ofHeap (fun e ↦ ?_) (fun _ _ ↦ .inl) (fun _ _ ↦ .inl) fun b vs hvs ↦ ?_)
    · cases e <;> simp [Store.count]
    · refine (getElem?_setIfInBounds_cases hvs).imp_right ?_
      rintro rfl v hv
      cases Array.not_mem_empty v hv
  data hs _ := by
    refine valid_leads hs (.ofHeap (fun e ↦ ?_) (fun _ _ ↦ .inl) (fun _ _ ↦ .inl) fun _ _ ↦ .inl)
    cases e <;> simp [Store.count]

theorem valid_allocGlobal (hs : s.Valid P) (type : GlobalType) {v : Value} (hv : s.Knows v) :
    (valid P).Leads s (s.allocGlobal ⟨type, v⟩).2 := by
  refine valid_leads hs (.ofHeap (fun e ↦ ?_) (fun _ _ ↦ .inl) (fun b g hg ↦ ?_) fun _ _ ↦ .inl)
  · cases e <;> simp [Store.count]
  · refine (getElem?_push_cases hg).imp_right ?_
    rintro rfl
    exact hv

theorem knows_null (s : Store) (t : RefType) : s.Knows (.null t) := by
  rintro a ha
  cases t <;> cases ha

theorem valid_allocTable (hs : s.Valid P) {t : Table} (ht : ∀ v ∈ t.elems, s.Knows v) :
    (valid P).Leads s (s.allocTable t).2 := by
  refine valid_leads hs (.ofHeap (fun e ↦ ?_) (fun b u hu ↦ ?_) (fun _ _ ↦ .inl) fun _ _ ↦ .inl)
  · cases e <;> simp [Store.count]
  · refine (getElem?_push_cases hu).imp_right ?_
    rintro rfl
    exact ht

theorem valid_allocMemory (hs : s.Valid P) (m : Memory) :
    (valid P).Leads s (s.allocMemory m).2 := by
  refine valid_leads hs (.ofHeap (fun e ↦ ?_) (fun _ _ ↦ .inl) (fun _ _ ↦ .inl) fun _ _ ↦ .inl)
  cases e <;> simp [Store.count]

theorem valid_allocInstance (hs : s.Valid P) {inst : Instance}
    (hall : inst.All fun e a ↦ a < s.count e)
    (hlen : inst.mod.functions.length = inst.mod.funcTypes.length) :
    (valid P).Leads s (s.allocInstance inst).2 := by
  have hcount (e : Entity) : s.count e ≤ (s.allocInstance inst).2.count e := by
    cases e <;> simp [Store.count, Store.allocInstance]
  refine valid_leads hs ⟨hcount, fun i owner hi ↦ ⟨owner, ?_, rfl⟩, fun i owner hi ↦ ?_,
    fun _ _ _ _ ↦ .inl, fun _ _ _ ↦ .inl, fun _ _ ↦ .inl, fun _ _ ↦ .inl, fun _ _ ↦ .inl⟩
  · exact getElem?_push_of_some hi _
  · refine (getElem?_push_cases hi).imp_right ?_
    rintro rfl
    exact ⟨hall.imp fun e a ha ↦ ha.trans_le (hcount e), hlen⟩

theorem valid_allocCode (hs : s.Valid P) {i k : Nat} {owner : Instance}
    (howner : s.instances[i]? = some owner) (hk : k < owner.mod.functions.length)
    (type : FuncType) : (valid P).Leads s (s.allocFunc (.code type i k)).2 := by
  refine valid_leads hs (.func (fun type' i' k' hg ↦ ?_) fun _ g hg ↦ ?_)
  · cases hg
    exact ⟨owner, howner, hk⟩
  · cases hg

theorem valid_links : (valid P).Links (fun _ ↦ True)
    (fun m ↦ m.functions.length = m.funcTypes.length) (fun f ↦ P → Host.Callable.Candid f) where
  toAdmits := valid_admits
  code {s a i k type} hs _ hf := by
    obtain ⟨owner, howner, -⟩ := hs.funcs a type i k hf
    exact (Array.getElem?_eq_some_iff.mp howner).1
  body {s a i k type owner} hs _ hf howner hle := by
    obtain ⟨owner', howner', hk⟩ := hs.funcs a type i k hf
    cases howner.symm.trans howner'
    exact absurd (hk.trans_le hle) (lt_irrefl _)
  active n hs := valid_leads hs (.aside n _)
  present _ ha := ha
  spans {s i inst} hs hi := hs.instances i inst hi
  own _ := trivial
  allocInstance {s m} hs hm := valid_allocInstance hs (.blank m) hm
  modify {s i inst f} hs _ hi hmod hall := by
    have hcount : ∀ e, s.count e ≤ { s with instances := s.instances.modify i f }.count e := by
      intro e
      cases e <;> simp [Store.count]
    refine valid_leads hs ⟨hcount, fun j owner hj ↦ ?_, fun j owner hj ↦ ?_, fun _ _ _ _ ↦ .inl,
      fun _ _ _ ↦ .inl, fun _ _ ↦ .inl, fun _ _ ↦ .inl, fun _ _ ↦ .inl⟩
    · simp only [Array.getElem?_modify]
      split
      · rename_i hij
        subst hij
        cases hi.symm.trans hj
        exact ⟨f inst, by rw [hi]; rfl, hmod⟩
      · exact ⟨owner, hj, rfl⟩
    · simp only [Array.getElem?_modify] at hj
      split at hj
      · rename_i hij
        subst hij
        rw [hi] at hj
        cases hj
        refine .inr ⟨hall.imp fun e a ha ↦ Nat.lt_of_lt_of_le ha (hcount e), ?_⟩
        rw [hmod]
        exact hs.bodies i inst hi
      · exact .inl hj
  allocHost hs hf := by
    refine valid_leads hs (.func (fun _ _ _ hg ↦ ?_) fun hP g hg ↦ ?_)
    · cases hg
    · cases hg
      exact hf hP
  allocCode {s i k owner type} hs howner hm hk := valid_allocCode hs howner (hm ▸ hk) type
  allocTable {s m type} hs _ _ _ := by
    refine valid_allocTable hs fun v hv ↦ ?_
    rw [(Array.mem_replicate.mp hv).2]
    exact knows_null s type.elem
  allocMemory {s m type mem} hs _ _ _ _ := valid_allocMemory hs mem
  allocGlobal {s type v} hs hv _ := valid_allocGlobal hs type hv
  allocElem hs hrefs := by
    refine valid_leads hs (.ofHeap (fun e ↦ ?_) (fun _ _ ↦ .inl) (fun _ _ ↦ .inl) fun b vs hvs ↦ ?_)
    · cases e <;> simp [Store.count]
    · refine (getElem?_push_cases hvs).imp_right ?_
      rintro rfl v hv
      exact (hrefs v hv).1
  allocData _ hs := by
    refine valid_leads hs (.ofHeap (fun e ↦ ?_) (fun _ _ ↦ .inl) (fun _ _ ↦ .inl) fun _ _ ↦ .inl)
    cases e <;> simp [Store.count]

theorem valid_alloc (hs : s.Valid P) {e : Host.Fresh Host.Func} (hv : ∀ v ∈ e.values, s.Knows v)
    (he : e.Rooted s) (hf : ∀ f, e = .func f → P → Host.Callable.Candid f) :
    (valid P).Leads s (s.alloc e).2 := by
  cases e with
  | func f => exact valid_links.allocHost hs (hf f rfl)
  | code type inst index =>
    obtain ⟨owner, howner, hk⟩ := he
    exact valid_allocCode hs howner hk type
  | instance_ inst =>
    obtain ⟨hall, bytes, hdecode⟩ := he
    exact valid_allocInstance hs hall (Module.length_functions_decode hdecode)
  | table type slots =>
    obtain h | h := s.alloc_table type slots <;> rw [h]
    · exact .refl hs
    · refine valid_allocTable hs fun v hmem ↦ ?_
      obtain rfl | hslot := Table.mem_prefill_create hmem
      · exact knows_null s type.elem
      · exact hv v (Array.mem_toList_iff.mpr hslot)
  | memory type bytes =>
    obtain h | ⟨m, -, h⟩ := s.alloc_memory type bytes <;> rw [h]
    · exact .refl hs
    · exact valid_allocMemory hs _
  | global type init => exact valid_allocGlobal hs type (hv init (List.mem_singleton_self _))
  | elem refs =>
    exact valid_links.allocElem hs fun v h ↦ ⟨hv v (Array.mem_toList_iff.mpr h), trivial⟩
  | data bytes => exact valid_links.allocData bytes hs

theorem valid_empty (config : Config) : Store.Valid P { config } where
  instances _ _ h := absurd h (by simp)
  funcs _ _ _ _ h := absurd h (by simp)
  tables _ _ h := absurd h (by simp)
  globals _ _ h := absurd h (by simp)
  elems _ _ h := absurd h (by simp)
  bodies _ _ h := absurd h (by simp)
  hosts _ _ _ h := absurd h (by simp)

section Requests

open Engine

variable {fuel : Nat} {client : Host.Act}

/-- Hosts all of whose requests supply what is there keep stores well formed. -/
theorem valid_conducts (hsupply : ∀ n act s', Asked fuel client s n act s' → act.Supplied s')
    (haim : P → ∀ n act s', Asked fuel client s n act s' → act.Aimed s') :
    (valid P).Conducts (fun m ↦ m.functions.length = m.funcTypes.length)
      (fun f ↦ P → Host.Callable.Candid f) fuel fun n act s' ↦ Asked fuel client s n act s' ∧
        (P → act.Within (fun _ ↦ True) (·.dangling = false)) where
  items _ _ := trivial
  honors {n act s'} hA hs := by
    obtain ⟨hasked, hwithin⟩ := hA
    have hsup := hsupply n act s' hasked
    cases act with
    | finish result =>
      cases result with
      | ok vs => exact hsup
      | error t =>
        intro hP
        cases hwithin hP with
        | report ht => exact ht
    | log vs next => exact valid_leads hs (.aside _ _)
    | readLog k => trivial
    | get k => trivial
    | put heap next => exact hsup.elim
    | alloc e k =>
      refine valid_alloc hs hsup.1 hsup.2 fun f he hP ↦ ?_
      cases hwithin hP with
      | alloc hf _ _ => exact hf f he
    | call func args k =>
      exact ⟨hsup, fun hle hP ↦ absurd (haim hP n _ s' hasked) (Nat.not_lt.mpr hle)⟩
    | invoke inst name args k =>
      exact ⟨hsup, fun hle hP ↦ absurd (haim hP n _ s' hasked) (Nat.not_lt.mpr hle)⟩
    | instantiate m r k =>
      obtain ⟨⟨bytes, hdecode⟩, hglobals⟩ := hsup
      refine ⟨Module.length_functions_decode hdecode, fun i _ type f hf hP ↦ ?_, hglobals⟩
      cases hwithin hP with
      | instantiate _ hr _ => exact hr i.source i.name type f hf
  next {n act act' s₁ s₂} hA hfol := by
    refine ⟨.next hA.1 (hfol.imp fun _ _ ↦ trivial), fun hP ↦ ?_⟩
    have hwithin := hA.2 hP
    cases hfol with
    | log => cases hwithin with | log h => exact h
    | readLog => cases hwithin with | readLog h => exact h _
    | get => cases hwithin with | get h => exact h _
    | put => cases hwithin with | put h => exact h
    | alloc => cases hwithin with | alloc _ _ h => exact h _
    | call _ ht => cases hwithin with | call h => exact h _ fun t e ↦ ht t e hP
    | invoke _ ht => cases hwithin with | invoke h => exact h _ fun t e ↦ ht t e hP
    | instantiate _ ht =>
      cases hwithin with | instantiate _ _ h => exact h _ fun e t he htrap ↦ ht e he t htrap hP
  host {n act f args s₁ s₂} hA hcons hs := by
    -- A host function is candid since it is one of the store, not since the client names it.
    obtain ⟨a, ha⟩ := hcons.mem
    exact ⟨.host hA.1 hcons, fun hP ↦ hs.hosts hP a f ha args⟩

end Requests

theorem wellFormed_of_safe {m : Machine} (h : (valid P).Safe m) : m.WellFormed :=
  ⟨h.store.toWellFormed, fun _ hv ↦ h.stack _ hv, fun _ hf ↦ (h.stack _ hf).2⟩

end Policy

namespace Engine

open Policy

/-- Requests of a kind that is known of every request in the client and its host functions. -/
theorem asked_orderly {Q : Host.Act → Prop} {fuel : Nat} {client : Host.Act} {config : Config}
    (hclient : client.Orderly Q) {n : Nat} {act : Host.Act} {s : Store}
    (h : Asked fuel client { config } n act s) : Q act := by
  have hs : (evolve Q { config }).store { config } := ⟨.refl _, fun _ _ hf ↦ absurd hf (by simp)⟩
  exact (evolve_links.asked (evolve_conducts fuel) hclient hs h).1.kind

/-- A client starts with an empty store, and whatever it and the host functions it leads to supply
is there. Then every address in a store or in a machine that is reached is one of the store. If
moreover they name none but functions and instances that are there, and report no address that leads
nowhere unless they are told one, then no request and no initializer ends in such a report. -/
theorem asked_wellFormed {fuel : Nat} {client : Host.Act} {config : Config}
    (hsupply : ∀ n act s, Asked fuel client { config } n act s → act.Supplied s) :
    (∀ n act s, Asked fuel client { config } n act s → s.WellFormed ∧
      ∀ m, Running (hostCall fuel n) fuel act s m → m.WellFormed) ∧
    (client.Within (fun _ ↦ True) (·.dangling = false) →
      (∀ n act s, Asked fuel client { config } n act s → act.Aimed s) →
      ∀ n act s, Asked fuel client { config } n act s → ∀ e a,
        ¬ Traps (hostCall fuel n) fuel (.invalidAddress e a) act s) := by
  -- One policy serves both parts: what it says of traps is conditional on the provisos of the
  -- second.
  have hC := valid_conducts (P := client.Within (fun _ ↦ True) (·.dangling = false) ∧
    ∀ n act s, Asked fuel client { config } n act s → act.Aimed s) hsupply fun hP ↦ hP.2
  have hreach (n : Nat) (act : Host.Act) (s : Store)
      (h : Asked fuel client { config } n act s) :=
    valid_links.asked hC ⟨.client, fun hP ↦ hP.1⟩ (valid_empty config) h
  refine ⟨fun n act s h ↦ ?_, fun hclient haim n act s h e a ht ↦ ?_⟩
  · obtain ⟨hA, hs⟩ := hreach n act s h
    refine ⟨hs.toWellFormed, fun m hm ↦ ?_⟩
    have hsafe := valid_links.safe (valid_links.attends hC n act s hA) hs (hC.honors hA hs) hm
    exact wellFormed_of_safe hsafe
  · obtain ⟨hA, hs⟩ := hreach n act s h
    have htrap := valid_links.traps (valid_links.attends hC n act s hA) hs (hC.honors hA hs) ht
    cases htrap ⟨hclient, haim⟩

/-- A module with a reference to a function in a global and in a table. Its start function calls the
host, and then the function in the table. -/
def relay : Module where
  types := [⟨[], []⟩]
  imports := [⟨"host", "note", .func 0⟩]
  funcTypes := [0, 0]
  tables := [⟨.funcref, ⟨1, none⟩⟩]
  globals := [⟨⟨.funcref, false⟩, #[.refFunc 2, .end_]⟩]
  start := some 1
  elements := [⟨.funcref, .funcs [2], .active 0 #[.i32Const 0, .end_]⟩]
  functions := [⟨0, [], #[.call 0, .i32Const 0, .callIndirect 0 0, .end_]⟩, ⟨0, [], #[.end_]⟩]
  imported := { funcs := 1 }

def relayBytes : List UInt8 :=
  [0x00, 0x61, 0x73, 0x6D, 1, 0, 0, 0,
    1, 4, 1, 0x60, 0, 0,
    2, 13, 1, 4, 0x68, 0x6F, 0x73, 0x74, 4, 0x6E, 0x6F, 0x74, 0x65, 0, 0,
    3, 3, 2, 0, 0,
    4, 4, 1, 0x70, 0, 1,
    6, 6, 1, 0x70, 0, 0xD2, 2, 0x0B,
    8, 1, 1,
    9, 7, 1, 0, 0x41, 0, 0x0B, 1, 2,
    10, 14, 2, 9, 0, 0x10, 0, 0x41, 0, 0x11, 0, 0, 0x0B, 2, 0, 0x0B]

theorem decode_relay : Module.decode relayBytes = .ok relay := by decide +kernel

def relaying : Host.Act :=
  .instantiate relay
    { func := fun _ _ _ ↦ some ⟨⟨[], []⟩, fun _ ↦
        .alloc (.table ⟨.funcref, ⟨1, none⟩⟩) fun _ ↦ .finish (.ok [])⟩
      table := fun _ _ _ ↦ none, memory := fun _ _ _ ↦ none, global := fun _ _ _ ↦ none }
    fun _ ↦ .finish (.ok [])

theorem orderly_relaying : relaying.Orderly fun act ↦ ∀ s, act.Supplied s ∧ act.Aimed s := by
  have hend : Host.Act.Orderly (fun act ↦ ∀ s, act.Supplied s ∧ act.Aimed s) (.finish (.ok [])) :=
    .finish fun _ ↦ ⟨nofun, trivial⟩
  refine .instantiate (fun s ↦ ⟨⟨⟨relayBytes, decode_relay⟩, ?_⟩, trivial⟩) ?_ fun _ ↦ hend
  · rintro _ _ _ _ _ _ ⟨⟩
  · rintro _ _ _ f ⟨⟩ args
    exact .alloc (fun _ ↦ ⟨⟨nofun, trivial⟩, trivial⟩) nofun fun _ ↦ hend

theorem within_relaying : relaying.Within (fun _ ↦ True) (·.dangling = false) := by
  refine .instantiate trivial ?_ fun _ _ ↦ .result []
  rintro _ _ _ f ⟨⟩ args
  exact .alloc nofun nofun fun _ ↦ .result []

theorem asked_wellFormed_relaying :
    (∀ n act s, Asked 16 relaying {} n act s → act.Supplied s ∧ act.Aimed s) ∧
    relaying.Within (fun _ ↦ True) (·.dangling = false) ∧
    (∀ n act s, Asked 16 relaying {} n act s → s.WellFormed ∧
      (∀ m, Running (hostCall 16 n) 16 act s m → m.WellFormed) ∧
      ∀ e a, ¬ Traps (hostCall 16 n) 16 (.invalidAddress e a) act s) ∧
    (Outcome.final (perform (hostCall 16 16) 16 relaying {})).heap.tables.map (·.elems) =
      #[#[.funcref (some 2)], #[.funcref none]] := by
  have hall : ∀ n act s, Asked 16 relaying {} n act s → act.Supplied s ∧ act.Aimed s :=
    fun n act s h ↦ asked_orderly orderly_relaying h s
  obtain ⟨hreach, htraps⟩ := asked_wellFormed fun n act s h ↦ (hall n act s h).1
  refine ⟨hall, within_relaying, fun n act s h ↦ ?_, by decide +kernel⟩
  obtain ⟨hs, hm⟩ := hreach n act s h
  exact ⟨hs, hm, htraps within_relaying (fun n act s h ↦ (hall n act s h).2) n act s h⟩

def strayHandle : Host.Act := .invoke 0 "f" [] fun _ ↦ .finish (.ok [])

def strayReport : Host.Act :=
  .alloc (.func ⟨⟨[], []⟩, fun _ ↦ .finish (.error (.invalidAddress .func 7))⟩) fun _ ↦
    .call 0 [] fun _ ↦ .finish (.ok [])

/-- Nothing that is supplied leads nowhere, and yet an invocation ends in the report of an address
that does: of the instance that it names, or of what a host function makes up. -/
theorem stray_address_traps :
    (∀ n act s, Asked 4 strayHandle {} n act s → act.Supplied s) ∧
    (∃ n act s, Asked 4 strayHandle {} n act s ∧
      Traps (hostCall 4 n) 4 (.invalidAddress .instance_ 0) act s) ∧
    (∀ n act s, Asked 4 strayReport {} n act s → act.Supplied s) ∧
    ∃ n act s, Asked 4 strayReport {} n act s ∧
      Traps (hostCall 4 n) 4 (.invalidAddress .func 7) act s := by
  have hhandle : strayHandle.Orderly fun act ↦ ∀ s, act.Supplied s :=
    .invoke (fun _ ↦ nofun) fun _ ↦ .finish fun _ ↦ nofun
  have hreport : strayReport.Orderly fun act ↦ ∀ s, act.Supplied s := by
    refine .alloc (fun _ ↦ ⟨nofun, trivial⟩) ?_ fun _ ↦
      .call (fun _ ↦ nofun) fun _ ↦ .finish fun _ ↦ nofun
    rintro f ⟨⟩ args
    exact .finish fun _ ↦ trivial
  exact ⟨fun n act s h ↦ asked_orderly hhandle h s, ⟨4, strayHandle, {}, .client, .invoke rfl⟩,
    fun n act s h ↦ asked_orderly hreport h s,
    ⟨4, _, _, .next .client (.alloc _ _ _), .call rfl⟩⟩

end Engine

end Wasm
