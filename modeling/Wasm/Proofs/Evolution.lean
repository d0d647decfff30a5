import Wasm.Proofs.Policy.Host

namespace Wasm

variable {α : Type}

/-- Every member of `xs` has its place in `ys`, and there is what it may have become by `P`. -/
structure Persists (P : α → α → Prop) (xs ys : Array α) : Prop where
  size : xs.size ≤ ys.size
  member : ∀ (a : Nat) (x y : α), xs[a]? = some x → ys[a]? = some y → P x y

namespace Persists

variable {P : α → α → Prop} {xs ys : Array α}

theorem refl (hP : ∀ x, P x x) (xs : Array α) : Persists P xs xs := by
  refine ⟨le_rfl, fun a x y hx hy ↦ ?_⟩
  cases hx.symm.trans hy
  exact hP x

theorem push (h : Persists P xs ys) (y : α) : Persists P xs (ys.push y) := by
  refine ⟨h.size.trans (by simp), fun a x z hx hz ↦ ?_⟩
  have hlt : a < ys.size := (Array.getElem?_eq_some_iff.mp hx).1.trans_le h.size
  rw [Array.getElem?_push_lt hlt] at hz
  exact h.member a x z hx (by rw [Array.getElem?_eq_getElem hlt, hz])

/-- Replacing a member by what it may become. -/
theorem set (h : Persists P xs ys) {a : Nat} {y : α} (hy : ∀ x z, ys[a]? = some z → P x z → P x y) :
    Persists P xs (ys.setIfInBounds a y) := by
  refine ⟨h.size.trans (by simp), fun b x z hx hz ↦ ?_⟩
  rw [Array.getElem?_setIfInBounds] at hz
  split at hz
  · rename_i hab
    subst hab
    split at hz
    · rename_i hlt
      cases hz
      exact hy x ys[a] (Array.getElem?_eq_getElem hlt)
        (h.member a x ys[a] hx (Array.getElem?_eq_getElem hlt))
    · cases hz
  · exact h.member b x z hx hz

/-- Changing what was not there. -/
theorem modify (h : Persists P xs ys) {i : Nat} (hi : xs.size ≤ i) (f : α → α) :
    Persists P xs (ys.modify i f) := by
  refine ⟨h.size.trans (by simp), fun a x z hx hz ↦ ?_⟩
  have hlt : a < xs.size := (Array.getElem?_eq_some_iff.mp hx).1
  rw [Array.getElem?_modify, if_neg (by omega)] at hz
  exact h.member a x z hx hz

theorem exists_of_some (h : Persists P xs ys) {a : Nat} {x : α} (hx : xs[a]? = some x) :
    ∃ y, ys[a]? = some y ∧ P x y := by
  have hlt := (Array.getElem?_eq_some_iff.mp hx).1.trans_le h.size
  exact ⟨ys[a], Array.getElem?_eq_getElem hlt, h.member a x _ hx (Array.getElem?_eq_getElem hlt)⟩

end Persists

structure Global.Evolves (g g' : Global) : Prop where
  type : g'.type = g.type
  typed : g.value.type = g.type.value → g'.value.type = g.type.value
  fixed : g.type.mutable = false → g'.value = g.value

/-- What may become of a store. -/
structure Store.Evolves (s s' : Store) : Prop where
  funcs : Persists Eq s.funcs s'.funcs
  instances : Persists Eq s.instances s'.instances
  tables : Persists (Table.Updates fun _ ↦ True) s.heap.tables s'.heap.tables
  memories : Persists Memory.Updates s.heap.memories s'.heap.memories
  globals : Persists Global.Evolves s.heap.globals s'.heap.globals
  elems : Persists (fun vs vs' ↦ vs' = vs ∨ vs' = #[]) s.heap.elems s'.heap.elems
  datas : Persists (fun bs bs' ↦ bs' = bs ∨ bs' = []) s.heap.datas s'.heap.datas

theorem Store.Evolves.refl (s : Store) : s.Evolves s where
  funcs := .refl (fun _ ↦ rfl) _
  instances := .refl (fun _ ↦ rfl) _
  tables := .refl .refl _
  memories := .refl (fun _ ↦ ⟨rfl, le_rfl⟩) _
  globals := .refl (fun _ ↦ ⟨rfl, id, fun _ ↦ rfl⟩) _
  elems := .refl (fun _ ↦ .inl rfl) _
  datas := .refl (fun _ ↦ .inl rfl) _

/-- A host that changes the store by nothing but additions, calls and instantiation. All its
requests are of the kind `Q`, and it brings in none but such host functions. -/
inductive Host.Act.Orderly (Q : Host.Act → Prop) : Host.Act → Prop
  | finish {result : Except Trap (List Value)} : Q (.finish result) → Orderly Q (.finish result)
  | log {vs : List Value} {next : Host.Act} : Q (.log vs next) → Orderly Q next →
    Orderly Q (.log vs next)
  | readLog {k : Array Value → Host.Act} : Q (.readLog k) → (∀ vs, Orderly Q (k vs)) →
    Orderly Q (.readLog k)
  | get {k : Heap → Host.Act} : Q (.get k) → (∀ h, Orderly Q (k h)) → Orderly Q (.get k)
  | alloc {e : Host.Fresh Host.Func} {k : Option Nat → Host.Act} : Q (.alloc e k) →
    (∀ f, e = .func f → ∀ args, Orderly Q (f.run args)) → (∀ a, Orderly Q (k a)) →
    Orderly Q (.alloc e k)
  | call {func : Nat} {args : List Value} {k : Except Trap (List Value) → Host.Act} :
    Q (.call func args k) → (∀ r, Orderly Q (k r)) → Orderly Q (.call func args k)
  | invoke {inst : Nat} {name : String} {args : List Value}
    {k : Except Trap (List Value) → Host.Act} : Q (.invoke inst name args k) →
    (∀ r, Orderly Q (k r)) → Orderly Q (.invoke inst name args k)
  | instantiate {m : Module} {r : Host.Resolver} {k : Except LinkError Nat → Host.Act} :
    Q (.instantiate m r k) →
    (∀ source name type f, r.func source name type = some f → ∀ args, Orderly Q (f.run args)) →
    (∀ x, Orderly Q (k x)) → Orderly Q (.instantiate m r k)

def Host.Callable.Orderly (Q : Host.Act → Prop) (f : Host.Func) : Prop :=
  ∀ args, (f.run args).Orderly Q

def Host.Supply.Orderly (Q : Host.Act → Prop) (r : Host.Resolver) : Prop :=
  ∀ source name type f, r.func source name type = some f → Host.Callable.Orderly Q f

def Store.Orderly (Q : Host.Act → Prop) (s : Store) : Prop :=
  ∀ (a : Nat) (f : Host.Func), s.funcs[a]? = some (.host f) → Host.Callable.Orderly Q f

theorem Host.Act.Orderly.kind {Q : Host.Act → Prop} {act : Host.Act} (h : act.Orderly Q) :
    Q act := by
  cases h with
  | finish h => exact h
  | log h _ => exact h
  | readLog h _ => exact h
  | get h _ => exact h
  | alloc h _ _ => exact h
  | call h _ => exact h
  | invoke h _ => exact h
  | instantiate h _ _ => exact h

namespace Policy

def evolve (Q : Host.Act → Prop) (s : Store) : Policy where
  store s' := s.Evolves s' ∧ s'.Orderly Q
  grants _ _ _ := True
  trap _ := True

variable {Q : Host.Act → Prop} {s₀ s : Store}

theorem evolve_leads {s' : Store} (h : s₀.Evolves s') (hs : s'.Orderly Q) :
    (evolve Q s₀).Leads s s' :=
  ⟨⟨h, hs⟩, fun _ _ _ ↦ trivial⟩

theorem evolve_value (v : Value) : (evolve Q s₀).value s v := fun _ _ ↦ trivial

theorem evolve_reports : (evolve Q s₀).Reports := ⟨fun _ ↦ trivial, fun _ _ _ ↦ trivial⟩

theorem evolve_admits : (evolve Q s₀).Admits where
  toReports := evolve_reports
  owner _ _ _ := by constructor <;> intros <;> trivial
  reference _ := trivial
  tableValue _ _ v _ := ⟨evolve_value v, trivial⟩
  globalValue _ _ := evolve_value _
  elemValue _ _ v _ := ⟨evolve_value v, trivial⟩
  table hs _ ht hup := by
    refine evolve_leads { hs.1 with tables := hs.1.tables.set fun x z hz hx ↦ ?_ } hs.2
    cases ht.symm.trans hz
    exact ⟨hup.elem.trans hx.elem, hup.max.trans hx.max, hx.size.trans hup.size,
      fun _ _ ↦ .inr trivial⟩
  memory hs _ hm hup := by
    refine evolve_leads { hs.1 with memories := hs.1.memories.set fun x z hz hx ↦ ?_ } hs.2
    cases hm.symm.trans hz
    exact ⟨hup.max.trans hx.max, hx.size.trans hup.size⟩
  global hs _ hg hup := by
    refine evolve_leads { hs.1 with globals := hs.1.globals.set fun x z hz hx ↦ ?_ } hs.2
    cases hg.symm.trans hz
    have htype := hup.type.trans hx.type
    refine ⟨htype, fun _ ↦ ?_, fun hfixed ↦ ?_⟩
    · rw [hup.typed, hx.type]
    · rw [← hx.type, hup.mutable] at hfixed
      cases hfixed
  elem hs _ := evolve_leads { hs.1 with elems := hs.1.elems.set fun _ _ _ _ ↦ .inr rfl } hs.2
  data hs _ := evolve_leads { hs.1 with datas := hs.1.datas.set fun _ _ _ _ ↦ .inr rfl } hs.2

theorem orderly_allocFunc (hs : s.Orderly Q) {g : FuncInst}
    (hg : ∀ f, g = .host f → Host.Callable.Orderly Q f) :
    (s.allocFunc g).2.Orderly Q := by
  intro a f hf
  simp only [Store.allocFunc, Array.getElem?_push] at hf
  split at hf
  · cases hf
    exact hg f rfl
  · exact hs a f hf

theorem evolve_allocTable (hs : (evolve Q s₀).store s) (t : Table) :
    (evolve Q s₀).Leads s (s.allocTable t).2 :=
  evolve_leads { hs.1 with tables := hs.1.tables.push t } hs.2

theorem evolve_allocMemory (hs : (evolve Q s₀).store s) (m : Memory) :
    (evolve Q s₀).Leads s (s.allocMemory m).2 :=
  evolve_leads { hs.1 with memories := hs.1.memories.push m } hs.2

-- Instances that were not there at first may be under construction, and are the only ones that
-- change.
theorem evolve_links : (evolve Q s₀).Links (s₀.instances.size ≤ ·) (fun _ ↦ True)
    (Host.Callable.Orderly Q) where
  toAdmits := evolve_admits
  code _ _ _ := trivial
  body _ _ _ _ _ := trivial
  active _ hs := evolve_leads { hs.1 with } hs.2
  present _ _ := trivial
  spans _ _ := by constructor <;> intros <;> trivial
  own hs := hs.1.instances.size
  allocInstance hs _ := evolve_leads { hs.1 with instances := hs.1.instances.push _ } hs.2
  modify hs hi _ _ _ := evolve_leads { hs.1 with instances := hs.1.instances.modify hi _ } hs.2
  allocHost hs hf := by
    refine evolve_leads { hs.1 with funcs := hs.1.funcs.push _ } (orderly_allocFunc hs.2 ?_)
    rintro f ⟨⟩
    exact hf
  allocCode hs _ _ _ :=
    evolve_leads { hs.1 with funcs := hs.1.funcs.push _ } (orderly_allocFunc hs.2 nofun)
  allocTable hs _ _ _ := evolve_allocTable hs _
  allocMemory hs _ _ _ _ := evolve_allocMemory hs _
  allocGlobal hs _ _ := evolve_leads { hs.1 with globals := hs.1.globals.push _ } hs.2
  allocElem hs _ := evolve_leads { hs.1 with elems := hs.1.elems.push _ } hs.2
  allocData _ hs := evolve_leads { hs.1 with datas := hs.1.datas.push _ } hs.2

theorem evolve_alloc (hs : (evolve Q s₀).store s) {e : Host.Fresh Host.Func}
    (he : ∀ f, e = .func f → Host.Callable.Orderly Q f) : (evolve Q s₀).Leads s (s.alloc e).2 := by
  cases e with
  | func f => exact evolve_links.allocHost hs (he f rfl)
  | code type inst index =>
    exact evolve_leads { hs.1 with funcs := hs.1.funcs.push _ } (orderly_allocFunc hs.2 nofun)
  | instance_ inst => exact evolve_leads { hs.1 with instances := hs.1.instances.push _ } hs.2
  | table type slots =>
    obtain h | h := s.alloc_table type slots <;> rw [h]
    · exact .refl hs
    · exact evolve_allocTable hs _
  | memory type bytes =>
    obtain h | ⟨m, -, h⟩ := s.alloc_memory type bytes <;> rw [h]
    · exact .refl hs
    · exact evolve_allocMemory hs _
  | global type init =>
    exact evolve_leads { hs.1 with globals := hs.1.globals.push _ } hs.2
  | elem refs => exact evolve_links.allocElem hs fun v _ ↦ ⟨evolve_value v, trivial⟩
  | data bytes => exact evolve_links.allocData bytes hs

/-- Orderly hosts keep to what may become of a store. -/
theorem evolve_conducts (fuel : Nat) :
    (evolve Q s₀).Conducts (fun _ ↦ True) (Host.Callable.Orderly Q) fuel
      fun _ act _ ↦ act.Orderly Q where
  items _ _ := trivial
  honors {n act s} hact hs := by
    cases hact with
    | @finish result _ =>
      cases result with
      | ok vs => exact fun v _ ↦ evolve_value v
      | error t => trivial
    | log _ _ => exact evolve_leads { hs.1 with } hs.2
    | readLog _ _ => trivial
    | get _ _ => trivial
    | alloc _ he _ => exact evolve_alloc hs he
    | call _ _ => exact ⟨fun v _ ↦ evolve_value v, fun _ ↦ trivial⟩
    | invoke _ _ => exact ⟨fun v _ ↦ evolve_value v, fun _ ↦ trivial⟩
    | instantiate _ hr _ =>
      exact ⟨trivial, fun i _ type f hf ↦ hr i.source i.name type f hf,
        fun _ _ _ _ v _ _ ↦ evolve_value v⟩
  next {n act act' s s'} hact hfol := by
    cases hfol with
    | log => cases hact with | log _ h => exact h
    | readLog => cases hact with | readLog _ h => exact h _
    | get => cases hact with | get _ h => exact h _
    | put => cases hact
    | alloc => cases hact with | alloc _ _ h => exact h _
    | call => cases hact with | call _ h => exact h _
    | invoke => cases hact with | invoke _ h => exact h _
    | instantiate => cases hact with | instantiate _ _ h => exact h _
  host {n act f args s s'} _ hcons hs := by
    obtain ⟨a, ha⟩ := hcons.mem
    exact hs.2 a f ha args

theorem evolve_attends (fuel : Nat) {act : Host.Act} (hact : act.Orderly Q)
    (hs : (evolve Q s₀).store s) :
    (evolve Q s₀).Attends (Engine.hostCall fuel fuel) fuel act s ∧
      (evolve Q s₀).Honors (fun _ ↦ True) (Host.Callable.Orderly Q) s act :=
  ⟨evolve_links.attends (evolve_conducts fuel) fuel act s hact,
    (evolve_conducts fuel).honors (n := fuel) hact hs⟩

section Calls

variable {s' : Store} {fuel n : Nat}

theorem evolve_answers (hs : (evolve Q s₀).store s) {f : Host.Func} {args : List Value}
    (hf : Host.Callable.Orderly Q f) :
    (evolve Q s₀).Answers (Engine.hostCall fuel n) f args s := by
  cases n with
  | zero => exact Leads.refl hs
  | succ n =>
    have hconducts := @evolve_conducts Q s₀ fuel
    exact evolve_links.performs hconducts (evolve_links.attends hconducts n) (f.run args) s
      (hf args) hs

theorem evolve_host {m : Machine} {func : Nat} {f : Host.Func} {args : List Value}
    (hs : (evolve Q s₀).store m.store) (h : m.CallsOut func f args) :
    Host.Callable.Orderly Q f := by
  have hfunc := h.func
  unfold Store.func at hfunc
  split at hfunc
  · rename_i hg
    cases hfunc
    exact hs.2 func f hg
  · cases hfunc

theorem evolve_steps (start : Run Unit) (s : Store) :
    (evolve Q s₀).Steps (Engine.hostCall fuel n) start s := by
  apply evolve_links.toEnters.steps evolve_links.toAdmits
  rintro m f args _ - ⟨func, m', -, hout, rfl⟩ hs -
  exact evolve_answers hs (evolve_host hs hout)

theorem evolve_carries (func : Nat) (args : List Value) (s : Store) :
    (evolve Q s₀).Carries (Engine.hostCall fuel n) func args s where
  first _ _ hout hs _ := evolve_answers hs (evolve_host hs hout)
  steps := evolve_steps _ s

/-- A part of instantiation that keeps to what may become of the store it starts with. -/
theorem Settles.evolves {ε α : Type} {E : ε → Prop} {T : α → Store → Prop} {op : Action ε α} {x : α}
    (h : (evolve Q s).Settles E T s (op s)) (hx : op s = .ok x s') :
    s.Evolves s' ∧ s'.Orderly Q := by
  rw [hx] at h
  exact h.1.store

end Calls

end Policy

namespace Engine

open Policy

/-- What becomes of a store by instantiations and invocations one after the other, each of which may
succeed or fail. The host functions that are supplied are orderly. -/
inductive Session (s : Store) : Store → Prop
  | nil : Session s s
  | instantiate {s' : Store} (fuel : Nat) (m : Module) (r : Host.Resolver) : Session s s' →
    r.Orderly (fun _ ↦ True) →
    Session s (Outcome.final (instantiate fuel m r s'))
  | invoke {s' : Store} (fuel inst : Nat) (name : String) (args : List Value) : Session s s' →
    Session s (Outcome.final (invoke fuel inst name args s'))
  | call {s' : Store} (fuel func : Nat) (args : List Value) : Session s s' →
    Session s (Outcome.final (call fuel func args s'))

/-- Whatever is in a store persists through a session, and evolves in no other way than it may. -/
theorem session_evolves {s s' : Store} (hs : s.Orderly (fun _ ↦ True))
    (h : Session s s') : s.Evolves s' := by
  have hlinks := @evolve_links (fun _ ↦ True) s
  suffices hstore : (evolve (fun _ ↦ True) s).store s' from hstore.1
  induction h with
  | nil => exact ⟨.refl s, hs⟩
  | @instantiate s' fuel m r _ hr ih =>
    have hact : Host.Act.Orderly (fun _ ↦ True)
        (.instantiate m r fun _ ↦ .finish (.ok [])) :=
      .instantiate trivial hr fun _ ↦ .finish trivial
    obtain ⟨hatt, hhon⟩ := evolve_attends fuel hact ih
    exact (hlinks.instantiate (hlinks.serves hatt rfl hhon) ih).final
  | @invoke s' fuel inst name args _ ih =>
    have hact : Host.Act.Orderly (fun _ ↦ True)
        (.invoke inst name args fun _ ↦ .finish (.ok [])) :=
      .invoke trivial fun _ ↦ .finish trivial
    obtain ⟨hatt, hhon⟩ := evolve_attends fuel hact ih
    exact (hlinks.invoke hatt rfl ih hhon).final
  | @call s' fuel func args _ ih =>
    have hact : Host.Act.Orderly (fun _ ↦ True)
        (.call func args fun _ ↦ .finish (.ok [])) :=
      .call trivial fun _ ↦ .finish trivial
    obtain ⟨hatt, hhon⟩ := evolve_attends fuel hact ih
    exact (hlinks.call hatt rfl ih hhon).final

/-- An instance whose exported function `"run"` calls the host, which calls back: `"spend"` drops a
segment, sets a global and adds a slot to a table. -/
def spending : Store where
  funcs := #[.code ⟨[], []⟩ 0 0, .host ⟨⟨[], []⟩, fun _ ↦ .invoke 0 "spend" [] .finish⟩,
    .code ⟨[], []⟩ 0 1]
  instances := #[{
    funcs := #[0, 1, 2], tables := #[0], globals := #[0], elems := #[0]
    exports := [("run", ⟨.func, 0⟩), ("spend", ⟨.func, 2⟩)]
    mod := {
      types := [⟨[], []⟩], funcTypes := [0, 0]
      functions := [⟨0, [], #[.call 1, .end_]⟩, ⟨0, [], #[.elemDrop 0, .i32Const 7, .globalSet 0,
        .refNull .funcref, .i32Const 1, .tableGrow 0, .drop, .end_]⟩] } }]
  heap.tables := #[.create ⟨.funcref, ⟨1, some 4⟩⟩]
  heap.globals := #[⟨⟨.i32, true⟩, .i32 1⟩]
  heap.elems := #[#[.funcref (some 0)]]

theorem orderly_spending : spending.Orderly (fun _ ↦ True) := by
  intro a f hf args
  match a with
  | 0 => cases hf
  | 1 =>
    cases hf
    exact .invoke trivial fun _ ↦ .finish trivial
  | 2 => cases hf
  | a + 3 => cases hf

theorem session_evolves_spending :
    spending.Orderly (fun _ ↦ True) ∧
    Session spending (Outcome.final (invoke 16 0 "run" [] spending)) ∧
    spending.Evolves (Outcome.final (invoke 16 0 "run" [] spending)) ∧
    (Outcome.final (invoke 16 0 "run" [] spending)).heap.elems = #[#[]] ∧
    (Outcome.final (invoke 16 0 "run" [] spending)).heap.globals = #[⟨⟨.i32, true⟩, .i32 7⟩] ∧
    (Outcome.final (invoke 16 0 "run" [] spending)).heap.tables.map (·.size) = #[2] := by
  have hsession := Session.invoke 16 0 "run" [] (.nil (s := spending))
  exact ⟨orderly_spending, hsession, session_evolves orderly_spending hsession,
    by decide +kernel, by decide +kernel, by decide +kernel⟩

end Engine

end Wasm
