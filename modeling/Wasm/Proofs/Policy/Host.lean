import Wasm.Proofs.Policy.Instantiate
import Wasm.Engine

namespace Wasm

namespace Engine

section Requests

variable (callHost : HostCall) (fuel : Nat)

/-- How the host goes on after a request, if it is told none but traps of the kind `T`. -/
inductive Follows (T : Trap → Prop) : Host.Act → Store → Host.Act → Store → Prop
  | log (vs : List Value) (next : Host.Act) (s : Store) :
    Follows T (.log vs next) s next { s with log := s.log ++ vs.toArray }
  | readLog (k : Array Value → Host.Act) (s : Store) : Follows T (.readLog k) s (k s.log) s
  | get (k : Heap → Host.Act) (s : Store) : Follows T (.get k) s (k s.heap) s
  | put (heap : Heap) (next : Host.Act) (s : Store) :
    Follows T (.put heap next) s next { s with heap }
  | alloc (e : Host.Fresh Host.Func) (k : Option Nat → Host.Act) (s : Store) :
    Follows T (.alloc e k) s (k (s.alloc e).1) (s.alloc e).2
  | call {func : Nat} {args : List Value} {k : Except Trap (List Value) → Host.Act}
    {r : Except Trap (List Value)} {s s' : Store} :
    attempt (Action.call callHost fuel func args) s = .ok r s' → (∀ t, r = .error t → T t) →
    Follows T (.call func args k) s (k r) s'
  | invoke {inst : Nat} {name : String} {args : List Value}
    {k : Except Trap (List Value) → Host.Act} {r : Except Trap (List Value)} {s s' : Store} :
    attempt (Action.invoke callHost fuel inst name args) s = .ok r s' →
    (∀ t, r = .error t → T t) → Follows T (.invoke inst name args k) s (k r) s'
  | instantiate {m : Module} {r : Host.Resolver} {k : Except LinkError Nat → Host.Act}
    {x : Except LinkError Nat} {s s' : Store} :
    attempt (Link.instantiate callHost fuel m r) s = .ok x s' →
    (∀ e, x = .error e → e.Within T) → Follows T (.instantiate m r k) s (k x) s'

/-- A request leads to a call of `func` from outside, in the store `s'`. -/
inductive Launches (func : Nat) : List Value → Host.Act → Store → Store → Prop
  | call (args : List Value) (k : Except Trap (List Value) → Host.Act) (s : Store) :
    Launches func args (.call func args k) s s
  | invoke {inst : Nat} {name : String} {s : Store} (args : List Value)
    (k : Except Trap (List Value) → Host.Act) : s.export? inst name = some ⟨.func, func⟩ →
    Launches func args (.invoke inst name args k) s s
  | start {m : Module} {r : Host.Resolver} {s s' : Store} (k : Except LinkError Nat → Host.Act) :
    Link.Starts callHost fuel m r s func s' → Launches func [] (.instantiate m r k) s s'

/-- The states of the machines that run while a request is served. -/
inductive Running (act : Host.Act) (s : Store) : Machine → Prop
  | func {func : Nat} {args : List Value} {s' : Store} {m : Machine} :
    Launches callHost fuel func args act s s' → s'.Accepts func args →
    Machine.Visits callHost (Machine.startFunc callHost func args) s'.busier m → Running act s m
  | const {mod : Module} {r : Host.Resolver} {k : Except LinkError Nat → Host.Act} {handle : Nat}
    {code : Code} {s' : Store} {m : Machine} : act = .instantiate mod r k →
    Link.Evaluates callHost fuel mod r s handle code s' →
    Machine.Visits callHost (Machine.startConst handle code) s' m → Running act s m

/-- The traps that a request, or an initializer that is evaluated for it, ends in. -/
inductive Traps (t : Trap) : Host.Act → Store → Prop
  | call {func : Nat} {args : List Value} {k : Except Trap (List Value) → Host.Act} {s s' : Store} :
    Action.call callHost fuel func args s = .error (.failed t) s' → Traps t (.call func args k) s
  | invoke {inst : Nat} {name : String} {args : List Value}
    {k : Except Trap (List Value) → Host.Act} {s s' : Store} :
    Action.invoke callHost fuel inst name args s = .error (.failed t) s' →
    Traps t (.invoke inst name args k) s
  | init {m : Module} {r : Host.Resolver} {k : Except LinkError Nat → Host.Act} {handle : Nat}
    {code : Code} {s s₁ s₂ : Store} : Link.Evaluates callHost fuel m r s handle code s₁ →
    Action.evalConst callHost fuel handle code s₁ = .error (.failed t) s₂ →
    Traps t (.instantiate m r k) s
  | link {m : Module} {r : Host.Resolver} {k : Except LinkError Nat → Host.Act} {e : LinkError}
    {s s' : Store} : Link.instantiate callHost fuel m r s = .error (.failed e) s' →
    e.trap? = some t → Traps t (.instantiate m r k) s

/-- The host functions that are called while a request is served, with their arguments and
stores. -/
inductive Consults (act : Host.Act) (s : Store) (f : Host.Func) (args : List Value) : Store → Prop
  | first {func : Nat} {given : List Value} {s' : Store} :
    Launches callHost fuel func given act s s' → s'.Accepts func given →
    (Machine.opening s'.busier given).CallsOut func f args → Consults act s f args s'.busier
  | later {m : Machine} {s' : Store} : Running callHost fuel act s m → m.Asks f args s' →
    Consults act s f args s'

theorem Follows.imp {callHost : HostCall} {fuel : Nat} {T T' : Trap → Prop} {act act' : Host.Act}
    {s s' : Store} (h : Follows callHost fuel T act s act' s') (hT : ∀ t, T t → T' t) :
    Follows callHost fuel T' act s act' s' := by
  cases h with
  | log vs => exact .log vs _ s
  | readLog k => exact .readLog k _
  | get k => exact .get k _
  | put heap => exact .put heap _ s
  | alloc e k => exact .alloc e k s
  | call hx ht => exact .call hx fun t e ↦ hT t (ht t e)
  | invoke hx ht => exact .invoke hx fun t e ↦ hT t (ht t e)
  | instantiate hx ht => exact .instantiate hx fun e he t htrap ↦ hT t (ht e he t htrap)

/-- The host functions that are called are those of the store. -/
theorem Consults.mem {callHost : HostCall} {fuel : Nat} {act : Host.Act} {s s' : Store}
    {f : Host.Func} {args : List Value} (h : Consults callHost fuel act s f args s') :
    ∃ a : Nat, s'.funcs[a]? = some (.host f) := by
  have hmem (s : Store) {a : Nat} (ha : s.func a = .ok (.host f)) :
      ∃ a : Nat, s.funcs[a]? = some (.host f) := by
    unfold Store.func at ha
    split at ha
    · rename_i hg
      cases ha
      exact ⟨a, hg⟩
    · cases ha
  cases h with
  | first _ _ hout => exact hmem _ hout.func
  | later _ hask =>
    obtain ⟨_, m', -, hout, rfl⟩ := hask
    exact hmem _ hout.func

end Requests

/-- The requests that a client, given as a host with the store `s`, and the host functions it leads
to make. The number is the depth to which host functions may still be nested. -/
inductive Asked (fuel : Nat) (client : Host.Act) (s : Store) : Nat → Host.Act → Store → Prop
  | client : Asked fuel client s fuel client s
  | next {n : Nat} {act act' : Host.Act} {s₁ s₂ : Store} : Asked fuel client s n act s₁ →
    Follows (hostCall fuel n) fuel (fun _ ↦ True) act s₁ act' s₂ → Asked fuel client s n act' s₂
  | host {n : Nat} {act : Host.Act} {f : Host.Func} {args : List Value} {s₁ s₂ : Store} :
    Asked fuel client s (n + 1) act s₁ →
    Consults (hostCall fuel (n + 1)) fuel act s₁ f args s₂ → Asked fuel client s n (f.run args) s₂

end Engine

namespace Policy

open Engine

variable {R : Policy} {Own : Nat → Prop} {M : Module → Prop} {H : Host.Func → Prop} {fuel : Nat}
  {callHost : HostCall} {s : Store}

def Honors (R : Policy) (M : Module → Prop) (H : Host.Func → Prop) (s : Store) : Host.Act → Prop
  | .finish (.ok vs) => ∀ v ∈ vs, R.value s v
  | .finish (.error t) => R.trap t
  | .log vs _ => R.Leads s { s with log := s.log ++ vs.toArray }
  | .readLog _ | .get _ => True
  | .put heap _ => R.Leads s { s with heap }
  | .alloc e _ => R.Leads s (s.alloc e).2
  | .call func args _ => (∀ v ∈ args, R.value s v) ∧
    (s.funcs.size ≤ func → R.trap (.invalidAddress .func func))
  | .invoke inst _ args _ => (∀ v ∈ args, R.value s v) ∧
    (s.instances.size ≤ inst → R.trap (.invalidAddress .instance_ inst))
  | .instantiate m r _ => M m ∧
    (∀ i ∈ m.imports, ∀ type f, r.func i.source i.name type = some f → H f) ∧
    ∀ i s', Link.Binds m r s i s' → ∀ type v, i.desc = .global type →
      r.global i.source i.name type = some v → R.value s' v

/-- A kind of requests that keep to the policy, with whatever follows them. The number is the depth
to which host functions may still be nested. -/
structure Conducts (R : Policy) (M : Module → Prop) (H : Host.Func → Prop) (fuel : Nat)
    (A : Nat → Host.Act → Store → Prop) : Prop where
  honors {n : Nat} {act : Host.Act} {s : Store} : A n act s → R.store s → R.Honors M H s act
  items {n : Nat} {m : Module} {r : Host.Resolver} {k : Except LinkError Nat → Host.Act} {s : Store}
    {v : Value} : A n (.instantiate m r k) s → Link.Item (hostCall fuel n) fuel m r s v → R.slot v
  next {n : Nat} {act act' : Host.Act} {s s' : Store} : A n act s →
    Follows (hostCall fuel n) fuel R.trap act s act' s' → A n act' s'
  host {n : Nat} {act : Host.Act} {f : Host.Func} {args : List Value} {s s' : Store} :
    A (n + 1) act s → Consults (hostCall fuel (n + 1)) fuel act s f args s' → R.store s' →
    A n (f.run args) s'

section Requests

/-- Whatever host function is called while the request is served keeps to the policy, and so do the
items of the element segments of a module that is instantiated. -/
structure Attends (R : Policy) (callHost : HostCall) (fuel : Nat) (act : Host.Act) (s : Store) :
    Prop where
  hosts : ∀ f args s', Consults callHost fuel act s f args s' → R.store s' →
    (∀ v ∈ args, R.value s' v) → R.Answers callHost f args s'
  items : ∀ m r k v, act = .instantiate m r k → Link.Item callHost fuel m r s v → R.slot v

variable {act : Host.Act} (hL : R.Links Own M H) (ha : R.Attends callHost fuel act s)

include hL ha

theorem Links.carries {func : Nat} {args : List Value} {s' : Store}
    (ho : Launches callHost fuel func args act s s') (hacc : s'.Accepts func args) :
    R.Carries callHost func args s'.busier where
  first f args' hout hs := ha.hosts f args' _ (.first ho hacc hout) hs
  steps := hL.toEnters.steps hL.toAdmits fun _ f args' s'' hv hask hs ↦
    ha.hosts f args' s'' (.later (.func ho hacc hv) hask) hs

theorem Links.serves {m : Module} {r : Host.Resolver} {k : Except LinkError Nat → Host.Act}
    (hact : act = .instantiate m r k) (hh : R.Honors M H s act) :
    R.Serves M H callHost fuel m r s := by
  subst hact
  obtain ⟨hm, hfunc, hglobal⟩ := hh
  refine ⟨hm, hfunc, hglobal, fun handle code s' heval ↦ ?_, fun v ↦ ha.items m r k v rfl,
    fun addr s' hstart hacc ↦ ?_⟩
  · refine hL.toEnters.steps hL.toAdmits fun _ f args s'' hv hask hs ↦ ?_
    exact ha.hosts f args s'' (.later (.const rfl heval hv) hask) hs
  · exact hL.carries ha (.start k hstart) hacc

theorem Links.launches (hs : R.store s) (hh : R.Honors M H s act) {func : Nat} {args : List Value}
    {s' : Store} (ho : Launches callHost fuel func args act s s') (hacc : s'.Accepts func args) :
    R.Leads s' s'.busier ∧ R.grants s'.busier .func func ∧ ∀ v ∈ args, R.value s'.busier v := by
  have hopen : R.store s' ∧ ∀ v ∈ args, R.value s' v := by
    cases ho with
    | call args k => exact ⟨hs, hh.1⟩
    | invoke args k hexp => exact ⟨hs, hh.1⟩
    | start k hstart => exact ⟨(hL.starts (hL.serves ha rfl hh) hs hstart).1, nofun⟩
  obtain ⟨g, hg, -⟩ := hacc.typed
  have hf : R.grants s' .func func := hL.present hopen.1 (Store.lt_of_func hg)
  have hbusy := hL.toEnters.busier hopen.1
  exact ⟨hbusy, hbusy.grants _ _ hf, fun v hv ↦ hbusy.value (hopen.2 v hv)⟩

theorem Links.safe (hs : R.store s) (hh : R.Honors M H s act) {m : Machine}
    (hm : Running callHost fuel act s m) : R.Safe m := by
  cases hm with
  | func ho hacc hv =>
    obtain ⟨hbusy, hf, hargs⟩ := hL.launches ha hs hh ho hacc
    exact (hL.carries ha ho hacc).safe hL.toEnters hbusy.store hargs hf hv
  | const hact heval hv =>
    have hserves := hL.serves ha hact hh
    obtain ⟨hs', hi⟩ := hL.evaluates hserves hs heval
    exact (hserves.init _ _ _ heval).safe hL.toReports hs' hi hv

theorem Links.consults (hs : R.store s) (hh : R.Honors M H s act) {f : Host.Func}
    {args : List Value} {s' : Store} (hc : Consults callHost fuel act s f args s') :
    R.store s' := by
  cases hc with
  | first ho hacc hout => exact (hL.launches ha hs hh ho hacc).1.store
  | @later m _ hm hask =>
    have hsafe := hL.safe ha hs hh hm
    obtain ⟨func, m', hcall, -, rfl⟩ := hask
    cases hcall with
    | mk hstep _ =>
      have hok := hL.toAdmits.step hsafe.store m rfl hsafe
      rw [hstep] at hok
      exact hok.1.store

theorem Links.call {func : Nat} {args : List Value} {k : Except Trap (List Value) → Host.Act}
    (hact : act = .call func args k) (hs : R.store s) (hh : R.Honors M H s act) :
    R.Settles R.trap (fun vs s' ↦ ∀ v ∈ vs, R.value s' v) s
      (Action.call callHost fuel func args s) := by
  subst hact
  exact hL.actionCall hs hh.1 (hL.present (e := .func) hs) hh.2 (hL.carries ha (.call args k s))

theorem Links.invoke {inst : Nat} {name : String} {args : List Value}
    {k : Except Trap (List Value) → Host.Act} (hact : act = .invoke inst name args k)
    (hs : R.store s) (hh : R.Honors M H s act) :
    R.Settles R.trap (fun vs s' ↦ ∀ v ∈ vs, R.value s' v) s
      (Action.invoke callHost fuel inst name args s) := by
  subst hact
  exact hL.actionInvoke hL.toAdmits hs hh.1 (hL.present (e := .instance_) hs) hh.2
    fun addr hexp ↦ hL.carries ha (.invoke args k hexp)

theorem Links.traps (hs : R.store s) (hh : R.Honors M H s act) {t : Trap}
    (ht : Traps callHost fuel t act s) : R.trap t := by
  cases ht with
  | call h => exact (hL.call ha rfl hs hh).failure h
  | invoke h => exact (hL.invoke ha rfl hs hh).failure h
  | init heval h =>
    have hserves := hL.serves ha rfl hh
    obtain ⟨hs', hi⟩ := hL.evaluates hserves hs heval
    exact (hL.toReports.evalConst hs' hi (hserves.init _ _ _ heval)).failure h
  | link h htrap => exact (hL.instantiate (hL.serves ha rfl hh) hs).failure h t htrap

end Requests

theorem Settles.attempt {ε α β : Type} {E : ε → Prop} {Q : α → Store → Prop} {P : β → Store → Prop}
    {op : Action ε α} {k : Except ε α → Action Trap β} (h : R.Settles E Q s (op s))
    (hk : ∀ x s', Engine.attempt op s = .ok x s' → R.Leads s s' → (∀ e, x = .error e → E e) →
      R.Settles R.trap P s' (k x s')) :
    R.Settles R.trap P s ((Engine.attempt op >>= k) s) := by
  rw [Outcome.bind_apply]
  unfold Engine.attempt at hk ⊢
  generalize op s = r at h hk
  cases r with
  | ok a s' => exact (hk _ s' rfl h.1 nofun).after h.1
  | error e s' =>
    cases e with
    | outOfFuel => exact h
    | failed e =>
      refine (hk _ s' rfl h.1 ?_).after h.1
      rintro e ⟨⟩
      exact h.2

theorem Settles.answer {ε α : Type} {E : ε → Prop} {Q : α → Store → Prop} {op : Action ε α}
    {x : Except ε α} {s' : Store} (h : R.Settles E Q s (op s))
    (hx : Engine.attempt op s = .ok x s') : R.store s' ∧ ∀ e, x = .error e → E e := by
  unfold Engine.attempt at hx
  generalize op s = r at h hx
  cases r with
  | ok a s'' =>
    cases hx
    exact ⟨h.1.store, nofun⟩
  | error e s'' =>
    cases e with
    | outOfFuel => cases hx
    | failed e =>
      cases hx
      refine ⟨h.1.store, ?_⟩
      rintro e ⟨⟩
      exact h.2

/-- The host is told none but traps that the policy tolerates. -/
theorem Links.follows (hL : R.Links Own M H) {T : Trap → Prop} {act act' : Host.Act} {s' : Store}
    (ha : R.Attends callHost fuel act s) (hs : R.store s) (hh : R.Honors M H s act)
    (hf : Follows callHost fuel T act s act' s') :
    R.store s' ∧ Follows callHost fuel R.trap act s act' s' := by
  cases hf with
  | log vs => exact ⟨Leads.store hh, .log vs _ s⟩
  | readLog k => exact ⟨hs, .readLog k s⟩
  | get k => exact ⟨hs, .get k s⟩
  | put heap => exact ⟨Leads.store hh, .put heap _ s⟩
  | alloc e k => exact ⟨Leads.store hh, .alloc e k s⟩
  | call hx _ =>
    obtain ⟨hs', ht⟩ := (hL.call ha rfl hs hh).answer hx
    exact ⟨hs', .call hx ht⟩
  | invoke hx _ =>
    obtain ⟨hs', ht⟩ := (hL.invoke ha rfl hs hh).answer hx
    exact ⟨hs', .invoke hx ht⟩
  | instantiate hx _ =>
    obtain ⟨hs', ht⟩ := (hL.instantiate (hL.serves ha rfl hh) hs).answer hx
    exact ⟨hs', .instantiate hx ht⟩

variable {A : Nat → Host.Act → Store → Prop}

/-- What the host asks for, where host functions that are called on the way are known to keep to the
policy. -/
theorem Links.performs (hL : R.Links Own M H) (hC : R.Conducts M H fuel A) {n : Nat}
    (ha : ∀ act s, A n act s → R.Attends (hostCall fuel n) fuel act s) (act : Host.Act) :
    ∀ s, A n act s → R.store s → R.Settles R.trap (fun vs s' ↦ ∀ v ∈ vs, R.value s' v) s
      (perform (hostCall fuel n) fuel act s) := by
  induction act using Runner.perform.induct with
  | case1 vs => exact fun s hA hs ↦ ⟨.refl hs, hC.honors hA hs⟩
  | case2 t => exact fun s hA hs ↦ ⟨.refl hs, hC.honors hA hs⟩
  | case3 vs next ih =>
    intro s hA hs
    have hlead : R.Leads s _ := hC.honors hA hs
    exact (ih _ (hC.next hA (.log vs next s)) hlead.store).after hlead
  | case4 k ih => exact fun s hA hs ↦ ih s s (hC.next hA (.readLog k s)) hs
  | case5 k ih => exact fun s hA hs ↦ ih s s (hC.next hA (.get k s)) hs
  | case6 heap next ih =>
    intro s hA hs
    have hlead : R.Leads s _ := hC.honors hA hs
    exact (ih _ (hC.next hA (.put heap next s)) hlead.store).after hlead
  | case7 e k ih =>
    intro s hA hs
    have hlead : R.Leads s _ := hC.honors hA hs
    exact (ih _ _ (hC.next hA (.alloc e k s)) hlead.store).after hlead
  | case8 func args k ih =>
    intro s hA hs
    refine (hL.call (ha _ s hA) rfl hs (hC.honors hA hs)).attempt fun x s' hx hlead ht ↦ ?_
    exact ih x s' (hC.next hA (.call hx ht)) hlead.store
  | case9 inst name args k ih =>
    intro s hA hs
    refine (hL.invoke (ha _ s hA) rfl hs (hC.honors hA hs)).attempt fun x s' hx hlead ht ↦ ?_
    exact ih x s' (hC.next hA (.invoke hx ht)) hlead.store
  | case10 m r k ih =>
    intro s hA hs
    have hserves := hL.serves (ha _ s hA) rfl (hC.honors hA hs)
    refine (hL.instantiate hserves hs).attempt fun x s' hx hlead ht ↦ ?_
    exact ih x s' (hC.next hA (.instantiate hx ht)) hlead.store

/-- Host functions that are called while a request of the kind `A` is served keep to the policy. -/
theorem Links.attends (hL : R.Links Own M H) (hC : R.Conducts M H fuel A) (n : Nat) :
    ∀ act s, A n act s → R.Attends (hostCall fuel n) fuel act s := by
  -- A host function is performed at one level less of nesting than the code that calls it.
  induction n with
  | zero =>
    intro act s hA
    refine ⟨fun f args s' _ hs _ ↦ Leads.refl hs, ?_⟩
    rintro m r k v rfl
    exact hC.items hA
  | succ n ih =>
    intro act s hA
    refine ⟨fun f args s' hcons hs _ ↦ ?_, ?_⟩
    · exact hL.performs hC ih (f.run args) s' (hC.host hA hcons hs) hs
    · rintro m r k v rfl
      exact hC.items hA

/-- Whatever a client of the kind `A` and the host functions it leads to ask for is of the kind `A`,
in a store that keeps to the policy. -/
theorem Links.asked (hL : R.Links Own M H) (hC : R.Conducts M H fuel A) {client : Host.Act}
    (hclient : A fuel client s) (hs : R.store s) {n : Nat} {act : Host.Act} {s' : Store}
    (h : Asked fuel client s n act s') : A n act s' ∧ R.store s' := by
  induction h with
  | client => exact ⟨hclient, hs⟩
  | next _ hf ih =>
    obtain ⟨hA, hs'⟩ := ih
    -- `Asked` follows the host after any trap, `A` only after those that the policy tolerates.
    obtain ⟨hstore, hf'⟩ := hL.follows (hL.attends hC _ _ _ hA) hs' (hC.honors hA hs') hf
    exact ⟨hC.next hA hf', hstore⟩
  | host _ hc ih =>
    obtain ⟨hA, hs'⟩ := ih
    have hstore := hL.consults (hL.attends hC _ _ _ hA) hs' (hC.honors hA hs') hc
    exact ⟨hC.host hA hc hstore, hstore⟩

end Policy

end Wasm
