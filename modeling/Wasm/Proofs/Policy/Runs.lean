import Wasm.Proofs.Policy.Instructions
import Wasm.Proofs.Machine.Run

namespace Wasm

namespace Machine

structure CallsOut (m : Machine) (func : Nat) (f : Host.Func) (args : List Value) : Prop where
  func : m.store.func func = .ok (.host f)
  args : ∃ stack, Stack.popValuesTyped f.type.params m.stack = .ok args stack

/-- The next step of `m` calls `func`, by when the machine is `m'`. -/
inductive Calling (m : Machine) (func : Nat) : Machine → Prop
  | mk {m' : Machine} {stack : Stack} : step m = .ok (.call func) m' →
    Stack.onFrame (modify fun f ↦ { f with pc := m'.pc + 1 }) m'.stack = .ok () stack →
    Calling m func { m' with stack }

def Asks (m : Machine) (f : Host.Func) (args : List Value) (s : Store) : Prop :=
  ∃ func m', m.Calling func m' ∧ m'.CallsOut func f args ∧ m'.store = s

/-- The states of the run that starts with `start` on a store, from the first instruction on. -/
inductive Visits (callHost : HostCall) (start : Run Unit) (store : Store) : Machine → Prop
  | start {m : Machine} : start (fresh store) = .ok () m → Visits callHost start store m
  | step {m m' : Machine} : Visits callHost start store m → advance callHost 0 m = .ok false m' →
    Visits callHost start store m'

def startFunc (callHost : HostCall) (func : Nat) (args : List Value) : Run Unit := do
  Stack.pushValues args
  call callHost func
  resume

def startConst (inst : Nat) (code : Code) : Run Unit := do
  Stack.pushFrame (initializer inst code)
  resume

def opening (store : Store) (args : List Value) : Machine where
  store := store
  stack := .of store.config.maxStackEntries args.reverse []

end Machine

def Store.busier (s : Store) : Store := { s with active := s.active + 1 }

/-- A call of `func` from outside leads to a run. -/
structure Store.Accepts (s : Store) (func : Nat) (args : List Value) : Prop where
  typed : ∃ g, s.func func = .ok g ∧ args.length = g.type.params.length ∧
    Value.typeFault? args g.type.params = none
  room : s.active < s.config.maxReentrancy

theorem Store.lt_of_func {s : Store} {addr : Nat} {g : FuncInst} (h : s.func addr = .ok g) :
    addr < s.funcs.size := by
  unfold Store.func at h
  split at h
  · rename_i hsome
    exact (Array.getElem?_eq_some_iff.mp hsome).1
  · cases h

theorem Value.typeFault?_address {vs : List Value} {ts : List ValType} {t : Trap}
    (h : typeFault? vs ts = some t) : t.dangling = false := by
  rw [← Stack.typeFault?_map_value] at h
  exact Stack.typeFault?_address h

theorem Value.hostFault?_address {vs : List Value} {ts : List ValType} {t : Trap}
    (h : hostFault? vs ts = some t) : t.dangling = false := by
  unfold hostFault? at h
  split at h
  · cases h
    rfl
  · exact typeFault?_address h

namespace Policy

open Machine

variable (R : Policy)

/-- A policy that admits calls of granted functions. -/
structure Enters : Prop extends R.Reports where
  code {s : Store} {a i k : Nat} {type : FuncType} : R.store s → R.grants s .func a →
    s.funcs[a]? = some (.code type i k) → R.grants s .instance_ i
  body {s : Store} {a i k : Nat} {type : FuncType} {owner : Instance} : R.store s →
    R.grants s .func a → s.funcs[a]? = some (.code type i k) → s.instances[i]? = some owner →
    owner.mod.functions.length ≤ k → R.trap (.invalidAddress .body k)
  active {s : Store} (n : Nat) : R.store s → R.Leads s { s with active := n }

/-- An outcome of an action on the store `s` that keeps to the policy, with failures of the kind
`E`. -/
def Settles {ε α : Type} (E : ε → Prop) (Q : α → Store → Prop) (s : Store) :
    EStateM.Result (Stop ε) Store α → Prop
  | .ok a s' => R.Leads s s' ∧ Q a s'
  | .error (.failed e) s' => R.Leads s s' ∧ E e
  | .error .outOfFuel s' => R.Leads s s'

def Answers (callHost : HostCall) (f : Host.Func) (args : List Value) (s : Store) : Prop :=
  R.Settles R.trap (fun vs s' ↦ ∀ v ∈ vs, R.value s' v) s (callHost f args s)

def Proceeds {α : Type} (Q : α → Machine → Prop) (s : Store) :
    EStateM.Result (Stop Trap) Machine α → Prop
  | .ok a m => R.Leads s m.store ∧ R.Safe m ∧ Q a m
  | .error (.failed t) m => R.Leads s m.store ∧ R.trap t
  | .error .outOfFuel m => R.Leads s m.store

variable {R} {callHost : HostCall} {m : Machine} {s : Store} {α β : Type}

theorem Settles.after {ε : Type} {E : ε → Prop} {Q : α → Store → Prop} {s' : Store}
    {r : EStateM.Result (Stop ε) Store α} (h : R.Settles E Q s' r) (hs : R.Leads s s') :
    R.Settles E Q s r := by
  cases r with
  | ok a s'' => exact ⟨hs.trans h.1, h.2⟩
  | error e s'' =>
    cases e with
    | failed e => exact ⟨hs.trans h.1, h.2⟩
    | outOfFuel => exact hs.trans h

theorem Settles.final {ε : Type} {E : ε → Prop} {Q : α → Store → Prop}
    {r : EStateM.Result (Stop ε) Store α} (h : R.Settles E Q s r) : R.store (Outcome.final r) := by
  cases r with
  | ok a s' => exact h.1.store
  | error e s' =>
    cases e with
    | failed e => exact h.1.store
    | outOfFuel => exact Leads.store h

theorem Settles.failure {ε : Type} {E : ε → Prop} {Q : α → Store → Prop}
    {r : EStateM.Result (Stop ε) Store α} (h : R.Settles E Q s r) {e : ε} {s' : Store}
    (hr : r = .error (.failed e) s') : E e := by
  subst hr
  exact h.2

theorem Proceeds.after {Q : α → Machine → Prop} {s' : Store}
    {r : EStateM.Result (Stop Trap) Machine α} (h : R.Proceeds Q s' r) (hs : R.Leads s s') :
    R.Proceeds Q s r := by
  cases r with
  | ok a m => exact ⟨hs.trans h.1, h.2⟩
  | error e m =>
    cases e with
    | failed e => exact ⟨hs.trans h.1, h.2⟩
    | outOfFuel => exact hs.trans h

theorem Reports.proceeds (hR : R.Reports) (hm : R.Safe m) {op : StackM α} {Q : α → Prop}
    (h : Stack.Keeps (R.entry m.store) op Q) :
    R.Proceeds (fun a _ ↦ Q a) m.store (Stop.lift (Machine.onStack op) m) := by
  have hop := h m.stack hm.stack
  simp only [Stop.lift, Machine.onStack]
  generalize op m.stack = r at hop
  cases r with
  | error t stack => exact ⟨.refl hm.store, hR.trap hop⟩
  | ok a stack => exact ⟨.refl hm.store, ⟨hm.store, hop.1⟩, hop.2⟩

theorem Reports.resume (hR : R.Reports) : R.Reads s resume fun _ ↦ True := by
  refine (hR.onStack (Stack.Keeps.currentFrame (P := R.entry s))).bind fun f _ ↦ ?_
  exact fun m hs hm ↦ ⟨hs, ⟨hm.store, hm.stack⟩, trivial⟩

/-- Going on in the frame that is the current one after a call or a return. -/
theorem Reports.resumes (hR : R.Reports) (hm : R.Safe m) (b : β) :
    R.Proceeds (fun _ _ ↦ True) m.store (match Machine.resume m with
      | .ok _ m' => .ok b m'
      | .error t m' => .error (.failed t) m') := by
  have hres := hR.resume m rfl hm
  have hlead : R.Leads m.store m.store := .refl hm.store
  generalize Machine.resume m = r at hres
  cases r with
  | ok u m' => exact ⟨hres.1 ▸ hlead, hres.2⟩
  | error t m' => exact ⟨hres.1 ▸ hlead, hres.2⟩

section Calls

variable {func : Nat}

/-- Calling a function of code pushes a frame of its instance. -/
theorem Enters.enter (hR : R.Enters) (hm : R.Safe m) (hf : R.grants m.store .func func)
    {type : FuncType} {i k : Nat} (hfunc : m.store.funcs[func]? = some (.code type i k)) :
    R.Proceeds (fun _ _ ↦ True) m.store (Stop.lift (Machine.enter func type i k) m) := by
  have hlead : R.Leads m.store m.store := .refl hm.store
  have hi := hR.code hm.store hf hfunc
  simp only [Stop.lift, enter_apply]
  by_cases hdepth : m.store.config.maxCallDepth ≤ m.stack.frames.size
  · simp only [hdepth, if_true]
    exact ⟨hlead, hR.trap rfl⟩
  · simp only [hdepth, if_false, Store.instance_]
    cases howner : m.store.instances[i]? with
    | none => exact ⟨hlead, hR.missing hm.store hi (Array.getElem?_eq_none_iff.mp howner)⟩
    | some owner =>
      simp only
      cases hbody : owner.mod.functions[k]? with
      | none =>
        exact ⟨hlead, hR.body hm.store hf hfunc howner (List.getElem?_eq_none_iff.mp hbody)⟩
      | some f =>
        have hargs := Stack.Keeps.popValuesTyped (P := R.entry m.store) type.params m.stack hm.stack
        simp only
        generalize Stack.popValuesTyped type.params m.stack = r at hargs
        cases r with
        | error t stack => exact ⟨hlead, hR.trap hargs⟩
        | ok args stack =>
          obtain ⟨hstack, hargs⟩ := hargs
          have hframe : R.entry m.store (.frame ⟨i, some func,
              (args ++ f.locals.map Value.zero).toArray, 0, type.results.length, f.body⟩) := by
            refine ⟨hi, fun v hv ↦ ?_⟩
            rw [List.mem_toArray, List.mem_append, List.mem_map] at hv
            obtain hv | ⟨t, _, rfl⟩ := hv
            · exact hargs v hv
            · exact value_zero t
          have hpush := Stack.Keeps.pushFrame hframe stack hstack
          simp only
          generalize Stack.pushFrame _ stack = r at hpush
          cases r with
          | error t stack' => exact ⟨hlead, hR.trap hpush⟩
          | ok u stack' => exact ⟨hlead, ⟨hm.store, hpush.1⟩, trivial⟩

/-- Calling a host function does to the store what the host does. -/
theorem Reports.callOut (hR : R.Reports) (hm : R.Safe m) {f : Host.Func}
    (hhost : ∀ args stack, Stack.popValuesTyped f.type.params m.stack = .ok args stack →
      (∀ v ∈ args, R.value m.store v) → R.Answers callHost f args m.store) :
    R.Proceeds (fun _ _ ↦ True) m.store (Machine.callOut callHost f m) := by
  have hargs := Stack.Keeps.popValuesTyped (P := R.entry m.store) f.type.params m.stack hm.stack
  rw [callOut_apply]
  generalize hpop : Stack.popValuesTyped f.type.params m.stack = r at hargs
  cases r with
  | error t stack => exact ⟨.refl hm.store, hR.trap hargs⟩
  | ok args stack =>
    obtain ⟨hstack, hargs⟩ := hargs
    have hans := hhost args stack hpop hargs
    rw [Answers] at hans
    simp only
    generalize callHost f args m.store = r at hans
    cases r with
    | error e store => cases e <;> exact hans
    | ok results store =>
      obtain ⟨hlead, hresults⟩ := hans
      simp only
      cases hfault : Value.hostFault? results f.type.results with
      | some t => exact ⟨hlead, hR.trap (Value.hostFault?_address hfault)⟩
      | none =>
        have hpush := Stack.Keeps.pushValues (P := R.entry store) hresults stack
          fun e he ↦ hlead.entry (hstack e he)
        simp only
        generalize Stack.pushValues results stack = r at hpush
        cases r with
        | error t stack' => exact ⟨hlead, hR.trap hpush⟩
        | ok u stack' => exact ⟨hlead, ⟨hlead.store, hpush.1⟩, trivial⟩

theorem Enters.call (hR : R.Enters) (hm : R.Safe m) (hf : R.grants m.store .func func)
    (hhost : ∀ f args, m.CallsOut func f args → (∀ v ∈ args, R.value m.store v) →
      R.Answers callHost f args m.store) :
    R.Proceeds (fun _ _ ↦ True) m.store (Machine.call callHost func m) := by
  rw [call_apply]
  unfold Store.func
  cases hfunc : m.store.funcs[func]? with
  | none => exact ⟨.refl hm.store, hR.missing hm.store hf (Array.getElem?_eq_none_iff.mp hfunc)⟩
  | some g =>
    cases g with
    | code type i k =>
      have henter := hR.enter hm hf hfunc
      simp only [Stop.lift] at henter ⊢
      generalize Machine.enter func type i k m = r at henter
      cases r <;> exact henter
    | host f =>
      refine hR.callOut hm fun args stack hpop hargs ↦ hhost f args ⟨?_, stack, hpop⟩ hargs
      rw [Store.func, hfunc]

variable {base : Nat}

theorem keeps_savePc (pc : Nat) :
    Stack.Keeps (R.entry s) (Stack.onFrame (modify fun f ↦ { f with pc := pc })) fun _ ↦ True :=
  .onFrame fun _ hf ↦ ⟨hf, trivial⟩

theorem Enters.conclude (hR : R.Enters) (hm : R.Safe m) {x : Flow} (hx : R.flow m.store x)
    (hhost : ∀ func stack f args, x = .call func →
      Stack.onFrame (modify fun f ↦ { f with pc := m.pc + 1 }) m.stack = .ok () stack →
      CallsOut { m with stack } func f args → (∀ v ∈ args, R.value m.store v) →
      R.Answers callHost f args m.store) :
    R.Proceeds (fun _ _ ↦ True) m.store (Machine.conclude callHost base x m) := by
  cases x with
  | next => exact ⟨.refl hm.store, ⟨hm.store, hm.stack⟩, trivial⟩
  | jump pc => exact ⟨.refl hm.store, ⟨hm.store, hm.stack⟩, trivial⟩
  | leave =>
    have hpop := Stack.Keeps.popFrame (P := R.entry m.store) m.stack hm.stack
    rw [conclude_leave_apply]
    generalize Stack.popFrame m.stack = r at hpop
    cases r with
    | error t stack => exact ⟨.refl hm.store, hR.trap hpop⟩
    | ok f stack =>
      have hm' : R.Safe { m with stack } := ⟨hm.store, hpop.1⟩
      simp only
      split
      · exact ⟨.refl hm.store, hm', trivial⟩
      · exact hR.resumes hm' false
  | call func =>
    have hsave := keeps_savePc (R := R) (s := m.store) (m.pc + 1) m.stack hm.stack
    rw [conclude_call_apply]
    generalize hstack : Stack.onFrame (modify fun f ↦ { f with pc := m.pc + 1 }) m.stack = r
      at hsave
    cases r with
    | error t stack => exact ⟨.refl hm.store, hR.trap hsave⟩
    | ok u stack =>
      have hm' : R.Safe { m with stack } := ⟨hm.store, hsave.1⟩
      have hcall := hR.call hm' hx fun f args ↦ hhost func stack f args rfl hstack
      simp only
      generalize Machine.call callHost func { m with stack } = r at hcall
      cases r with
      | error e m' => cases e <;> exact hcall
      | ok u m' =>
        obtain ⟨hlead, hm'', _⟩ := hcall
        simp only [proceed]
        split
        · exact (hR.resumes hm'' false).after hlead
        · exact ⟨hlead, ⟨hm''.store, hm''.stack⟩, trivial⟩

theorem Enters.advance (hR : R.Enters) (hA : R.Admits) (hm : R.Safe m)
    (hhost : ∀ f args s, m.Asks f args s → R.store s → (∀ v ∈ args, R.value s v) →
      R.Answers callHost f args s) :
    R.Proceeds (fun _ _ ↦ True) m.store (Machine.advance callHost base m) := by
  have hstep := hA.step hm.store m rfl hm
  rw [advance_apply]
  generalize hx : Machine.step m = r at hstep
  cases r with
  | error t m' => exact hstep
  | ok x m' =>
    obtain ⟨hlead, hm', hflow⟩ := hstep
    refine Proceeds.after (hR.conclude hm' hflow ?_) hlead
    rintro func stack f args rfl hsave hout hargs
    exact hhost f args m'.store ⟨func, _, .mk hx hsave, hout, rfl⟩ hm'.store hargs

/-- A run, every step of which keeps to the policy. Of the states of the run it is known that they
are of a kind `Z` which is closed under steps. -/
theorem runTo_proceeds {Z : Machine → Prop}
    (hstep : ∀ m, Z m → R.Safe m →
      R.Proceeds (fun _ _ ↦ True) m.store (Machine.advance callHost base m))
    (hnext : ∀ m m', Z m → Machine.advance callHost base m = .ok false m' → Z m')
    (fuel : Nat) (hZ : Z m) (hm : R.Safe m) :
    R.Proceeds (fun _ _ ↦ True) m.store (Machine.runTo callHost base fuel m) := by
  induction fuel generalizing m with
  | zero => exact Leads.refl hm.store
  | succ fuel ih =>
    have hadv := hstep m hZ hm
    rw [runTo_apply]
    generalize hr : Machine.advance callHost base m = r at hadv
    cases r with
    | error e m' => cases e <;> exact hadv
    | ok done m' =>
      obtain ⟨hlead, hm', _⟩ := hadv
      cases done with
      | true => exact ⟨hlead, hm', trivial⟩
      | false => exact (ih (hnext m m' hZ hr) hm').after hlead

end Calls

section Runs

variable {store : Store} {func fuel : Nat} {args : List Value}

/-- The first call of a run enters one frame at most. -/
theorem frames_call (hroom : args.length ≤ store.config.maxStackEntries)
    (h : Machine.call callHost func (opening store args) = .ok () m) :
    m.stack.frames.size ≤ 1 := by
  have hstart := @call_starts callHost (opening store args) store.config.maxStackEntries
    args.reverse func rfl (by simpa using hroom)
  rw [h] at hstart
  cases hstart with
  | enter _ _ _ _ => exact le_of_eq (Stack.size_frames_of _ _ _)
  | answer _ _ _ _ _ => exact (Stack.size_frames_of _ _ _).trans_le (Nat.zero_le 1)

theorem startFunc_apply (hroom : args.length ≤ store.config.maxStackEntries) {m' : Machine}
    (hcall : Machine.call callHost func (opening store args) = .ok () m)
    (hres : Machine.resume m = .ok () m') :
    startFunc callHost func args (fresh store) = .ok () m' := by
  change EStateM.bind (Stop.lift (Machine.onStack (Stack.pushValues args))) _ (fresh store) = _
  simp only [EStateM.bind, Stop.lift, Machine.onStack, pushValues_fresh, hroom, if_true]
  change EStateM.bind (Machine.call callHost func) _ (opening store args) = _
  simp only [EStateM.bind, hcall]
  change Stop.lift Machine.resume m = _
  simp only [Stop.lift, hres]

theorem holds_fresh : (fresh store).stack.Holds (R.entry store) :=
  fun e he ↦ absurd he (by simp [fresh])

theorem entry_initializer {inst : Nat} (hi : R.grants store .instance_ inst) (code : Code) :
    R.entry store (.frame (initializer inst code)) :=
  ⟨hi, fun v hv ↦ absurd hv (by simp [initializer])⟩

theorem safe_opening (hs : R.store store) (hargs : ∀ v ∈ args, R.value store v)
    (hroom : args.length ≤ store.config.maxStackEntries) : R.Safe (opening store args) := by
  have hpush := Stack.Keeps.pushValues (P := R.entry store) hargs (fresh store).stack holds_fresh
  rw [pushValues_fresh, if_pos hroom] at hpush
  exact ⟨hs, hpush.1⟩

theorem Reports.safe_resume (hR : R.Reports) {m' : Machine} (hm : R.Safe m)
    (h : (liftM Machine.resume : Run Unit) m = .ok () m') : R.Safe m' := by
  have hres := hR.resume m rfl hm
  rw [liftM_exec, Stop.lift] at h
  generalize Machine.resume m = x at h hres
  cases x <;> cases h
  exact hres.2.1

theorem Enters.safe_startFunc (hR : R.Enters) (hs : R.store store)
    (hargs : ∀ v ∈ args, R.value store v) (hf : R.grants store .func func)
    (hfirst : ∀ f args', (opening store args).CallsOut func f args' →
      (∀ v ∈ args', R.value store v) → R.Answers callHost f args' store)
    (h : startFunc callHost func args (fresh store) = .ok () m) : R.Safe m := by
  obtain ⟨_, m₁, hpush, h⟩ := Outcome.bind_ok h
  change Stop.lift (Machine.onStack (Stack.pushValues args)) (fresh store) = _ at hpush
  simp only [Stop.lift, Machine.onStack, pushValues_fresh] at hpush
  by_cases hroom : args.length ≤ store.config.maxStackEntries
  · simp only [hroom, if_true] at hpush
    cases hpush
    obtain ⟨_, m₂, hcall, hres⟩ := Outcome.bind_ok h
    have hok := hR.call (safe_opening hs hargs hroom) hf hfirst
    change Machine.call callHost func (opening store args) = _ at hcall
    rw [hcall] at hok
    exact hR.safe_resume hok.2.1 hres
  · simp only [hroom, if_false] at hpush
    cases hpush

theorem Reports.safe_startConst (hR : R.Reports) (hs : R.store store) {inst : Nat}
    (hi : R.grants store .instance_ inst) {code : Code}
    (h : startConst inst code (fresh store) = .ok () m) : R.Safe m := by
  obtain ⟨_, m₁, hpush, hres⟩ := Outcome.bind_ok h
  have hframe := Stack.Keeps.pushFrame (entry_initializer hi code) (fresh store).stack holds_fresh
  change Stop.lift (Machine.onStack (Stack.pushFrame (initializer inst code))) (fresh store) = _
    at hpush
  simp only [Stop.lift, Machine.onStack] at hpush
  generalize Stack.pushFrame (initializer inst code) (fresh store).stack = x at hpush hframe
  cases x <;> cases hpush
  exact hR.safe_resume ⟨hs, hframe.1⟩ hres

theorem Reports.popped (hR : R.Reports) {op : StackM α} {Q : Store → α → Prop}
    (hop : ∀ s, Stack.Keeps (R.entry s) op (Q s)) {r : EStateM.Result (Stop Trap) Machine Unit} :
    R.Proceeds (fun _ _ ↦ True) s r → R.Proceeds (fun a m ↦ Q m.store a) s (match r with
      | .error e m => .error e m
      | .ok _ m => Stop.lift (Machine.onStack op) m) := by
  intro hr
  cases r with
  | error e m => cases e <;> exact hr
  | ok u m =>
    obtain ⟨hlead, hm, _⟩ := hr
    have hpop := (hR.proceeds hm (hop m.store)).after hlead
    have hstore : ∀ a m', Stop.lift (Machine.onStack op) m = .ok a m' → m'.store = m.store := by
      intro a m' h
      simp only [Stop.lift, Machine.onStack] at h
      cases hr : op m.stack <;> rw [hr] at h <;> cases h
      rfl
    simp only
    generalize Stop.lift (Machine.onStack op) m = r at hpop hstore
    cases r with
    | error e m' => cases e <;> exact hpop
    | ok a m' =>
      obtain ⟨hlead', hm', ha⟩ := hpop
      rw [← hstore a m' rfl] at ha
      exact ⟨hlead', hm', ha⟩

variable (R) in
/-- Every step of the run that starts with `start` keeps to the policy. -/
def Steps (callHost : HostCall) (start : Run Unit) (store : Store) : Prop :=
  ∀ m, Visits callHost start store m → R.Safe m →
    R.Proceeds (fun _ _ ↦ True) m.store (Machine.advance callHost 0 m)

theorem Enters.steps (hR : R.Enters) (hA : R.Admits) {start : Run Unit}
    (hhost : ∀ m f args s, Visits callHost start store m → m.Asks f args s → R.store s →
      (∀ v ∈ args, R.value s v) → R.Answers callHost f args s) : R.Steps callHost start store :=
  fun m hv hm ↦ hR.advance hA hm fun f args s ↦ hhost m f args s hv

theorem Reports.run (hR : R.Reports) {start : Run Unit}
    (hframes : m.stack.frames.size ≤ 1) (hm : R.Safe m)
    (hstart : ∀ m', Machine.resume m = .ok () m' → start (fresh store) = .ok () m')
    (hsteps : R.Steps callHost start store) (fuel : Nat) :
    R.Proceeds (fun _ _ ↦ True) m.store (Machine.run callHost fuel m) := by
  have hres := hR.resume m rfl hm
  have hlead : R.Leads m.store m.store := .refl hm.store
  -- The run ends when the frame it started with is left, so there is nothing beneath it.
  rw [run_apply, Nat.sub_eq_zero_of_le hframes]
  generalize hm' : Machine.resume m = r at hres
  cases r with
  | error t m' => exact ⟨hres.1 ▸ hlead, hres.2⟩
  | ok u m' =>
    obtain ⟨hstore, hsafe, _⟩ := hres
    have hvisit : Visits callHost start store m' := .start (hstart m' hm')
    have hrun : R.Proceeds (fun _ _ ↦ True) m'.store (Machine.runTo callHost 0 fuel m') :=
      runTo_proceeds hsteps (fun _ _ hv h ↦ .step hv h) fuel hvisit hsafe
    exact hrun.after (hstore ▸ hlead)

theorem Enters.runFunc (hR : R.Enters) (hs : R.store store)
    (hargs : ∀ v ∈ args, R.value store v) (hf : R.grants store .func func)
    (hfirst : ∀ f args', (opening store args).CallsOut func f args' →
      (∀ v ∈ args', R.value store v) → R.Answers callHost f args' store)
    (hsteps : R.Steps callHost (startFunc callHost func args) store) (fuel arity : Nat) :
    R.Proceeds (fun vs m ↦ ∀ v ∈ vs, R.value m.store v) store
      (Machine.runFunc callHost fuel func args arity (fresh store)) := by
  rw [runFunc_apply, pushValues_fresh]
  by_cases hroom : args.length ≤ store.config.maxStackEntries
  · have hcall : R.Proceeds (fun _ _ ↦ True) store
        (Machine.call callHost func (opening store args)) :=
      hR.call (safe_opening hs hargs hroom) hf hfirst
    simp only [hroom, if_true]
    change R.Proceeds _ store (match Machine.call callHost func (opening store args) with
      | .error e m => .error e m
      | .ok _ m => _)
    generalize hm : Machine.call callHost func (opening store args) = r at hcall
    cases r with
    | error e m => cases e <;> exact hcall
    | ok u m =>
      obtain ⟨hlead, hsafe, _⟩ := hcall
      refine hR.popped (Q := fun s vs ↦ ∀ v ∈ vs, R.value s v) (fun s ↦ .popValues arity) ?_
      split
      · refine (hR.run (frames_call hroom hm) hsafe ?_ hsteps fuel).after hlead
        exact fun m' hres ↦ startFunc_apply hroom hm hres
      · exact ⟨hlead, hsafe, trivial⟩
  · simp only [hroom, if_false]
    exact ⟨.refl hs, hR.trap rfl⟩

theorem Reports.runConst (hR : R.Reports) (hs : R.store store) {inst : Nat}
    (hi : R.grants store .instance_ inst) {code : Code}
    (hsteps : R.Steps callHost (startConst inst code) store) (fuel : Nat) :
    R.Proceeds (fun v m ↦ R.value m.store v) store
      (Machine.runConst callHost fuel inst code (fresh store)) := by
  rw [runConst_apply, stack_fresh, Stack.pushFrame_of, Stack.height_nil, List.length_nil]
  by_cases hroom : 0 < store.config.maxStackEntries
  · have hpush := Stack.Keeps.pushFrame (entry_initializer hi code) (fresh store).stack holds_fresh
    rw [stack_fresh, Stack.pushFrame_of, Stack.height_nil, List.length_nil, if_pos hroom] at hpush
    simp only [hroom, if_true]
    refine hR.popped (Q := fun s v ↦ R.value s v) (fun s ↦ .popValue) ?_
    refine hR.run (le_of_eq (Stack.size_frames_of _ _ _)) ⟨hs, hpush.1⟩ ?_ hsteps fuel
    intro m' hres
    change EStateM.bind (Stop.lift (Machine.onStack (Stack.pushFrame _))) _ (fresh store) = _
    simp only [EStateM.bind, Stop.lift, Machine.onStack, stack_fresh, Stack.pushFrame_of,
      Stack.height_nil, List.length_nil, hroom, if_true]
    change Stop.lift Machine.resume _ = _
    simp only [Stop.lift, hres]
  · simp only [hroom, if_false]
    exact ⟨.refl hs, hR.trap rfl⟩

theorem Proceeds.settles {Q : α → Machine → Prop} {P : α → Store → Prop}
    {r : EStateM.Result (Stop Trap) Machine α} (hQ : ∀ a m, Q a m → P a m.store) :
    R.Proceeds Q s r → R.Settles R.trap P s (match r with
      | .ok a m => .ok a m.store
      | .error e m => .error e m.store) := by
  intro h
  cases r with
  | ok a m => exact ⟨h.1, hQ a m h.2.2⟩
  | error e m => cases e <;> exact h

end Runs

section Actions

variable {func fuel : Nat} {args : List Value}

variable (R) in
/-- A run of `func` on the store keeps to the policy at every step. -/
structure Carries (callHost : HostCall) (func : Nat) (args : List Value) (s : Store) : Prop where
  first : ∀ f args', (opening s args).CallsOut func f args' → R.store s →
    (∀ v ∈ args', R.value s v) → R.Answers callHost f args' s
  steps : R.Steps callHost (startFunc callHost func args) s

theorem Carries.safe (hC : R.Carries callHost func args s) (hR : R.Enters) (hs : R.store s)
    (hargs : ∀ v ∈ args, R.value s v) (hf : R.grants s .func func)
    (hm : Visits callHost (startFunc callHost func args) s m) : R.Safe m := by
  induction hm with
  | start h => exact hR.safe_startFunc hs hargs hf (fun f args' hout ↦ hC.first f args' hout hs) h
  | step hv hadv ih =>
    have hstep := hC.steps _ hv ih
    rw [hadv] at hstep
    exact hstep.2.1

theorem Steps.safe {inst : Nat} {code : Code} (hsteps : R.Steps callHost (startConst inst code) s)
    (hR : R.Reports) (hs : R.store s) (hi : R.grants s .instance_ inst)
    (hm : Visits callHost (startConst inst code) s m) : R.Safe m := by
  induction hm with
  | start h => exact hR.safe_startConst hs hi h
  | step hv hadv ih =>
    have hstep := hsteps _ hv ih
    rw [hadv] at hstep
    exact hstep.2.1

theorem Enters.busier (hR : R.Enters) (hs : R.store s) : R.Leads s s.busier :=
  hR.active _ hs

theorem Enters.nested (hR : R.Enters) {op : Action Trap (List Value)}
    (h : R.Settles R.trap (fun vs s' ↦ ∀ v ∈ vs, R.value s' v) s.busier (op s.busier)) :
    R.Settles R.trap (fun vs s' ↦ ∀ v ∈ vs, R.value s' v) s.busier (Action.nested op s) := by
  unfold Action.nested
  unfold Store.busier at h ⊢
  generalize op { s with active := s.active + 1 } = r at h
  cases r with
  | ok vs s' =>
    have hend := hR.active (s'.active - 1) h.1.store
    exact ⟨h.1.trans hend, fun v hv ↦ hend.value (h.2 v hv)⟩
  | error e s' =>
    cases e with
    | failed t => exact ⟨h.1.trans (hR.active _ h.1.store), h.2⟩
    | outOfFuel => exact Leads.trans h (hR.active _ (Leads.store h))

theorem Enters.actionCall (hR : R.Enters) (hs : R.store s)
    (hargs : ∀ v ∈ args, R.value s v) (hf : func < s.funcs.size → R.grants s .func func)
    (hmiss : s.funcs.size ≤ func → R.trap (.invalidAddress .func func))
    (hhost : s.Accepts func args → R.Carries callHost func args s.busier) :
    R.Settles R.trap (fun vs s' ↦ ∀ v ∈ vs, R.value s' v) s
      (Action.call callHost fuel func args s) := by
  have hlead : R.Leads s s := .refl hs
  rw [Action.call_apply]
  cases hg : s.func func with
  | error t =>
    unfold Store.func at hg
    split at hg
    · cases hg
    · rename_i hnone
      cases hg
      exact ⟨hlead, hmiss (Array.getElem?_eq_none_iff.mp hnone)⟩
  | ok g =>
    simp only
    by_cases hlen : args.length = g.type.params.length
    · simp only [hlen, if_true]
      cases hfault : Value.typeFault? args g.type.params with
      | some t => exact ⟨hlead, hR.trap (Value.typeFault?_address hfault)⟩
      | none =>
        simp only
        by_cases hroom : s.config.maxReentrancy ≤ s.active
        · simp only [hroom, if_true]
          exact ⟨hlead, hR.trap rfl⟩
        · simp only [hroom, if_false]
          have hbusy := hR.busier hs
          have hhost := hhost ⟨⟨g, hg, hlen, hfault⟩, Nat.not_le.mp hroom⟩
          have hrun := hR.runFunc hbusy.store (fun v hv ↦ hbusy.value (hargs v hv))
            (hbusy.grants _ _ (hf (Store.lt_of_func hg)))
            (fun f args' hout ↦ hhost.first f args' hout hbusy.store) hhost.steps fuel
            g.type.results.length
          exact (hR.nested (hrun.settles fun _ _ h ↦ h)).after hbusy
    · simp only [hlen, if_false]
      exact ⟨hlead, hR.trap rfl⟩

theorem Enters.actionInvoke (hR : R.Enters) (hA : R.Admits) (hs : R.store s)
    (hargs : ∀ v ∈ args, R.value s v) {inst : Nat} {name : String}
    (hi : inst < s.instances.size → R.grants s .instance_ inst)
    (hmiss : s.instances.size ≤ inst → R.trap (.invalidAddress .instance_ inst))
    (hhost : ∀ addr, s.export? inst name = some ⟨.func, addr⟩ → s.Accepts addr args →
      R.Carries callHost addr args s.busier) :
    R.Settles R.trap (fun vs s' ↦ ∀ v ∈ vs, R.value s' v) s
      (Action.invoke callHost fuel inst name args s) := by
  have hlead : R.Leads s s := .refl hs
  simp only [Action.invoke, Runner.invoke, Outcome.bind_apply, Outcome.get_apply, Store.instance_]
  cases howner : s.instances[inst]? with
  | none => exact ⟨hlead, hmiss (Array.getElem?_eq_none_iff.mp howner)⟩
  | some owner =>
    have hgrant := hi (Array.getElem?_eq_some_iff.mp howner).1
    have hexport : s.export? inst name = owner.export? name := by simp [Store.export?, howner]
    simp only [Stop.check, Outcome.pure_apply]
    cases hname : owner.export? name with
    | none => exact ⟨hlead, hR.trap rfl⟩
    | some x =>
      obtain ⟨kind, addr⟩ := x
      cases kind with
      | func =>
        have hf := (hA.owner hs hgrant howner).exports name addr hname
        exact hR.actionCall hs hargs (fun _ ↦ hf) (fun hle ↦ hR.missing hs hf hle)
          (hhost addr (hexport.trans hname))
      | table => exact ⟨hlead, hR.trap rfl⟩
      | memory => exact ⟨hlead, hR.trap rfl⟩
      | global => exact ⟨hlead, hR.trap rfl⟩

theorem Reports.evalConst (hR : R.Reports) (hs : R.store s) {inst : Nat}
    (hi : R.grants s .instance_ inst) {code : Code}
    (hsteps : R.Steps callHost (startConst inst code) s) :
    R.Settles R.trap (fun v s' ↦ R.value s' v) s (Action.evalConst callHost fuel inst code s) :=
  (hR.runConst hs hi hsteps fuel).settles fun _ _ h ↦ h

end Actions

end Policy

end Wasm
