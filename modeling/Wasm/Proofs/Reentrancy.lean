import Wasm.Proofs.Caps
import Wasm.Proofs.Linking.Definitions

namespace Wasm

open Outcome

/-- As many runs are active as before, and the limits are the same. -/
structure Store.Steady (s s' : Store) : Prop where
  active : s'.active = s.active
  config : s'.config = s.config

instance : IsPreorder Store Store.Steady where
  refl _ := ⟨rfl, rfl⟩
  trans _ _ _ h h' := ⟨h'.active.trans h.active, h'.config.trans h.config⟩

theorem Store.steady_alloc (s : Store) (e : Host.Fresh Host.Func) : s.Steady (s.alloc e).2 := by
  cases e with
  | table type slots => obtain h | h := s.alloc_table type slots <;> rw [h] <;> exact ⟨rfl, rfl⟩
  | memory type bytes =>
    obtain h | ⟨m, -, h⟩ := s.alloc_memory type bytes <;> rw [h] <;> exact ⟨rfl, rfl⟩
  | _ => exact ⟨rfl, rfl⟩

variable {callHost : HostCall} {α : Type}

namespace Machine

theorem steady_onStack (op : StackM α) :
    Respects (fun m m' : Machine ↦ m.store.Steady m'.store) (onStack op) := by
  intro m
  simp only [onStack]
  cases op m.stack <;> exact ⟨rfl, rfl⟩

theorem law_steady (hhost : ∀ f args, Respects Store.Steady (callHost f args)) :
    Law callHost fun m m' ↦ m.store.Steady m'.store where
  refl m := refl_of Store.Steady m.store
  trans _ _ _ h h' := trans_of Store.Steady h h'
  evolves h := ⟨(congrArg Store.active h.store :), (congrArg Store.config h.store :)⟩
  enter _ _ _ _ _ _ := ⟨rfl, rfl⟩
  leave _ := ⟨rfl, rfl⟩
  host m f args := hhost f args m.store

theorem steady_start {op : Run α}
    (h : Respects (fun m m' : Machine ↦ m.store.Steady m'.store) op) :
    Respects Store.Steady (start op) := by
  intro s
  have hop := h (fresh s)
  rw [Action.start_apply]
  generalize op (fresh s) = x at hop
  cases x <;> exact hop

end Machine

section Parts

variable (hhost : ∀ f args, Respects Store.Steady (callHost f args)) (fuel : Nat)

namespace Action

/-- The one place where the number goes up is where it comes down again. -/
theorem steady_nested {op : Action Trap α} (h : Respects Store.Steady op) :
    Respects Store.Steady (nested op) := by
  intro s
  have hop := h { s with active := s.active + 1 }
  unfold nested
  generalize op { s with active := s.active + 1 } = x at hop
  cases x with
  | ok a s' =>
    refine ⟨?_, hop.config⟩
    have hactive := hop.active
    simp only [final] at hactive ⊢
    omega
  | error e s' =>
    refine ⟨?_, hop.config⟩
    have hactive := hop.active
    simp only [final] at hactive ⊢
    omega

include hhost

theorem steady_call (func : Nat) (args : List Value) :
    Respects Store.Steady (call callHost fuel func args) := by
  intro s
  have hsame := refl_of Store.Steady s
  rw [call_apply]
  cases s.func func with
  | error t => exact hsame
  | ok g =>
    by_cases hlen : args.length = g.type.params.length
    · simp only [hlen, if_true]
      cases Value.typeFault? args g.type.params with
      | some t => exact hsame
      | none =>
        by_cases hroom : s.config.maxReentrancy ≤ s.active
        · simp only [hroom, if_true]
          exact hsame
        · simp only [hroom, if_false]
          apply steady_nested
          exact Machine.steady_start ((Machine.law_steady hhost).runFunc fuel func args _)
    · simp only [hlen, if_false]
      exact hsame

theorem steady_invoke (inst : Nat) (name : String) (args : List Value) :
    Respects Store.Steady (invoke callHost fuel inst name args) := by
  refine Respects.get.bind fun s ↦ (Respects.check _).bind fun owner ↦ ?_
  cases owner.export? name with
  | none => exact .throw _
  | some x =>
    rcases x with ⟨kind, addr⟩
    cases kind with
    | func => exact steady_call hhost fuel addr args
    | _ => exact .throw _

theorem steady_evalConst (inst : Nat) (code : Code) :
    Respects Store.Steady (evalConst callHost fuel inst code) := by
  refine Machine.steady_start fun m ↦ ?_
  rcases (Machine.law_steady hhost).runConst fuel inst code m with hm | ⟨-, hm⟩
  · rw [hm]
    exact refl_of Store.Steady m.store
  · exact hm

end Action

namespace Link

variable (handle : Nat)

theorem steady_alloc {op : Store → Nat × Store} (h : ∀ s : Store, s.Steady (op s).2) :
    Respects Store.Steady (alloc op) := h

theorem steady_onHeap (fault : Trap → LinkError) (op : HeapM α) :
    Respects Store.Steady (onHeap fault op) := by
  intro s
  rw [onHeap_apply]
  cases op s.heap <;> exact ⟨rfl, rfl⟩

theorem steady_getInstance (i : Nat) : Respects Store.Steady (getInstance i) :=
  Respects.get.bind fun _ ↦ .check _

theorem steady_modifyInstance (i : Nat) (f : Instance → Instance) :
    Respects Store.Steady (modifyInstance i f) :=
  (steady_getInstance i).bind fun _ ↦ .modify fun _ ↦ ⟨rfl, rfl⟩

theorem steady_define (m : Module) (r : Host.Resolver) :
    Respects Store.Steady (define m r handle) := by
  have hdefine : Adheres Store.Steady Stop.Early (define m r handle) := by
    apply adheres_define <;> exact fun _ _ ↦ ⟨rfl, rfl⟩
  exact hdefine.respects

theorem steady_outlined (m : Module) (r : Host.Resolver) :
    Respects Store.Steady (outlined m r) := by
  refine .bind (steady_alloc fun _ ↦ ⟨rfl, rfl⟩) fun handle ↦ ?_
  exact (steady_define handle m r).bind fun inst ↦
    (steady_modifyInstance handle _).bind fun _ ↦ .pure _

theorem steady_bindExports (inst : Instance) (es : List Export) :
    Respects Store.Steady (bindExports inst es) :=
  Respects.foldlM (fun _ _ ↦ (Respects.check _).bind fun _ ↦ .pure _) _ _

include hhost

theorem steady_eval (site : Site) (code : Code) :
    Respects Store.Steady (eval (.machine callHost fuel) handle site code) :=
  (Action.steady_evalConst hhost fuel handle code).mapError _

theorem steady_evalOffset (site : Site) (code : Code) :
    Respects Store.Steady (evalOffset (.machine callHost fuel) handle site code) := by
  refine (steady_eval hhost fuel handle site code).bind fun v ↦ ?_
  cases v.i32? with
  | some n => exact .pure _
  | none => exact .throw _

theorem steady_defineGlobal (g : GlobalDef) :
    Respects Store.Steady (defineGlobal (.machine callHost fuel) handle g) := by
  refine (steady_eval hhost fuel handle _ _).bind fun v ↦ ?_
  have halloc : Respects Store.Steady (alloc (Store.allocGlobal ⟨g.type, v⟩) >>= fun addr ↦
      modifyInstance handle fun inst ↦ { inst with globals := inst.globals.push addr }) :=
    .bind (steady_alloc fun _ ↦ ⟨rfl, rfl⟩) fun _ ↦ steady_modifyInstance handle _
  exact .ite (.bind (.throw _) fun _ ↦ halloc) halloc

theorem steady_defineElem (e : ElemSegment) :
    Respects Store.Steady (defineElem (.machine callHost fuel) handle e) := by
  refine .bind ?_ fun refs ↦ steady_alloc fun _ ↦ ⟨rfl, rfl⟩
  cases e.items with
  | funcs is =>
    refine (steady_getInstance handle).bind fun inst ↦ .mapM (fun i ↦ ?_) is
    exact (Respects.check _).bind fun _ ↦ .pure _
  | exprs es => exact .mapM (steady_eval hhost fuel handle .elemItem) es

theorem steady_applyElem (e : ElemSegment × Nat) :
    Respects Store.Steady (applyElem (.machine callHost fuel) handle e) := by
  unfold applyElem
  cases e.1.mode with
  | passive => exact .pure _
  | declarative => exact (steady_onHeap _ _).bind fun _ ↦ .pure _
  | active table offset =>
    exact (steady_evalOffset hhost fuel handle _ offset).bind fun _ ↦
      (steady_getInstance handle).bind fun _ ↦ (Respects.check _).bind fun _ ↦
        (steady_onHeap _ _).bind fun _ ↦ steady_onHeap _ _

theorem steady_applyData (d : DataSegment × Nat) :
    Respects Store.Steady (applyData (.machine callHost fuel) handle d) := by
  unfold applyData
  cases d.1.mode with
  | passive => exact .pure _
  | active memory offset =>
    exact (steady_evalOffset hhost fuel handle _ offset).bind fun _ ↦
      (steady_getInstance handle).bind fun _ ↦ (Respects.check _).bind fun _ ↦
        (steady_onHeap _ _).bind fun _ ↦ steady_onHeap _ _

theorem steady_runStart (f : Idx) :
    Respects Store.Steady (runStart (.machine callHost fuel) handle f) :=
  (steady_getInstance handle).bind fun _ ↦ (Respects.check _).bind fun addr ↦
    .bind ((Action.steady_call hhost fuel addr []).mapError _) fun _ ↦ .pure _

variable (m : Module) (r : Host.Resolver)

theorem steady_withGlobals : Respects Store.Steady (withGlobals callHost fuel m r) :=
  (steady_outlined m r).bind fun handle ↦
    (Respects.forM (steady_defineGlobal hhost fuel handle) _).bind fun _ ↦ .pure _

theorem steady_withElems : Respects Store.Steady (withElems callHost fuel m r) :=
  (steady_withGlobals hhost fuel m r).bind fun handle ↦
    (Respects.mapM (steady_defineElem hhost fuel handle) _).bind fun _ ↦
      (steady_modifyInstance handle _).bind fun _ ↦ .pure _

theorem steady_elemsUsed : Respects Store.Steady (elemsUsed callHost fuel m r) :=
  (steady_withElems hhost fuel m r).bind fun x ↦
    (Respects.forM (steady_applyElem hhost fuel x.1) _).bind fun _ ↦ .pure _

theorem steady_withDatas : Respects Store.Steady (withDatas callHost fuel m r) :=
  (steady_elemsUsed hhost fuel m r).bind fun handle ↦
    (Respects.mapM (fun _ ↦ steady_alloc fun _ ↦ ⟨rfl, rfl⟩) _).bind fun _ ↦
      (steady_modifyInstance handle _).bind fun _ ↦ .pure _

theorem steady_datasUsed : Respects Store.Steady (datasUsed callHost fuel m r) :=
  (steady_withDatas hhost fuel m r).bind fun x ↦
    (Respects.forM (steady_applyData hhost fuel x.1) _).bind fun _ ↦ .pure _

theorem steady_ready : Respects Store.Steady (ready callHost fuel m r) :=
  (steady_datasUsed hhost fuel m r).bind fun handle ↦ (steady_getInstance handle).bind fun inst ↦
    (steady_bindExports inst _).bind fun _ ↦ (steady_modifyInstance handle _).bind fun _ ↦ .pure _

theorem steady_instantiate : Respects Store.Steady (instantiate callHost fuel m r) := by
  rw [instantiate_eq]
  refine (steady_ready hhost fuel m r).bind fun handle ↦ ?_
  cases m.start with
  | none => exact .pure _
  | some f => exact (steady_runStart hhost fuel handle f).bind fun _ ↦ .pure _

variable {m r} {handle} {s s' : Store}

theorem Evaluates.steady {code : Code} (h : Evaluates callHost fuel m r s handle code s') :
    s.Steady s' := by
  have htrans {s₁ s₂ s₃ : Store} := @trans_of Store Store.Steady s₁ s₂ s₃ _
  cases h with
  | global hdone _ hbefore =>
    exact htrans ((steady_outlined m r).ok hdone)
      ((Respects.forM (steady_defineGlobal hhost fuel handle) _).ok hbefore)
  | item hdone _ hbefore _ hvs =>
    apply htrans ((steady_withGlobals hhost fuel m r).ok hdone)
    exact htrans ((Respects.mapM (steady_defineElem hhost fuel handle) _).ok hbefore)
      ((Respects.mapM (steady_eval hhost fuel handle _) _).ok hvs)
  | elemOffset hdone _ hbefore _ =>
    exact htrans ((steady_withElems hhost fuel m r).ok hdone)
      ((Respects.forM (steady_applyElem hhost fuel handle) _).ok hbefore)
  | dataOffset hdone _ hbefore _ =>
    exact htrans ((steady_withDatas hhost fuel m r).ok hdone)
      ((Respects.forM (steady_applyData hhost fuel handle) _).ok hbefore)

end Link

end Parts

namespace Engine

variable (fuel : Nat)

theorem steady_attempt {ε : Type} {op : Action ε α} (h : Respects Store.Steady op) :
    Respects Store.Steady (attempt op) := by
  intro s
  have hop := h s
  unfold attempt
  generalize op s = x at hop
  cases x with
  | ok a s' => exact hop
  | error e s' => cases e <;> exact hop

theorem steady_perform (hhost : ∀ f args, Respects Store.Steady (callHost f args))
    (act : Host.Act) : Respects Store.Steady (perform callHost fuel act) := by
  induction act using Runner.perform.induct with
  | case1 vs => exact .pure vs
  | case2 t => exact .throw _
  | case3 vs next ih => exact .bind (.modify fun _ ↦ ⟨rfl, rfl⟩) fun _ ↦ ih
  | case4 k ih => exact Respects.get.bind fun s ↦ ih s
  | case5 k ih => exact Respects.get.bind fun s ↦ ih s
  | case6 heap next ih => exact .bind (.modify fun _ ↦ ⟨rfl, rfl⟩) fun _ ↦ ih
  | case7 e k ih =>
    have halloc : Respects Store.Steady (modifyGet (Store.alloc · e) : Action Trap (Option Nat)) :=
      fun s ↦ s.steady_alloc e
    exact halloc.bind ih
  | case8 func args k ih =>
    exact (steady_attempt (Action.steady_call hhost fuel func args)).bind ih
  | case9 inst name args k ih =>
    exact (steady_attempt (Action.steady_invoke hhost fuel inst name args)).bind ih
  | case10 m r k ih => exact (steady_attempt (Link.steady_instantiate hhost fuel m r)).bind ih

/-- However deep host functions and code call each other, each of them leaves as many runs active as
it found. -/
theorem steady_hostCall (n : Nat) (f : Host.Func) (args : List Value) :
    Respects Store.Steady (hostCall fuel n f args) := by
  induction n generalizing f args with
  | zero => exact .throw _
  | succ n ih => exact steady_perform fuel ih (f.run args)

end Engine

namespace Machine

variable (hhost : ∀ f args, Respects Store.Steady (callHost f args))

include hhost

theorem Visits.steady {start : Run Unit} {s : Store} {m : Machine}
    (hstart : Respects (fun m m' : Machine ↦ m.store.Steady m'.store) start)
    (h : Visits callHost start s m) : s.Steady m.store := by
  induction h with
  | start hm => exact hstart.ok hm
  | step _ hadv ih => exact trans_of Store.Steady ih (((law_steady hhost).advance 0).ok hadv)

theorem steady_startFunc (func : Nat) (args : List Value) :
    Respects (fun m m' : Machine ↦ m.store.Steady m'.store) (startFunc callHost func args) := by
  have hr := law_steady hhost
  have := hr.toIsPreorder
  refine (steady_onStack _).lift.bind fun _ ↦ (hr.call func).bind fun _ ↦ ?_
  exact (hr.ofEvolves evolves_resume).lift

theorem steady_startConst (inst : Nat) (code : Code) :
    Respects (fun m m' : Machine ↦ m.store.Steady m'.store) (startConst inst code) := by
  have hr := law_steady hhost
  have := hr.toIsPreorder
  exact (steady_onStack _).lift.bind fun _ ↦ (hr.ofEvolves evolves_resume).lift

omit hhost in
theorem Asks.steady {m : Machine} {f : Host.Func} {args : List Value} {s : Store}
    (h : m.Asks f args s) : m.store.Steady s := by
  rcases h with ⟨func, m', hcalling, -, rfl⟩
  cases hcalling with
  | mk hstep _ =>
    have hev : Evolves m _ := evolves_step.ok hstep
    exact ⟨(congrArg Store.active hev.store :), (congrArg Store.config hev.store :)⟩

end Machine

structure Store.Paced (c : Config) (s : Store) : Prop where
  config : s.config = c
  active : s.active ≤ c.maxReentrancy

namespace Store.Paced

variable {c : Config} {s s' : Store}

theorem steady (h : s.Paced c) (hs : s.Steady s') : s'.Paced c :=
  ⟨hs.config.trans h.config, hs.active ▸ h.active⟩

/-- A call is counted only if there is room for it. -/
theorem busier (h : s.Paced c) {func : Nat} {args : List Value} (hacc : s.Accepts func args) :
    s.busier.Paced c := by
  refine ⟨h.config, ?_⟩
  have hroom := hacc.room
  rw [h.config] at hroom
  exact hroom

end Store.Paced

namespace Engine

variable {fuel n : Nat} {act act' : Host.Act} {c : Config} {s s' : Store}

/-- The stores in which a call that a request leads to begins, besides those that there are while
the request is served. -/
inductive Moment (callHost : HostCall) (fuel : Nat) (act : Host.Act) (s : Store) : Store → Prop
  | begun {func : Nat} {args : List Value} {s' : Store} :
    Launches callHost fuel func args act s s' → s'.Accepts func args →
    Moment callHost fuel act s s'.busier
  | during {s' : Store} : During callHost fuel act s s' → Moment callHost fuel act s s'

section Requests

variable (hhost : ∀ f args, Respects Store.Steady (callHost f args))

include hhost

theorem Launches.steady {func : Nat} {args : List Value}
    (h : Launches callHost fuel func args act s s') : s.Steady s' := by
  cases h with
  | call args k => exact refl_of Store.Steady s
  | invoke args k _ => exact refl_of Store.Steady s
  | start k hstart =>
    cases hstart with
    | mk hready _ _ _ => exact (Link.steady_ready hhost fuel _ _).ok hready

theorem Moment.paced (h : Moment callHost fuel act s s') (hs : s.Paced c) : s'.Paced c := by
  cases h with
  | begun hlaunch hacc => exact (hs.steady (hlaunch.steady hhost)).busier hacc
  | during hd =>
    rcases hd with _ | hm
    · exact hs
    · cases hm with
      | func hlaunch hacc hv =>
        apply ((hs.steady (hlaunch.steady hhost)).busier hacc).steady
        exact hv.steady hhost (Machine.steady_startFunc hhost _ _)
      | const _ heval hv =>
        apply (hs.steady (heval.steady hhost)).steady
        exact hv.steady hhost (Machine.steady_startConst hhost _ _)

theorem Consults.paced {f : Host.Func} {args : List Value}
    (h : Consults callHost fuel act s f args s') (hs : s.Paced c) : s'.Paced c := by
  cases h with
  | first hlaunch hacc _ => exact Moment.paced hhost (.begun hlaunch hacc) hs
  | later hm hasks => exact (Moment.paced hhost (.during (.running hm)) hs).steady hasks.steady

theorem Follows.steady {T : Trap → Prop} (h : Follows callHost fuel T act s act' s') :
    s.Steady s' := by
  cases h with
  | log vs next => exact ⟨rfl, rfl⟩
  | readLog k => exact ⟨rfl, rfl⟩
  | get k => exact ⟨rfl, rfl⟩
  | put heap next => exact ⟨rfl, rfl⟩
  | alloc e k => exact s.steady_alloc e
  | call hx _ => exact (steady_attempt (Action.steady_call hhost fuel _ _)).ok hx
  | invoke hx _ => exact (steady_attempt (Action.steady_invoke hhost fuel _ _ _)).ok hx
  | instantiate hx _ => exact (steady_attempt (Link.steady_instantiate hhost fuel _ _)).ok hx

end Requests

theorem Asked.paced {client : Host.Act} (h : Asked fuel client s n act s') (hs : s.Paced c) :
    s'.Paced c := by
  induction h with
  | client => exact hs
  | next _ hfol ih => exact ih.steady (hfol.steady (steady_hostCall fuel _))
  | host _ hcons ih => exact hcons.paced (steady_hostCall fuel _) ih

/-- A call leaves as many runs active as there were, whether it returns or traps. If these are no
more than the limit, then no more are active at any moment of the call, to any depth of host
functions that call back. A call beyond the limit fails, and the store is as it was. -/
theorem call_reentrancy (fuel func : Nat) (args : List Value) (s : Store) :
    (final (call fuel func args s)).active = s.active ∧
    (s.active ≤ s.config.maxReentrancy → ∀ n act s₁ s₂,
      Asked fuel (.call func args .finish) s n act s₁ → Moment (hostCall fuel n) fuel act s₁ s₂ →
      s₂.active ≤ s.config.maxReentrancy) ∧
    (s.active = s.config.maxReentrancy → ∃ t, call fuel func args s = .error (.failed t) s) := by
  refine ⟨?_, fun hle n act s₁ s₂ hasked hmoment ↦ ?_, fun heq ↦ ?_⟩
  · exact (Action.steady_call (steady_hostCall fuel fuel) fuel func args s).active
  · have hpaced : s.Paced s.config := ⟨rfl, hle⟩
    exact (hmoment.paced (steady_hostCall fuel n) (hasked.paced hpaced)).active
  · unfold call
    rw [Action.call_apply]
    cases s.func func with
    | error t => exact ⟨t, rfl⟩
    | ok g =>
      simp only [heq, le_refl, if_true]
      split
      · cases Value.typeFault? args g.type.params with
        | some t => exact ⟨t, rfl⟩
        | none => exact ⟨_, rfl⟩
      · exact ⟨_, rfl⟩

def recursing : Store where
  config.maxReentrancy := 2
  funcs := #[.code ⟨[], []⟩ 0 0, .host ⟨⟨[], []⟩, fun _ ↦ .call 0 [] fun r ↦
    match r with
    | .ok _ => .finish (.ok [])
    | .error _ => .log [.i32 7] (.finish (.ok []))⟩]
  instances := #[{
    funcs := #[0, 1]
    mod := { types := [⟨[], []⟩], funcTypes := [0], functions := [⟨0, [], #[.call 1, .end_]⟩] } }]

theorem call_reentrancy_recursing :
    recursing.active ≤ recursing.config.maxReentrancy ∧
    value? (call 16 0 [] recursing) = some [] ∧
    (final (call 16 0 [] recursing)).log = #[.i32 7] ∧
    (final (call 16 0 [] recursing)).active = 0 ∧
    (∀ n act s₁ s₂, Asked 16 (.call 0 [] .finish) recursing n act s₁ →
      Moment (hostCall 16 n) 16 act s₁ s₂ → s₂.active ≤ 2) ∧
    ∃ t, call 16 0 [] { recursing with active := 2 } =
      .error (.failed t) { recursing with active := 2 } := by
  have hle : recursing.active ≤ recursing.config.maxReentrancy := by decide
  obtain ⟨hend, hmoments, -⟩ := call_reentrancy 16 0 [] recursing
  obtain ⟨-, -, hrefused⟩ := call_reentrancy 16 0 [] { recursing with active := 2 }
  exact ⟨hle, by decide +kernel, by decide +kernel, hend, hmoments hle, hrefused rfl⟩

end Engine

end Wasm
