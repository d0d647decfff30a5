import Wasm.Proofs.Machine.Programs
import Wasm.Proofs.Machine.Labels
import Wasm.Proofs.Results

namespace Wasm

open Outcome Stack

namespace Machine

/-- What may become of a machine while no function is entered or left. Ends that are found are those
of constructs in the code of its frames. -/
structure Evolves (m m' : Machine) : Prop where
  stack : m.stack.Evolves m'.stack
  store : m'.store.frozen = m.store.frozen
  ends : ∀ (s : Store) (const : Code),
    (∀ f, .frame f ∈ m.stack.entries → s.codeOf const f.func = some f.body) →
    m.ends.Coherent s const → m'.ends.Coherent s const

theorem Evolves.refl (m : Machine) : m.Evolves m := ⟨.refl _, rfl, fun _ _ _ h ↦ h⟩

theorem Evolves.trans {m m' m'' : Machine} (h : m.Evolves m') (h' : m'.Evolves m'') :
    m.Evolves m'' := by
  refine ⟨h.stack.trans h'.stack, h'.store.trans h.store, fun s const hcode hends ↦ ?_⟩
  refine h'.ends s const (fun f' hf' ↦ ?_) (h.ends s const hcode hends)
  obtain ⟨f, hf, hev⟩ := h.stack.frame f' hf'
  rw [hev.func, hev.body]
  exact hcode f hf

instance : IsPreorder Machine Evolves where
  refl := .refl
  trans _ _ _ := .trans

variable {α β : Type}

theorem Evolves.ofStack {m : Machine} {stack : Stack} (h : m.stack.Evolves stack) :
    m.Evolves { m with stack } :=
  ⟨h, rfl, fun _ _ _ hends ↦ hends⟩

theorem evolves_onStack {op : StackM α} (h : Respects Stack.Evolves op) :
    Respects Evolves (onStack op) := by
  intro m
  have hop := h m.stack
  simp only [onStack]
  generalize op m.stack = x at hop
  cases x <;> exact .ofStack hop

theorem evolves_setPc (pc : Nat) : Respects Evolves (setPc pc) :=
  fun m ↦ ⟨.refl m.stack, rfl, fun _ _ _ h ↦ h⟩

theorem evolves_resume : Respects Evolves resume :=
  (evolves_onStack evolves_currentFrame).bind fun f ↦ evolves_setPc f.pc

theorem Program.evolves {H : (γ : Type) → HeapM γ → Prop} {op : Exec α} (h : Program H op) :
    Respects Evolves op := by
  induction h with
  | pure a => exact .pure a
  | throw t => exact .throw t
  | bind _ _ ih ihk => exact ih.bind ihk
  | get _ _ ihk => exact Respects.get.bind ihk
  | stack hop => exact evolves_onStack hop
  | @heap _ op hop =>
    intro m
    rw [onHeap_apply]
    cases op m.store.heap <;> exact ⟨.refl m.stack, rfl, fun _ _ _ h ↦ h⟩

/-- The current frame is only read. -/
theorem currentFrame_bind {β : Type} (k : Frame → Exec β) (m : Machine) :
    (onStack currentFrame >>= k) m =
      match currentFrame m.stack with
      | .error t _ => .error t m
      | .ok f _ => k f m := by
  have hread := reads_currentFrame m.stack
  rw [bind_apply]
  simp only [onStack]
  generalize currentFrame m.stack = x at hread
  cases x with
  | error t stack =>
    cases hread
    rfl
  | ok f stack =>
    cases hread
    rfl

theorem blockEnd_apply (m : Machine) : blockEnd m =
    match currentFrame m.stack with
    | .error t _ => .error t m
    | .ok f _ =>
      match BlockEnds.find f.func f.body m.pc m.ends with
      | .ok e ends => .ok e { m with ends }
      | .error t ends => .error t { m with ends } := by
  change (onStack currentFrame >>= _) m = _
  rw [currentFrame_bind]
  cases currentFrame m.stack with
  | error t stack => rfl
  | ok f stack =>
    simp only [bind_apply, get_apply, onEnds]
    cases BlockEnds.find f.func f.body m.pc m.ends <;> rfl

/-- The end of a construct is found in the code of the current frame. -/
theorem evolves_blockEnd : Respects Evolves blockEnd := by
  intro m
  rw [blockEnd_apply]
  cases hframe : currentFrame m.stack with
  | error t stack => exact .refl m
  | ok f stack =>
    have hmem := (currentFrame_ok hframe).2
    have hends (s : Store) (const : Code)
        (hcode : ∀ f, .frame f ∈ m.stack.entries → s.codeOf const f.func = some f.body)
        (hm : m.ends.Coherent s const) := hm.find m.pc (hcode f hmem)
    simp only
    generalize BlockEnds.find f.func f.body m.pc m.ends = x at hends
    cases x with
    | ok e ends => exact ⟨.refl _, rfl, fun s const hcode hm ↦ (hends s const hcode hm).2⟩
    | error t ends => exact ⟨.refl _, rfl, fun s const hcode hm ↦ (hends s const hcode hm).2 ▸ hm⟩

theorem evolves_enterBlock (t : BlockType) (isLoop : Bool) :
    Respects Evolves (enterBlock t isLoop) :=
  (Program.blockArity (H := fun _ _ ↦ True) t).evolves.bind fun _ ↦ evolves_blockEnd.bind fun _ ↦
    Respects.get.bind fun _ ↦ evolves_onStack (evolves_pushLabel _)

theorem evolves_enterIf (t : BlockType) : Respects Evolves (enterIf t) := by
  refine (evolves_onStack (evolves_popAs _ _)).bind fun x ↦ ?_
  have henter := evolves_enterBlock t false
  split
  · exact henter.bind fun _ ↦ .pure _
  · refine evolves_blockEnd.bind fun e ↦ ?_
    cases e.elsePc with
    | some pc => exact henter.bind fun _ ↦ .pure _
    | none => exact .pure _

theorem evolves_exec (length : Nat) (i : Instr) : Respects Evolves (exec length i) := by
  cases hopens : i.opens with
  | false => exact (Program.exec hopens length).evolves
  | true =>
    cases i with
    | block t => exact (evolves_enterBlock t false).bind fun _ ↦ .pure _
    | loop t => exact (evolves_enterBlock t true).bind fun _ ↦ .pure _
    | if_ t => exact evolves_enterIf t
    | _ => cases hopens

theorem step_apply (m : Machine) : step m =
    match currentFrame m.stack with
    | .error t _ => .error t m
    | .ok f _ =>
      match f.body[m.pc]? with
      | some i => exec f.body.size i m
      | none => .error (.malformedControl .pastEnd) m := by
  change (onStack currentFrame >>= _) m = _
  rw [currentFrame_bind]
  cases currentFrame m.stack with
  | error t stack => rfl
  | ok f stack =>
    simp only [bind_apply, get_apply]
    cases f.body[m.pc]? <;> rfl

theorem evolves_step : Respects Evolves step := by
  intro m
  rw [step_apply]
  cases currentFrame m.stack with
  | error t stack => exact .refl m
  | ok f stack =>
    simp only
    cases f.body[m.pc]? with
    | some i => exact evolves_exec _ i m
    | none => exact .refl m

end Machine

namespace Stack

theorem popValuesTyped_types {ts : List ValType} {s s' : Stack} {vs : List Value}
    (h : popValuesTyped ts s = .ok vs s') : vs.map Value.type = ts := by
  simp only [popValuesTyped, bind_apply, get_apply] at h
  by_cases hn : s.entries.size < ts.length
  · simp only [hn, if_true] at h
    cases h
  · simp only [hn, if_false] at h
    cases hfault : Entry.typeFault? (s.entries.extract (s.entries.size - ts.length)).toList ts with
    | some t =>
      rw [hfault] at h
      cases h
    | none =>
      rw [hfault] at h
      change popValues ts.length s = _ at h
      simp only [popValues, hn, if_false] at h
      cases hvs : (s.entries.extract (s.entries.size - ts.length)).toList.mapM Entry.value? with
      | none =>
        rw [hvs] at h
        cases h
      | some ws =>
        rw [hvs] at h
        cases h
        have hes := mapM_value?_ok hvs
        have hlen := congrArg List.length hes
        rw [hes, typeFault?_map_value] at hfault
        refine Value.map_type_of_typeFault? hfault ?_
        simp only [Array.length_toList, Array.size_extract, List.length_map] at hlen
        omega

def entered (s : Stack) (f : Frame) : Stack :=
  { s with entries := s.entries.push (.frame f), frames := s.frames.push s.entries.size }

theorem pushFrame_apply (f : Frame) (s : Stack) : pushFrame f s =
    if s.entries.size < s.limit then .ok () (s.entered f) else .error .stackOverflow s := by
  simp only [pushFrame, bind_apply, get_apply, push]
  by_cases hroom : s.entries.size < s.limit
  · simp only [hroom, if_true]
    rfl
  · simp only [hroom, if_false]

def unwindFrame : StackM Frame := do
  let i ← frameIndex
  let f ← currentFrame
  unwind i f.arity
  return f

theorem evolves_unwindFrame : Respects Evolves unwindFrame :=
  evolves_frameIndex.bind fun i ↦ evolves_currentFrame.bind fun f ↦
    (evolves_unwind i f.arity).bind fun _ ↦ .pure f

theorem popFrame_eq : popFrame = unwindFrame >>= fun f ↦ do
    modify fun s ↦ { s with frames := s.frames.pop }
    return f := by
  simp only [popFrame, unwindFrame, bind_assoc, pure_bind]

theorem popFrame_changes (s : Stack) : match popFrame s with
    | .ok _ s' => ∃ s₁, s.Evolves s₁ ∧ s' = { s₁ with frames := s₁.frames.pop }
    | .error _ s' => s.Evolves s' := by
  have hunwind := evolves_unwindFrame s
  rw [popFrame_eq, bind_apply]
  generalize unwindFrame s = x at hunwind
  cases x with
  | error t s₁ => exact hunwind
  | ok f s₁ => exact ⟨s₁, hunwind, rfl⟩

end Stack

namespace Machine

def called (func inst : Nat) (type : FuncType) (f : FuncDef) (args : List Value) : Frame where
  inst := inst
  func := some func
  locals := (args ++ f.locals.map Value.zero).toArray
  pc := 0
  arity := type.results.length
  body := f.body

/-- The call of a host function, as far as the host keeps to the relation. -/
theorem respects_callOut {callHost : HostCall} {r : Machine → Machine → Prop} [IsPreorder Machine r]
    {f : Host.Func} (hevolves : ∀ {m m' : Machine}, m.Evolves m' → r m m')
    (hhost : ∀ m args, r m { m with store := final (callHost f args m.store) }) :
    Respects r (callOut callHost f) := by
  have hstack {α : Type} {op : StackM α} (h : Respects Stack.Evolves op) :
      Respects r (liftM (onStack op) : Run α) :=
    ((evolves_onStack h).mono fun _ _ ↦ hevolves).lift
  refine (hstack (evolves_popValuesTyped _)).bind fun args ↦ ?_
  have hact : Respects r (onAction (callHost f args)) := by
    intro m
    have hm := hhost m args
    simp only [onAction]
    generalize callHost f args m.store = x at hm
    cases x <;> exact hm
  refine hact.bind fun results ↦ ?_
  cases Value.hostFault? results f.type.results with
  | some t => exact .throw _
  | none => exact hstack (evolves_pushValues _)

structure Law (callHost : HostCall) (r : Machine → Machine → Prop) : Prop
    extends IsPreorder Machine r where
  evolves {m m' : Machine} : m.Evolves m' → r m m'
  enter {m : Machine} {func inst index : Nat} {type : FuncType} {owner : Instance} {f : FuncDef}
    {args : List Value} : m.store.funcs[func]? = some (.code type inst index) →
    m.store.instances[inst]? = some owner → owner.mod.functions[index]? = some f →
    args.map Value.type = type.params → m.stack.frames.size < m.store.config.maxCallDepth →
    m.stack.entries.size < m.stack.limit →
    r m { m with stack := m.stack.entered (called func inst type f args) }
  leave (m : Machine) : r m { m with stack.frames := m.stack.frames.pop }
  host (m : Machine) (f : Host.Func) (args : List Value) :
    r m { m with store := final (callHost f args m.store) }

/-- The states of the machines that run on a store, a function or an initializer: those after any
number of steps, and those in which a run has ended or trapped. -/
inductive Occurs (callHost : HostCall) (s : Store) : Machine → Prop
  | func (steps func : Nat) (args : List Value) (arity : Nat) :
    Occurs callHost s (final (runFunc callHost steps func args arity (fresh s)))
  | const (steps inst : Nat) (code : Code) :
    Occurs callHost s (final (runConst callHost steps inst code (fresh s)))

def starting (s : Store) (inst : Nat) (code : Code) : Machine :=
  { fresh s with stack := (fresh s).stack.entered (initializer inst code) }

namespace Law

variable {callHost : HostCall} {r : Machine → Machine → Prop} (hr : Law callHost r)

include hr

theorem ofEvolves {α : Type} {op : Exec α} (h : Respects Evolves op) : Respects r op :=
  h.mono fun _ _ ↦ hr.evolves

theorem entering {func inst index : Nat} {type : FuncType} {m : Machine}
    (hf : m.store.funcs[func]? = some (.code type inst index)) :
    r m (final (Machine.enter func type inst index m)) := by
  have hsame := hr.refl m
  rw [enter_apply]
  by_cases hdepth : m.store.config.maxCallDepth ≤ m.stack.frames.size
  · simp only [hdepth, if_true]
    exact hsame
  · simp only [hdepth, if_false, Store.instance_]
    cases howner : m.store.instances[inst]? with
    | none => exact hsame
    | some owner =>
      simp only
      cases hbody : owner.mod.functions[index]? with
      | none => exact hsame
      | some f =>
        have hpop := evolves_popValuesTyped type.params m.stack
        simp only
        cases hargs : popValuesTyped type.params m.stack with
        | error t stack =>
          rw [hargs] at hpop
          exact hr.evolves (.ofStack hpop)
        | ok args stack =>
          rw [hargs] at hpop
          have hpopped : r m { m with stack } := hr.evolves (.ofStack hpop)
          simp only [pushFrame_apply]
          by_cases hroom : stack.entries.size < stack.limit
          · simp only [hroom, if_true]
            refine hr.trans _ _ _ hpopped (hr.enter (m := { m with stack }) hf howner hbody
              (popValuesTyped_types hargs) ?_ hroom)
            rw [show stack.frames = m.stack.frames from hpop.frames]
            exact Nat.not_le.mp hdepth
          · simp only [hroom, if_false]
            exact hpopped

theorem popFrame : Respects r (onStack popFrame) := by
  intro m
  have hpop := popFrame_changes m.stack
  simp only [onStack]
  generalize Stack.popFrame m.stack = x at hpop
  cases x with
  | error t stack => exact hr.evolves (.ofStack hpop)
  | ok f stack =>
    obtain ⟨s₁, hev, rfl⟩ := hpop
    exact hr.trans _ _ _ (hr.evolves (.ofStack hev)) (hr.leave { m with stack := s₁ })

theorem callOut (f : Host.Func) : Respects r (callOut callHost f) := by
  have := hr.toIsPreorder
  exact respects_callOut hr.evolves fun m ↦ hr.host m f

theorem call (func : Nat) : Respects r (call callHost func) := by
  intro m
  rw [call_apply]
  unfold Store.func
  cases hf : m.store.funcs[func]? with
  | none => exact hr.refl m
  | some g =>
    cases g with
    | host f => exact hr.callOut f m
    | code type inst index =>
      have henter := hr.entering hf
      simp only
      generalize Machine.enter func type inst index m = x at henter
      cases x <;> exact henter

theorem conclude (base : Nat) (x : Flow) : Respects r (conclude callHost base x) := by
  have := hr.toIsPreorder
  have hset (pc : Nat) : Respects r (liftM (setPc pc) : Run Unit) :=
    (hr.ofEvolves (evolves_setPc pc)).lift
  have hresume : Respects r (liftM resume : Run Unit) := (hr.ofEvolves evolves_resume).lift
  have hcount : Respects r (liftM frameCount : Run Nat) := hr.refl
  cases x with
  | next => exact Respects.get.bind fun m ↦ (hset _).bind fun _ ↦ .pure _
  | jump pc => exact (hset pc).bind fun _ ↦ .pure _
  | call func =>
    have hmove (pc : Nat) : Respects Frame.Evolves
        (modify fun f ↦ { f with pc := pc } : EStateM Trap Frame Unit) := fun f ↦ .moved f pc
    have hsave (pc : Nat) := (hr.ofEvolves (evolves_onStack (evolves_onFrame (hmove pc)))).lift
    refine Respects.get.bind fun m ↦ (hsave _).bind fun _ ↦ hcount.bind fun _ ↦
      (hr.call func).bind fun _ ↦ hcount.bind fun _ ↦ ?_
    exact .ite (hresume.bind fun _ ↦ .pure _) ((hset _).bind fun _ ↦ .pure _)
  | leave =>
    refine hr.popFrame.lift.bind fun _ ↦ hcount.bind fun _ ↦ ?_
    exact .ite (.pure _) (hresume.bind fun _ ↦ .pure _)

theorem advance (base : Nat) : Respects r (advance callHost base) := by
  intro m
  have hstep := hr.ofEvolves evolves_step m
  rw [advance_apply]
  generalize step m = x at hstep
  cases x with
  | error t m' => exact hstep
  | ok x m' => exact hr.trans _ _ _ hstep (hr.conclude base x m')

theorem runTo (base : Nat) (fuel : Nat) : Respects r (runTo callHost base fuel) := by
  have := hr.toIsPreorder
  induction fuel with
  | zero => exact .throw _
  | succ n ih =>
    refine (hr.advance base).bind fun done ↦ ?_
    cases done with
    | true => exact .pure _
    | false => exact ih

theorem run (fuel : Nat) : Respects r (run callHost fuel) := by
  have := hr.toIsPreorder
  have hcount : Respects r (liftM frameCount : Run Nat) := hr.refl
  exact hcount.bind fun _ ↦ (hr.ofEvolves evolves_resume).lift.bind fun _ ↦ hr.runTo _ fuel

/-- Whatever state the call of a function comes to. -/
theorem runFunc (fuel func : Nat) (args : List Value) (arity : Nat) :
    Respects r (runFunc callHost fuel func args arity) := by
  have := hr.toIsPreorder
  have hcount : Respects r (liftM frameCount : Run Nat) := hr.refl
  have hpop := (hr.ofEvolves (evolves_onStack (evolves_popValues arity))).lift
  refine (hr.ofEvolves (evolves_onStack (evolves_pushValues args))).lift.bind fun _ ↦
    hcount.bind fun _ ↦ (hr.call func).bind fun _ ↦ hcount.bind fun _ ↦ ?_
  exact .ite ((hr.run fuel).bind fun _ ↦ hpop) hpop

/-- Whatever state the evaluation of an initializer comes to, if there is room for its frame. -/
theorem runConst (fuel inst : Nat) (code : Code) (m : Machine) :
    final (Machine.runConst callHost fuel inst code m) = m ∨ m.stack.entries.size < m.stack.limit ∧
      r { m with stack := m.stack.entered (initializer inst code) }
        (final (Machine.runConst callHost fuel inst code m)) := by
  have := hr.toIsPreorder
  rw [runConst_apply, pushFrame_apply]
  by_cases hroom : m.stack.entries.size < m.stack.limit
  · have hpop := (hr.ofEvolves (evolves_onStack evolves_popValue)).lift
    have hrun := ((hr.run fuel).bind fun _ ↦ hpop)
      { m with stack := m.stack.entered (initializer inst code) }
    rw [bind_apply] at hrun
    simp only [hroom, if_true]
    generalize Machine.run callHost fuel _ = x at hrun
    cases x <;> exact .inr ⟨trivial, hrun⟩
  · simp only [hroom, if_false]
    exact .inl rfl

/-- A law leads from the first state of a run to all of them. -/
theorem occurs {s : Store} {m : Machine} (h : Occurs callHost s m) :
    r (fresh s) m ∨ ∃ inst code, 0 < s.config.maxStackEntries ∧ r (starting s inst code) m := by
  cases h with
  | func steps func args arity => exact .inl (hr.runFunc steps func args arity _)
  | const steps inst code =>
    obtain hm | ⟨hroom, hm⟩ := hr.runConst steps inst code (fresh s)
    · rw [hm]
      exact .inl (hr.refl _)
    · exact .inr ⟨inst, code, hroom, hm⟩

end Law

structure Confined (m m' : Machine) : Prop where
  limit : m'.stack.limit = m.stack.limit
  fits : m.stack.Fits → m'.stack.Fits

theorem law_confined (callHost : HostCall) : Law callHost Confined where
  refl _ := ⟨rfl, id⟩
  trans _ _ _ h h' := ⟨h'.limit.trans h.limit, h'.fits ∘ h.fits⟩
  evolves h := ⟨h.stack.limit, h.stack.fits⟩
  enter _ _ _ _ _ hroom := ⟨rfl, fun _ ↦ by simpa [Fits, entered] using hroom⟩
  leave _ := ⟨rfl, id⟩
  host _ _ _ := ⟨rfl, id⟩

theorem Occurs.fits {callHost : HostCall} {s : Store} {m : Machine} (h : Occurs callHost s m) :
    m.stack.Fits := by
  obtain hm | ⟨inst, code, hroom, hm⟩ := (law_confined callHost).occurs h
  · exact hm.fits (Nat.zero_le _)
  · exact hm.fits hroom

structure Lasting (P : Store → Frame → Prop) : Prop where
  evolves {s s' : Store} {f f' : Frame} : P s f → f.Evolves f' → s.Grows s' → P s' f'
  called {s : Store} {func inst index : Nat} {type : FuncType} {owner : Instance} {d : FuncDef}
    {args : List Value} : s.funcs[func]? = some (.code type inst index) →
    s.instances[inst]? = some owner → owner.mod.functions[index]? = some d →
    args.map Value.type = type.params → P s (called func inst type d args)

def AllFrames (P : Store → Frame → Prop) (m : Machine) : Prop :=
  ∀ f, .frame f ∈ m.stack.entries → P m.store f

theorem AllFrames.fresh (P : Store → Frame → Prop) (s : Store) : AllFrames P (fresh s) := by
  intro f hf
  simp [Machine.fresh] at hf

theorem AllFrames.starting {P : Store → Frame → Prop} {s : Store} {inst : Nat} {code : Code}
    (h : P s (initializer inst code)) : AllFrames P (starting s inst code) := by
  intro f hf
  obtain hf | hf := Array.mem_push.mp hf
  · exact AllFrames.fresh P s f hf
  · cases hf
    exact h

structure Retains (P : Store → Frame → Prop) (m m' : Machine) : Prop where
  grows : m.store.Grows m'.store
  frames : AllFrames P m → AllFrames P m'

theorem law_retains {P : Store → Frame → Prop} (hP : Lasting P) {callHost : HostCall}
    (hhost : ∀ f args s, Store.Grows s (final (callHost f args s))) :
    Law callHost (Retains P) where
  refl m := ⟨.refl m.store, id⟩
  trans _ _ _ h h' := ⟨h.grows.trans h'.grows, h'.frames ∘ h.frames⟩
  evolves {m m'} h := by
    have hgrows : m.store.Grows m'.store :=
      .congr (congrArg Store.funcs h.store :) (congrArg Store.instances h.store :)
    refine ⟨hgrows, fun hm f' hf' ↦ ?_⟩
    obtain ⟨f, hf, hev⟩ := h.stack.frame f' hf'
    exact hP.evolves (hm f hf) hev hgrows
  enter {m _ _ _ _ _ _ _} hfunc howner hbody hargs _ _ := by
    refine ⟨.refl m.store, fun hm f hf ↦ ?_⟩
    obtain hf | hf := Array.mem_push.mp hf
    · exact hm f hf
    · cases hf
      exact hP.called hfunc howner hbody hargs
  leave m := ⟨.refl m.store, id⟩
  host m f args := by
    have hgrows := hhost f args m.store
    exact ⟨hgrows, fun hm g hg ↦ hP.evolves (hm g hg) (.refl g) hgrows⟩

end Machine

end Wasm
