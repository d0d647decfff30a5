import Wasm.Proofs.Machine.Laws

namespace Wasm

open Outcome Stack

namespace Machine

def blockEndAfresh : Exec BlockEnd := do
  let f ← currentFrame
  check (f.body.blockEnd (← get).pc)

namespace Seeking

variable (look : Exec BlockEnd)

def enterBlock (t : BlockType) (isLoop : Bool) : Exec Unit := do
  let (params, arity) ← blockArity t
  let e ← look
  pushLabel { arity, params, start := (← get).pc, stop := e.endPc, isLoop }

def enterIf (t : BlockType) : Exec Flow := do
  if (← popI32) ≠ 0 then
    enterBlock look t false
    return .next
  let e ← look
  match e.elsePc with
  | some pc => do
    enterBlock look t false
    return .jump (pc + 1)
  | none => return .jump (e.endPc + 1)

def exec (length : Nat) : Instr → Exec Flow
  | .block t => do
    enterBlock look t false
    return .next
  | .loop t => do
    enterBlock look t true
    return .next
  | .if_ t => enterIf look t
  | i => Machine.exec length i

def step : Exec Flow := do
  let body := (← currentFrame).body
  match body[(← get).pc]? with
  | some i => exec look body.size i
  | none => throw (.malformedControl .pastEnd)

variable (callHost : HostCall)

def advance (base : Nat) : Run Bool := do
  let x ← step look
  conclude callHost base x

def runTo (base : Nat) : (fuel : Nat) → Run Unit
  | 0 => throw .outOfFuel
  | n + 1 => do
    if ← advance look callHost base then
      return ()
    runTo base n

def run (fuel : Nat) : Run Unit := do
  let base := (← frameCount) - 1
  resume
  runTo look callHost base fuel

def runFunc (fuel func : Nat) (args : List Value) (arity : Nat) : Run (List Value) := do
  Stack.pushValues args
  let depth ← frameCount
  Machine.call callHost func
  if depth < (← frameCount) then
    run look callHost fuel
  Stack.popValues arity

def runConst (fuel inst : Nat) (code : Code) : Run Value := do
  Stack.pushFrame (initializer inst code)
  run look callHost fuel
  Stack.popValue

theorem exec_blockEnd (length : Nat) (i : Instr) :
    exec blockEnd length i = Machine.exec length i := by
  cases i <;> rfl

theorem step_blockEnd : step blockEnd = Machine.step := by
  simp only [step, exec_blockEnd]
  rfl

variable {callHost}

theorem advance_blockEnd (base : Nat) :
    advance blockEnd callHost base = Machine.advance callHost base := by
  funext m
  rw [advance_apply, advance, step_blockEnd, bind_apply, liftM_exec, Stop.lift]
  cases Machine.step m <;> rfl

theorem runTo_blockEnd (base fuel : Nat) :
    runTo blockEnd callHost base fuel = Machine.runTo callHost base fuel := by
  induction fuel with
  | zero => rfl
  | succ n ih =>
    rw [runTo, Machine.runTo, advance_blockEnd, ih]

theorem run_blockEnd (fuel : Nat) : run blockEnd callHost fuel = Machine.run callHost fuel := by
  simp only [run, runTo_blockEnd]
  rfl

theorem runFunc_blockEnd (fuel func : Nat) (args : List Value) (arity : Nat) :
    runFunc blockEnd callHost fuel func args arity =
      Machine.runFunc callHost fuel func args arity := by
  simp only [runFunc, run_blockEnd]
  rfl

theorem runConst_blockEnd (fuel inst : Nat) (code : Code) :
    runConst blockEnd callHost fuel inst code = Machine.runConst callHost fuel inst code := by
  simp only [runConst, run_blockEnd]
  rfl

end Seeking

end Machine

def Outcome.mapState {ε σ α : Type} (f : σ → σ) : EStateM.Result ε σ α → EStateM.Result ε σ α
  | .ok a s => .ok a (f s)
  | .error e s => .error e (f s)

namespace Machine

def bare (m : Machine) : Machine := { m with ends := {} }

/-- From states of the kind `P`, `op` does what `op'` does without what was found, and comes to
states of the same kind. -/
def Mirrors {ε α : Type} (P : Machine → Prop) (op op' : EStateM ε Machine α) : Prop :=
  ∀ m, P m → mapState bare (op m) = op' (bare m) ∧ P (final (op m))

def Blind {ε α : Type} (op : EStateM ε Machine α) : Prop :=
  ∀ m, mapState bare (op m) = op (bare m)

section Rules

variable {ε α β : Type} {P : Machine → Prop}

theorem Mirrors.bind {op op' : EStateM ε Machine α} {k k' : α → EStateM ε Machine β}
    (h : Mirrors P op op') (hk : ∀ a, Mirrors P (k a) (k' a)) :
    Mirrors P (op >>= k) (op' >>= k') := by
  intro m hm
  obtain ⟨hop, hfinal⟩ := h m hm
  rw [bind_apply, bind_apply, ← hop]
  generalize op m = x at hfinal
  cases x with
  | error e m' => exact ⟨rfl, hfinal⟩
  | ok a m' => exact hk a m' hfinal

theorem Mirrors.pure (a : α) : Mirrors P (pure a : EStateM ε Machine α) (pure a) :=
  fun _ hm ↦ ⟨rfl, hm⟩

theorem Mirrors.throw (e : ε) :
    Mirrors P (throw e : EStateM ε Machine α) (throw e : EStateM ε Machine α) :=
  fun _ hm ↦ ⟨rfl, hm⟩

theorem Mirrors.get {k k' : Machine → EStateM ε Machine α} (hk : ∀ m, Mirrors P (k m) (k' m))
    (hbare : ∀ m, k' (bare m) = k' m) : Mirrors P (get >>= k) (get >>= k') := by
  intro m hm
  obtain ⟨hop, hfinal⟩ := hk m m hm
  refine ⟨?_, hfinal⟩
  rw [bind_apply, bind_apply]
  simp only [get_apply, hbare]
  exact hop

theorem Mirrors.ite {c : Prop} [Decidable c] {x y x' y' : EStateM ε Machine α}
    (hx : Mirrors P x x') (hy : Mirrors P y y') :
    Mirrors P (if c then x else y) (if c then x' else y') := by
  split
  · exact hx
  · exact hy

theorem Mirrors.lift {op op' : EStateM ε Machine α} (h : Mirrors P op op') :
    Mirrors P (Stop.lift op) (Stop.lift op') := by
  intro m hm
  obtain ⟨hop, hfinal⟩ := h m hm
  simp only [Stop.lift, ← hop]
  generalize op m = x at hfinal
  cases x <;> exact ⟨rfl, hfinal⟩

theorem Blind.mirrors {op : EStateM ε Machine α} (h : Blind op)
    (hP : ∀ m, P m → P (final (op m))) : Mirrors P op op :=
  fun m hm ↦ ⟨h m, hP m hm⟩

/-- Being blind is to be mirrored by itself, from any state. -/
theorem blind_iff {op : EStateM ε Machine α} : Blind op ↔ Mirrors (fun _ ↦ True) op op :=
  ⟨fun h m _ ↦ ⟨h m, trivial⟩, fun h m ↦ (h m trivial).1⟩

theorem Blind.bind {op : EStateM ε Machine α} {k : α → EStateM ε Machine β} (h : Blind op)
    (hk : ∀ a, Blind (k a)) : Blind (op >>= k) :=
  blind_iff.mpr ((blind_iff.mp h).bind fun a ↦ blind_iff.mp (hk a))

theorem Blind.get {k : Machine → EStateM ε Machine α} (hk : ∀ m, Blind (k m))
    (hbare : ∀ m, k (bare m) = k m) : Blind (get >>= k) :=
  blind_iff.mpr (.get (fun m ↦ blind_iff.mp (hk m)) hbare)

theorem Blind.pure (a : α) : Blind (pure a : EStateM ε Machine α) := fun _ ↦ rfl

theorem Blind.throw (e : ε) : Blind (throw e : EStateM ε Machine α) := fun _ ↦ rfl

theorem Blind.ite {c : Prop} [Decidable c] {x y : EStateM ε Machine α} (hx : Blind x)
    (hy : Blind y) : Blind (if c then x else y) :=
  blind_iff.mpr (.ite (blind_iff.mp hx) (blind_iff.mp hy))

theorem Blind.lift {op : EStateM ε Machine α} (h : Blind op) : Blind (Stop.lift op) :=
  blind_iff.mpr (blind_iff.mp h).lift

theorem blind_onStack (op : StackM α) : Blind (onStack op) := by
  intro m
  simp only [onStack, bare]
  cases op m.stack <;> rfl

theorem blind_onAction (op : Action Trap α) : Blind (onAction op) := by
  intro m
  simp only [onAction, bare]
  cases op m.store <;> rfl

theorem blind_setPc (pc : Nat) : Blind (setPc pc) := fun _ ↦ rfl

theorem blind_frameCount : Blind frameCount := fun _ ↦ rfl

theorem blind_resume : Blind resume := (blind_onStack _).bind fun f ↦ blind_setPc f.pc

theorem blind_check (r : Except Trap α) : Blind (check r) := by
  cases r with
  | ok a => exact .pure a
  | error t => exact .throw t

theorem Program.blind {H : (γ : Type) → HeapM γ → Prop} {op : Exec α} (h : Program H op) :
    Blind op := by
  induction h with
  | pure a => exact .pure a
  | throw t => exact .throw t
  | bind _ _ ih ihk => exact ih.bind ihk
  | get hends _ ihk => exact .get ihk fun m ↦ hends m {}
  | stack _ => exact blind_onStack _
  | @heap _ op _ =>
    intro m
    rw [onHeap_apply, onHeap_apply, show (bare m).store = m.store from rfl]
    cases op m.store.heap <;> rfl

end Rules

section Calls

variable (callHost : HostCall)

theorem blind_enter (func : Nat) (type : FuncType) (inst index : Nat) :
    Blind (enter func type inst index) := by
  refine .get (fun m ↦ blind_frameCount.bind fun n ↦ ?_) fun _ ↦ rfl
  refine .ite (.bind (.throw _) fun _ ↦ ?_) ?_
  all_goals
    refine .get (fun m ↦ (blind_check _).bind fun owner ↦ ?_) fun _ ↦ rfl
    cases owner.mod.functions[index]? with
    | none => exact .throw _
    | some f => exact (blind_onStack _).bind fun args ↦ blind_onStack _

theorem blind_callOut (f : Host.Func) : Blind (callOut callHost f) := by
  refine (blind_onStack _).lift.bind fun args ↦ (blind_onAction _).bind fun results ↦ ?_
  cases Value.hostFault? results f.type.results with
  | some t => exact .throw _
  | none => exact (blind_onStack _).lift

theorem blind_call (func : Nat) : Blind (call callHost func) := by
  refine .get (fun m ↦ (blind_check _).lift.bind fun g ↦ ?_) fun _ ↦ rfl
  cases g with
  | code type inst index => exact (blind_enter func type inst index).lift
  | host f => exact blind_callOut callHost f

theorem blind_conclude (base : Nat) (x : Flow) : Blind (conclude callHost base x) := by
  cases x with
  | next => exact .get (fun m ↦ (blind_setPc _).lift.bind fun _ ↦ .pure _) fun _ ↦ rfl
  | jump pc => exact (blind_setPc pc).lift.bind fun _ ↦ .pure _
  | call func =>
    refine .get (fun m ↦ (blind_onStack _).lift.bind fun _ ↦ blind_frameCount.lift.bind fun _ ↦
      (blind_call callHost func).bind fun _ ↦ blind_frameCount.lift.bind fun _ ↦ ?_) fun _ ↦ rfl
    exact .ite (blind_resume.lift.bind fun _ ↦ .pure _) ((blind_setPc _).lift.bind fun _ ↦ .pure _)
  | leave =>
    refine (blind_onStack _).lift.bind fun _ ↦ blind_frameCount.lift.bind fun _ ↦ ?_
    exact .ite (.pure _) (blind_resume.lift.bind fun _ ↦ .pure _)

end Calls

theorem blockEndAfresh_apply (m : Machine) : blockEndAfresh m =
    match currentFrame m.stack with
    | .error t _ => .error t m
    | .ok f _ =>
      match f.body.blockEnd m.pc with
      | .ok e => .ok e m
      | .error t => .error t m := by
  change (onStack currentFrame >>= _) m = _
  rw [currentFrame_bind]
  cases currentFrame m.stack with
  | error t stack => rfl
  | ok f stack =>
    simp only [bind_apply, get_apply]
    cases f.body.blockEnd m.pc <;> rfl

/-- Frames run the code of their functions, or `const` if they belong to none, and what was found
belongs to that code. -/
structure Remembers (const : Code) (m : Machine) : Prop where
  frames : AllFrames (fun s f ↦ s.codeOf const f.func = some f.body) m
  ends : m.ends.Coherent m.store const

theorem lasting_codeOf (const : Code) :
    Lasting fun s f ↦ s.codeOf const f.func = some f.body where
  evolves h hf hs := by
    rw [hf.func, hf.body]
    exact hs.codeOf h
  called hfunc howner hbody _ := by
    simp [Store.codeOf, Store.bodyOf, called, hfunc, howner, hbody]

structure Recalls (const : Code) (m m' : Machine) : Prop
    extends Retains (fun s f ↦ s.codeOf const f.func = some f.body) m m' where
  ends : m.Remembers const → m'.ends.Coherent m'.store const

theorem Recalls.remembers {const : Code} {m m' : Machine} (h : Recalls const m m')
    (hm : m.Remembers const) : m'.Remembers const :=
  ⟨h.frames hm.frames, h.ends hm⟩

theorem Remembers.fresh (const : Code) (s : Store) : (fresh s).Remembers const :=
  ⟨.fresh _ s, .empty s const⟩

theorem Remembers.starting (s : Store) (inst : Nat) (code : Code) :
    (starting s inst code).Remembers code :=
  ⟨.starting rfl, .empty s code⟩

section Runs

variable {callHost : HostCall} (hhost : ∀ f args s, Store.Grows s (final (callHost f args s)))
  (const : Code)

theorem mirrors_of_respects {ε α : Type} {op : EStateM ε Machine α}
    (hr : Respects (Recalls const) op) (hblind : Blind op) : Mirrors (Remembers const) op op :=
  hblind.mirrors fun m hm ↦ (hr m).remembers hm

theorem mirrors_frameCount :
    Mirrors (Remembers const) (liftM frameCount : Run Nat) (liftM frameCount) :=
  blind_frameCount.lift.mirrors fun _ hm ↦ hm

include hhost

-- The cache has no part in the store, so that a call of the host leaves it as it was; what it holds
-- is still right because the functions of the store are.
theorem law_recalls : Law callHost (Recalls const) := by
  have hr := law_retains (lasting_codeOf const) hhost
  exact {
    refl := fun m ↦ ⟨hr.refl m, fun hm ↦ hm.ends⟩
    trans := fun m m' m'' h h' ↦
      ⟨hr.trans _ _ _ h.toRetains h'.toRetains, fun hm ↦ h'.ends (h.remembers hm)⟩
    evolves := fun h ↦ by
      have hretains := hr.evolves h
      exact ⟨hretains, fun hm ↦ (h.ends _ const hm.frames hm.ends).grows hretains.grows⟩
    enter := fun hfunc howner hbody hargs hdepth hroom ↦
      ⟨hr.enter hfunc howner hbody hargs hdepth hroom, fun hm ↦ hm.ends⟩
    leave := fun m ↦ ⟨hr.leave m, fun hm ↦ hm.ends⟩
    host := fun m f args ↦ ⟨hr.host m f args, fun hm ↦ hm.ends.grows (hhost f args m.store)⟩ }

/-- In every state of a run, what is remembered is right. -/
theorem Occurs.remembers {s : Store} {m : Machine} (h : Occurs callHost s m) :
    ∃ const, m.Remembers const := by
  cases h with
  | func steps func args arity =>
    have hrun := (law_recalls hhost #[]).runFunc steps func args arity (fresh s)
    exact ⟨#[], hrun.remembers (.fresh #[] s)⟩
  | const steps inst code =>
    obtain hm | ⟨-, hm⟩ := (law_recalls hhost code).runConst steps inst code (fresh s)
    · rw [hm]
      exact ⟨code, .fresh code s⟩
    · exact ⟨code, hm.remembers (.starting s inst code)⟩

theorem mirrors_of_evolves {α : Type} {op : Exec α} (hev : Respects Evolves op)
    (hblind : Blind op) : Mirrors (Remembers const) op op :=
  mirrors_of_respects const ((law_recalls hhost const).ofEvolves hev) hblind

theorem mirrors_onStack {α : Type} {op : StackM α} (hev : Respects Stack.Evolves op) :
    Mirrors (Remembers const) (onStack op) (onStack op) :=
  mirrors_of_evolves hhost const (evolves_onStack hev) (blind_onStack op)

theorem mirrors_program {α : Type} {H : (γ : Type) → HeapM γ → Prop} {op : Exec α}
    (h : Program H op) : Mirrors (Remembers const) op op :=
  mirrors_of_evolves hhost const h.evolves h.blind

/-- What is remembered is what would be found. -/
theorem mirrors_blockEnd : Mirrors (Remembers const) blockEnd blockEndAfresh := by
  intro m hm
  refine ⟨?_, ((law_recalls hhost const).ofEvolves evolves_blockEnd m).remembers hm⟩
  rw [blockEnd_apply, blockEndAfresh_apply, show (bare m).stack = m.stack from rfl,
    show (bare m).pc = m.pc from rfl]
  cases hframe : currentFrame m.stack with
  | error t stack => rfl
  | ok f stack =>
    have hfind := hm.ends.find m.pc (hm.frames f (currentFrame_ok hframe).2)
    simp only
    generalize BlockEnds.find f.func f.body m.pc m.ends = x at hfind
    cases x with
    | ok e ends =>
      rw [hfind.1]
      rfl
    | error t ends =>
      rw [hfind.1]
      rfl

theorem mirrors_enterBlock (t : BlockType) (isLoop : Bool) :
    Mirrors (Remembers const) (Seeking.enterBlock blockEnd t isLoop)
      (Seeking.enterBlock blockEndAfresh t isLoop) :=
  (mirrors_program hhost const (Program.blockArity (H := fun _ _ ↦ True) t)).bind fun _ ↦
    (mirrors_blockEnd hhost const).bind fun _ ↦
      .get (fun _ ↦ mirrors_onStack hhost const (evolves_pushLabel _)) fun _ ↦ rfl

theorem mirrors_enterIf (t : BlockType) :
    Mirrors (Remembers const) (Seeking.enterIf blockEnd t) (Seeking.enterIf blockEndAfresh t) := by
  have henter := mirrors_enterBlock hhost const t false
  refine (mirrors_onStack hhost const (evolves_popAs _ _)).bind fun x ↦ ?_
  split
  · exact henter.bind fun _ ↦ .pure _
  · refine (mirrors_blockEnd hhost const).bind fun e ↦ ?_
    cases e.elsePc with
    | some pc => exact henter.bind fun _ ↦ .pure _
    | none => exact .pure _

theorem mirrors_exec (length : Nat) (i : Instr) :
    Mirrors (Remembers const) (Seeking.exec blockEnd length i)
      (Seeking.exec blockEndAfresh length i) := by
  cases hopens : i.opens with
  | false =>
    have hsame (look : Exec BlockEnd) : Seeking.exec look length i = exec length i := by
      cases i with
      | block t => cases hopens
      | loop t => cases hopens
      | if_ t => cases hopens
      | _ => rfl
    rw [hsame, hsame]
    exact mirrors_program hhost const (Program.exec hopens length)
  | true =>
    cases i with
    | block t => exact (mirrors_enterBlock hhost const t false).bind fun _ ↦ .pure _
    | loop t => exact (mirrors_enterBlock hhost const t true).bind fun _ ↦ .pure _
    | if_ t => exact mirrors_enterIf hhost const t
    | _ => cases hopens

theorem mirrors_step :
    Mirrors (Remembers const) (Seeking.step blockEnd) (Seeking.step blockEndAfresh) := by
  refine (mirrors_onStack hhost const evolves_currentFrame).bind fun f ↦
    .get (fun m ↦ ?_) fun _ ↦ rfl
  cases f.body[m.pc]? with
  | some i => exact mirrors_exec hhost const f.body.size i
  | none => exact .throw _

theorem mirrors_advance (base : Nat) :
    Mirrors (Remembers const) (Seeking.advance blockEnd callHost base)
      (Seeking.advance blockEndAfresh callHost base) :=
  (mirrors_step hhost const).lift.bind fun x ↦
    mirrors_of_respects const ((law_recalls hhost const).conclude base x)
      (blind_conclude callHost base x)

theorem mirrors_runTo (base fuel : Nat) :
    Mirrors (Remembers const) (Seeking.runTo blockEnd callHost base fuel)
      (Seeking.runTo blockEndAfresh callHost base fuel) := by
  induction fuel with
  | zero => exact .throw _
  | succ n ih =>
    refine (mirrors_advance hhost const base).bind fun done ↦ ?_
    cases done with
    | true => exact .pure _
    | false => exact ih

theorem mirrors_run (fuel : Nat) :
    Mirrors (Remembers const) (Seeking.run blockEnd callHost fuel)
      (Seeking.run blockEndAfresh callHost fuel) :=
  (mirrors_frameCount const).bind fun _ ↦
    (mirrors_of_evolves hhost const evolves_resume blind_resume).lift.bind fun _ ↦
      mirrors_runTo hhost const _ fuel

theorem mirrors_runFunc (fuel func : Nat) (args : List Value) (arity : Nat) :
    Mirrors (Remembers const) (Seeking.runFunc blockEnd callHost fuel func args arity)
      (Seeking.runFunc blockEndAfresh callHost fuel func args arity) := by
  have hcount := mirrors_frameCount const
  have hpop := (mirrors_onStack hhost const (evolves_popValues arity)).lift
  have hcall := mirrors_of_respects const ((law_recalls hhost const).call func)
    (blind_call callHost func)
  refine (mirrors_onStack hhost const (evolves_pushValues args)).lift.bind fun _ ↦
    hcount.bind fun _ ↦ hcall.bind fun _ ↦ hcount.bind fun _ ↦ ?_
  exact .ite ((mirrors_run hhost const fuel).bind fun _ ↦ hpop) hpop

theorem mirrors_afterConst (fuel : Nat) :
    Mirrors (Remembers const)
      (do Seeking.run blockEnd callHost fuel; Stack.popValue : Run Value)
      (do Seeking.run blockEndAfresh callHost fuel; Stack.popValue : Run Value) :=
  (mirrors_run hhost const fuel).bind fun _ ↦ (mirrors_onStack hhost const evolves_popValue).lift

end Runs

namespace Seeking

variable (look : Exec BlockEnd) (callHost : HostCall) (fuel : Nat)

theorem runConst_apply (inst : Nat) (code : Code) (s : Store) :
    runConst look callHost fuel inst code (fresh s) =
      if 0 < s.config.maxStackEntries then
        (do run look callHost fuel; Stack.popValue : Run Value) (starting s inst code)
      else .error (.failed .stackOverflow) (fresh s) := by
  change (Stop.lift (onStack (pushFrame (initializer inst code))) >>= fun _ ↦
    (do run look callHost fuel; Stack.popValue : Run Value)) (fresh s) = _
  rw [bind_apply]
  simp only [Stop.lift, onStack, pushFrame_apply]
  by_cases hroom : 0 < s.config.maxStackEntries
  · simp only [fresh, hroom, Array.size_empty, if_true]
    rfl
  · simp only [fresh, hroom, Array.size_empty, if_false]

def call (func : Nat) (args : List Value) : Action Trap (List Value) := do
  let type := (← Stop.check ((← get).func func)).type
  if args.length ≠ type.params.length then
    throw (.failed (.argumentMismatch type.params.length args.length))
  if let some t := Value.typeFault? args type.params then
    throw (.failed t)
  let s ← get
  if s.config.maxReentrancy ≤ s.active then
    throw (.failed .callStackExhausted)
  Action.nested (Machine.start (runFunc look callHost fuel func args type.results.length))

def evalConst (inst : Nat) (code : Code) : Action Trap Value :=
  Machine.start (runConst look callHost fuel inst code)

theorem call_blockEnd : call blockEnd callHost fuel = Action.call callHost fuel := by
  funext func args
  simp only [call, runFunc_blockEnd]
  rfl

theorem evalConst_blockEnd : evalConst blockEnd callHost fuel = Action.evalConst callHost fuel := by
  funext inst code
  simp only [evalConst, runConst_blockEnd]
  rfl

/-- What a machine has found does not show in its results. -/
theorem start_congr {α : Type} {op op' : Run α} {s : Store}
    (h : mapState bare (op (Machine.fresh s)) = op' (Machine.fresh s)) :
    Machine.start op s = Machine.start op' s := by
  rw [Action.start_apply, Action.start_apply, ← h]
  cases op (Machine.fresh s) <;> rfl

variable {callHost} (hhost : ∀ f args s, Store.Grows s (final (callHost f args s)))

include hhost

/-- A call gives the same with and without what was found. -/
theorem call_afresh : call blockEndAfresh callHost fuel = Action.call callHost fuel := by
  have hstart (func : Nat) (args : List Value) (arity : Nat) :
      Machine.start (runFunc blockEnd callHost fuel func args arity) =
        Machine.start (runFunc blockEndAfresh callHost fuel func args arity) := by
    funext s
    exact start_congr (mirrors_runFunc hhost #[] fuel func args arity _ (.fresh #[] s)).1
  rw [← call_blockEnd]
  funext func args
  simp only [call, hstart]

/-- The evaluation of an initializer gives the same with and without what was found. -/
theorem evalConst_afresh :
    evalConst blockEndAfresh callHost fuel = Action.evalConst callHost fuel := by
  rw [← evalConst_blockEnd]
  funext inst code s
  refine (start_congr ?_).symm
  rw [runConst_apply, runConst_apply]
  split
  · exact (mirrors_afterConst hhost code fuel _ (.starting s inst code)).1
  · rfl

end Seeking

end Machine

end Wasm
