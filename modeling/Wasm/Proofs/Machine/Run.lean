import Wasm.Proofs.Machine.Reachable

namespace Wasm

namespace Machine

variable {callHost : HostCall} {base : Nat}

theorem runTo_apply (fuel : Nat) (m : Machine) : runTo callHost base (fuel + 1) m =
    match advance callHost base m with
    | .ok true m' => .ok () m'
    | .ok false m' => runTo callHost base fuel m'
    | .error e m' => .error e m' := by
  rw [runTo, Outcome.bind_apply]
  cases advance callHost base m with
  | error e m' => rfl
  | ok done m' => cases done <;> rfl

theorem liftM_exec {α : Type} (op : Exec α) : (liftM op : Run α) = Stop.lift op := rfl

theorem run_apply (fuel : Nat) (m : Machine) : run callHost fuel m =
    match resume m with
    | .ok _ m' => runTo callHost (m.stack.frames.size - 1) fuel m'
    | .error t m' => .error (.failed t) m' := by
  simp only [run, Outcome.bind_apply, liftM_exec, Stop.lift, frameCount, Outcome.get_apply,
    Outcome.pure_apply]
  cases resume m <;> rfl

theorem runFunc_apply (fuel func : Nat) (args : List Value) (arity : Nat) (store : Store) :
    runFunc callHost fuel func args arity (fresh store) =
      match Stack.pushValues args (fresh store).stack with
      | .error t stack => .error (.failed t) { fresh store with stack }
      | .ok _ stack =>
        match call callHost func { fresh store with stack } with
        | .error e m => .error e m
        | .ok _ m =>
          match (if stack.frames.size < m.stack.frames.size then run callHost fuel m
            else .ok () m) with
          | .error e m => .error e m
          | .ok _ m => Stop.lift (onStack (Stack.popValues arity)) m := by
  change EStateM.bind (Stop.lift (onStack (Stack.pushValues args))) _ (fresh store) = _
  simp only [EStateM.bind, Stop.lift, onStack]
  cases Stack.pushValues args (fresh store).stack with
  | error t stack => rfl
  | ok _ stack =>
    change EStateM.bind (call callHost func) _ _ = _
    simp only [EStateM.bind]
    cases call callHost func { fresh store with stack } with
    | error e m => rfl
    | ok _ m =>
      change EStateM.bind (Stop.lift frameCount) _ _ = _
      simp only [EStateM.bind, Stop.lift, frameCount, Outcome.bind_apply, Outcome.get_apply,
        Outcome.pure_apply]
      split
      · change EStateM.bind (run callHost fuel) _ m = _
        simp only [EStateM.bind]
        cases run callHost fuel m <;> rfl
      · rfl

theorem runConst_apply (fuel inst : Nat) (code : Code) (m : Machine) :
    runConst callHost fuel inst code m =
      match Stack.pushFrame (initializer inst code) m.stack with
      | .error t stack => .error (.failed t) { m with stack }
      | .ok _ stack =>
        match run callHost fuel { m with stack } with
        | .error e m => .error e m
        | .ok _ m => Stop.lift (onStack Stack.popValue) m := by
  change EStateM.bind (Stop.lift (onStack (Stack.pushFrame (initializer inst code)))) _ m = _
  simp only [EStateM.bind, Stop.lift, onStack]
  cases Stack.pushFrame (initializer inst code) m.stack with
  | error t stack => rfl
  | ok _ stack =>
    change EStateM.bind (run callHost fuel) _ _ = _
    simp only [EStateM.bind]
    cases run callHost fuel { m with stack } <;> rfl

/-- A machine that a first call has come back to, with the results on top: a host function has
answered, or code has been run to its end. -/
inductive Returned (callHost : HostCall) (fuel func : Nat) (args : List Value) (store : Store) :
    Machine → Prop
  | answer {f : Host.Func} {results : List Value} {m : Machine} :
    store.callee 0 func = .ok (.host f) → f.type.params.length ≤ args.length →
    results.length = f.type.results.length →
    m.stack = .of store.config.maxStackEntries
      (results.reverse ++ args.reverse.drop f.type.params.length) [] →
    call callHost func
      { fresh store with stack := .of store.config.maxStackEntries args.reverse [] } = .ok () m →
    Returned callHost fuel func args store m
  | run {type : FuncType} {inst : Nat} {f : FuncDef} {m m' m'' : Machine} :
    store.callee 0 func = .ok (.code type inst f) → type.params.length ≤ args.length →
    args.length - type.params.length < store.config.maxStackEntries →
    call callHost func
      { fresh store with stack := .of store.config.maxStackEntries args.reverse [] } = .ok () m →
    resume m = .ok () m' →
    m' = (outermost store.config.maxStackEntries (args.reverse.drop type.params.length)
      { inst, func := some func, locals := #[], pc := 0, arity := type.results.length
        body := f.body }).fill
      ⟨store, ((args.reverse.take type.params.length).reverse ++
        f.locals.map Value.zero).toArray, []⟩ →
    runTo callHost 0 fuel m' = .ok () m'' → Returned callHost fuel func args store m''

/-- A call from outside gives what is on top when it has returned. -/
theorem runFunc_ok {fuel func arity : Nat} {args rs : List Value} {store : Store} {m : Machine}
    (h : runFunc callHost fuel func args arity (fresh store) = .ok rs m) :
    args.length ≤ store.config.maxStackEntries ∧ ∃ m', Returned callHost fuel func args store m' ∧
      Stop.lift (onStack (Stack.popValues arity)) m' = .ok rs m := by
  rw [runFunc_apply, pushValues_fresh] at h
  by_cases hroom : args.length ≤ store.config.maxStackEntries
  · refine ⟨hroom, ?_⟩
    simp only [hroom, if_true] at h
    have hstart := @call_starts callHost
      { fresh store with stack := .of store.config.maxStackEntries args.reverse [] }
      store.config.maxStackEntries args.reverse func rfl (by simpa using hroom)
    generalize hcall : call callHost func _ = r at h hstart
    cases hstart with
    | refuse ht hs => cases h
    | abort hk hr => cases h
    | misanswer hk hr ht => cases h
    | answer hk hn hr hl hfit =>
      simp only [Stack.size_frames_of, List.length_nil, Nat.lt_irrefl, if_false] at h
      exact ⟨_, .answer hk (by simpa using hn) hl rfl hcall, h⟩
    | @enter type inst f frame hk hn hlt hframe =>
      simp only [Stack.size_frames_of, List.length_nil, List.length_singleton, Nat.zero_lt_one,
        if_true, run_apply, resume_of] at h
      cases hrun : runTo callHost 0 fuel ⟨store, .of store.config.maxStackEntries
          (args.reverse.drop type.params.length) [⟨frame, [], []⟩], (fresh store).ends,
          frame.pc⟩ with
      | error e m' =>
        rw [show (fresh store).store = store from rfl] at h
        rw [hrun] at h
        cases h
      | ok u m' =>
        rw [show (fresh store).store = store from rfl] at h
        rw [hrun] at h
        subst hframe
        exact ⟨m', .run hk (by simpa using hn) (by simpa using hlt) hcall resume_of rfl hrun, h⟩
  · simp only [hroom, if_false] at h
    cases h

end Machine

namespace Action

variable {callHost : HostCall} {fuel : Nat} {args : List Value} {s : Store}

theorem start_apply {α : Type} (op : Run α) (store : Store) : Machine.start op store =
    match op (Machine.fresh store) with
    | .ok a m => .ok a m.store
    | .error e m => .error e m.store := rfl

theorem call_apply (func : Nat) : call callHost fuel func args s =
    match s.func func with
    | .error t => .error (.failed t) s
    | .ok g =>
      if args.length = g.type.params.length then
        match Value.typeFault? args g.type.params with
        | some t => .error (.failed t) s
        | none =>
          if s.config.maxReentrancy ≤ s.active then .error (.failed .callStackExhausted) s
          else nested (Machine.start
            (Machine.runFunc callHost fuel func args g.type.results.length)) s
      else .error (.failed (.argumentMismatch g.type.params.length args.length)) s := by
  simp only [call, Outcome.bind_apply, Outcome.get_apply]
  cases s.func func with
  | error t => rfl
  | ok g =>
    simp only [Stop.check, Outcome.pure_apply]
    by_cases hl : args.length = g.type.params.length
    · simp only [hl, ne_eq, not_true_eq_false, if_false, if_true]
      cases Value.typeFault? args g.type.params with
      | some t => rfl
      | none =>
        change (if s.config.maxReentrancy ≤ s.active then _ else _ : Action Trap (List Value)) s = _
        split <;> rfl
    · simp only [hl, ne_eq, not_false_eq_true, if_false, if_true]
      rfl

end Action

end Wasm
