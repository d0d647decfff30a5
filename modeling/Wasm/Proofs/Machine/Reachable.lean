import Wasm.Proofs.Machine.Advance

namespace Wasm

theorem Value.typeFault?_ordinary {vs : List Value} {ts : List ValType} {t : Trap}
    (h : typeFault? vs ts = some t) : t.bracketing = false := by
  rw [← Stack.typeFault?_map_value] at h
  obtain rfl | ⟨a, b, rfl⟩ := Stack.typeFault?_trap h <;> rfl

theorem Value.hostFault?_ordinary {vs : List Value} {ts : List ValType} {t : Trap}
    (h : hostFault? vs ts = some t) : t.bracketing = false := by
  unfold hostFault? at h
  split at h
  · cases h
    rfl
  · exact typeFault?_ordinary h

theorem Value.length_of_hostFault? {vs : List Value} {ts : List ValType}
    (h : hostFault? vs ts = none) : vs.length = ts.length := by
  unfold hostFault? at h
  split at h
  · cases h
  · rename_i hl
    exact not_not.mp hl

theorem Store.callee_ordinary {s : Store} {depth func : Nat} {t : Trap}
    (h : s.callee depth func = .error t) : t.bracketing = false := by
  grind [Store.callee, Store.func, Store.instance_, Trap.bracketing]

namespace Machine

def fresh (store : Store) : Machine where
  store := store
  stack := { limit := store.config.maxStackEntries }

def initializer (inst : Nat) (code : Code) : Frame where
  inst := inst
  func := none
  locals := #[]
  pc := 0
  arity := 1
  body := code

/-- The states of the runs on a store, from the first instruction of a function or of the
initializer `const` to the last. -/
inductive Reachable (callHost : HostCall) (store : Store) (const : Code) : Machine → Prop
  | func {func : Nat} {args : List Value} {m : Machine} :
    (do Stack.pushValues args; call callHost func; resume : Run Unit) (fresh store) = .ok () m →
    Reachable callHost store const m
  | const {inst : Nat} {m : Machine} :
    (do Stack.pushFrame (initializer inst const); resume : Run Unit) (fresh store) = .ok () m →
    Reachable callHost store const m
  | step {m m' : Machine} : Reachable callHost store const m → advance callHost 0 m = .ok false m' →
    Reachable callHost store const m'

/-- A call that is made where there is no frame, with the operands `vs`. -/
inductive Starts (callHost : HostCall) (m : Machine) (limit : Nat) (vs : List Value) (func : Nat) :
    EStateM.Result (Stop Trap) Machine Unit → Prop
  | refuse {t : Trap} {m' : Machine} : t.bracketing = false → m'.store = m.store →
    Starts callHost m limit vs func (.error (.failed t) m')
  | abort {f : Host.Func} {args : List Value} {e : Stop Trap} {m' : Machine} :
    m.store.callee 0 func = .ok (.host f) → callHost f args m.store = .error e m'.store →
    Starts callHost m limit vs func (.error e m')
  | misanswer {f : Host.Func} {args results : List Value} {t : Trap} {m' : Machine} :
    m.store.callee 0 func = .ok (.host f) → callHost f args m.store = .ok results m'.store →
    t.bracketing = false → Starts callHost m limit vs func (.error (.failed t) m')
  | enter {type : FuncType} {inst : Nat} {f : FuncDef} {frame : Frame} :
    m.store.callee 0 func = .ok (.code type inst f) → type.params.length ≤ vs.length →
    vs.length - type.params.length < limit →
    frame = { inst, func := some func
              locals := ((vs.take type.params.length).reverse ++ f.locals.map Value.zero).toArray
              pc := 0, arity := type.results.length, body := f.body } →
    Starts callHost m limit vs func (.ok ()
      { m with stack := .of limit (vs.drop type.params.length) [⟨frame, [], []⟩] })
  | answer {f : Host.Func} {args results : List Value} {store : Store} :
    m.store.callee 0 func = .ok (.host f) → f.type.params.length ≤ vs.length →
    callHost f args m.store = .ok results store → results.length = f.type.results.length →
    vs.length - f.type.params.length + results.length ≤ limit →
    Starts callHost m limit vs func (.ok ()
      { m with store, stack := .of limit (results.reverse ++ vs.drop f.type.params.length) [] })

section Starts

variable {callHost : HostCall} {m : Machine} {limit : Nat} {vs : List Value} {func : Nat}

/-- What is done to the parameters of a callee where there is no frame. -/
theorem popParams_starts {ts : List ValType} {g : List Value → Stack →
      EStateM.Result (Stop Trap) Machine Unit} (hm : m.stack = .of limit vs [])
    (hg : ts.length ≤ vs.length → Starts callHost m limit vs func
      (g (vs.take ts.length).reverse (.of limit (vs.drop ts.length) []))) :
    Starts callHost m limit vs func (match Stack.popValuesTyped ts m.stack with
      | .error t stack => .error (.failed t) { m with stack }
      | .ok args stack => g args stack) := by
  rw [hm, Stack.of_nil]
  by_cases hn : ts.length ≤ vs.length
  · rw [Stack.popValuesTyped_topped Stack.sealed_nil ts vs hn]
    cases ht : Value.typeFault? (vs.take ts.length).reverse ts with
    | some t => exact .refuse (Value.typeFault?_ordinary ht) rfl
    | none => exact hg hn
  · obtain ⟨t, hpop, ht⟩ := @Stack.popValuesTyped_topped_short [] #[] limit Stack.sealed_nil ts vs
      (Nat.not_le.mp hn)
    rw [hpop]
    refine .refuse ?_ rfl
    obtain rfl | ⟨x, y, rfl⟩ := ht <;> rfl

theorem call_starts (hm : m.stack = .of limit vs []) (hv : vs.length ≤ limit) :
    Starts callHost m limit vs func (call callHost func m) := by
  have hdepth : m.stack.frames.size = 0 := by rw [hm, Stack.size_frames_of]; rfl
  cases hk : m.store.callee 0 func with
  | error t =>
    rw [call_refused (by rw [hdepth]; exact hk)]
    exact .refuse (Store.callee_ordinary hk) rfl
  | ok k =>
    cases k with
    | code type inst f =>
      rw [call_code (by rw [hdepth]; exact hk)]
      refine popParams_starts hm fun hn ↦ ?_
      rw [Stack.pushFrame_of, Stack.height_nil, List.length_drop]
      by_cases hroom : vs.length - type.params.length < limit
      · rw [if_pos hroom]
        exact .enter hk hn hroom rfl
      · rw [if_neg hroom]
        exact .refuse rfl rfl
    | host f =>
      rw [call_host (by rw [hdepth]; exact hk), callOut_apply]
      refine popParams_starts hm fun hn ↦ ?_
      cases hr : callHost f (vs.take f.type.params.length).reverse m.store with
      | error e store => exact .abort hk hr
      | ok results store =>
        simp only
        cases ht : Value.hostFault? results f.type.results with
        | some t => exact .misanswer hk hr (Value.hostFault?_ordinary ht)
        | none =>
          simp only
          by_cases hroom : vs.length - f.type.params.length + results.length ≤ limit
          · rw [Stack.of_nil, Stack.pushValues_topped results _ (by simpa using hroom)]
            exact .answer hk hn hr (Value.length_of_hostFault? ht) hroom
          · rw [Stack.of_nil, Stack.pushValues_topped_full results _ (by simp; omega)
              (by simp; omega)]
            exact .misanswer hk hr rfl

theorem stack_fresh (store : Store) :
    (fresh store).stack = .of store.config.maxStackEntries [] [] := rfl

theorem pushValues_fresh (store : Store) (args : List Value) :
    Stack.pushValues args (fresh store).stack =
      if args.length ≤ store.config.maxStackEntries then
        .ok () (.of store.config.maxStackEntries args.reverse [])
      else .error .stackOverflow (.of store.config.maxStackEntries
        (args.take store.config.maxStackEntries).reverse []) := by
  rw [stack_fresh, Stack.of_nil]
  by_cases h : args.length ≤ store.config.maxStackEntries
  · rw [if_pos h, Stack.pushValues_topped args [] (by simpa using h), List.append_nil]
    rfl
  · rw [if_neg h, Stack.pushValues_topped_full args [] (by simp) (by simp; omega), List.append_nil]
    rfl

def outermost (limit : Nat) (bottom : List Value) (frame : Frame) : Context where
  limit := limit
  bottom := bottom
  callers := []
  frame := frame
  outer := []
  ends := {}
  pc := 0

theorem fits_outermost {bottom : List Value} {frame : Frame} {store : Store} {locals : Array Value}
    (h : bottom.length < limit) : (outermost limit bottom frame).Fits ⟨store, locals, []⟩ := by
  simp only [Context.Fits, Context.base, outermost, Stack.beneath, Stack.entriesOf,
    Entry.constructs, List.length_append, Stack.length_operands, List.length_singleton,
    List.length_nil]
  exact h

/-- A run of a function starts at the first instruction of its body. -/
theorem func_start {store : Store} {args : List Value}
    (h : (do Stack.pushValues args; call callHost func; resume : Run Unit) (fresh store) =
      .ok () m) :
    ∃ type inst f, store.callee 0 func = .ok (.code type inst f) ∧
      type.params.length ≤ args.length ∧
      args.length - type.params.length < store.config.maxStackEntries ∧
      m = (outermost store.config.maxStackEntries (args.reverse.drop type.params.length)
        { inst, func := some func, locals := #[], pc := 0, arity := type.results.length
          body := f.body }).fill
        ⟨store, ((args.reverse.take type.params.length).reverse ++
          f.locals.map Value.zero).toArray, []⟩ := by
  change EStateM.bind (Stop.lift (onStack (Stack.pushValues args))) _ (fresh store) = _ at h
  simp only [EStateM.bind, Stop.lift, onStack, pushValues_fresh] at h
  by_cases hroom : args.length ≤ store.config.maxStackEntries
  · simp only [hroom, if_true] at h
    change EStateM.bind (call callHost func) _ _ = _ at h
    simp only [EStateM.bind] at h
    have hstart := @call_starts callHost
      { fresh store with stack := .of store.config.maxStackEntries args.reverse [] }
      store.config.maxStackEntries args.reverse func rfl (by simpa using hroom)
    generalize call callHost func _ = r at h hstart
    cases hstart with
    | refuse ht hs => cases h
    | abort hk hr => cases h
    | misanswer hk hr ht => cases h
    | answer hk hn hr hl hroom => cases h
    | @enter type inst f frame hk hn hlt hframe =>
      change Stop.lift resume _ = _ at h
      simp only [Stop.lift, resume_of] at h
      cases h
      subst hframe
      exact ⟨type, inst, f, hk, by simpa using hn, by simpa using hlt, rfl⟩
  · simp only [hroom, if_false] at h
    cases h

/-- A run of an initializer starts at its first instruction. -/
theorem const_start {store : Store} {inst : Nat} {code : Code}
    (h : (do Stack.pushFrame (initializer inst code); resume : Run Unit) (fresh store) =
      .ok () m) :
    0 < store.config.maxStackEntries ∧
      m = (outermost store.config.maxStackEntries [] (initializer inst code)).fill
        ⟨store, #[], []⟩ := by
  change EStateM.bind (Stop.lift (onStack (Stack.pushFrame _))) _ (fresh store) = _ at h
  simp only [EStateM.bind, Stop.lift, onStack, stack_fresh, Stack.pushFrame_of, Stack.height_nil,
    List.length_nil] at h
  by_cases hroom : 0 < store.config.maxStackEntries
  · simp only [hroom, if_true] at h
    change Stop.lift resume _ = _ at h
    simp only [Stop.lift, resume_of] at h
    cases h
    exact ⟨hroom, rfl⟩
  · simp only [hroom, if_false] at h
    cases h

end Starts

end Machine

namespace Context

/-- A context of the same activation: the frame differs by its `pc` at most. -/
structure Sibling (c c' : Context) : Prop where
  limit : c'.limit = c.limit
  bottom : c'.bottom = c.bottom
  callers : c'.callers = c.callers
  frame : ∃ p, c'.frame = { c.frame with pc := p }

theorem base_drop {c : Context} {d : Nat} {l : Label} {ws : List Value}
    {rest : List (Label × List Value)} (h : c.outer.drop d = (l, ws) :: rest) :
    Context.base { c with outer := rest } + ws.length < c.base := by
  have hsplit : c.outer.take d ++ (l, ws) :: rest = c.outer := by rw [← h, List.take_append_drop]
  obtain ⟨es, hes⟩ : ∃ es, Stack.beneath c.bottom c.callers c.frame
      (c.outer.take d ++ (l, ws) :: rest) = Stack.beneath c.bottom c.callers c.frame
        ((l, ws) :: rest) ++ es := Stack.beneath_append _
  rw [hsplit, Stack.beneath_cons] at hes
  simp only [base, hes, List.length_append, Stack.length_operands, List.length_singleton]
  omega

theorem Fits.unwound {c : Context} {s : Scope} (hs : c.Fits s) {d : Nat} {l : Label}
    {ws : List Value} {rest : List (Label × List Value)} (h : c.outer.drop d = (l, ws) :: rest)
    (n pc : Nat) : Context.Fits { c with outer := rest, pc }
      { s with operands := s.operands.take n ++ ws } := by
  have hbase : Context.base { c with outer := rest, pc } + ws.length < c.base := base_drop h
  simp only [Fits, List.length_append, List.length_take] at hs ⊢
  omega

theorem base_callers {c : Context} {f : Frame} {cs : List (Label × List Value)} {vs : List Value}
    {as : List Activation} (h : c.callers = ⟨f, cs, vs⟩ :: as) :
    Context.base ⟨c.limit, c.bottom, as, f, cs, c.ends, f.pc⟩ + vs.length < c.base := by
  simp only [base, Stack.beneath, h, List.length_append, List.length_cons, Stack.entriesOf,
    Activation.entries, Stack.length_operands]
  omega

theorem Fits.resumed {c : Context} {s : Scope} (hs : c.Fits s) {f : Frame}
    {cs : List (Label × List Value)} {vs : List Value} {as : List Activation}
    (h : c.callers = ⟨f, cs, vs⟩ :: as) (n : Nat) (locals : Array Value) :
    Context.Fits ⟨c.limit, c.bottom, as, f, cs, c.ends, f.pc⟩
      ⟨s.store, locals, s.operands.take n ++ vs⟩ := by
  have hbase := base_callers h
  simp only [Fits, List.length_append, List.length_take] at hs ⊢
  omega

end Context

/-- What a step does to the frames. -/
inductive Shifts (base : Nat) (c : Context) : Bool → Machine → Prop
  | stay {c' : Context} {s' : Scope} : c.Sibling c' → c'.Fits s' → Shifts base c false (c'.fill s')
  | enter {c' : Context} {s s' : Scope} {p : Nat} : c'.limit = c.limit → c'.bottom = c.bottom →
    c'.callers = (c.saving p).activation s :: c.callers → c'.Fits s' →
    Shifts base c false (c'.fill s')
  | leave {s : Scope} {done : Bool} {m : Machine} : c.Fits s → Leaves base c s (.ok done m) →
    Shifts base c done m

theorem Calls.shifts {callHost : HostCall} {base : Nat} {c : Context} {s : Scope} {func p : Nat}
    {done : Bool} {m : Machine} (h : Calls callHost (c.saving p) s func (.ok done m)) :
    Shifts base c done m := by
  cases h with
  | enter _ hc _ hfit =>
    subst hc
    exact .enter rfl rfl rfl hfit
  | answer _ _ _ _ hfit => exact .stay ⟨rfl, rfl, rfl, p, rfl⟩ hfit

theorem Moves.shifts {callHost : HostCall} {base : Nat} {b c : Context} {s : Scope} {done : Bool}
    {m : Machine} (h : Moves callHost base b c s (.ok done m)) (hs : c.Fits s) :
    Shifts base c done m := by
  have hsame : c.frame = { c.frame with pc := c.frame.pc } := rfl
  cases h with
  | next hi => exact .stay ⟨rfl, rfl, rfl, _, hsame⟩ hi.fits
  | skip hi _ => exact .stay ⟨rfl, rfl, rfl, _, hsame⟩ hi.fits
  | branch hi ho _ => exact .stay ⟨rfl, rfl, rfl, _, hsame⟩ (hi.fits.unwound ho _ _)
  | branchOut hi _ hl => exact .leave hi.fits hl
  | leave hi hl => exact .leave hi.fits hl
  | call hi hc => exact hc.shifts
  | last _ _ hl => exact .leave hs hl
  | close _ _ ho _ => exact .stay ⟨rfl, rfl, rfl, _, hsame⟩ (hs.unwound (d := 0) ho _ _)
  | pass hi _ _ => exact .stay ⟨rfl, rfl, rfl, _, hsame⟩ hi.fits
  | enter _ _ _ _ _ _ hc _ hfit =>
    subst hc
    exact .stay ⟨rfl, rfl, rfl, _, hsame⟩ hfit

end Wasm
