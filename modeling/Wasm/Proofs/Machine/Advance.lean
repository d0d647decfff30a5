import Wasm.Proofs.Machine.Moves

namespace Wasm

namespace Stack

@[simp] theorem length_placesOf (bottom : List Value) (as : List Activation) :
    (placesOf bottom as).length = as.length := by
  induction as with
  | nil => rfl
  | cons a as ih => simp [placesOf, ih]

theorem size_frames_of (limit : Nat) (bottom : List Value) (as : List Activation) :
    (of limit bottom as).frames.size = as.length := by
  simp [of]

end Stack

namespace Machine

variable {callHost : HostCall} {base : Nat} {b c : Context} {s : Scope}

theorem resume_of {store : Store} {limit : Nat} {bottom : List Value} {f : Frame}
    {cs : List (Label × List Value)} {vs : List Value} {as : List Activation} {ends : BlockEnds}
    {pc : Nat} : resume ⟨store, .of limit bottom (⟨f, cs, vs⟩ :: as), ends, pc⟩ =
      .ok () ⟨store, .of limit bottom (⟨f, cs, vs⟩ :: as), ends, f.pc⟩ := by
  change EStateM.bind (onStack Stack.currentFrame) _ _ = _
  simp only [EStateM.bind, onStack, Stack.currentFrame_of]
  rfl

theorem conclude_leave_apply (m : Machine) : conclude callHost base .leave m =
    match Stack.popFrame m.stack with
    | .ok _ stack =>
      if stack.frames.size ≤ base then .ok true { m with stack }
      else match resume { m with stack } with
        | .ok _ m' => .ok false m'
        | .error t m' => .error (.failed t) m'
    | .error t stack => .error (.failed t) { m with stack } := by
  change EStateM.bind (Stop.lift (onStack Stack.popFrame)) _ m = _
  simp only [EStateM.bind, Stop.lift, onStack]
  cases Stack.popFrame m.stack with
  | error t stack => rfl
  | ok f stack =>
    change EStateM.bind (Stop.lift frameCount) _ _ = _
    simp only [EStateM.bind, Stop.lift, frameCount, Outcome.bind_apply, Outcome.get_apply,
      Outcome.pure_apply]
    split
    · rfl
    · change EStateM.bind (Stop.lift resume) _ _ = _
      simp only [EStateM.bind, Stop.lift]
      cases resume { m with stack } <;> rfl

theorem conclude_leave (hs : c.Fits s) :
    Leaves base c s (conclude callHost base .leave (c.fill s)) := by
  have hfit : Stack.height c.bottom (c.activation s :: c.callers) ≤ c.limit := by
    rw [c.height_activation]
    exact hs
  rw [conclude_leave_apply]
  simp only [Context.fill]
  obtain ⟨limit, bottom, callers, frame, outer, ends, pc⟩ := c
  simp only [Context.activation] at hfit ⊢
  cases callers with
  | nil =>
    rw [Stack.popFrame_of_nil hfit]
    by_cases h : frame.arity ≤ s.operands.length
    · simp only [h, if_true, Stack.size_frames_of, List.length_nil, Nat.zero_le]
      exact .outermost h rfl
    · simp only [h, if_false]
      exact .short (Nat.not_le.mp h)
  | cons a as =>
    obtain ⟨g, ds, ws⟩ := a
    rw [Stack.popFrame_of_cons hfit]
    by_cases h : frame.arity ≤ s.operands.length
    · simp only [h, if_true, Stack.size_frames_of, List.length_cons, resume_of]
      by_cases hb : as.length + 1 ≤ base
      · simp only [hb, if_true]
        exact .finish h rfl hb
      · simp only [hb, if_false]
        exact .resume h rfl (by omega)
    · simp only [h, if_false]
      exact .short (Nat.not_le.mp h)

theorem full_fill (h : c.Full s) : (c.fill s).Full := by
  have hsize : (c.fill s).stack.entries.size =
      Stack.height c.bottom (c.activation s :: c.callers) := by
    simp [Context.fill, Stack.of, Stack.height]
  rw [Full, hsize, c.height_activation]
  exact h

theorem Context.Fits.dropped (hs : c.Fits s) (n : Nat) : c.Fits (s.dropped n) := by
  simp only [Context.Fits, Scope.dropped, List.length_drop] at hs ⊢
  omega

theorem popValuesTyped_fill {ts : List ValType} (h : ts.length ≤ s.operands.length) :
    Stack.popValuesTyped ts (c.fill s).stack =
      match Value.typeFault? (s.args ts.length) ts with
      | some t => .error t (c.fill s).stack
      | none => .ok (s.args ts.length) (c.fill (s.dropped ts.length)).stack := by
  simp only [Context.fill, Context.activation, Stack.popValuesTyped_of _ h, Scope.args]
  cases Value.typeFault? (s.operands.take ts.length).reverse ts <;> rfl

theorem popValuesTyped_fill_short {ts : List ValType} (h : s.operands.length < ts.length) :
    ∃ t, Stack.popValuesTyped ts (c.fill s).stack = .error t (c.fill s).stack ∧
      (t = .stackUnderflow ∨ ∃ x y, t = .typeMismatch x y) := by
  simp only [Context.fill, Context.activation]
  exact Stack.popValuesTyped_of_short _ h

theorem pushFrame_fill (g : Frame) : Stack.pushFrame g (c.fill s).stack =
    if c.base + s.operands.length < c.limit then
      .ok () ((c.calling s g).fill ⟨s.store, g.locals, []⟩).stack
    else .error .stackOverflow (c.fill s).stack := by
  simp only [Context.fill, Stack.pushFrame_of, c.height_activation]
  by_cases h : c.base + s.operands.length < c.limit
  · rw [if_pos h, if_pos h]
    rfl
  · rw [if_neg h, if_neg h]

theorem fits_calling (g : Frame) (store : Store) (locals : Array Value)
    (h : c.base + s.operands.length < c.limit) : (c.calling s g).Fits ⟨store, locals, []⟩ := by
  have hbase : (c.calling s g).base = c.base + s.operands.length + 1 := by
    rw [← c.height_activation]
    simp [Context.base, Context.calling, Stack.beneath, Stack.height, Entry.constructs]
  rw [Context.Fits, hbase]
  exact h

/-- A function of code that can be called is one of a module instance. -/
theorem callee_code {store : Store} {depth func : Nat} {type : FuncType} {inst : Nat} {f : FuncDef}
    (h : store.callee depth func = .ok (.code type inst f)) :
    ∃ index, store.func func = .ok (.code type inst index) ∧ ¬ store.config.maxCallDepth ≤ depth ∧
      ∃ owner, store.instance_ inst = .ok owner ∧ owner.mod.functions[index]? = some f := by
  unfold Store.callee at h
  split at h
  · cases h
  · cases h
  · rename_i index hf
    split at h
    · cases h
    · rename_i hd
      split at h
      · cases h
      · rename_i owner hi
        split at h
        · cases h
        · rename_i hx
          cases h
          exact ⟨index, hf, hd, owner, hi, hx⟩

theorem callee_host {store : Store} {depth func : Nat} {f : Host.Func}
    (h : store.callee depth func = .ok (.host f)) : store.func func = .ok (.host f) := by
  unfold Store.callee at h
  split at h
  · cases h
  · rename_i hf
    cases h
    exact hf
  · split at h
    · cases h
    · split at h
      · cases h
      · split at h <;> cases h

theorem enter_apply (func : Nat) (type : FuncType) (inst index : Nat) (m : Machine) :
    enter func type inst index m =
      if m.store.config.maxCallDepth ≤ m.stack.frames.size then .error .callStackExhausted m
      else match m.store.instance_ inst with
        | .error t => .error t m
        | .ok owner =>
          match owner.mod.functions[index]? with
          | none => .error (.invalidAddress .body index) m
          | some f =>
            match Stack.popValuesTyped type.params m.stack with
            | .error t stack => .error t { m with stack }
            | .ok args stack =>
              match Stack.pushFrame
                { inst, func := some func, locals := (args ++ f.locals.map Value.zero).toArray
                  pc := 0, arity := type.results.length, body := f.body } stack with
              | .ok _ stack => .ok () { m with stack }
              | .error t stack => .error t { m with stack } := by
  simp only [enter, Outcome.bind_apply, Outcome.get_apply, frameCount, Outcome.pure_apply]
  by_cases h : m.store.config.maxCallDepth ≤ m.stack.frames.size
  · simp only [h, if_true]
    rfl
  · simp only [h, if_false, Outcome.bind_apply, Outcome.get_apply]
    cases m.store.instance_ inst with
    | error t => rfl
    | ok owner =>
      simp only [check, Outcome.pure_apply]
      cases owner.mod.functions[index]? with
      | none => rfl
      | some f =>
        change EStateM.bind (onStack (Stack.popValuesTyped type.params)) _ m = _
        simp only [EStateM.bind, onStack]
        cases Stack.popValuesTyped type.params m.stack with
        | error t stack => rfl
        | ok args stack =>
          change onStack (Stack.pushFrame _) _ = _
          simp only [onStack]
          cases Stack.pushFrame _ stack <;> rfl

theorem callOut_apply (f : Host.Func) (m : Machine) : callOut callHost f m =
    match Stack.popValuesTyped f.type.params m.stack with
    | .error t stack => .error (.failed t) { m with stack }
    | .ok args stack =>
      match callHost f args m.store with
      | .error e store => .error e { m with store, stack }
      | .ok results store =>
        match Value.hostFault? results f.type.results with
        | some t => .error (.failed t) { m with store, stack }
        | none =>
          match Stack.pushValues results stack with
          | .ok _ stack => .ok () { m with store, stack }
          | .error t stack => .error (.failed t) { m with store, stack } := by
  change EStateM.bind (Stop.lift (onStack (Stack.popValuesTyped f.type.params))) _ m = _
  simp only [EStateM.bind, Stop.lift, onStack]
  cases Stack.popValuesTyped f.type.params m.stack with
  | error t stack => rfl
  | ok args stack =>
    change EStateM.bind (onAction (callHost f args)) _ _ = _
    simp only [EStateM.bind, onAction]
    cases callHost f args m.store with
    | error e store => rfl
    | ok results store =>
      simp only
      cases Value.hostFault? results f.type.results with
      | some t => rfl
      | none =>
        change Stop.lift (onStack (Stack.pushValues results)) _ = _
        simp only [Stop.lift, onStack]
        cases Stack.pushValues results stack <;> rfl

theorem call_apply (func : Nat) (m : Machine) : call callHost func m =
    match m.store.func func with
    | .error t => .error (.failed t) m
    | .ok (.code type inst index) =>
      match enter func type inst index m with
      | .ok _ m' => .ok () m'
      | .error t m' => .error (.failed t) m'
    | .ok (.host f) => callOut callHost f m := by
  change EStateM.bind (Stop.lift (check (m.store.func func))) _ m = _
  simp only [EStateM.bind, Stop.lift]
  cases m.store.func func with
  | error t => rfl
  | ok k =>
    cases k with
    | host f => rfl
    | code type inst index =>
      change Stop.lift (enter func type inst index) m = _
      simp only [Stop.lift]
      cases enter func type inst index m <;> rfl

theorem call_refused {func : Nat} {t : Trap} {m : Machine}
    (h : m.store.callee m.stack.frames.size func = .error t) :
    call callHost func m = .error (.failed t) m := by
  rw [call_apply]
  unfold Store.callee at h
  split at h
  · rename_i hf
    cases h
    rw [hf]
  · cases h
  · rename_i type inst index hf
    simp only [hf, enter_apply]
    split at h
    · rename_i hd
      cases h
      simp only [hd, if_true]
    · rename_i hd
      simp only [hd, if_false]
      cases hi : m.store.instance_ inst with
      | error u =>
        rw [hi] at h
        cases h
        rfl
      | ok owner =>
        rw [hi] at h
        cases hx : owner.mod.functions[index]? with
        | none =>
          simp only [hx] at h ⊢
          cases h
          rfl
        | some f =>
          simp only [hx] at h
          cases h

theorem call_code {func : Nat} {type : FuncType} {inst : Nat} {f : FuncDef} {m : Machine}
    (h : m.store.callee m.stack.frames.size func = .ok (.code type inst f)) :
    call callHost func m =
      match Stack.popValuesTyped type.params m.stack with
      | .error t stack => .error (.failed t) { m with stack }
      | .ok args stack =>
        match Stack.pushFrame
          { inst, func := some func, locals := (args ++ f.locals.map Value.zero).toArray
            pc := 0, arity := type.results.length, body := f.body } stack with
        | .ok _ stack => .ok () { m with stack }
        | .error t stack => .error (.failed t) { m with stack } := by
  obtain ⟨index, hf, hd, owner, hi, hx⟩ := callee_code h
  simp only [call_apply, hf, enter_apply, hd, if_false, hi, hx]
  cases Stack.popValuesTyped type.params m.stack with
  | error t stack => rfl
  | ok args stack =>
    simp only
    cases Stack.pushFrame _ stack <;> rfl

theorem call_host {func : Nat} {f : Host.Func} {m : Machine}
    (h : m.store.callee m.stack.frames.size func = .ok (.host f)) :
    call callHost func m = callOut callHost f m := by
  rw [call_apply, callee_host h]

/-- Going on after a call that was made from the `depth`-th frame: at the callee's first
instruction, or at `pc` if there is no new frame. -/
def proceed (depth pc : Nat) :
    EStateM.Result (Stop Trap) Machine Unit → EStateM.Result (Stop Trap) Machine Bool
  | .error e m => .error e m
  | .ok _ m =>
    if depth < m.stack.frames.size then
      match resume m with
      | .ok _ m' => .ok false m'
      | .error t m' => .error (.failed t) m'
    else .ok false { m with pc := pc }

theorem conclude_call_apply (func : Nat) (m : Machine) : conclude callHost base (.call func) m =
    match Stack.onFrame (modify fun f ↦ { f with pc := m.pc + 1 }) m.stack with
    | .error t stack => .error (.failed t) { m with stack }
    | .ok _ stack =>
      proceed stack.frames.size (m.pc + 1) (call callHost func { m with stack }) := by
  change EStateM.bind (Stop.lift (onStack (Stack.onFrame _))) _ m = _
  simp only [EStateM.bind, Stop.lift, onStack]
  cases Stack.onFrame (modify fun f ↦ { f with pc := m.pc + 1 }) m.stack with
  | error t stack => rfl
  | ok _ stack =>
    change EStateM.bind (call callHost func) _ _ = _
    simp only [EStateM.bind]
    cases call callHost func { m with stack } with
    | error e m' => rfl
    | ok _ m' =>
      change EStateM.bind (Stop.lift frameCount) _ _ = _
      simp only [EStateM.bind, Stop.lift, frameCount, Outcome.bind_apply, Outcome.get_apply,
        Outcome.pure_apply, proceed]
      split
      · change EStateM.bind (Stop.lift resume) _ _ = _
        simp only [EStateM.bind, Stop.lift]
        cases resume m' <;> rfl
      · rfl

theorem depth_fill : (c.fill s).stack.frames.size = c.depth := by
  simp [Context.fill, Stack.size_frames_of, Context.depth]

theorem fits_saving (hs : c.Fits s) (pc : Nat) : (c.saving pc).Fits s := by
  have hbase : (c.saving pc).base = c.base := Stack.length_beneath _
  rw [Context.Fits, hbase]
  exact hs

theorem onFrame_fill (pc : Nat) :
    Stack.onFrame (modify fun f ↦ { f with pc := pc }) (c.fill s).stack =
      .ok () ((c.saving pc).fill s).stack := by
  simp only [Context.fill, Context.activation, Stack.onFrame_of]
  rfl

/-- What is done to the parameters of a callee on top of the operands. -/
theorem popParams_calls {func : Nat} {k : Callee} {g : List Value → Stack →
      EStateM.Result (Stop Trap) Machine Unit}
    (hk : s.store.callee c.depth func = .ok k)
    (hg : Offers c s func k → Calls callHost c s func (proceed c.depth c.frame.pc
      (g (s.args k.params.length) (c.fill (s.dropped k.params.length)).stack))) :
    Calls callHost c s func (proceed c.depth c.frame.pc
      (match Stack.popValuesTyped k.params (c.fill s).stack with
        | .error t stack => .error (.failed t) { c.fill s with stack }
        | .ok args stack => g args stack)) := by
  by_cases hn : k.params.length ≤ s.operands.length
  · rw [popValuesTyped_fill hn]
    cases ht : Value.typeFault? (s.args k.params.length) k.params with
    | some t => exact .mismatch hk hn ht
    | none => exact hg ⟨hk, hn, ht⟩
  · obtain ⟨t, hpop, ht⟩ := @popValuesTyped_fill_short c s _ (Nat.not_le.mp hn)
    rw [hpop]
    exact .short hk (Nat.not_le.mp hn) hpop ht

theorem pushValues_fill {vs : List Value} (hs : c.Fits s) :
    (c.Fits { s with operands := vs.reverse ++ s.operands } ∧
      Stack.pushValues vs (c.fill s).stack =
        .ok () (c.fill { s with operands := vs.reverse ++ s.operands }).stack) ∨
    ∃ s', c.Full s' ∧ Stack.pushValues vs (c.fill s).stack =
      .error .stackOverflow (c.fill s').stack := by
  have hh := c.height_activation s
  simp only [Context.fill, Context.activation] at hh ⊢
  by_cases h : c.base + s.operands.length + vs.length ≤ c.limit
  · refine .inl ⟨?_, Stack.pushValues_of vs (by rw [hh]; exact h)⟩
    simp only [Context.Fits, List.length_append, List.length_reverse]
    omega
  · obtain ⟨ws, hpush, hfull⟩ := Stack.pushValues_of_full vs (hh.trans_le hs)
      (by rw [hh]; exact Nat.not_le.mp h)
    refine .inr ⟨{ s with operands := ws }, ?_, hpush⟩
    have hw := c.height_activation { s with operands := ws }
    simp only [Context.activation] at hw
    exact hw.symm.trans hfull

theorem proceed_calling (s' : Scope) (g : Frame) (pc : Nat) :
    proceed c.depth pc (.ok () ⟨s.store, ((c.calling s' g).fill ⟨s.store, g.locals, []⟩).stack,
      c.ends, c.pc⟩) =
      .ok false ((c.calling s' { g with locals := #[] }).fill ⟨s.store, g.locals, []⟩) := by
  have hdepth : c.depth < ((c.calling s' g).fill ⟨s.store, g.locals, []⟩).stack.frames.size := by
    rw [depth_fill]
    simp [Context.depth, Context.calling]
  have hres :
      resume ⟨s.store, ((c.calling s' g).fill ⟨s.store, g.locals, []⟩).stack, c.ends, c.pc⟩ =
        .ok () ((c.calling s' { g with locals := #[] }).fill ⟨s.store, g.locals, []⟩) := resume_of
  simp only [proceed, hdepth, if_true, hres]

theorem call_calls (hs : c.Fits s) (func : Nat) :
    Calls callHost c s func (proceed c.depth c.frame.pc (call callHost func (c.fill s))) := by
  cases hk : s.store.callee c.depth func with
  | error t =>
    rw [call_refused (by rw [depth_fill]; exact hk)]
    exact .refuse hk
  | ok k =>
    cases k with
    | code type inst f =>
      rw [call_code (by rw [depth_fill]; exact hk)]
      refine @popParams_calls callHost c s func (.code type inst f) _ hk fun ho ↦ ?_
      simp only [Callee.params]
      rw [pushFrame_fill]
      by_cases hroom : c.base + (s.dropped type.params.length).operands.length < c.limit
      · simp only [hroom, if_true]
        refine (congrArg (Calls callHost c s func) (proceed_calling _ _ _)).mpr ?_
        exact .enter ho rfl rfl (fits_calling _ _ _ hroom)
      · simp only [hroom, if_false]
        have hfit := Context.Fits.dropped hs type.params.length
        exact .overflow (full_fill (Nat.le_antisymm hfit (Nat.not_lt.mp hroom))) rfl
    | host f =>
      rw [call_host (by rw [depth_fill]; exact hk), callOut_apply]
      refine @popParams_calls callHost c s func (.host f) _ hk fun ho ↦ ?_
      simp only [Callee.params, Context.store_fill]
      cases hr : callHost f (s.args f.type.params.length) s.store with
      | error e store => exact .abort ho hr
      | ok results store =>
        simp only
        cases ht : Value.hostFault? results f.type.results with
        | some t => exact .misanswer ho hr ht
        | none =>
          have hfit := Context.Fits.dropped hs f.type.params.length
          obtain ⟨hroom, hpush⟩ | ⟨s', hfull, hpush⟩ := @pushValues_fill c _ results hfit
          · simp only [hpush]
            have hdepth : ¬ c.depth < (c.fill { s.dropped f.type.params.length with
                operands := results.reverse ++
                  (s.dropped f.type.params.length).operands }).stack.frames.size := by
              rw [depth_fill]
              exact Nat.lt_irrefl _
            simp only [proceed, hdepth, if_false]
            exact .answer ho hr ht rfl hroom
          · simp only [hpush]
            exact .overanswer ho hr (full_fill hfull)

theorem blockEnd_fill : blockEnd (c.fill s) =
    match BlockEnds.find c.frame.func c.frame.body c.pc c.ends with
    | .ok e ends => .ok e (Context.fill { c with ends } s)
    | .error t ends => .error t (Context.fill { c with ends } s) := by
  change EStateM.bind (onStack Stack.currentFrame) _ _ = _
  simp only [EStateM.bind, onStack, Context.fill, Context.activation, Stack.currentFrame_of,
    Outcome.bind_apply, Outcome.get_apply, onEnds]
  cases BlockEnds.find c.frame.func c.frame.body c.pc c.ends <;> rfl

theorem pushLabel_fill_short {l : Label} (h : s.operands.length < l.params) :
    Stack.pushLabel l (c.fill s).stack = .error .stackUnderflow (c.fill s).stack := by
  simp only [Context.fill, Context.activation]
  exact Stack.pushLabel_of_short h

theorem pushLabel_fill {l : Label} (hs : c.Fits s) (h : l.params ≤ s.operands.length) :
    ((c.within l (s.operands.drop l.params) c.ends c.pc).Fits
        { s with operands := s.operands.take l.params } ∧
      Stack.pushLabel l (c.fill s).stack =
        .ok () ((c.within l (s.operands.drop l.params) c.ends c.pc).fill
          { s with operands := s.operands.take l.params }).stack) ∨
    ∃ c' s', Context.Full c' s' ∧ Stack.pushLabel l (c.fill s).stack =
      .error .stackOverflow (c'.fill s').stack := by
  have hh := c.height_activation s
  simp only [Context.activation] at hh
  by_cases hroom : c.base + s.operands.length < c.limit
  · refine .inl ⟨?_, ?_⟩
    · simp only [Context.Fits, Context.base, Context.within, Stack.beneath_cons,
        List.length_append, Stack.length_operands, List.length_drop, List.length_take,
        List.length_singleton]
      simp only [Context.base] at hroom
      omega
    · simp only [Context.fill, Context.activation]
      exact Stack.pushLabel_of h (by rw [hh]; exact hroom)
  · have hfull := Nat.le_antisymm hs (Nat.not_lt.mp hroom)
    obtain ⟨ds, ws, hpush, hheight⟩ := Stack.pushLabel_of_full h (hh.trans hfull)
    refine .inr ⟨{ c with outer := ds }, { s with operands := ws }, ?_, hpush⟩
    have hw := Context.height_activation { c with outer := ds } { s with operands := ws }
    exact hw.symm.trans hheight

theorem enterBlock_apply (t : BlockType) (isLoop : Bool) (m : Machine) : enterBlock t isLoop m =
    match blockArity t m with
    | .error u m => .error u m
    | .ok (params, arity) m =>
      match blockEnd m with
      | .error u m => .error u m
      | .ok e m =>
        match Stack.pushLabel { arity, params, start := m.pc, stop := e.endPc, isLoop } m.stack with
        | .error u stack => .error u { m with stack }
        | .ok _ stack => .ok () { m with stack } := by
  simp only [enterBlock, Outcome.bind_apply]
  cases blockArity t m with
  | error u m => rfl
  | ok a m =>
    simp only
    cases blockEnd m with
    | error u m => rfl
    | ok e m =>
      change onStack (Stack.pushLabel _) m = _
      simp only [onStack]
      cases Stack.pushLabel _ m.stack <;> rfl

/-- Entering a construct, after its condition has been found to be `x`. The ends that are known may
be those that the search for the construct's own end has left. -/
theorem enterBlock_moves {i : Instr} {sig : BlockType} {x : Bool} {s' : Scope} {ends₀ : BlockEnds}
    {p : Nat} {flow : Flow} (hb : c.Roomier b) (ho : Opens b c s i sig x s')
    (hfind : ∀ e ends, BlockEnds.find c.frame.func c.frame.body c.pc ends₀ = .ok e ends →
      Ends c e ends ∧ e.entry? c.pc x = some p)
    (hmiss : ∀ t ends, BlockEnds.find c.frame.func c.frame.body c.pc ends₀ = .error t ends →
      BlockEnds.find c.frame.func c.frame.body c.pc c.ends = .error t ends)
    (helse : x = false → ∃ e p, Ends c e ends₀ ∧ e.elsePc = some p)
    (hflow : ∀ c' : Context, c'.pc = c.pc → ∀ s',
      conclude callHost base flow (c'.fill s') = .ok false ((c'.goto p).fill s')) :
    Moves callHost base b c s (follow callHost base
      ((enterBlock sig i.isLoop >>= fun _ ↦ pure flow)
        (Context.fill { c with ends := ends₀ } s'))) := by
  have hroom : Context.Roomier { c with ends := ends₀ } b := ⟨hb.inst, hb.limit, hb.base⟩
  have harity := local_blockArity sig _ b hroom s' ho.fits
  rw [Outcome.bind_apply, enterBlock_apply]
  generalize hx : blockArity sig (Context.fill { c with ends := ends₀ } s') = x₁ at harity
  generalize hy : blockArity sig (b.fill s') = y₁ at harity
  cases harity with
  | error t s₁ hs₁ hsame ht => exact .mistyped ho helse hy ht hsame
  | overflow s₁ hfull hsame y => exact .overflow (full_fill hfull) (hsame.trans ho.same)
  | ok a s₁ hs₁ hsame =>
    obtain ⟨params, arity⟩ := a
    simp only [blockEnd_fill]
    cases hf : BlockEnds.find c.frame.func c.frame.body c.pc ends₀ with
    | error t ends =>
      exact .unterminated ho.instr ho.signature (hmiss t ends hf) (hsame.trans ho.same)
    | ok e ends =>
      obtain ⟨hends, hentry⟩ := hfind e ends hf
      simp only
      by_cases hp : params ≤ s₁.operands.length
      · have hs₁' : Context.Fits { c with ends } s₁ := hs₁
        obtain ⟨hfit, hpush⟩ | ⟨c', s'', hfull, hpush⟩ :=
          @pushLabel_fill { c with ends } s₁ ⟨arity, params, c.pc, e.endPc, i.isLoop⟩ hs₁' hp
        · simp only [Context.pc_fill, hpush]
          have hgo := hflow (Context.within { c with ends } ⟨arity, params, c.pc, e.endPc, i.isLoop⟩
            (s₁.operands.drop params) ends c.pc) rfl
            { s₁ with operands := s₁.operands.take params }
          refine (congrArg (Moves callHost base b c s) hgo).mpr ?_
          exact .enter ho hends hentry hy hsame hp rfl rfl hfit
        · simp only [Context.pc_fill, hpush]
          exact .overflow (full_fill hfull) (hsame.trans ho.same)
      · have hshort := Nat.not_le.mp hp
        simp only [Context.pc_fill, @pushLabel_fill_short { c with ends } s₁
          ⟨arity, params, c.pc, e.endPc, i.isLoop⟩ hshort]
        exact .enterShort ho hends hentry hy hsame hshort

theorem find_again {func : Option Nat} {code : Code} {start : Nat} {ends ends' : BlockEnds}
    {e : BlockEnd} (h : BlockEnds.find func code start ends = .ok e ends') :
    BlockEnds.find func code start ends' = .ok e ends' := by
  unfold BlockEnds.find at h
  split at h
  · rename_i hget
    cases h
    simp [BlockEnds.find, hget]
  · split at h
    · cases h
      simp [BlockEnds.find]
    · cases h

theorem enterIf_apply (t : BlockType) (m : Machine) : enterIf t m =
    match condition (.if_ t) m with
    | .error u m => .error u m
    | .ok true m => (enterBlock t false >>= fun _ ↦ pure .next) m
    | .ok false m =>
      match blockEnd m with
      | .error u m => .error u m
      | .ok e m =>
        match e.elsePc with
        | none => .ok (.jump (e.endPc + 1)) m
        | some pc => (enterBlock t false >>= fun _ ↦ pure (.jump (pc + 1))) m := by
  simp only [enterIf, condition, Outcome.bind_apply]
  cases (liftM Stack.popI32 : Exec _) m with
  | error u m => rfl
  | ok x m =>
    simp only [Outcome.pure_apply]
    by_cases hx : x ≠ 0
    · simp only [ne_eq, hx, not_false_eq_true, if_true, Outcome.bind_apply, decide_true,
        Outcome.pure_apply]
    · simp only [hx, if_false, Outcome.bind_apply, decide_false]
      cases blockEnd m with
      | error u m => rfl
      | ok e m =>
        cases e with
        | mk elsePc endPc => cases elsePc <;> rfl

theorem enterIf_moves {t : BlockType} (hb : c.Roomier b) (hs : c.Fits s)
    (hi : c.frame.body[c.pc]? = some (.if_ t)) :
    Moves callHost base b c s (follow callHost base (enterIf t (c.fill s))) := by
  have hcond := local_condition (.if_ t) c b hb s hs
  rw [enterIf_apply]
  generalize condition (.if_ t) (c.fill s) = x₁ at hcond
  generalize hy : condition (.if_ t) (b.fill s) = y₁ at hcond
  cases hcond with
  | error u s₁ hs₁ hsame hu => exact .refuse hi rfl hy hu hsame
  | overflow s₁ hfull hsame y => exact .overflow (full_fill hfull) hsame
  | ok x s₁ hs₁ hsame =>
    have ho : Opens b c s (.if_ t) t x s₁ := ⟨hs₁, hsame, hi, rfl, hy⟩
    cases x with
    | true =>
      refine @enterBlock_moves callHost base b c s (.if_ t) t true s₁ c.ends (c.pc + 1) .next hb ho
        (fun e ends h ↦ ⟨h, rfl⟩) (fun u ends h ↦ h) (by simp) ?_
      intro c' hc' s'
      rw [← hc']
      rfl
    | false =>
      simp only [blockEnd_fill]
      cases hf : BlockEnds.find c.frame.func c.frame.body c.pc c.ends with
      | error u ends => exact .unterminated hi rfl hf hsame
      | ok e ends =>
        simp only
        cases he : e.elsePc with
        | none => exact .pass ho hf he
        | some p =>
          have hagain := find_again hf
          refine @enterBlock_moves callHost base b c s (.if_ t) t false s₁ ends (p + 1)
            (.jump (p + 1)) hb ho ?_ ?_ (fun _ ↦ ⟨e, p, hf, he⟩) (fun _ _ _ ↦ rfl)
          · intro e' ends' h
            rw [hagain] at h
            cases h
            exact ⟨hf, by simp [BlockEnd.entry?, he]⟩
          · intro u ends' h
            rw [hagain] at h
            cases h

theorem currentLabel_fill {l : Label} {ws : List Value} {rest : List (Label × List Value)}
    (h : c.outer = (l, ws) :: rest) :
    Stack.currentLabel 0 (c.fill s).stack = .ok l (c.fill s).stack := by
  simp only [Context.fill, Context.activation, h]
  exact Stack.currentLabel_of_cons l ws

theorem currentLabel_fill_nil (h : c.outer = []) :
    Stack.currentLabel 0 (c.fill s).stack =
      .error (.malformedControl .labelDepth) (c.fill s).stack := by
  simp only [Context.fill, Context.activation, h]
  exact Stack.currentLabel_of_nil

theorem branch_fill {d : Nat} {l : Label} {ws : List Value} {rest : List (Label × List Value)}
    (hs : c.Fits s) (h : c.outer.drop d = (l, ws) :: rest) :
    Stack.branch d (c.fill s).stack =
      if l.branchArity ≤ s.operands.length then
        .ok (.jump l.target) (Context.fill { c with outer := rest }
          { s with operands := s.operands.take l.branchArity ++ ws }).stack
      else .error .stackUnderflow (c.fill s).stack := by
  have hh := c.height_activation s
  exact Stack.branch_of_cons h (hh.trans_le hs)

theorem branch_fill_out {d : Nat} (h : c.outer.drop d = []) :
    Stack.branch d (c.fill s).stack = .ok .leave (c.fill s).stack :=
  Stack.branch_of_nil h

theorem branch_apply (d : Nat) (m : Machine) : branch d m = match Stack.branch d m.stack with
    | .ok (.jump pc) stack => .ok (.jump pc) { m with stack }
    | .ok .leave stack => .ok .leave { m with stack }
    | .error t stack => .error t { m with stack } := by
  change EStateM.bind (onStack (Stack.branch d)) _ m = _
  simp only [EStateM.bind, onStack]
  cases Stack.branch d m.stack with
  | error t stack => rfl
  | ok x stack => cases x <;> rfl

/-- An instruction that opens or closes no construct. -/
theorem plain_moves {i : Instr} (hb : c.Roomier b) (hs : c.Fits s)
    (hi : c.frame.body[c.pc]? = some i) (hp : i.plain = true) :
    Moves callHost base b c s (follow callHost base ((intent i >>= fulfil) (c.fill s))) := by
  have hint := local_intent i c b hb s hs
  rw [Outcome.bind_apply]
  generalize hx : intent i (c.fill s) = x₁ at hint
  generalize hy : intent i (b.fill s) = y₁ at hint
  cases hint with
  | error t s₁ hs₁ hsame ht => exact .trap hi hp hy ht hsame
  | overflow s₁ hfull hsame y => exact .overflow (full_fill hfull) hsame
  | ok x s₁ hs₁ hsame =>
    have hx : Intends b c s x s₁ := ⟨hs₁, hsame, i, hi, hp, hy, hx⟩
    cases x with
    | next => exact .next hx
    | leave => exact .leave hx (@conclude_leave callHost base c s₁ hs₁)
    | skip =>
      change Moves callHost base b c s (follow callHost base
        (EStateM.bind (onStack (Stack.currentLabel 0)) _ (c.fill s₁)))
      simp only [EStateM.bind, onStack]
      cases ho : c.outer with
      | nil =>
        rw [currentLabel_fill_nil ho]
        exact .skipOut hx ho
      | cons o rest =>
        rw [currentLabel_fill ho]
        exact .skip hx ho
    | branch d =>
      simp only [fulfil, branch_apply]
      cases ho : c.outer.drop d with
      | nil =>
        rw [branch_fill_out ho]
        exact .branchOut hx ho (@conclude_leave callHost base c s₁ hs₁)
      | cons o rest =>
        rw [branch_fill hs₁ ho]
        by_cases hn : o.1.branchArity ≤ s₁.operands.length
        · rw [if_pos hn]
          exact .branch hx ho hn
        · rw [if_neg hn]
          exact .branchShort hx ho (Nat.not_le.mp hn)
    | call func =>
      refine .call hx ?_
      have hcall := @call_calls callHost (c.saving (c.pc + 1)) s₁ (fits_saving hs₁ _) func
      simp only [fulfil, Outcome.pure_apply, follow, conclude_call_apply, Context.pc_fill,
        onFrame_fill, depth_fill]
      exact hcall

theorem popLabel_fill {l : Label} {ws : List Value} {rest : List (Label × List Value)}
    (hs : c.Fits s) (h : c.outer = (l, ws) :: rest) :
    Stack.popLabel (c.fill s).stack =
      if l.arity ≤ s.operands.length then
        .ok l (Context.fill { c with outer := rest }
          { s with operands := s.operands.take l.arity ++ ws }).stack
      else .error .stackUnderflow (c.fill s).stack := by
  have hh := (c.height_activation s).trans_le hs
  simp only [Context.activation, h] at hh
  simp only [Context.fill, Context.activation, h]
  exact Stack.popLabel_of_cons l ws hh

theorem popLabel_fill_nil (h : c.outer = []) :
    Stack.popLabel (c.fill s).stack = .error (.malformedControl .strayEnd) (c.fill s).stack := by
  simp only [Context.fill, Context.activation, h]
  exact Stack.popLabel_of_nil

theorem end_moves (hs : c.Fits s) (hi : c.frame.body[c.pc]? = some .end_) :
    Moves callHost base b c s
      (follow callHost base (exec c.frame.body.size .end_ (c.fill s))) := by
  by_cases hl : c.pc + 1 = c.frame.body.size
  · have hexec : exec c.frame.body.size .end_ (c.fill s) = .ok .leave (c.fill s) := by
      change (if c.pc + 1 = c.frame.body.size then pure .leave else _ : Exec Flow) (c.fill s) = _
      rw [if_pos hl]
      rfl
    rw [hexec]
    exact .last hi hl (@conclude_leave callHost base c s hs)
  · have hexec : exec c.frame.body.size .end_ (c.fill s) =
        (do let _ ← onStack Stack.popLabel; return .next : Exec Flow) (c.fill s) := by
      change (if c.pc + 1 = c.frame.body.size then pure .leave else _ : Exec Flow) (c.fill s) = _
      rw [if_neg hl]
      rfl
    rw [hexec, Outcome.bind_apply]
    simp only [onStack]
    cases ho : c.outer with
    | nil =>
      rw [popLabel_fill_nil ho]
      exact .closeOut hi hl ho
    | cons o rest =>
      rw [popLabel_fill hs ho]
      by_cases hn : o.1.arity ≤ s.operands.length
      · rw [if_pos hn]
        exact .close hi hl ho hn
      · rw [if_neg hn]
        exact .closeShort hi hl ho (Nat.not_le.mp hn)

/-- Entering a construct that has no condition. -/
theorem block_moves {i : Instr} {t : BlockType} (hb : c.Roomier b) (hs : c.Fits s)
    (hi : c.frame.body[c.pc]? = some i) (hsig : i.signature? = some t)
    (hcond : condition i = pure true) :
    Moves callHost base b c s (follow callHost base
      ((enterBlock t i.isLoop >>= fun _ ↦ pure .next) (c.fill s))) := by
  have ho : Opens b c s i t true s := ⟨hs, rfl, hi, hsig, by rw [hcond]; rfl⟩
  refine @enterBlock_moves callHost base b c s i t true s c.ends (c.pc + 1) .next hb ho
    (fun e ends h ↦ ⟨h, rfl⟩) (fun u ends h ↦ h) (by simp) ?_
  intro c' hc' s'
  rw [← hc']
  rfl

theorem advance_moves (hb : c.Roomier b) (hs : c.Fits s) :
    Moves callHost base b c s (advance callHost base (c.fill s)) := by
  rw [advance_apply, step_fill]
  cases hi : c.frame.body[c.pc]? with
  | none => exact .pastEnd hi
  | some i =>
    simp only
    by_cases hp : i.plain = true
    · rw [exec_plain hp]
      exact plain_moves hb hs hi hp
    · cases i with
      | end_ => exact end_moves hs hi
      | block t => exact @block_moves callHost base b c s (.block t) t hb hs hi rfl rfl
      | loop t => exact @block_moves callHost base b c s (.loop t) t hb hs hi rfl rfl
      | if_ t => exact @enterIf_moves callHost base b c s t hb hs hi
      | _ => exact absurd rfl hp

end Machine

end Wasm
