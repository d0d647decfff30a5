import Wasm.Proofs.Machine.Run

namespace Wasm

namespace Machine

def Shaped (m : Machine) : Prop := ∃ c s, m = Context.fill c s ∧ c.Fits s

theorem Shaped.advance {callHost : HostCall} {base : Nat} {m m' : Machine} (hm : m.Shaped)
    (h : Machine.advance callHost base m = .ok false m') : m'.Shaped := by
  obtain ⟨c, s, rfl, hs⟩ := hm
  have hmove := @advance_moves callHost base c c s (.refl c) hs
  rw [h] at hmove
  cases hmove.shifts hs with
  | stay _ hfit => exact ⟨_, _, rfl, hfit⟩
  | enter _ _ _ hfit => exact ⟨_, _, rfl, hfit⟩
  | leave hfit hl =>
    cases hl with
    | resume _ hc _ => exact ⟨_, _, rfl, hfit.resumed hc _ _⟩

theorem Reachable.shaped {callHost : HostCall} {store : Store} {const : Code} {m : Machine}
    (h : Reachable callHost store const m) : m.Shaped := by
  induction h with
  | func h =>
    obtain ⟨type, inst, f, _, hn, hlt, rfl⟩ := func_start h
    refine ⟨_, _, rfl, fits_outermost ?_⟩
    simpa using hlt
  | const h =>
    obtain ⟨hlt, rfl⟩ := const_start h
    exact ⟨_, _, rfl, fits_outermost hlt⟩
  | step _ h ih => exact ih.advance h

def Above (limit : Nat) (bottom : List Value) (acts : List Activation) (n : Nat) (m : Machine) :
    Prop :=
  ∃ (c : Context) (s : Scope) (inner : List Activation), m = c.fill s ∧ c.Fits s ∧
    c.limit = limit ∧ c.bottom = bottom ∧ c.callers = inner ++ acts ∧
    (inner.map (·.frame.arity)).getLastD c.frame.arity = n

structure Completed (S : List Entry) (frames : Array Nat) (n : Nat) (m : Machine) : Prop where
  frames : m.stack.frames = frames
  entries : ∃ rs : List Value, rs.length = n ∧ m.stack.entries.toList = S ++ rs.map Entry.value

variable {callHost : HostCall} {base limit n : Nat} {bottom : List Value} {acts : List Activation}
  {m m' : Machine}

theorem Above.depth (h : Above limit bottom acts n m) : acts.length < m.stack.frames.size := by
  obtain ⟨c, s, inner, rfl, _, _, _, hcallers, _⟩ := h
  rw [depth_fill, Context.depth, hcallers, List.length_append]
  omega

theorem entriesOf_append_le (inner : List Activation) :
    Stack.entriesOf bottom acts <+: Stack.entriesOf bottom (inner ++ acts) := by
  induction inner with
  | nil => exact List.prefix_rfl
  | cons a inner ih => exact ih.trans (List.prefix_append _ _)

theorem Above.beneath (h : Above limit bottom acts n m) :
    Stack.entriesOf bottom acts <+: m.stack.entries.toList := by
  obtain ⟨c, s, inner, rfl, _, _, hbottom, hcallers, _⟩ := h
  have hentries : (c.fill s).stack.entries.toList =
      Stack.entriesOf bottom (c.activation s :: inner ++ acts) := by
    simp [Context.fill, Stack.of, hcallers, hbottom]
  rw [hentries]
  exact entriesOf_append_le _

/-- The first call of a run is active. -/
theorem Above.start (frame : Frame) {store : Store} {locals : Array Value}
    (h : bottom.length < limit) (hn : frame.arity = n) :
    Above limit bottom [] n ((outermost limit bottom frame).fill ⟨store, locals, []⟩) :=
  ⟨_, _, [], rfl, fits_outermost h, rfl, rfl, rfl, hn⟩

/-- What is left of the arguments of the first call. -/
theorem entriesOf_args (args : List Value) (n : Nat) :
    Stack.entriesOf (args.reverse.drop n) [] = (args.take (args.length - n)).map Entry.value := by
  simp [Stack.entriesOf, Entry.operands, List.drop_reverse]

theorem entriesOf_results {f : Frame} {cs : List (Label × List Value)} {vs rs : List Value}
    {as : List Activation} : Stack.entriesOf bottom (⟨f, cs, rs ++ vs⟩ :: as) =
      Stack.entriesOf bottom (⟨f, cs, vs⟩ :: as) ++ rs.reverse.map Entry.value := by
  simp [Stack.entriesOf_cons, Entry.operands]

theorem completed_of {f : Frame} {cs : List (Label × List Value)} {vs rs : List Value}
    {as : List Activation} (hm : m.stack = .of limit bottom (⟨f, cs, rs ++ vs⟩ :: as))
    (hn : rs.length = n) :
    Completed (Stack.entriesOf bottom (⟨f, cs, vs⟩ :: as))
      (Stack.placesOf bottom (⟨f, cs, vs⟩ :: as)).toArray n m where
  frames := by
    rw [hm]
    rfl
  entries := ⟨rs.reverse, by rw [List.length_reverse, hn], by
    rw [hm]
    simp only [Stack.of, entriesOf_results]⟩

theorem completed_of_nil {vs rs : List Value} (hm : m.stack = .of limit (rs ++ vs) [])
    (hn : rs.length = n) : Completed (Stack.entriesOf vs []) #[] n m where
  frames := by
    rw [hm]
    rfl
  entries := ⟨rs.reverse, by rw [List.length_reverse, hn], by
    rw [hm]
    simp [Stack.of, Stack.entriesOf, Entry.operands]⟩

/-- One step of an active call leaves it active or completes it. -/
theorem Above.advance (h : Above limit bottom acts n m) (hbase : base ≤ acts.length) {done : Bool}
    (hm : Machine.advance callHost base m = .ok done m') :
    (done = false ∧ Above limit bottom acts n m') ∨
    (Completed (Stack.entriesOf bottom acts) (Stack.placesOf bottom acts).toArray n m' ∧
      (done = false → base < acts.length ∧ ∃ a as, acts = a :: as ∧ m'.pc = a.frame.pc) ∧
      (done = true → acts.length = base)) := by
  obtain ⟨c, s, inner, rfl, hs, rfl, rfl, hcallers, harity⟩ := h
  have hmove := @advance_moves callHost base c c s (.refl c) hs
  rw [hm] at hmove
  cases hmove.shifts hs with
  | @stay c' s' hsib hfit =>
    refine .inl ⟨rfl, c', s', inner, rfl, hfit, hsib.limit, hsib.bottom,
      hsib.callers.trans hcallers, ?_⟩
    obtain ⟨p, hp⟩ := hsib.frame
    rw [← harity, hp]
  | @enter c' s₁ s' p hl hb hc hfit =>
    refine .inl ⟨rfl, c', s', (c.saving p).activation s₁ :: inner, rfl, hfit, hl, hb,
      by rw [hc, hcallers]; rfl, ?_⟩
    rw [← harity, List.map_cons, List.getLastD_cons]
    rfl
  | @leave s₁ _ _ hfit hl =>
    cases hl with
    | outermost hn hc =>
      rw [hcallers, List.append_eq_nil_iff] at hc
      obtain ⟨rfl, rfl⟩ := hc
      have hlen : (s₁.operands.take c.frame.arity).length = n :=
        (List.length_take_of_le hn).trans harity
      refine .inr ⟨completed_of_nil rfl hlen, by simp, fun _ ↦ ?_⟩
      exact (Nat.le_zero.mp hbase).symm
    | @finish f cs vs as hn hc hlt =>
      cases inner with
      | nil =>
        have hlen : (s₁.operands.take c.frame.arity).length = n :=
          (List.length_take_of_le hn).trans harity
        rw [hcallers] at hc
        subst hc
        refine .inr ⟨completed_of rfl hlen, by simp, fun _ ↦ ?_⟩
        exact Nat.le_antisymm hlt hbase
      | cons a inner =>
        have hlen := congrArg List.length (hcallers.symm.trans hc)
        simp only [List.length_append, List.length_cons] at hlen
        omega
    | @resume f cs vs as hn hc hle =>
      cases inner with
      | nil =>
        have hlen : (s₁.operands.take c.frame.arity).length = n :=
          (List.length_take_of_le hn).trans harity
        rw [hcallers] at hc
        subst hc
        exact .inr ⟨completed_of rfl hlen, fun _ ↦ ⟨Nat.lt_succ_of_le hle, _, _, rfl, rfl⟩, by simp⟩
      | cons a inner =>
        have hc' := hcallers.symm.trans hc
        simp only [List.cons_append, List.cons.injEq] at hc'
        obtain ⟨rfl, rfl⟩ := hc'
        refine .inl ⟨rfl, _, _, inner, rfl, hfit.resumed hc _ _, rfl, rfl, rfl, ?_⟩
        rw [← harity, List.map_cons, List.getLastD_cons]

inductive Inside (callHost : HostCall) (d : Nat) : Machine → Machine → Prop
  | refl {m : Machine} : d < m.stack.frames.size → Inside callHost d m m
  | step {m m' m'' : Machine} : Inside callHost d m m' → advance callHost 0 m' = .ok false m'' →
    d < m''.stack.frames.size → Inside callHost d m m''

/-- A call stays active as long as its frame is on the stack. -/
theorem Above.inside (h : Above limit bottom acts n m) (hi : Inside callHost acts.length m m') :
    Above limit bottom acts n m' := by
  induction hi with
  | refl _ => exact h
  | step _ hm hd ih =>
    obtain ⟨_, habove⟩ | ⟨hdone, _⟩ := ih.advance (Nat.zero_le _) hm
    · exact habove
    · rw [hdone.frames, List.size_toArray, Stack.length_placesOf] at hd
      exact absurd hd (Nat.lt_irrefl _)

/-- A run that ends has completed the call that it started with. -/
theorem Above.runTo {fuel : Nat} (h : Above limit bottom acts n m)
    (hr : Machine.runTo callHost acts.length fuel m = .ok () m') :
    Completed (Stack.entriesOf bottom acts) (Stack.placesOf bottom acts).toArray n m' := by
  induction fuel generalizing m with
  | zero => cases hr
  | succ fuel ih =>
    rw [runTo_apply] at hr
    cases hm : Machine.advance callHost acts.length m with
    | error e m₁ =>
      rw [hm] at hr
      cases hr
    | ok done m₁ =>
      rw [hm] at hr
      obtain ⟨rfl, habove⟩ | ⟨hdone, hgo, hend⟩ := h.advance le_rfl hm
      · exact ih habove hr
      · cases done with
        | true =>
          cases hr
          exact hdone
        | false => exact absurd (hgo rfl).1 (Nat.lt_irrefl _)

theorem fulfil_call {x : Intent} {c : Context} {s : Scope} {func : Nat}
    (h : fulfil x (c.fill s) = .ok (.call func) m) : x = .call func ∧ m = c.fill s := by
  cases x with
  | next => cases h
  | leave => cases h
  | call f =>
    cases h
    exact ⟨rfl, rfl⟩
  | skip =>
    change EStateM.bind (onStack (Stack.currentLabel 0)) _ (c.fill s) = _ at h
    simp only [EStateM.bind, onStack] at h
    cases hl : Stack.currentLabel 0 (c.fill s).stack with
    | ok l stack =>
      rw [hl] at h
      cases h
    | error t stack =>
      rw [hl] at h
      cases h
  | branch d =>
    rw [fulfil, branch_apply] at h
    split at h <;> cases h

theorem enterBlock_bind_ok {t : BlockType} {isLoop : Bool} {x y : Flow} {m₁ : Machine}
    (h : (enterBlock t isLoop >>= fun _ ↦ pure x) m = .ok y m₁) : y = x := by
  rw [Outcome.bind_apply] at h
  cases he : enterBlock t isLoop m with
  | error u m₂ =>
    rw [he] at h
    cases h
  | ok u m₂ =>
    rw [he] at h
    cases h
    rfl

/-- Where the machine goes after an instruction: a plain one says so itself, the last one returns,
and those that open or close a construct stay in the function. -/
theorem step_ok {b c : Context} {s : Scope} {x : Flow} (hb : c.Roomier b) (hs : c.Fits s)
    (h : step (c.fill s) = .ok x m) :
    (∃ y s', Intends b c s y s' ∧ fulfil y (c.fill s') = .ok x m) ∨ (x = .leave ∧ m = c.fill s) ∨
      x = .next ∨ ∃ pc, x = .jump pc := by
  rw [step_fill] at h
  cases hi : c.frame.body[c.pc]? with
  | none =>
    rw [hi] at h
    cases h
  | some i =>
    rw [hi] at h
    simp only at h
    by_cases hp : i.plain = true
    · rw [exec_plain hp, Outcome.bind_apply] at h
      have hint := local_intent i c b hb s hs
      generalize hc : intent i (c.fill s) = r at hint h
      generalize hy : intent i (b.fill s) = y at hint
      cases hint with
      | error t s₁ _ _ _ => cases h
      | overflow s₁ _ _ _ => cases h
      | ok y s₁ hs₁ hsame => exact .inl ⟨y, s₁, ⟨hs₁, hsame, i, hi, hp, hy, hc⟩, h⟩
    · cases i with
      | end_ =>
        change (if c.pc + 1 = c.frame.body.size then pure .leave else
          (do let _ ← onStack Stack.popLabel; return .next) : Exec Flow) (c.fill s) = _ at h
        split at h
        · cases h
          exact .inr (.inl ⟨rfl, rfl⟩)
        · rw [Outcome.bind_apply] at h
          cases hl : onStack Stack.popLabel (c.fill s) <;> rw [hl] at h <;> cases h
          exact .inr (.inr (.inl rfl))
      | block t => exact .inr (.inr (.inl (enterBlock_bind_ok h)))
      | loop t => exact .inr (.inr (.inl (enterBlock_bind_ok h)))
      | if_ t =>
        change enterIf t (c.fill s) = _ at h
        rw [enterIf_apply] at h
        split at h
        · cases h
        · exact .inr (.inr (.inl (enterBlock_bind_ok h)))
        · split at h
          · cases h
          · split at h
            · cases h
              exact .inr (.inr (.inr ⟨_, rfl⟩))
            · exact .inr (.inr (.inr ⟨_, enterBlock_bind_ok h⟩))
      | _ => exact absurd rfl hp

/-- An instruction that asks for a call has done nothing but take operands. -/
theorem step_call {b c : Context} {s : Scope} {func : Nat} (hb : c.Roomier b) (hs : c.Fits s)
    (h : step (c.fill s) = .ok (.call func) m) :
    ∃ s', m = c.fill s' ∧ Intends b c s (.call func) s' := by
  obtain ⟨y, s', hy, hx⟩ | ⟨hx, -⟩ | hx | ⟨_, hx⟩ := step_ok hb hs h
  · obtain ⟨rfl, rfl⟩ := fulfil_call hx
    exact ⟨s', rfl, hy⟩
  · cases hx
  · cases hx
  · cases hx

theorem fulfil_leave {x : Intent} {c : Context} {s : Scope} (hs : c.Fits s)
    (h : fulfil x (c.fill s) = .ok .leave m) : m = c.fill s := by
  cases x with
  | next => cases h
  | leave =>
    cases h
    rfl
  | call f => cases h
  | skip =>
    change EStateM.bind (onStack (Stack.currentLabel 0)) _ (c.fill s) = _ at h
    simp only [EStateM.bind, onStack] at h
    cases hl : Stack.currentLabel 0 (c.fill s).stack <;> rw [hl] at h <;> cases h
  | branch d =>
    rw [fulfil, branch_apply] at h
    cases ho : c.outer.drop d with
    | nil =>
      rw [branch_fill_out ho] at h
      cases h
      rfl
    | cons o rest =>
      rw [branch_fill hs ho] at h
      by_cases hn : o.1.branchArity ≤ s.operands.length
      · rw [if_pos hn] at h
        cases h
      · rw [if_neg hn] at h
        cases h

/-- An instruction that returns has done nothing but take operands. -/
theorem step_leave {c : Context} {s : Scope} (hs : c.Fits s)
    (h : step (c.fill s) = .ok .leave m) : ∃ s', m = c.fill s' ∧ c.Fits s' := by
  obtain ⟨y, s', hy, hx⟩ | ⟨-, hm⟩ | hx | ⟨_, hx⟩ := step_ok (.refl c) hs h
  · exact ⟨s', fulfil_leave hy.fits hx, hy.fits⟩
  · exact ⟨s, hm, hs⟩
  · cases hx
  · cases hx

end Machine

theorem Value.map_type_of_typeFault? {vs : List Value} {ts : List ValType}
    (h : typeFault? vs ts = none) (hl : vs.length = ts.length) : vs.map Value.type = ts := by
  induction vs generalizing ts with
  | nil =>
    cases ts with
    | nil => rfl
    | cons t ts => cases hl
  | cons v vs ih =>
    cases ts with
    | nil => cases hl
    | cons t ts =>
      unfold typeFault? at h
      split at h
      · rename_i hv
        rw [List.map_cons, hv, ih h (Nat.succ.inj hl)]
      · cases h

theorem Offers.args_typed {c : Context} {s : Scope} {func : Nat} {k : Callee}
    (h : Offers c s func k) : (s.args k.params.length).map Value.type = k.params := by
  refine Value.map_type_of_typeFault? h.typed ?_
  simpa [Scope.args] using h.enough

namespace Machine

variable {callHost : HostCall} {m m₁ : Machine}

/-- The stack of a caller is what is left of it without the parameters, and the parameters. -/
theorem entries_args {c : Context} {s : Scope} {n : Nat} :
    (c.fill s).stack.entries.toList =
      Stack.entriesOf c.bottom (c.activation (s.dropped n) :: c.callers) ++
        (s.args n).map Entry.value := by
  have hsplit : s.operands = s.operands.take n ++ s.operands.drop n :=
    (List.take_append_drop n _).symm
  have hentries : (c.fill s).stack.entries.toList = Stack.entriesOf c.bottom
      (⟨{ c.frame with locals := s.locals }, c.outer, s.operands⟩ :: c.callers) := rfl
  rw [hentries, hsplit, entriesOf_results]
  rfl

/-- A call of `g` on the stack `saved`, from which the machine goes on as `m`. The entries beneath
the parameters are there at every state until the call is complete, and then the results are on top
of them and the caller goes on at `pc`. -/
def Isolated (callHost : HostCall) (saved : Stack) (pc : Nat) (g : FuncInst) (m : Machine) : Prop :=
  ∃ (S : List Entry) (args : List Value), saved.entries.toList = S ++ args.map Entry.value ∧
    args.map Value.type = g.type.params ∧
    match g with
    | .host _ => Completed S saved.frames g.type.results.length m ∧ m.pc = pc
    | .code _ _ _ => saved.frames.size < m.stack.frames.size ∧
      ∀ m', Inside callHost saved.frames.size m m' → S <+: m'.stack.entries.toList ∧
        ∀ done m'', advance callHost 0 m' = .ok done m'' →
          m''.stack.frames.size ≤ saved.frames.size →
          done = false ∧ Completed S saved.frames g.type.results.length m'' ∧ m''.pc = pc

theorem call_isolated {store : Store} {const : Code} {func : Nat}
    (hm : Reachable callHost store const m) (hc : step m = .ok (.call func) m₁) :
    ∃ saved, Stack.onFrame (modify fun f ↦ { f with pc := m.pc + 1 }) m₁.stack = .ok () saved ∧
      ∀ done m₂, advance callHost 0 m = .ok done m₂ → done = false ∧
        ∃ g, m₁.store.func func = .ok g ∧ Isolated callHost saved (m.pc + 1) g m₂ := by
  obtain ⟨c, s, rfl, hs⟩ := hm.shaped
  obtain ⟨s₁, rfl, hi⟩ := step_call (.refl c) hs hc
  have hs₁ := hi.fits
  refine ⟨((c.saving (c.pc + 1)).fill s₁).stack, onFrame_fill _, ?_⟩
  intro done m₂ h
  have hcalls := @call_calls callHost (c.saving (c.pc + 1)) s₁ (fits_saving hs₁ _) func
  have hadv : advance callHost 0 (c.fill s) = proceed c.depth (c.pc + 1)
      (call callHost func ((c.saving (c.pc + 1)).fill s₁)) := by
    rw [advance_apply, hc, follow, conclude_call_apply, Context.pc_fill, onFrame_fill]
    simp only [depth_fill]
    rfl
  have hdepth : ((c.saving (c.pc + 1)).fill s₁).stack.frames.size = c.depth := depth_fill
  have hframes (s' : Scope) : ((c.saving (c.pc + 1)).fill s₁).stack.frames =
      (Stack.placesOf c.bottom ((c.saving (c.pc + 1)).activation s' :: c.callers)).toArray := rfl
  rw [hadv] at h
  change Calls callHost (c.saving (c.pc + 1)) s₁ func
    (proceed c.depth (c.pc + 1) (call callHost func ((c.saving (c.pc + 1)).fill s₁))) at hcalls
  rw [h] at hcalls
  cases hcalls with
  | @enter type inst f c' s' ho hc' hs' hfit =>
    obtain ⟨index, hf, _⟩ := callee_code ho.callee
    refine ⟨rfl, _, hf, _, _, @entries_args _ _ type.params.length, ho.args_typed, ?_⟩
    have habove : Above c.limit c.bottom
        ((c.saving (c.pc + 1)).activation (s₁.dropped type.params.length) :: c.callers)
        type.results.length (c'.fill s') := by
      subst hc'
      exact ⟨_, _, [], rfl, hfit, rfl, rfl, rfl, rfl⟩
    refine ⟨?_, fun m₃ hi ↦ ?_⟩
    · rw [hdepth]
      exact habove.depth
    · rw [hdepth] at hi
      have hin := habove.inside hi
      refine ⟨hin.beneath, fun done m₄ hm₄ hd ↦ ?_⟩
      obtain ⟨_, hab⟩ | ⟨hdone, hgo, hend⟩ := hin.advance (Nat.zero_le _) hm₄
      · rw [hdepth] at hd
        exact absurd hab.depth (Nat.not_lt.mpr hd)
      · cases done with
        | true => cases hend rfl
        | false =>
          obtain ⟨_, a, as, hacts, hpc⟩ := hgo rfl
          cases hacts
          exact ⟨rfl, hdone, hpc⟩
  | @answer f results store s' ho hr ht hs' hfit =>
    refine ⟨rfl, _, callee_host ho.callee, _, _, @entries_args _ _ f.type.params.length,
      ho.args_typed, ⟨hframes s', results, Value.length_of_hostFault? ht, ?_⟩, rfl⟩
    subst hs'
    simp only [Context.fill, Context.goto, Context.activation, Stack.of, entriesOf_results,
      List.reverse_reverse]
    rfl

/-- The first call of a run is made where there is no frame. -/
theorem first_call_isolated {store : Store} {func : Nat} {args : List Value}
    (h : (do Stack.pushValues args; call callHost func; resume : Run Unit) (fresh store) =
      .ok () m) :
    ∃ type inst index, store.func func = .ok (.code type inst index) ∧
      type.params.length ≤ args.length ∧
      ∀ m', Inside callHost 0 m m' →
        (args.take (args.length - type.params.length)).map Entry.value <+: m'.stack.entries.toList ∧
        ∀ done m'', advance callHost 0 m' = .ok done m'' → m''.stack.frames.size ≤ 0 →
          done = true ∧ Completed ((args.take (args.length - type.params.length)).map Entry.value)
            #[] type.results.length m'' := by
  obtain ⟨type, inst, f, hk, hn, hlt, rfl⟩ := func_start h
  obtain ⟨index, hf, _⟩ := callee_code hk
  refine ⟨type, inst, index, hf, hn, fun m' hi ↦ ?_⟩
  have hS := entriesOf_args args type.params.length
  have hroom : (args.reverse.drop type.params.length).length < store.config.maxStackEntries := by
    simpa using hlt
  have hin := Above.inside (.start _ hroom rfl) hi
  refine ⟨hS ▸ hin.beneath, fun done m'' hm hd ↦ ?_⟩
  obtain ⟨_, hab⟩ | ⟨hdone, hgo, _⟩ := hin.advance le_rfl hm
  · exact absurd hab.depth (Nat.not_lt.mpr hd)
  · cases done with
    | true => exact ⟨rfl, hS ▸ hdone⟩
    | false => cases (hgo rfl).1

theorem popValues_append (S : List Entry) (rs : List Value) (frames : Array Nat) (limit : Nat) :
    Stack.popValues rs.length ⟨(S ++ rs.map Entry.value).toArray, frames, limit⟩ =
      .ok rs ⟨S.toArray, frames, limit⟩ := by
  have hops : rs.map Entry.value = Entry.operands rs.reverse := by simp [Entry.operands]
  have hsize : ¬ (S ++ Entry.operands rs.reverse).length < rs.length := by simp
  have hkeep : (S ++ Entry.operands rs.reverse).length - rs.length = S.length := by simp
  rw [hops, Stack.popValues_toArray, if_neg hsize, hkeep, List.drop_left, List.take_left,
    Stack.mapM_value?_operands, List.reverse_reverse]

/-- A machine with the results of a call on top gives up exactly these. -/
theorem Completed.popValues {S : List Entry} {frames : Array Nat} {n : Nat}
    (h : Completed S frames n m) : ∃ rs stack, rs.length = n ∧
      Stop.lift (onStack (Stack.popValues n)) m = .ok rs { m with stack } ∧
      stack.entries.toList = S := by
  obtain ⟨hframes, rs, hlen, hentries⟩ := h
  refine ⟨rs, ⟨S.toArray, frames, m.stack.limit⟩, hlen, ?_, rfl⟩
  have hstack : m.stack = ⟨(S ++ rs.map Entry.value).toArray, frames, m.stack.limit⟩ := by
    rw [← hentries, ← hframes]
  have hpop := popValues_append S rs frames m.stack.limit
  rw [hlen, ← hstack] at hpop
  simp only [Stop.lift, onStack, hpop]

/-- A function that is run to its end leaves exactly its results. -/
theorem runFunc_results {fuel func : Nat} {args rs : List Value} {store : Store} {g : FuncInst}
    (hg : store.func func = .ok g)
    (h : runFunc callHost fuel func args g.type.results.length (fresh store) = .ok rs m) :
    rs.length = g.type.results.length ∧ g.type.params.length ≤ args.length ∧
      m.stack.entries.toList =
        (args.take (args.length - g.type.params.length)).map Entry.value := by
  obtain ⟨-, m₁, hreturned, hpop⟩ := runFunc_ok h
  have hdone : g.type.params.length ≤ args.length ∧ Completed
      (Stack.entriesOf (args.reverse.drop g.type.params.length) []) #[] g.type.results.length
      m₁ := by
    cases hreturned with
    | answer hk hn hl hstack _ =>
      cases hg.symm.trans (callee_host hk)
      exact ⟨hn, completed_of_nil hstack (List.length_reverse.trans hl)⟩
    | @run type inst f m₂ m₃ _ hk hn hlt _ _ hstart hrun =>
      obtain ⟨index, hf, _⟩ := callee_code hk
      cases hg.symm.trans hf
      have hroom :
          (args.reverse.drop type.params.length).length < store.config.maxStackEntries := by
        simpa using hlt
      subst hstart
      exact ⟨hn, Above.runTo (.start _ hroom rfl) hrun⟩
  obtain ⟨rs', stack, hlen, hpop', hrest⟩ := hdone.2.popValues
  cases hpop.symm.trans hpop'
  exact ⟨hlen, hdone.1, hrest.trans (entriesOf_args _ _)⟩

end Machine

end Wasm
