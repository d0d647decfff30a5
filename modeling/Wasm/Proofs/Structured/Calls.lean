import Wasm.Proofs.Structured.Runs

namespace Wasm

section Runs

variable {M : Module → Prop} {T : Trap → Prop} {const : Code} {callHost : HostCall} {base k : Nat}
  {r : Machine × EStateM.Result (Stop Trap) Machine Unit} {c c' : Context} {s s' : Scope}

/-- The body of a function, from its first instruction to the one by which it is left. -/
theorem Simulates.body (ih : Simulates M T const callHost base k r) (hr : Machine.Settled r.2)
    (hb : base ≤ c.callers.length) (hpc : c.pc = 0) (ho : c.outer = [])
    (h : Arrives M T const callHost base k r c s) :
    Returns M T const callHost base k r c
      (Eval.body callHost c.limit k c.depth c.frame.inst c.frame.arity c.frame.body s) := by
  obtain ⟨_, _, _, hc⟩ := id h
  obtain ⟨hcode, hshaped⟩ := hc.here.bracketed.tree
  have hat : c.frame.body.toList.drop c.pc = c.frame.body.tree.flatten ++ [.end_] := by
    rw [hpc, List.drop_zero, hcode]
  have hrun := ih c s _ _ hb hshaped hat h
  rw [Eval.body, Outcome.bind_apply]
  generalize Eval.tree callHost c.limit k c.depth c.frame.inst c.frame.body.tree s = x at hrun
  cases x with
  | error e s' => exact hrun
  | ok x s' =>
    obtain ⟨c', hp, hcont⟩ := hrun
    have ho' : c'.outer = [] := by
      obtain ⟨_, _, _, _, rfl⟩ := hp
      exact ho
    cases hcont with
    | normal harr =>
      have hbody : c'.frame.body = c.frame.body := by
        obtain ⟨_, _, _, _, rfl⟩ := hp
        rfl
      refine (harr.last hr ?_ ?_).returns (hp.trans (.goto c' _)) (by simp)
      · simp [Context.goto, hbody, hpc, ← Array.getElem?_toList, hcode]
      · simp [Context.goto, hbody, hpc, ← Array.length_toList, hcode]
    | skip hout _ => cases ho'.symm.trans hout
    | skipOut _ hfail => exact hfail.peer hp
    | branch hout _ _ =>
      rw [ho', List.drop_nil] at hout
      cases hout
    | branchShort hout _ _ =>
      rw [ho', List.drop_nil] at hout
      cases hout
    | branchOut _ hdep => exact hdep.returns hp (by simp)
    | leave hdep => exact hdep.returns hp (by simp)

/-- The contents of a frame do not matter to the types of what is on top. -/
theorem Entry.typeFault?_frame (f g : Frame) (es es' : List Entry) (ts : List ValType) :
    typeFault? (es ++ .frame f :: es') ts = typeFault? (es ++ .frame g :: es') ts := by
  induction es generalizing ts with
  | nil => cases ts <;> rfl
  | cons e es ih =>
    cases ts with
    | nil => simp only [List.cons_append, typeFault?]
    | cons t ts =>
      cases e with
      | value v => simp only [List.cons_append, typeFault?, ih]
      | label l => rfl
      | frame h => rfl

theorem Stack.popValuesTyped_mismatch {ts : List ValType} {S : Stack} {x y : ValType} :
    popValuesTyped ts S = .error (.typeMismatch x y) S ↔ ts.length ≤ S.entries.size ∧
      Entry.typeFault? (S.entries.toList.drop (S.entries.size - ts.length)) ts =
        some (.typeMismatch x y) := by
  have htop : (S.entries.extract (S.entries.size - ts.length)).toList =
      S.entries.toList.drop (S.entries.size - ts.length) := by
    rw [Array.toList_extract, List.extract_eq_take_drop, List.take_of_length_le (by simp)]
  simp only [popValuesTyped, Outcome.bind_apply, Outcome.get_apply, htop]
  by_cases hlt : S.entries.size < ts.length
  · rw [if_pos hlt]
    exact ⟨fun h ↦ (by cases h), fun h ↦ absurd h.1 (Nat.not_le.mpr hlt)⟩
  · rw [if_neg hlt]
    cases hf : Entry.typeFault? (S.entries.toList.drop (S.entries.size - ts.length)) ts with
    | some t => simp [Nat.not_lt.mp hlt]
    | none =>
      refine ⟨fun h ↦ ?_, fun h ↦ (by cases h.2)⟩
      simp only [popValues] at h
      split at h
      · cases h
      · split at h <;> cases h

/-- Where a caller goes on does not matter to its operands. -/
theorem popValuesTyped_saving {ts : List ValType} {x y : ValType} (p : Nat) :
    Stack.popValuesTyped ts ((c.saving p).fill s).stack =
      .error (.typeMismatch x y) ((c.saving p).fill s).stack ↔
    Stack.popValuesTyped ts (c.fill s).stack = .error (.typeMismatch x y) (c.fill s).stack := by
  have hentries (d : Context) : (d.fill s).stack.entries.toList =
      Stack.entriesOf d.bottom d.callers ++ .frame { d.frame with locals := s.locals } ::
        (Entry.constructs d.outer ++ Entry.operands s.operands) := rfl
  have hsize : ((c.saving p).fill s).stack.entries.size = (c.fill s).stack.entries.size := by
    rw [← Array.length_toList, ← Array.length_toList, hentries, hentries]
    simp [Context.saving]
  rw [Stack.popValuesTyped_mismatch, Stack.popValuesTyped_mismatch, hsize, hentries, hentries]
  generalize (c.fill s).stack.entries.size - ts.length = n
  have hdrop : Entry.typeFault? (((c.saving p).fill s).stack.entries.toList.drop n) ts =
      Entry.typeFault? ((c.fill s).stack.entries.toList.drop n) ts := by
    rw [hentries, hentries, List.drop_append, List.drop_append]
    simp only [Context.saving]
    cases n - (Stack.entriesOf c.bottom c.callers).length with
    | zero => exact Entry.typeFault?_frame _ _ _ _ _
    | succ m => rfl
  rw [← hentries, ← hentries, hdrop]

theorem Intends.step_call {b : Context} {func : Nat} (h : Intends b c s (.call func) s') :
    Machine.step (c.fill s) = .ok (.call func) (c.fill s') := by
  obtain ⟨i, hi, hp, _, hy⟩ := h.instr
  rw [Machine.step_fill, hi]
  simp only [Machine.exec_plain hp, Outcome.bind_apply, hy]
  rfl

/-- A call whose parameters are not all there. -/
theorem Intends.miscounts {b : Context} {func p : Nat} {callee : Callee} {x y : ValType}
    (h : Intends b c s (.call func) s') (hk : s'.store.callee c.depth func = .ok callee)
    (hn : s'.operands.length < callee.params.length)
    (hpop : Stack.popValuesTyped callee.params ((c.saving p).fill s').stack =
      .error (.typeMismatch x y) ((c.saving p).fill s').stack) : (c.fill s).Miscounts x y := by
  refine ⟨func, callee, c.fill s', h.step_call, ?_, ?_, (popValuesTyped_saving p).mp hpop⟩
  · rw [Machine.depth_fill]
    exact hk
  · simp only [Context.fill, Context.activation, Stack.popValues_of, Nat.not_le.mpr hn, if_false]

/-- A call of a function that is made of code. -/
theorem Returns.resumes {frame : Frame} (hb : base ≤ c.callers.length)
    {x : EStateM.Result (Stop Trap) Scope (List Value)}
    (h : Returns M T const callHost base k r (c.calling s frame) x) :
    Resumes M T const callHost base k r c c.frame.pc (s.afterCall x) := by
  cases x with
  | error e s' =>
    obtain ⟨e', m, he, hshow, hcause⟩ := h
    exact ⟨e', m, he, hshow.caller, hcause⟩
  | ok rs s' =>
    obtain ⟨rfl, hn, c', ⟨_, _, _, _, rfl⟩, hdep⟩ := h
    cases hdep with
    | short hlt _ => exact absurd hn (Nat.not_le.mpr hlt)
    | done hl _ _ =>
      cases hl with
      | outermost _ hcallers => cases hcallers
      | finish _ hcallers hlt =>
        cases hcallers
        omega
    | resume _ hcallers harr =>
      cases hcallers
      exact ⟨_, ⟨_, _, _, _, rfl⟩, rfl, harr⟩

/-- A call that miscounts is short of parameters. -/
theorem Intends.short {func : Nat} {x y : ValType}
    (h : Intends (.alone c.limit c.frame.inst) c s (.call func) s') (hs : c.Fits s)
    (hm : (c.fill s).Miscounts x y) : ∃ k, s'.store.callee c.depth func = .ok k ∧
      s'.operands.length < k.params.length ∧
      Stack.popValuesTyped k.params (c.fill s').stack =
        .error (.typeMismatch x y) (c.fill s').stack := by
  obtain ⟨i, hget, _, hy, _⟩ := h.instr
  obtain ⟨_, func', k, s'', hy', hk, hn⟩ := hm.call hs hget
  obtain ⟨hfunc, hfill⟩ := EStateM.Result.ok.inj (hy.symm.trans hy')
  cases hfunc
  cases Context.fill_alone_inj hfill
  exact ⟨k, hk, hn⟩

theorem Intends.enough {func : Nat} {callee : Callee}
    (h : Intends (.alone c.limit c.frame.inst) c s (.call func) s') (hs : c.Fits s)
    (hk : s'.store.callee c.depth func = .ok callee)
    (hn : callee.params.length ≤ s'.operands.length) (x y : ValType) :
    ¬ (c.fill s).Miscounts x y := by
  intro hm
  obtain ⟨k, hk', hlt, _⟩ := h.short hs hm
  cases hk.symm.trans hk'
  omega

/-- The evaluation of a call whose parameters are there. -/
theorem Offers.call_eq {limit func : Nat} {callee : Callee} (h : Offers c s func callee)
    (eval : Nat → Tree → Eval Exit) (inst : Nat) :
    Eval.call callHost limit eval c.depth inst func s =
      Eval.apply callHost eval (s.args callee.params.length) callee
        (s.dropped callee.params.length) := by
  rw [Eval.call, h.callee]
  simp only [Outcome.bind_apply, Eval.primitive_popValuesTyped, Nat.not_lt.mpr h.enough, if_false,
    h.typed]

/-- A call, from the instruction to the one after it. -/
theorem Simulates.call (ih : Simulates M T const callHost base k r) (hr : Machine.Settled r.2)
    (hM : ∀ m, M m → m.Bracketed) (hh : callHost.Honest M T) (hb : base ≤ c.callers.length)
    {func : Nat} {s₀ : Scope} (hc : c.Tracked M T const s₀)
    (hi : Intends (.alone c.limit c.frame.inst) c s₀ (.call func) s)
    {x : EStateM.Result (Stop Trap) Machine Bool}
    (h : Calls callHost (c.saving (c.pc + 1)) s func x)
    (hx : Proceeds callHost base k r (c.fill s₀) x) :
    Resumes M T const callHost base k r c (c.pc + 1) (Eval.call callHost c.limit
      (Eval.tree callHost c.limit k (c.depth + 1)) c.depth c.frame.inst func s) := by
  have hshow (s' : Scope) : c.Shows ((c.saving (c.pc + 1)).fill s') s' :=
    (c.saving (c.pc + 1)).shows_fill s'
  have hs := hc.fits
  obtain ⟨hc, ha⟩ := hc.saving hi
  have hready {callee : Callee} (ho : Offers (c.saving (c.pc + 1)) s func callee) :
      Eval.call callHost c.limit (Eval.tree callHost c.limit k (c.depth + 1)) c.depth c.frame.inst
        func s = _ := ho.call_eq _ _
  cases h with
  | refuse hk =>
    have hk : s.store.callee c.depth func = .error _ := hk
    rw [Eval.call, hk]
    refine fails_of hx (hshow s) ?_
    intro x y hm
    obtain ⟨_, hk', _⟩ := hi.short hs hm
    cases hk.symm.trans hk'
  | short hk hn hpop ht =>
    have hk : s.store.callee c.depth func = .ok _ := hk
    rw [Eval.call, hk]
    simp only [Outcome.bind_apply, Eval.primitive_popValuesTyped, hn, if_true]
    obtain rfl | ⟨x, y, rfl⟩ := ht
    · refine fails_of hx (hshow s) ?_
      intro x y hm
      obtain ⟨callee, hk', _, hpop'⟩ := hi.short hs hm
      cases hk.symm.trans hk'
      rw [(popValuesTyped_saving (c.pc + 1)).mpr hpop'] at hpop
      cases hpop
    · have hm := hi.miscounts hk hn hpop
      cases hx
      exact ⟨_, _, rfl, hshow s, .inr ⟨rfl, x, y, rfl, hm⟩⟩
  | mismatch hk hn ht =>
    have hk : s.store.callee c.depth func = .ok _ := hk
    rw [Eval.call, hk]
    simp only [Outcome.bind_apply, Eval.primitive_popValuesTyped, Nat.not_lt.mpr hn, if_false, ht]
    exact fails_of hx (hshow s) (hi.enough hs hk hn)
  | @enter type inst f c' s' ho hc' hs' hfit =>
    have hstore := congrArg Scope.store hs'
    have htracked := hc.calling hM ha ho hc' hstore hfit
    subst hc' hs'
    have hret := ih.body hr (hb.trans (Nat.le_succ _)) rfl rfl (Proceeds.arrives hx htracked)
    rw [hready ho]
    exact Returns.resumes (c := c.saving (c.pc + 1)) hb hret
  | abort ho hres =>
    rw [hready ho, Eval.apply]
    simp only [Scope.dropped, Callee.params, hres]
    exact fails_of hx (hshow _) (hi.enough hs ho.callee ho.enough)
  | misanswer ho hres ht =>
    rw [hready ho, Eval.apply]
    simp only [Scope.dropped, Callee.params, hres, ht]
    exact fails_of hx (hshow _) (hi.enough hs ho.callee ho.enough)
  | answer ho hres ht hs' hfit =>
    have hstore := congrArg Scope.store hs'
    obtain ⟨_, htracked⟩ := hc.answer hh ha ho hres hstore hfit
    have harr := Proceeds.arrives hx htracked
    rw [hready ho, Eval.apply]
    simp only [Scope.dropped, Callee.params, hres, ht]
    exact ⟨_, ⟨_, _, _, _, rfl⟩, rfl, hs' ▸ harr⟩
  | overflow hfull _ => exact (not_overflow hr hfull hx).elim
  | overanswer _ _ hfull => exact (not_overflow hr hfull hx).elim

end Runs

end Wasm
