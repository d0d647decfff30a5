import Wasm.Proofs.Structured
import Wasm.Proofs.Machine.Isolation
import Wasm.Proofs.Machine.Runs

namespace Wasm

namespace Machine

def finish (callHost : HostCall) (base : Nat) :
    Nat → Machine → Machine × EStateM.Result (Stop Trap) Machine Unit
  | 0, m => (m, .error .outOfFuel m)
  | n + 1, m =>
    match advance callHost base m with
    | .ok true m' => (m, .ok () m')
    | .ok false m' => finish callHost base n m'
    | .error e m' => (m, .error e m')

theorem finish_snd (callHost : HostCall) (base n : Nat) (m : Machine) :
    (finish callHost base n m).2 = runTo callHost base n m := by
  induction n generalizing m with
  | zero => rfl
  | succ n ih =>
    rw [finish, runTo_apply]
    cases advance callHost base m with
    | error e m' => rfl
    | ok done m' =>
      cases done with
      | true => rfl
      | false => exact ih m'

def Settled : EStateM.Result (Stop Trap) Machine Unit → Prop
  | .ok _ _ => True
  | .error e m => e ≠ .outOfFuel ∧ (e = .failed .stackOverflow → ¬ m.Full)

/-- The next instruction is a call whose parameters are not all there. The operands beneath the
label or frame are looked at all the same, and the type of one of them is the wrong one. -/
def Miscounts (m : Machine) (x y : ValType) : Prop :=
  ∃ func k m', step m = .ok (.call func) m' ∧ m'.store.callee m'.stack.frames.size func = .ok k ∧
    Stack.popValues k.params.length m'.stack = .error .stackUnderflow m'.stack ∧
    Stack.popValuesTyped k.params m'.stack = .error (.typeMismatch x y) m'.stack

end Machine

namespace Context

/-- A machine in which the frame of a context has the locals of a scope, whatever frames and
constructs are within. -/
def Shows (c : Context) (m : Machine) (s : Scope) : Prop :=
  m.store = s.store ∧ ∃ inner a, m.stack = .of c.limit c.bottom (inner ++ a :: c.callers) ∧
    a.frame.locals = s.locals

def Peer (c c' : Context) : Prop :=
  ∃ locals saved ends pc,
    c' = { c with frame := { c.frame with locals := locals, pc := saved }, ends, pc }

theorem roomier_alone (c : Context) : c.Roomier (alone c.limit c.frame.inst) where
  inst := rfl
  limit := le_rfl
  base := by
    have h := @Stack.height_lt_beneath c.bottom c.callers c.frame c.outer
    have hone : (alone c.limit c.frame.inst).base = 1 := rfl
    rw [hone, base]
    omega

variable {c c' : Context}

theorem Peer.refl (c : Context) : c.Peer c := ⟨_, _, _, _, rfl⟩

theorem Peer.goto (c : Context) (pc : Nat) : c.Peer (c.goto pc) := ⟨_, _, _, _, rfl⟩

theorem Peer.trans {c'' : Context} (h : c.Peer c') (h' : c'.Peer c'') : c.Peer c'' := by
  obtain ⟨_, _, _, _, rfl⟩ := h
  obtain ⟨_, _, _, _, rfl⟩ := h'
  exact ⟨_, _, _, _, rfl⟩

theorem shows_fill (c : Context) (s : Scope) : c.Shows (c.fill s) s :=
  ⟨rfl, [], c.activation s, rfl, rfl⟩

/-- What is seen of a caller. -/
theorem Shows.caller {m : Machine} {s s' : Scope} {frame : Frame}
    (h : (c.calling s frame).Shows m s') : c.Shows m { s with store := s'.store } := by
  obtain ⟨hstore, inner, a, hstack, _⟩ := h
  refine ⟨hstore, inner ++ [a], c.activation s, ?_, rfl⟩
  rw [hstack, List.append_assoc]
  rfl

end Context

namespace Code

variable {code : Code} {pc : Nat}

theorem at_cons {i : Instr} {is : List Instr} (h : code.toList.drop pc = i :: is) :
    code[pc]? = some i ∧ code.toList.drop (pc + 1) = is := by
  constructor
  · have hhead : (code.toList.drop pc)[0]? = some i := by rw [h]; rfl
    simpa using hhead
  · rw [← List.drop_drop, h]
    rfl

theorem at_append {is is' : List Instr} (h : code.toList.drop pc = is ++ is') :
    code.toList.drop (pc + is.length) = is' := by
  rw [← List.drop_drop, h, List.drop_left]

theorem blockEnd_balanced {x : Bool} {i : Instr} {body post : List Instr} (hb : Balanced x body)
    (h : code.toList.drop pc = i :: (body ++ .end_ :: post)) :
    ∃ e, code.blockEnd pc = .ok ⟨e, pc + 1 + body.length⟩ ∧ (x = false → e = none) := by
  obtain ⟨_, hdrop⟩ := at_cons h
  rw [Code.blockEnd, hdrop]
  cases x with
  | false =>
    rw [BlockEnd.scan_balanced hb]
    exact ⟨none, rfl, fun _ ↦ rfl⟩
  | true =>
    obtain ⟨e, he⟩ := BlockEnd.scan_balanced_some hb (pc + 1) none
    rw [he]
    exact ⟨e, rfl, by simp⟩

theorem blockEnd_else {i : Instr} {body alt post : List Instr} (hb : Balanced true body)
    (ha : Balanced false alt)
    (h : code.toList.drop pc = i :: ((body ++ .else_ :: alt) ++ .end_ :: post)) :
    code.blockEnd pc =
      .ok ⟨some (pc + 1 + body.length), pc + 1 + (body ++ .else_ :: alt).length⟩ := by
  obtain ⟨_, hdrop⟩ := at_cons h
  rw [Code.blockEnd, hdrop, BlockEnd.scan_balanced_else hb ha]
  rfl

end Code

section Simulation

variable (M : Module → Prop) (T : Trap → Prop) (const : Code) (callHost : HostCall) (base k : Nat)
  (r : Machine × EStateM.Result (Stop Trap) Machine Unit)

def Fails (c : Context) (s : Scope) (e : Stop Trap) : Prop :=
  ∃ e' m, r.2 = .error e' m ∧ c.Shows m s ∧ (e' = e ∧ (∀ x y, ¬ r.1.Miscounts x y) ∨
    e = .failed .stackUnderflow ∧ ∃ x y, e' = .failed (.typeMismatch x y) ∧ r.1.Miscounts x y)

/-- The run goes on from a state for at most `k` steps. -/
def Arrives (c : Context) (s : Scope) : Prop :=
  ∃ n ≤ k, Machine.finish callHost base n (c.fill s) = r ∧ c.Tracked M T const s

/-- The run leaves the frame. -/
inductive Departs (c : Context) (s : Scope) : Prop
  | short : s.operands.length < c.frame.arity → Fails r c s (.failed .stackUnderflow) → Departs c s
  | done {m : Machine} : Leaves base c s (.ok true m) → r.2 = .ok () m → c.Shows r.1 s → Departs c s
  | resume {f : Frame} {cs : List (Label × List Value)} {vs : List Value} {as : List Activation} :
    c.frame.arity ≤ s.operands.length → c.callers = ⟨f, cs, vs⟩ :: as →
    Arrives M T const callHost base k r ⟨c.limit, c.bottom, as, f, cs, c.ends, f.pc⟩
      ⟨s.store, f.locals, s.operands.take c.frame.arity ++ vs⟩ → Departs c s

inductive Continues (c : Context) (stop : Nat) (s : Scope) : Exit → Prop
  | normal : Arrives M T const callHost base k r (c.goto stop) s → Continues c stop s .normal
  | skip {l : Label} {ws : List Value} {rest : List (Label × List Value)} :
    c.outer = (l, ws) :: rest → Arrives M T const callHost base k r (c.goto l.stop) s →
    Continues c stop s .skip
  | skipOut : c.outer = [] → Fails r c s (.failed (.malformedControl .labelDepth)) →
    Continues c stop s .skip
  | branch {d : Nat} {l : Label} {ws : List Value} {rest : List (Label × List Value)} :
    c.outer.drop d = (l, ws) :: rest → l.branchArity ≤ s.operands.length →
    Arrives M T const callHost base k r { c with outer := rest, pc := l.target }
      { s with operands := s.operands.take l.branchArity ++ ws } → Continues c stop s (.branch d)
  | branchShort {d : Nat} {l : Label} {ws : List Value} {rest : List (Label × List Value)} :
    c.outer.drop d = (l, ws) :: rest → s.operands.length < l.branchArity →
    Fails r c s (.failed .stackUnderflow) → Continues c stop s (.branch d)
  | branchOut {d : Nat} : c.outer.drop d = [] → Departs M T const callHost base k r c s →
    Continues c stop s (.branch d)
  | leave : Departs M T const callHost base k r c s → Continues c stop s .leave

/-- The run does what an evaluation did. -/
def Follows (c : Context) (stop : Nat) : EStateM.Result (Stop Trap) Scope Exit → Prop
  | .ok x s => ∃ c', c.Peer c' ∧ Continues M T const callHost base k r c' stop s x
  | .error e s => Fails r c s e

/-- The run does what the evaluation of a function did. -/
def Returns (c : Context) : EStateM.Result (Stop Trap) Scope (List Value) → Prop
  | .ok rs s => rs = s.operands.take c.frame.arity ∧ c.frame.arity ≤ s.operands.length ∧
    ∃ c', c.Peer c' ∧ Departs M T const callHost base k r c' s
  | .error e s => Fails r c s e

def Resumes (c : Context) (p : Nat) : EStateM.Result (Stop Trap) Scope Unit → Prop
  | .ok _ s => ∃ c', c.Peer c' ∧ c'.pc = p ∧ Arrives M T const callHost base k r c' s
  | .error e s => Fails r c s e

/-- Runs of at most `k` steps do what evaluation does. -/
def Simulates : Prop :=
  ∀ (c : Context) (s : Scope) (t : Tree) (post : List Instr), base ≤ c.callers.length → t.Shaped →
    c.frame.body.toList.drop c.pc = t.flatten ++ post →
    Arrives M T const callHost base k r c s →
    Follows M T const callHost base k r c (c.pc + t.flatten.length)
      (Eval.tree callHost c.limit k c.depth c.frame.inst t s)

def Proceeds (last : Machine) : EStateM.Result (Stop Trap) Machine Bool → Prop
  | .ok true m => r = (last, .ok () m)
  | .ok false m => ∃ n ≤ k, Machine.finish callHost base n m = r
  | .error e m => r = (last, .error e m)

end Simulation

section Runs

variable {M : Module → Prop} {T : Trap → Prop} {const : Code} {callHost : HostCall} {base k : Nat}
  {r : Machine × EStateM.Result (Stop Trap) Machine Unit} {c c' : Context} {s s' : Scope}

theorem Arrives.mono {k' : Nat} (h : Arrives M T const callHost base k r c s) (hk : k ≤ k') :
    Arrives M T const callHost base k' r c s := by
  obtain ⟨n, hn, hrest⟩ := h
  exact ⟨n, hn.trans hk, hrest⟩

theorem Departs.mono {k' : Nat} (h : Departs M T const callHost base k r c s) (hk : k ≤ k') :
    Departs M T const callHost base k' r c s := by
  cases h with
  | short hn hfail => exact .short hn hfail
  | done hl hm hshow => exact .done hl hm hshow
  | resume hn hcallers harr => exact .resume hn hcallers (harr.mono hk)

theorem Continues.mono {k' stop : Nat} {x : Exit}
    (h : Continues M T const callHost base k r c stop s x) (hk : k ≤ k') :
    Continues M T const callHost base k' r c stop s x := by
  cases h with
  | normal harr => exact .normal (harr.mono hk)
  | skip ho harr => exact .skip ho (harr.mono hk)
  | skipOut ho hfail => exact .skipOut ho hfail
  | branch ho hn harr => exact .branch ho hn (harr.mono hk)
  | branchShort ho hn hfail => exact .branchShort ho hn hfail
  | branchOut ho hdep => exact .branchOut ho (hdep.mono hk)
  | leave hdep => exact .leave (hdep.mono hk)

theorem Fails.peer {e : Stop Trap} (h : Fails r c' s e) (hp : c.Peer c') : Fails r c s e := by
  obtain ⟨_, _, _, _, rfl⟩ := hp
  exact h

/-- What is done from a peer is done from the context, with a step more. -/
theorem Follows.peer {stop : Nat} {x : EStateM.Result (Stop Trap) Scope Exit}
    (h : Follows M T const callHost base k r c' stop x) (hp : c.Peer c') :
    Follows M T const callHost base (k + 1) r c stop x := by
  cases x with
  | error e s => exact Fails.peer h hp
  | ok x s =>
    obtain ⟨c'', hp', hcont⟩ := h
    exact ⟨c'', hp.trans hp', hcont.mono (Nat.le_succ k)⟩

/-- The constructs within do not matter to a frame that is left. -/
theorem Departs.outward (h : Departs M T const callHost base k r c s)
    (outer : List (Label × List Value)) :
    Departs M T const callHost base k r { c with outer } s := by
  cases h with
  | short hn hfail => exact .short hn hfail
  | done hl hm hshow =>
    refine .done ?_ hm hshow
    cases hl with
    | outermost hn hcallers => exact .outermost hn hcallers
    | finish hn hcallers hlt => exact .finish hn hcallers hlt
  | resume hn hcallers harr => exact .resume hn hcallers harr

theorem not_overflow (hr : Machine.Settled r.2) {last m : Machine} (hm : m.Full)
    (h : r = (last, .error (.failed .stackOverflow) m)) : False := by
  rw [h] at hr
  exact hr.2 rfl hm

theorem fails_of {e : Stop Trap} {last m : Machine} (he : r = (last, .error e m))
    (hs : c.Shows m s) (hm : ∀ x y, ¬ last.Miscounts x y) : Fails r c s e := by
  subst he
  exact ⟨e, m, rfl, hs, .inl ⟨rfl, hm⟩⟩

/-- A machine that miscounts is about to call. -/
theorem Machine.Miscounts.call {x y : ValType} {i : Instr} (h : (c.fill s).Miscounts x y)
    (hs : c.Fits s) (hi : c.frame.body[c.pc]? = some i) : i.plain = true ∧ ∃ func k s',
      Machine.intent i ((Context.alone c.limit c.frame.inst).fill s) =
        .ok (.call func) ((Context.alone c.limit c.frame.inst).fill s') ∧
      s'.store.callee c.depth func = .ok k ∧ s'.operands.length < k.params.length ∧
      Stack.popValuesTyped k.params (c.fill s').stack =
        .error (.typeMismatch x y) (c.fill s').stack := by
  obtain ⟨func, k, m', hstep, hk, hpop, htyped⟩ := h
  obtain ⟨s', rfl, hint⟩ := Machine.step_call c.roomier_alone hs hstep
  obtain ⟨i', hi', hp, hy, _⟩ := hint.instr
  cases hi.symm.trans hi'
  rw [Machine.depth_fill] at hk
  refine ⟨hp, func, k, s', hy, hk, ?_, htyped⟩
  simp only [Context.fill, Context.activation, Stack.popValues_of] at hpop
  split at hpop
  · cases hpop
  · omega

/-- A run that ended took a step. -/
theorem Arrives.step (h : Arrives M T const callHost base k r c s) (hr : Machine.Settled r.2) :
    c.Tracked M T const s ∧ ∃ x, Moves callHost base (.alone c.limit c.frame.inst) c s x ∧
      Proceeds callHost base (k - 1) r (c.fill s) x := by
  obtain ⟨n, hn, hfinish, hc⟩ := h
  cases n with
  | zero =>
    subst hfinish
    exact absurd rfl hr.1
  | succ n =>
    refine ⟨hc, _, Machine.advance_moves c.roomier_alone hc.fits, ?_⟩
    rw [Machine.finish] at hfinish
    generalize Machine.advance callHost base (c.fill s) = x at hfinish
    cases x with
    | error e m =>
      rw [← hfinish]
      exact rfl
    | ok done m =>
      cases done with
      | true => exact hfinish.symm
      | false => exact ⟨n, Nat.le_sub_one_of_lt hn, hfinish⟩

theorem Proceeds.arrives {last : Machine}
    (h : Proceeds callHost base k r last (.ok false (c.fill s)))
    (hc : c.Tracked M T const s) : Arrives M T const callHost base k r c s := by
  obtain ⟨n, hn, hfinish⟩ := h
  exact ⟨n, hn, hfinish, hc⟩

/-- A run that leaves a frame in a state in which nothing but operands was popped since `s₀`. -/
theorem Leaves.departs {s₀ : Scope} {x : EStateM.Result (Stop Trap) Machine Bool}
    (h : Leaves base c s x) (hc : c.Tracked M T const s)
    (hx : Proceeds callHost base k r (c.fill s₀) x) (hs : c.Shows (c.fill s₀) s)
    (hm : ∀ x y, ¬ (c.fill s₀).Miscounts x y) : Departs M T const callHost base k r c s := by
  cases h with
  | short hn => exact .short hn (fails_of hx (c.shows_fill s) hm)
  | outermost hn hcallers =>
    cases hx
    exact .done (.outermost hn hcallers) rfl hs
  | finish hn hcallers hlt =>
    cases hx
    exact .done (.finish hn hcallers hlt) rfl hs
  | resume hn hcallers _ =>
    exact .resume hn hcallers (Proceeds.arrives hx (hc.resume hcallers _))

section Jump

variable {y : Intent} (h : Intends (.alone c.limit c.frame.inst) c s y s')

include h

theorem Intends.primitive {i : Instr} (hi : c.frame.body[c.pc]? = some i) :
    Eval.primitive c.limit c.frame.inst (Machine.intent i) s = .ok y s' := by
  obtain ⟨_, hi', _, hy, _⟩ := h.instr
  cases hi.symm.trans hi'
  exact Eval.primitive_ok hy

/-- Only a call miscounts. -/
theorem Intends.counts (hs : c.Fits s) (hcall : ∀ func, y ≠ .call func) (u v : ValType) :
    ¬ (c.fill s).Miscounts u v := by
  intro hm
  obtain ⟨i, hi, _, hy, _⟩ := h.instr
  obtain ⟨_, func, _, _, hy', _⟩ := hm.call hs hi
  exact hcall func (EStateM.Result.ok.inj (hy.symm.trans hy')).1

/-- A frame that is left by a jump. -/
theorem Intends.departs (hnext : y ≠ .next) (hcall : ∀ func, y ≠ .call func)
    {x : EStateM.Result (Stop Trap) Machine Bool} (hl : Leaves base c s' x)
    (hc : c.Tracked M T const s) (hx : Proceeds callHost base k r (c.fill s) x) :
    Departs M T const callHost base k r c s' := by
  have hshow : c.Shows (c.fill s) s' := by
    obtain ⟨i, _, _, hy, _⟩ := h.instr
    obtain ⟨hstore, hlocals⟩ := Machine.intent_jumps hy hnext hcall
    exact ⟨hstore.symm, [], c.activation s, rfl, hlocals.symm⟩
  exact hl.departs (hc.intends h) hx hshow (h.counts hc.fits hcall)

end Jump

theorem Departs.returns {x : Exit} (h : Departs M T const callHost base k r c' s)
    (hp : c.Peer c') (hx : x ≠ .skip) :
    Returns M T const callHost base k r c (Eval.results c.frame.arity x s) := by
  have harity : c'.frame.arity = c.frame.arity := by
    obtain ⟨_, _, _, _, rfl⟩ := hp
    rfl
  rw [Eval.results, if_neg hx]
  by_cases hn : c.frame.arity ≤ s.operands.length
  · rw [if_pos hn]
    exact ⟨rfl, hn, c', hp, h⟩
  · rw [if_neg hn]
    rw [← harity] at hn
    cases h with
    | short _ hfail => exact hfail.peer hp
    | done hl _ _ =>
      cases hl with
      | outermost hn' _ => exact absurd hn' hn
      | finish hn' _ _ => exact absurd hn' hn
    | resume hn' _ _ => exact absurd hn' hn

/-- At an `end_` no other instruction is executed. -/
theorem Moves.at_end {b : Context} {x : EStateM.Result (Stop Trap) Machine Bool}
    (h : Moves callHost base b c s x) (hi : c.frame.body[c.pc]? = some .end_) :
    (∃ m, m.Full ∧ x = .error (.failed .stackOverflow) m) ∨
    (c.pc + 1 = c.frame.body.size ∧ Leaves base c s x) ∨
    (c.pc + 1 ≠ c.frame.body.size ∧ ∀ l ws rest, c.outer = (l, ws) :: rest →
      s.operands.length < l.arity ∧ x = .error (.failed .stackUnderflow) (c.fill s) ∨
      l.arity ≤ s.operands.length ∧ x = .ok false (Context.fill
        { c with outer := rest, pc := c.pc + 1 }
        { s with operands := s.operands.take l.arity ++ ws })) := by
  cases h with
  | overflow hfull _ => exact .inl ⟨_, hfull, rfl⟩
  | last _ hsize hl => exact .inr (.inl ⟨hsize, hl⟩)
  | closeOut _ hne ho =>
    refine .inr (.inr ⟨hne, ?_⟩)
    intro l ws rest ho'
    cases ho.symm.trans ho'
  | close _ hne ho hn =>
    refine .inr (.inr ⟨hne, ?_⟩)
    intro l ws rest ho'
    cases ho.symm.trans ho'
    exact .inr ⟨hn, rfl⟩
  | closeShort _ hne ho hn =>
    refine .inr (.inr ⟨hne, ?_⟩)
    intro l ws rest ho'
    cases ho.symm.trans ho'
    exact .inl ⟨hn, rfl⟩
  | pastEnd hget => cases hi.symm.trans hget
  -- an `end_` is not plain
  | trap hget hp _ _ _ =>
    cases hi.symm.trans hget
    cases hp
  | next h | skip h _ | skipOut h _ | branch h _ _ | branchShort h _ _ | branchOut h _ _
  | leave h _ | call h _ => cases h.plain hi
  -- and opens nothing
  | refuse hget hs _ _ _ | unterminated hget hs _ _ =>
    cases hi.symm.trans hget
    cases hs
  | pass h _ _ | mistyped h _ _ _ _ | enterShort h _ _ _ _ _ | enter h _ _ _ _ _ _ _ _ =>
    cases h.opens hi

/-- The last `end_` of a body. -/
theorem Arrives.last (h : Arrives M T const callHost base k r c s) (hr : Machine.Settled r.2)
    (hi : c.frame.body[c.pc]? = some .end_) (hsize : c.pc + 1 = c.frame.body.size) :
    Departs M T const callHost base k r c s := by
  obtain ⟨hc, x, hmove, hx⟩ := h.step hr
  obtain ⟨m, hfull, rfl⟩ | ⟨_, hl⟩ | ⟨hne, _⟩ := hmove.at_end hi
  · exact (not_overflow hr hfull hx).elim
  · have hm (x y : ValType) (hm : (c.fill s).Miscounts x y) : False := by
      cases (hm.call hc.fits hi).1
    exact (hl.departs hc hx (c.shows_fill s) hm).mono (Nat.sub_le k 1)
  · exact absurd hsize hne

/-- The `end_` of a construct. -/
theorem Arrives.close {l : Label} {ws : List Value} {rest : List (Label × List Value)}
    (h : Arrives M T const callHost base k r c s) (hr : Machine.Settled r.2)
    (hi : c.frame.body[c.pc]? = some .end_) (hne : c.pc + 1 ≠ c.frame.body.size)
    (ho : c.outer = (l, ws) :: rest) :
    (s.operands.length < l.arity ∧ Fails r c s (.failed .stackUnderflow)) ∨
    (l.arity ≤ s.operands.length ∧
      Arrives M T const callHost base k r { c with outer := rest, pc := c.pc + 1 }
        { s with operands := s.operands.take l.arity ++ ws }) := by
  obtain ⟨hc, x, hmove, hx⟩ := h.step hr
  obtain ⟨m, hfull, rfl⟩ | ⟨hsize, _⟩ | ⟨_, hclose⟩ := hmove.at_end hi
  · exact (not_overflow hr hfull hx).elim
  · exact absurd hsize hne
  · obtain ⟨hn, rfl⟩ | ⟨hn, rfl⟩ := hclose l ws rest ho
    · refine .inl ⟨hn, fails_of hx (c.shows_fill s) ?_⟩
      intro x y hm
      cases (hm.call hc.fits hi).1
    · exact .inr ⟨hn, (Proceeds.arrives hx (hc.close hi hne ho _)).mono (Nat.sub_le k 1)⟩

end Runs

end Wasm
