import Wasm.Proofs.Structured.Simulation
import Wasm.Proofs.Enclosing

namespace Wasm

/-- The outcome of a run, and the last state before it, are what evaluation says. -/
def Eval.Accounts (limit : Nat) (bottom : List Value)
    (r : Machine × EStateM.Result (Stop Trap) Machine Unit) :
    EStateM.Result (Stop Trap) Scope (List Value) → Prop
  | .ok rs s => ∃ m, r.2 = .ok () m ∧ m.stack = .of limit (rs ++ bottom) [] ∧ m.store = s.store ∧
    r.1.locals = s.locals
  | .error e s => ∃ e' m, r.2 = .error e' m ∧ m.store = s.store ∧ m.locals = s.locals ∧
    (e' = e ∧ (∀ x y, ¬ r.1.Miscounts x y) ∨
      e = .failed .stackUnderflow ∧ ∃ x y, e' = .failed (.typeMismatch x y) ∧ r.1.Miscounts x y)

theorem Context.Shows.locals {c : Context} {m : Machine} {s : Scope} (h : c.Shows m s)
    (hc : c.callers = []) : m.store = s.store ∧ m.locals = s.locals := by
  obtain ⟨hstore, inner, a, hstack, hlocals⟩ := h
  rw [hc] at hstack
  exact ⟨hstore, (Machine.locals_of hstack).trans hlocals⟩

theorem Returns.accounts {M : Module → Prop} {T : Trap → Prop} {const : Code} {callHost : HostCall}
    {base k : Nat} {r : Machine × EStateM.Result (Stop Trap) Machine Unit} {c : Context}
    {x : EStateM.Result (Stop Trap) Scope (List Value)}
    (h : Returns M T const callHost base k r c x) (hc : c.callers = []) :
    Eval.Accounts c.limit c.bottom r x := by
  cases x with
  | error e s =>
    obtain ⟨e', m, he, hshow, hcause⟩ := h
    obtain ⟨hstore, hlocals⟩ := hshow.locals hc
    exact ⟨e', m, he, hstore, hlocals, hcause⟩
  | ok rs s =>
    obtain ⟨rfl, hn, c', ⟨_, _, _, _, rfl⟩, hdep⟩ := h
    cases hdep with
    | short hlt _ => exact absurd hn (Nat.not_le.mpr hlt)
    | resume _ hcallers _ => cases hc.symm.trans hcallers
    | done hl hm hshow =>
      cases hl with
      | finish _ hcallers _ => cases hc.symm.trans hcallers
      | outermost => exact ⟨_, hm, rfl, rfl, (hshow.locals hc).2⟩

namespace Engine

def framed (store : Store) (limit : Nat) (bottom : List Value) (frame : Frame)
    (operands : List Value) : Machine where
  store := store
  stack := .of limit bottom [⟨frame, [], operands⟩]

/-- Whenever the run of read code in a frame ends, and not because the stack is full, its results or
trap, locals and store are those of the structured evaluation of its tree. The frame is one of a
function of the store or of an initializer. -/
theorem run_structured (fuel depth n limit : Nat) (types : List FuncType) (start stop : Cursor)
    (code : Code) (store : Store) (bottom operands : List Value) (frame : Frame)
    (hread : Reader.expr types start = .ok code stop)
    (hs : store.Sound Module.Decoded (fun _ ↦ True)) (hbody : frame.body = code)
    (hpc : frame.pc = 0) (hfunc : store.codeOf code frame.func = some code)
    (hfit : bottom.length + 1 + operands.length ≤ limit)
    (hend : Machine.Settled
      (Machine.run (hostCall fuel depth) n (framed store limit bottom frame operands))) :
    (Machine.finish (hostCall fuel depth) 0 n (framed store limit bottom frame operands)).2 =
      Machine.run (hostCall fuel depth) n (framed store limit bottom frame operands) ∧
    Eval.Accounts limit bottom
      (Machine.finish (hostCall fuel depth) 0 n (framed store limit bottom frame operands))
      (Eval.body (hostCall fuel depth) limit n 1 frame.inst frame.arity code
        ⟨store, frame.locals, operands⟩) := by
  have hM : ∀ m : Module, m.Decoded → m.Bracketed := fun m hm ↦ hm.bracketed
  have hT : ∀ t : Trap, t.bracketing = false → True := fun _ _ ↦ trivial
  have hh := honest_hostCall hM hT fuel depth
  have hw : code.WellBracketed := Reader.yields_expr types _ _ _ hread
  have hrun : (Machine.finish (hostCall fuel depth) 0 n
      (framed store limit bottom frame operands)).2 =
        Machine.run (hostCall fuel depth) n (framed store limit bottom frame operands) := by
    rw [Machine.finish_snd, Machine.run_apply, framed, Machine.resume_of, Stack.size_frames_of, hpc]
    rfl
  refine ⟨hrun, ?_⟩
  rw [← hrun] at hend
  let c := Machine.outermost limit bottom frame
  have htracked : c.Tracked Module.Decoded (fun _ ↦ True) code ⟨store, frame.locals, operands⟩ := by
    refine ⟨?_, hs, .empty _ _, ⟨hbody ▸ hw, hbody ▸ hfunc, .start (hbody ▸ hw)⟩, nofun⟩
    simp only [Context.Fits, Context.base, c, Machine.outermost, Stack.beneath, Stack.entriesOf,
      Entry.constructs, List.length_append, Stack.length_operands, List.length_singleton]
    exact hfit
  have harr : Arrives Module.Decoded (fun _ ↦ True) code (hostCall fuel depth) 0 n
      (Machine.finish (hostCall fuel depth) 0 n (framed store limit bottom frame operands)) c
      ⟨store, frame.locals, operands⟩ := ⟨n, le_rfl, rfl, htracked⟩
  have hret := (simulates hend hM hh n).body hend (Nat.zero_le _) rfl rfl harr
  have hacc := hret.accounts rfl
  rw [← hbody]
  exact hacc

def looping : Code :=
  #[.loop .empty, .localGet 0, .i32Const 0, .localSet 0, .brIf 0, .end_, .i32Const 7, .end_]

def rounds : Module where
  types := [⟨[.i32], [.i32]⟩]
  funcTypes := [0]
  functions := [⟨0, [], looping⟩]

def roundsStore : Store where
  funcs := #[.code ⟨[.i32], [.i32]⟩ 0 0]
  instances := #[{ funcs := #[0], mod := rounds }]

def roundsFrame : Frame where
  inst := 0
  func := some 0
  locals := #[.i32 1]
  pc := 0
  arity := 1
  body := looping

theorem decoded_rounds : rounds.Decoded :=
  ⟨[0x00, 0x61, 0x73, 0x6D, 1, 0, 0, 0, 1, 6, 1, 0x60, 1, 0x7F, 1, 0x7F, 3, 2, 1, 0, 10, 17, 1, 15,
    0, 3, 0x40, 0x20, 0, 0x41, 0, 0x21, 0, 0x0D, 0, 0x0B, 0x41, 7, 0x0B], by decide +kernel⟩

theorem sound_roundsStore (T : Trap → Prop) : roundsStore.Sound Module.Decoded T := by
  refine ⟨?_, ?_⟩
  · intro i inst h
    obtain _ | i := i
    · cases h
      exact decoded_rounds
    · cases h
  · intro i f h
    obtain _ | i := i <;> cases h

theorem expr_rounds : Reader.expr rounds.types
    (.ofBytes [3, 0x40, 0x20, 0, 0x41, 0, 0x21, 0, 0x0D, 0, 0x0B, 0x41, 7, 0x0B]) =
      .ok looping ⟨[], 14, 0⟩ := by
  rfl

def roundsContext (ends : BlockEnds) : Context where
  limit := 10
  bottom := []
  callers := []
  frame := roundsFrame
  outer := []
  ends := ends
  pc := 0

def roundsEnds : BlockEnds := ⟨({} : BlockEnds).found.insert (some 0, 0) ⟨none, 5⟩⟩

def inRound (pc : Nat) (x : BitVec 32) (operands : List Value) : Machine :=
  Context.fill { roundsContext roundsEnds with outer := [(⟨0, 0, 0, 5, true⟩, [])], pc }
    ⟨roundsStore, #[.i32 x], operands⟩

/-- A round begins at the loop, whether it is the first one or not. -/
theorem advance_rounds {ends : BlockEnds} (hends : Ends (roundsContext ends) ⟨none, 5⟩ roundsEnds)
    (x : BitVec 32) : Machine.advance (hostCall 0 0) 0
      ((roundsContext ends).fill ⟨roundsStore, #[.i32 x], []⟩) = .ok false (inRound 1 x []) := by
  have hroom : (roundsContext ends).base + 0 < 10 := by
    change 1 + 0 < 10
    decide
  exact advance_enter rfl (.inr rfl) hends hroom

/-- The local is tested by the branch after it has been set to zero. -/
theorem runTo_round (n : Nat) (x : BitVec 32) :
    Machine.runTo (hostCall 0 0) 0 (n + 3) (inRound 1 x []) =
      Machine.runTo (hostCall 0 0) 0 n (inRound 4 0 [.i32 x]) := by
  have hget : Machine.advance (hostCall 0 0) 0 (inRound 1 x []) =
    .ok false (inRound 2 x [.i32 x]) := rfl
  have hconst : Machine.advance (hostCall 0 0) 0 (inRound 2 x [.i32 x]) =
    .ok false (inRound 3 x [.i32 0, .i32 x]) := rfl
  have hset : Machine.advance (hostCall 0 0) 0 (inRound 3 x [.i32 0, .i32 x]) =
    .ok false (inRound 4 0 [.i32 x]) := rfl
  simp only [Machine.runTo_apply, hget, hconst, hset]

theorem run_rounds : ∃ m, Machine.run (hostCall 0 0) 13 (framed roundsStore 10 [] roundsFrame []) =
    .ok () m := by
  have hfirst : Ends (roundsContext {}) ⟨none, 5⟩ roundsEnds := by
    simp [Ends, roundsContext, BlockEnds.find]
    rfl
  have hagain : Ends (roundsContext roundsEnds) ⟨none, 5⟩ roundsEnds := by
    simp [Ends, roundsContext, roundsEnds, roundsFrame, BlockEnds.find]
  have hback : Machine.advance (hostCall 0 0) 0 (inRound 4 0 [.i32 1]) =
    .ok false ((roundsContext roundsEnds).fill ⟨roundsStore, #[.i32 0], []⟩) := rfl
  have hpass : Machine.advance (hostCall 0 0) 0 (inRound 4 0 [.i32 0]) =
    .ok false (inRound 5 0 []) := rfl
  have hrun : Machine.run (hostCall 0 0) 13 (framed roundsStore 10 [] roundsFrame []) =
      Machine.runTo (hostCall 0 0) 0 13
        ((roundsContext {}).fill ⟨roundsStore, #[.i32 1], []⟩) := by
    rw [Machine.run_apply]
    rfl
  rw [hrun, Machine.runTo_apply, advance_rounds hfirst]
  dsimp only
  rw [runTo_round, Machine.runTo_apply, hback]
  dsimp only
  rw [Machine.runTo_apply, advance_rounds hagain]
  dsimp only
  rw [runTo_round, Machine.runTo_apply, hpass]
  exact ⟨_, rfl⟩

theorem eval_rounds : Outcome.value? (Eval.body (hostCall 0 0) 10 13 1 roundsFrame.inst
    roundsFrame.arity looping ⟨roundsStore, roundsFrame.locals, []⟩) = some [.i32 7] := by
  decide +kernel

def shortCall : Module where
  types := [⟨[], []⟩, ⟨[.i32, .i32], []⟩]
  funcTypes := [0, 1]
  functions := [⟨0, [], #[.i64Const 1, .block .empty, .call 1, .end_, .drop, .end_]⟩,
    ⟨1, [], #[.end_]⟩]

def shortCallStore : Store where
  funcs := #[.code ⟨[], []⟩ 0 0, .code ⟨[.i32, .i32], []⟩ 0 1]
  instances := #[{ funcs := #[0, 1], mod := shortCall }]

def shortCallFrame : Frame where
  inst := 0
  func := some 0
  locals := #[]
  pc := 0
  arity := 0
  body := #[.i64Const 1, .block .empty, .call 1, .end_, .drop, .end_]

theorem decoded_shortCall : shortCall.Decoded :=
  ⟨[0x00, 0x61, 0x73, 0x6D, 1, 0, 0, 0, 1, 9, 2, 0x60, 0, 0, 0x60, 2, 0x7F, 0x7F, 0, 3, 3, 2, 0, 1,
    10, 15, 2, 10, 0, 0x42, 1, 2, 0x40, 0x10, 1, 0x0B, 0x1A, 0x0B, 2, 0, 0x0B], by decide +kernel⟩

theorem sound_shortCallStore (T : Trap → Prop) : shortCallStore.Sound Module.Decoded T := by
  refine ⟨?_, ?_⟩
  · intro i inst h
    obtain _ | i := i
    · cases h
      exact decoded_shortCall
    · cases h
  · intro i f h
    obtain _ | _ | i := i <;> cases h

theorem expr_shortCall : Reader.expr shortCall.types
    (.ofBytes [0x42, 1, 2, 0x40, 0x10, 1, 0x0B, 0x1A, 0x0B]) =
      .ok shortCallFrame.body ⟨[], 9, 0⟩ := by
  rfl

def shortCallContext : Context where
  limit := 10
  bottom := []
  callers := []
  frame := shortCallFrame
  outer := [(⟨0, 0, 1, 3, false⟩, [.i64 1])]
  ends := ⟨({} : BlockEnds).found.insert (some 0, 1) ⟨none, 3⟩⟩
  pc := 2

theorem run_shortCall :
    Machine.run (hostCall 0 0) 3 (framed shortCallStore 10 [] shortCallFrame []) =
    .error (.failed (.typeMismatch .i32 .i64))
      ((shortCallContext.saving 3).fill ⟨shortCallStore, #[], []⟩) := by
  have hends : Ends { shortCallContext with outer := [], ends := {}, pc := 1 } ⟨none, 3⟩
      shortCallContext.ends := by
    simp [Ends, BlockEnds.find]
    rfl
  have hpush : Machine.advance (hostCall 0 0) 0 (framed shortCallStore 10 [] shortCallFrame []) =
      .ok false (Context.fill { shortCallContext with outer := [], ends := {}, pc := 1 }
        ⟨shortCallStore, #[], [.i64 1]⟩) := rfl
  have henter := @advance_enter (hostCall 0 0) 0 _ ⟨shortCallStore, #[], [.i64 1]⟩ _ _ _ rfl
    (.inl rfl) hends (by decide)
  rw [Machine.run_apply, show Machine.resume (framed shortCallStore 10 [] shortCallFrame []) =
    .ok () (framed shortCallStore 10 [] shortCallFrame []) from rfl]
  simp only [Machine.runTo_apply,
    show (framed shortCallStore 10 [] shortCallFrame []).stack.frames.size - 1 = 0 from rfl, hpush]
  rw [henter]
  rfl

/-- Structured evaluation finds no parameter where the run finds one of the wrong type. -/
theorem short_call_not_structured : ∃ code stop m s,
    Reader.expr shortCall.types (.ofBytes [0x42, 1, 2, 0x40, 0x10, 1, 0x0B, 0x1A, 0x0B]) =
      .ok code stop ∧
    Machine.run (hostCall 0 0) 3 (framed shortCallStore 10 [] shortCallFrame []) =
      .error (.failed (.typeMismatch .i32 .i64)) m ∧
    Eval.body (hostCall 0 0) 10 3 1 0 0 code ⟨shortCallStore, #[], []⟩ =
      .error (.failed .stackUnderflow) s :=
  ⟨_, _, _, _, expr_shortCall, run_shortCall, rfl⟩

/-- A run that goes round a loop twice and comes to its end, and the short call. -/
theorem run_structured_rounds :
    (∃ m, Machine.run (hostCall 0 0) 13 (framed roundsStore 10 [] roundsFrame []) = .ok () m ∧
      Outcome.value? (Eval.body (hostCall 0 0) 10 13 1 roundsFrame.inst roundsFrame.arity
        looping ⟨roundsStore, roundsFrame.locals, []⟩) = some [.i32 7] ∧
      m.stack = .of 10 [.i32 7] []) ∧
    ∃ m, Machine.run (hostCall 0 0) 3 (framed shortCallStore 10 [] shortCallFrame []) =
      .error (.failed (.typeMismatch .i32 .i64)) m ∧
    Eval.Accounts 10 []
      (Machine.finish (hostCall 0 0) 0 3 (framed shortCallStore 10 [] shortCallFrame []))
      (Eval.body (hostCall 0 0) 10 3 1 0 0 shortCallFrame.body ⟨shortCallStore, #[], []⟩) := by
  constructor
  · obtain ⟨m, hrun⟩ := run_rounds
    have hend : Machine.Settled
        (Machine.run (hostCall 0 0) 13 (framed roundsStore 10 [] roundsFrame [])) := by
      rw [hrun]
      trivial
    have hacc := run_structured 0 0 13 10 rounds.types _ _ _ roundsStore [] [] roundsFrame
      expr_rounds (sound_roundsStore _) rfl rfl rfl (by decide) hend
    rw [Outcome.eq_ok_final eval_rounds, hrun] at hacc
    obtain ⟨hfinish, m', hm', hstack, -⟩ := hacc
    cases hfinish.symm.trans hm'
    exact ⟨m, hrun, eval_rounds, hstack⟩
  · have hend : Machine.Settled
        (Machine.run (hostCall 0 0) 3 (framed shortCallStore 10 [] shortCallFrame [])) := by
      rw [run_shortCall]
      exact ⟨nofun, nofun⟩
    have hacc := run_structured 0 0 3 10 shortCall.types _ _ _ shortCallStore [] [] shortCallFrame
      expr_shortCall (sound_shortCallStore _) rfl rfl rfl (by decide) hend
    exact ⟨_, run_shortCall, hacc.2⟩

end Engine

end Wasm
