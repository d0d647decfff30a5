import Wasm.Proofs.References

namespace Wasm

namespace Machine

variable {callHost : HostCall} {c : Context} {s : Scope} {store : Store} {fuel inst : Nat}
  {i : Instr} {v : Value}

def Pushes (store : Store) (inst : Nat) (i : Instr) (v : Value) : Prop :=
  ∀ (n : Nat) (c : Context) (s : Scope), c.frame.inst = inst → s.store = store →
    exec n i (c.fill s) = (onStack (Stack.pushValue v) >>= fun _ ↦ pure .next) (c.fill s)

theorem pushes_i32Const (store : Store) (inst : Nat) (k : BitVec 32) :
    Pushes store inst (.i32Const k) (.i32 k) := fun _ _ _ _ _ ↦ rfl

theorem pushes_refNull (store : Store) (inst : Nat) (t : RefType) :
    Pushes store inst (.refNull t) (.null t) := fun _ _ _ _ _ ↦ rfl

theorem pushes_refFunc {owner : Instance} {f : Idx} {a : Nat}
    (howner : store.instances[inst]? = some owner) (ha : owner.funcs[f.toNat]? = some a) :
    Pushes store inst (.refFunc f) (.funcref (some a)) := by
  rintro n c s rfl rfl
  have hinst : instance_ (c.fill s) = .ok owner (c.fill s) := by
    rw [instance_fill, Store.instance_, howner]
    rfl
  have haddr : owner.funcAddr f.toNat = .ok a := by
    rw [Instance.funcAddr, Instance.lookup, ha]
  have hsimple : simple (.refFunc f) = (do
      let addr ← check ((← instance_).funcAddr f.toNat)
      Stack.pushValue (.funcref (some addr)) : Exec Unit) := rfl
  change (simple (.refFunc f) >>= fun _ ↦ pure Flow.next) (c.fill s) = _
  rw [hsimple]
  simp only [Outcome.bind_apply, hinst, haddr]
  rfl

theorem advance_push (hi : c.frame.body[c.pc]? = some i) (hv : Pushes s.store c.frame.inst i v)
    (hroom : c.base + s.operands.length < c.limit) :
    advance callHost 0 (c.fill s) = .ok false
      (Context.fill { c with pc := c.pc + 1 } { s with operands := v :: s.operands }) := by
  rw [advance_apply, step_fill, hi]
  dsimp only
  rw [hv _ c s rfl rfl, Outcome.bind_apply, pushValue_fill, if_pos hroom]
  rfl

theorem advance_end (hs : c.Fits s) (hi : c.frame.body[c.pc]? = some .end_)
    (hl : c.pc + 1 = c.frame.body.size) (hc : c.callers = [])
    (harity : c.frame.arity ≤ s.operands.length) :
    ∃ m, advance callHost 0 (c.fill s) = .ok true m ∧ m.store = s.store ∧
      m.stack = .of c.limit (s.operands.take c.frame.arity ++ c.bottom) [] := by
  have hfit : Stack.height c.bottom [c.activation s] ≤ c.limit := by
    rw [← hc, c.height_activation]
    exact hs
  rw [advance_apply, step_fill, hi]
  dsimp only
  rw [exec_last hl]
  change ∃ m, conclude callHost 0 .leave (c.fill s) = _ ∧ _
  rw [conclude_leave_apply, Context.fill, hc]
  dsimp only
  rw [Context.activation] at hfit ⊢
  rw [Stack.popFrame_of_nil hfit, if_pos harity]
  exact ⟨_, rfl, rfl, rfl⟩

/-- The evaluation of such an initializer takes two steps and two entries of the stack. -/
theorem runConst_push (hv : Pushes store inst i v) (hroom : 2 ≤ store.config.maxStackEntries)
    (hfuel : 2 ≤ fuel) : ∃ m,
      runConst callHost fuel inst #[i, .end_] (fresh store) = .ok v m ∧ m.store = store := by
  obtain ⟨n, rfl⟩ := Nat.exists_eq_add_of_le' hfuel
  let c := outermost store.config.maxStackEntries [] (initializer inst #[i, .end_])
  have hbase : c.base = 1 := rfl
  have hpush : advance callHost 0 (c.fill ⟨store, #[], []⟩) =
      .ok false (Context.fill { c with pc := 1 } ⟨store, #[], [v]⟩) :=
    advance_push rfl hv (by rw [hbase]; exact hroom)
  obtain ⟨m, hend, hstore, hstack⟩ := @advance_end callHost { c with pc := 1 } ⟨store, #[], [v]⟩
    hroom rfl rfl rfl le_rfl
  have hsteps : runTo callHost 0 (n + 2) (c.fill ⟨store, #[], []⟩) = .ok () m := by
    rw [runTo_apply, hpush]
    dsimp only
    rw [runTo_apply, hend]
  have hrun : run callHost (n + 2) { fresh store with
      stack := .of store.config.maxStackEntries [] [⟨initializer inst #[i, .end_], [], []⟩] } =
      .ok () m := by
    rw [run_apply, resume_of, Stack.size_frames_of]
    exact hsteps
  rw [runConst_apply, stack_fresh, Stack.pushFrame_of, Stack.height_nil,
    if_pos (Nat.lt_of_lt_of_le (by decide) hroom)]
  dsimp only
  rw [hrun]
  dsimp only
  rw [Stop.lift, onStack, hstack]
  exact ⟨_, rfl, hstore⟩

end Machine

namespace Link

variable {callHost : HostCall} {fuel handle : Nat} {i : Instr} {s : Store} {v : Value}

theorem eval_push (hv : Machine.Pushes s handle i v) (hroom : 2 ≤ s.config.maxStackEntries)
    (hfuel : 2 ≤ fuel) (site : Site) :
    eval (.machine callHost fuel) handle site #[i, .end_] s = .ok v s := by
  obtain ⟨m, hrun, hstore⟩ := @Machine.runConst_push callHost s fuel handle i v hv hroom hfuel
  simp only [eval, Stop.mapError, Action.evalConst, Action.start_apply, hrun, hstore]

theorem evalOffset_i32Const (s : Store) (k : BitVec 32) (hroom : 2 ≤ s.config.maxStackEntries)
    (hfuel : 2 ≤ fuel) (site : Site) :
    evalOffset (.machine callHost fuel) handle site #[.i32Const k, .end_] s = .ok k.toNat s := by
  rw [evalOffset, Outcome.bind_apply, eval_push (Machine.pushes_i32Const s handle k) hroom hfuel]
  rfl

end Link

end Wasm
