import Wasm.Proofs.Machine.Labels
import Wasm.Proofs.Machine.Run

namespace Wasm

namespace Machine

def Tracked (M : Module → Prop) (T : Trap → Prop) (const : Code) (m : Machine) : Prop :=
  ∃ c s, m = Context.fill c s ∧ c.Tracked M T const s

def outcome {α : Type} : EStateM.Result (Stop Trap) Machine α →
    EStateM.Result (Stop Trap) Store α
  | .ok a m => .ok a m.store
  | .error e m => .error e m.store

section Runs

variable {M : Module → Prop} {T : Trap → Prop} {const : Code} {callHost : HostCall}
  {base fuel : Nat} {m : Machine} {store : Store}

theorem settles_error {α : Type} {s : Store} {e : Stop Trap} {m : Machine}
    (hs : Store.Kept M T s m.store) (he : ∀ t, e = .failed t → T t) :
    Settles M T T s (outcome (.error e m : EStateM.Result (Stop Trap) Machine α)) := by
  cases e with
  | failed t => exact .failed hs (he t rfl)
  | outOfFuel => exact .outOfFuel hs

theorem Tracked.advance (h : m.Tracked M T const) (base : Nat) (hM : ∀ m, M m → m.Bracketed)
    (hT : ∀ t, t.bracketing = false → T t) (hh : callHost.Honest M T) :
    match advance callHost base m with
    | .ok done m' => Store.Kept M T m.store m'.store ∧ (done = false → m'.Tracked M T const)
    | .error e m' => Store.Kept M T m.store m'.store ∧ ∀ t, e = .failed t → T t := by
  obtain ⟨c, s, rfl, hc⟩ := h
  have hmove := @advance_moves callHost base c c s (.refl c) hc.fits
  generalize Machine.advance callHost base (c.fill s) = r at hmove
  cases r with
  | ok done m' => exact hmove.tracked hM hh hc
  | error e m' => exact hmove.kept hT hh hc

theorem Tracked.runTo (h : m.Tracked M T const) (hM : ∀ m, M m → m.Bracketed)
    (hT : ∀ t, t.bracketing = false → T t) (hh : callHost.Honest M T) :
    Settles M T T m.store (outcome (runTo callHost base fuel m)) := by
  induction fuel generalizing m with
  | zero =>
    obtain ⟨c, s, rfl, hc⟩ := h
    exact .outOfFuel (hc.sound.same rfl rfl)
  | succ fuel ih =>
    have hstep := h.advance base hM hT hh
    rw [runTo_apply]
    generalize Machine.advance callHost base m = r at hstep
    cases r with
    | error e m' => exact settles_error hstep.1 hstep.2
    | ok done m' =>
      obtain ⟨hkept, hgo⟩ := hstep
      cases done with
      | true => exact .ok hkept
      | false =>
        exact (ih (hgo rfl)).after hkept

/-- A machine that has just begun to run a function. -/
theorem tracked_func {func : Nat} {type : FuncType} {inst : Nat} {f : FuncDef}
    {locals : Array Value} {bottom : List Value} {limit : Nat}
    (hs : store.Sound M T) (hM : ∀ m, M m → m.Bracketed)
    (hk : store.callee 0 func = .ok (.code type inst f)) (hlt : bottom.length < limit) :
    Tracked M T const ⟨store, .of limit bottom [⟨⟨inst, some func, locals, 0, type.results.length,
      f.body⟩, [], []⟩], {}, 0⟩ := by
  have hbody := Store.bodyOf_callee hk
  have hw := hs.bracketed hM hbody
  refine ⟨outermost limit bottom ⟨inst, some func, locals, 0, type.results.length, f.body⟩,
    ⟨store, locals, []⟩, rfl, ?_⟩
  exact ⟨fits_outermost hlt, hs, .empty _ _, ⟨hw, hbody, .start hw⟩, nofun⟩

theorem tracked_const {inst limit : Nat} (hs : store.Sound M T) (hw : const.WellBracketed)
    (hlt : 0 < limit) :
    Tracked M T const ⟨store, .of limit [] [⟨initializer inst const, [], []⟩], {}, 0⟩ := by
  refine ⟨outermost limit [] (initializer inst const), ⟨store, #[], []⟩, rfl, ?_⟩
  exact ⟨fits_outermost hlt, hs, .empty _ _, ⟨hw, rfl, .start hw⟩, nofun⟩

/-- Every state of a run is in step with the code. -/
theorem Reachable.tracked (h : Reachable callHost store const m) (hs : store.Sound M T)
    (hM : ∀ m, M m → m.Bracketed) (hT : ∀ t, t.bracketing = false → T t)
    (hh : callHost.Honest M T) (hw : const.WellBracketed) : m.Tracked M T const := by
  induction h with
  | @func func args m h =>
    obtain ⟨type, inst, f, hk, _, hlt, rfl⟩ := func_start h
    have hbottom :
        (args.reverse.drop type.params.length).length < store.config.maxStackEntries := by
      simpa using hlt
    exact tracked_func hs hM hk hbottom
  | const h =>
    obtain ⟨hlt, rfl⟩ := const_start h
    exact tracked_const hs hw hlt
  | step _ hm ih =>
    have hstep := ih.advance 0 hM hT hh
    rw [hm] at hstep
    exact hstep.2 rfl

theorem ordinary_popValues (n : Nat) : Ordinary (Stack.popValues n) := by
  intro s t s' h
  unfold Stack.popValues at h
  split at h
  · cases h
    rfl
  · dsimp only at h
    split at h
    · cases h
    · cases h
      rfl

theorem ordinary_popValue : Ordinary Stack.popValue := by
  refine Ordinary.bind ?_ fun v ↦ Ordinary.bind ?_ fun _ ↦ .pure v
  · intro s t s' h
    unfold Stack.peekValue at h
    split at h
    · cases h
    · cases h
      rfl
  · intro s t s' h
    cases h

theorem outcome_onStack {α : Type} (op : StackM α) : outcome (Stop.lift (onStack op) m) =
    match op m.stack with
    | .ok a _ => .ok a m.store
    | .error t _ => .error (.failed t) m.store := by
  simp only [Stop.lift, onStack]
  cases op m.stack <;> rfl

/-- What is taken from the stack at last does not matter to the store. -/
theorem settles_onStack {α : Type} {op : StackM α} (hop : Ordinary op)
    (hT : ∀ t, t.bracketing = false → T t) (hkept : Store.Kept M T store m.store) :
    Settles M T T store (outcome (Stop.lift (onStack op) m)) := by
  rw [outcome_onStack]
  cases h : op m.stack with
  | ok a stack => exact .ok hkept
  | error t stack => exact .failed hkept (hT t (hop _ _ _ h))

/-- An operation on the stack after a run. -/
theorem settles_then {α : Type} {op : StackM α} (hop : Ordinary op)
    (hT : ∀ t, t.bracketing = false → T t) {r : EStateM.Result (Stop Trap) Machine Unit}
    (hr : Settles M T T store (outcome r)) :
    Settles M T T store (outcome (match r with
      | .error e m => .error e m
      | .ok _ m => Stop.lift (onStack op) m)) := by
  cases r with
  | error e m =>
    change Settles M T T store (.error e m.store) at hr
    change Settles M T T store (.error e m.store)
    cases hr with
    | failed hkept ht => exact .failed hkept ht
    | outOfFuel hkept => exact .outOfFuel hkept
  | ok u m =>
    change Settles M T T store (.ok u m.store) at hr
    cases hr with
    | ok hkept => exact settles_onStack hop hT hkept

theorem runFunc_settles (hs : store.Sound M T) (hM : ∀ m, M m → m.Bracketed)
    (hT : ∀ t, t.bracketing = false → T t) (hh : callHost.Honest M T) (func arity : Nat)
    (args : List Value) :
    Settles M T T store (outcome (runFunc callHost fuel func args arity (fresh store))) := by
  have hsame : Store.Kept M T store store := hs.same rfl rfl
  rw [runFunc_apply, pushValues_fresh]
  by_cases hroom : args.length ≤ store.config.maxStackEntries
  · simp only [hroom, if_true]
    have hstart := @call_starts callHost
      { fresh store with stack := .of store.config.maxStackEntries args.reverse [] }
      store.config.maxStackEntries args.reverse func rfl (by simpa using hroom)
    have hhost {f : Host.Func} (hk : store.callee 0 func = .ok (.host f)) (args : List Value) :=
      hh f (hs.host_callee hk) args store hs
    generalize call callHost func _ = r at hstart
    cases hstart with
    | @refuse t m' ht hstore =>
      refine settles_error ?_ (of_failed (hT _ ht))
      rw [hstore]
      exact hsame
    | @abort f args' e m' hk hr =>
      have hset := hhost hk args'
      rw [show (fresh store).store = store from rfl] at hr
      rw [hr] at hset
      cases hset with
      | failed hkept ht => exact .failed hkept ht
      | outOfFuel hkept => exact .outOfFuel hkept
    | @misanswer f args' results t m' hk hr ht =>
      have hset := hhost hk args'
      rw [show (fresh store).store = store from rfl] at hr
      rw [hr] at hset
      cases hset with
      | ok hkept => exact .failed hkept (hT _ ht)
    | @answer f args' results store' hk hn hr hl hfit =>
      have hset := hhost hk args'
      rw [show (fresh store).store = store from rfl] at hr
      rw [hr] at hset
      cases hset with
      | ok hkept =>
        simp only [Stack.size_frames_of, Nat.lt_irrefl, if_false]
        exact settles_onStack (ordinary_popValues _) hT hkept
    | @enter type inst f frame hk hn hlt hframe =>
      subst hframe
      simp only [Stack.size_frames_of, List.length_nil, List.length_singleton, Nat.zero_lt_one,
        if_true, run_apply, resume_of]
      refine settles_then (ordinary_popValues _) hT ?_
      exact @Tracked.runTo M T #[] _ _ _ _ (tracked_func hs hM hk (by simpa using hlt)) hM hT hh
  · simp only [hroom, if_false]
    exact .failed hsame (hT _ rfl)

theorem runConst_settles (hs : store.Sound M T) (hM : ∀ m, M m → m.Bracketed)
    (hT : ∀ t, t.bracketing = false → T t) (hh : callHost.Honest M T) (hw : const.WellBracketed)
    (inst : Nat) :
    Settles M T T store (outcome (runConst callHost fuel inst const (fresh store))) := by
  rw [runConst_apply, stack_fresh, Stack.pushFrame_of, Stack.height_nil, List.length_nil]
  by_cases hroom : 0 < store.config.maxStackEntries
  · simp only [hroom, if_true, run_apply, resume_of]
    refine settles_then ordinary_popValue hT ?_
    exact (tracked_const hs hw hroom).runTo hM hT hh
  · simp only [hroom, if_false]
    exact .failed (hs.same rfl rfl) (hT _ rfl)

end Runs

end Machine

namespace Action

variable {M : Module → Prop} {T : Trap → Prop} {callHost : HostCall}

theorem Keeps.nested {α : Type} {op : Action Trap α} (h : op.Keeps M T T) :
    Keeps M T T (nested op) := by
  intro s hs
  have hin : Store.Kept M T s { s with active := s.active + 1 } := hs.same rfl rfl
  have hop := (h _ hin.sound).after hin
  unfold Action.nested
  generalize op { s with active := s.active + 1 } = r at hop
  cases hop with
  | ok hkept => exact .ok (hkept.trans (hkept.sound.same rfl rfl))
  | failed hkept ht => exact .failed (hkept.trans (hkept.sound.same rfl rfl)) ht
  | outOfFuel hkept => exact .outOfFuel (hkept.trans (hkept.sound.same rfl rfl))

theorem keeps_call (hM : ∀ m, M m → m.Bracketed) (hT : ∀ t, t.bracketing = false → T t)
    (hh : callHost.Honest M T) (fuel func : Nat) (args : List Value) :
    Keeps M T T (call callHost fuel func args) := by
  intro s hs
  have hsame : Store.Kept M T s s := hs.same rfl rfl
  rw [call_apply]
  cases hg : s.func func with
  | error t =>
    refine .failed hsame (hT t ?_)
    unfold Store.func at hg
    split at hg <;> cases hg
    rfl
  | ok g =>
    have hrun : Keeps M T T (Machine.start
        (Machine.runFunc callHost fuel func args g.type.results.length)) :=
      fun s' hs' ↦ Machine.runFunc_settles hs' hM hT hh func g.type.results.length args
    simp only
    split
    · split
      · rename_i t ht
        exact .failed hsame (hT t (Value.typeFault?_ordinary ht))
      · split
        · exact .failed hsame (hT _ rfl)
        · exact hrun.nested s hs
    · exact .failed hsame (hT _ rfl)

theorem keeps_invoke (hM : ∀ m, M m → m.Bracketed) (hT : ∀ t, t.bracketing = false → T t)
    (hh : callHost.Honest M T) (fuel inst : Nat) (name : String) (args : List Value) :
    Keeps M T T (invoke callHost fuel inst name args) := by
  refine Keeps.get.bind fun s ↦ Keeps.bind (.check ?_) fun owner ↦ ?_
  · intro t ht
    unfold Store.instance_ at ht
    split at ht <;> cases ht
    exact hT _ rfl
  · split
    · exact keeps_call hM hT hh _ _ _
    · exact .fail (hT _ rfl)
    · exact .fail (hT _ rfl)

theorem keeps_evalConst (hM : ∀ m, M m → m.Bracketed) (hT : ∀ t, t.bracketing = false → T t)
    (hh : callHost.Honest M T) {code : Code} (hw : code.WellBracketed) (fuel inst : Nat) :
    Keeps M T T (evalConst callHost fuel inst code) :=
  fun _ hs ↦ Machine.runConst_settles hs hM hT hh hw inst

end Action

end Wasm
