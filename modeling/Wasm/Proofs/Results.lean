import Wasm.Proofs.Policy.Runs
import Wasm.Proofs.Calls
import Wasm.Engine
import Wasm.Decode.Module

namespace Wasm

namespace Stack

theorem mapM_value?_ok {es : List Entry} {vs : List Value} (h : es.mapM Entry.value? = some vs) :
    es = vs.map Entry.value := by
  induction es generalizing vs with
  | nil =>
    cases h
    rfl
  | cons e es ih =>
    rw [List.mapM_cons] at h
    obtain ⟨v, hv, hrest⟩ := Option.bind_eq_some_iff.mp h
    obtain ⟨ws, hws, hvs⟩ := Option.bind_eq_some_iff.mp hrest
    cases hvs
    cases e with
    | value w =>
      cases hv
      rw [ih hws, List.map_cons]
    | label l => cases hv
    | frame f => cases hv

theorem popValues_ok {n : Nat} {s s' : Stack} {vs : List Value} (h : popValues n s = .ok vs s') :
    s.entries.toList = s'.entries.toList ++ vs.map Entry.value := by
  obtain ⟨⟨es⟩, frames, limit⟩ := s
  rw [popValues_toArray] at h
  split at h
  · cases h
  · split at h
    · rename_i hvs
      cases h
      rw [← mapM_value?_ok hvs]
      exact (List.take_append_drop _ es).symm
    · cases h

theorem pushValues_ok {s s' : Stack} {vs : List Value} (h : pushValues vs s = .ok () s') :
    s'.entries.toList = s.entries.toList ++ vs.map Entry.value := by
  induction vs generalizing s with
  | nil =>
    cases h
    simp
  | cons v vs ih =>
    rw [pushValues_cons] at h
    obtain ⟨_, s₁, hpush, hrest⟩ := Outcome.bind_ok h
    unfold pushValue push at hpush
    split at hpush
    · cases hpush
      rw [ih hrest]
      simp
    · cases hpush

theorem values_eq {s : Stack} {vs : List Value} (h : s.entries.toList = vs.map Entry.value) :
    s.values = vs := by
  rw [values, h, List.filterMap_map]
  exact List.filterMap_some

theorem values_inj {S : List Entry} {vs ws : List Value}
    (h : S ++ vs.map Entry.value = ws.map Entry.value) (hl : vs.length = ws.length) : vs = ws := by
  rw [← List.nil_append (ws.map _)] at h
  exact List.map_injective_iff.mpr (fun _ _ ↦ Entry.value.inj)
    (List.append_inj_right' h (by simpa using hl))

end Stack

namespace Machine

variable {callHost : HostCall} {start : Run Unit} {store : Store} {fuel func : Nat}
  {args rs : List Value} {m m' : Machine}

/-- More steps than enough make no difference. -/
theorem runTo_add {base : Nat} (h : runTo callHost base fuel m = .ok () m') (k : Nat) :
    runTo callHost base (fuel + k) m = .ok () m' := by
  induction fuel generalizing m with
  | zero => cases h
  | succ fuel ih =>
    rw [runTo_apply] at h
    rw [Nat.succ_add, runTo_apply]
    cases hadv : advance callHost base m with
    | error e m₁ =>
      rw [hadv] at h
      cases h
    | ok done m₁ =>
      rw [hadv] at h
      cases done with
      | true => exact h
      | false => exact ih h

/-- A visited state is where the run is after some number of steps. -/
theorem Visits.runTo_eq (h : Visits callHost start store m) :
    ∃ m₀ k, start (fresh store) = .ok () m₀ ∧
      ∀ fuel, runTo callHost 0 (fuel + k) m₀ = runTo callHost 0 fuel m := by
  induction h with
  | start h => exact ⟨_, 0, h, fun _ ↦ rfl⟩
  | @step m m' _ hadv ih =>
    obtain ⟨m₀, k, hstart, hk⟩ := ih
    refine ⟨m₀, k + 1, hstart, fun fuel ↦ ?_⟩
    rw [Nat.add_comm k 1, ← Nat.add_assoc, hk, runTo_apply, hadv]

theorem Visits.ends (h : Visits callHost start store m)
    (hrun : runTo callHost 0 fuel m = .ok () m') :
    ∃ m₁, Visits callHost start store m₁ ∧ advance callHost 0 m₁ = .ok true m' := by
  induction fuel generalizing m with
  | zero => cases hrun
  | succ fuel ih =>
    rw [runTo_apply] at hrun
    cases hadv : advance callHost 0 m with
    | error e m₁ =>
      rw [hadv] at hrun
      cases hrun
    | ok done m₁ =>
      rw [hadv] at hrun
      cases done with
      | true =>
        cases hrun
        exact ⟨m, h, hadv⟩
      | false => exact ih (h.step hadv) hrun

/-- A run that ends comes to the same end from each state that it visits. -/
theorem Visits.runTo_ok {m₀ : Machine} (h : Visits callHost start store m)
    (hstart : start (fresh store) = .ok () m₀) (hrun : runTo callHost 0 fuel m₀ = .ok () m') :
    runTo callHost 0 (fuel + 1) m = .ok () m' := by
  obtain ⟨m₀', k, hstart', hk⟩ := h.runTo_eq
  cases hstart.symm.trans hstart'
  rw [← hk, Nat.add_assoc]
  exact runTo_add hrun (1 + k)

theorem Visits.above {g : FuncInst} (h : Visits callHost (startFunc callHost func args) store m)
    (hg : store.func func = .ok g) (hlen : args.length = g.type.params.length) :
    Above store.config.maxStackEntries [] [] g.type.results.length m := by
  induction h with
  | start h =>
    obtain ⟨type, inst, f, hk, -, hlt, rfl⟩ := func_start h
    obtain ⟨index, hf, -⟩ := callee_code hk
    cases hg.symm.trans hf
    refine ⟨_, _, [], rfl, fits_outermost (by simpa using hlt), rfl, ?_, rfl, rfl⟩
    rw [outermost, List.drop_eq_nil_iff, List.length_reverse]
    exact hlen.le
  | step _ hadv ih =>
    obtain ⟨-, h⟩ | ⟨-, hgo, -⟩ := ih.advance le_rfl hadv
    · exact h
    · exact absurd (hgo rfl).1 (Nat.lt_irrefl _)

theorem rtake_fill {c : Context} {s : Scope} {n : Nat} (hn : n ≤ s.operands.length) :
    (c.fill s).stack.values.rtake n = (s.operands.take n).reverse := by
  have hvalues : (c.fill s).stack.values =
      (Stack.beneath c.bottom c.callers { c.frame with locals := s.locals } c.outer).filterMap
        Entry.value? ++ s.operands.reverse := by
    change (Stack.entriesOf c.bottom (c.activation s :: c.callers)).filterMap Entry.value? = _
    rw [Context.activation, Stack.entriesOf_cons, List.filterMap_append, Entry.operands,
      ← List.map_reverse, List.filterMap_map]
    exact congrArg _ List.filterMap_some
  rw [hvalues, List.rtake_eq_reverse_take_reverse, List.reverse_append, List.reverse_reverse,
    List.take_append_of_le_length hn]

/-- The outermost frame is left with the values that are on top then, whatever they are. -/
theorem Above.leave {limit n : Nat} {m₁ : Machine} {done : Bool} (h : Above limit [] [] n m)
    (hstep : step m = .ok .leave m₁) (hone : m₁.stack.frames.size = 1)
    (hadv : Machine.advance callHost 0 m = .ok done m') :
    done = true ∧ m'.stack.values = m₁.stack.values.rtake n := by
  obtain ⟨c, s, inner, rfl, hs, -, hbottom, hcallers, harity⟩ := h
  obtain ⟨s₁, rfl, hs₁⟩ := step_leave hs hstep
  rw [depth_fill, Context.depth] at hone
  have hc : c.callers = [] := List.length_eq_zero_iff.mp (Nat.succ.inj hone)
  obtain ⟨rfl, -⟩ := List.append_eq_nil_iff.mp (hcallers.symm.trans hc)
  have hleave := @conclude_leave callHost 0 c s₁ hs₁
  rw [advance_apply, hstep] at hadv
  change conclude callHost 0 .leave (c.fill s₁) = _ at hadv
  rw [hadv] at hleave
  cases hleave with
  | outermost hn _ =>
    refine ⟨rfl, ?_⟩
    rw [← harity]
    refine (Stack.values_eq ?_).trans (rtake_fill hn).symm
    simp [Stack.of, Stack.entriesOf, Entry.operands, hbottom]
  | finish _ hc' _ => cases hc.symm.trans hc'
  | resume _ hc' _ => cases hc.symm.trans hc'

theorem conclude_call_ok {done : Bool} (h : conclude callHost 0 (.call func) m = .ok done m') :
    done = false := by
  rw [conclude_call_apply] at h
  split at h
  · cases h
  · unfold proceed at h
    split at h
    · cases h
    · split at h
      · split at h <;> cases h
        rfl
      · cases h
        rfl

/-- A run ends when its outermost frame is left. -/
theorem Above.ends {limit n : Nat} (h : Above limit [] [] n m)
    (hadv : Machine.advance callHost 0 m = .ok true m') :
    ∃ m₁, step m = .ok .leave m₁ ∧ m₁.stack.frames.size = 1 := by
  obtain ⟨c, s, inner, rfl, hs, -⟩ := h
  rw [advance_apply] at hadv
  cases hstep : step (c.fill s) with
  | error t m₁ =>
    rw [hstep] at hadv
    cases hadv
  | ok x m₁ =>
    rw [hstep] at hadv
    cases x with
    | next => cases hadv
    | jump pc => cases hadv
    | call func => cases conclude_call_ok hadv
    | leave =>
      obtain ⟨s₁, rfl, hs₁⟩ := step_leave hs hstep
      have hleave := @conclude_leave callHost 0 c s₁ hs₁
      change conclude callHost 0 .leave (c.fill s₁) = _ at hadv
      rw [hadv] at hleave
      refine ⟨_, rfl, ?_⟩
      rw [depth_fill, Context.depth]
      cases hleave with
      | outermost _ hc => rw [hc, List.length_nil]
      | finish _ _ hlt => exact absurd hlt (Nat.not_lt_zero _)

theorem lift_onStack_ok {α : Type} {op : StackM α} {a : α}
    (h : Stop.lift (onStack op) m = .ok a m') : op m.stack = .ok a m'.stack := by
  simp only [Stop.lift, onStack] at h
  cases hop : op m.stack with
  | error t stack =>
    rw [hop] at h
    cases h
  | ok b stack =>
    rw [hop] at h
    cases h
    rfl

theorem callOut_typed {f : Host.Func} (h : callOut callHost f m = .ok () m') :
    ∃ (S : List Entry) (rs : List Value), rs.map Value.type = f.type.results ∧
      m'.stack.entries.toList = S ++ rs.map Entry.value := by
  obtain ⟨args', m₁, hpop, hrest⟩ := Outcome.bind_ok h
  obtain ⟨rs, m₂, hanswer, hfit⟩ := Outcome.bind_ok hrest
  cases hfault : Value.hostFault? rs f.type.results with
  | some t =>
    rw [hfault] at hfit
    cases hfit
  | none =>
    rw [hfault] at hfit
    unfold Value.hostFault? at hfault
    split at hfault
    · cases hfault
    · rename_i hlen
      exact ⟨m₂.stack.entries.toList, rs, Value.map_type_of_typeFault? hfault (not_not.mp hlen),
        Stack.pushValues_ok (lift_onStack_ok hfit)⟩

theorem popped_eq {n : Nat} (h : Stop.lift (onStack (Stack.popValues n)) m = .ok rs m')
    (hm' : m'.stack.entries.toList = []) : m.stack.entries.toList = rs.map Entry.value := by
  have hpop := Stack.popValues_ok (lift_onStack_ok h)
  rwa [hm', List.nil_append] at hpop

/-- How a call from outside that leaves nothing beneath its parameters comes to its results: a host
function gives them at once, code is run to its end. -/
theorem runFunc_ends {g : FuncInst} (hg : store.func func = .ok g)
    (hlen : args.length = g.type.params.length)
    (h : runFunc callHost fuel func args g.type.results.length (fresh store) = .ok rs m) :
    (∃ f, g = .host f ∧ rs.map Value.type = g.type.results) ∨
    ∃ m₀ m₁, startFunc callHost func args (fresh store) = .ok () m₀ ∧
      runTo callHost 0 fuel m₀ = .ok () m₁ ∧ m₁.stack.values = rs := by
  obtain ⟨hcount, -, hrest⟩ := runFunc_results hg h
  have hempty : m.stack.entries.toList = [] := by
    rw [hrest, hlen]
    simp
  obtain ⟨hroom, m₁, hreturned, hpop⟩ := runFunc_ok h
  have hvalues := popped_eq hpop hempty
  cases hreturned with
  | @answer f results _ hk hn hl hstack hcall =>
    have hf : store.func func = .ok (.host f) := callee_host hk
    cases hg.symm.trans hf
    change call callHost func (opening store args) = _ at hcall
    rw [call_apply, show (opening store args).store.func func = .ok (.host f) from hf] at hcall
    obtain ⟨S, results', htyped, hentries⟩ := callOut_typed hcall
    refine .inl ⟨f, rfl, ?_⟩
    -- There are as many results as were popped, so there is nothing else.
    have hcount' : results'.length = rs.length := by
      have hlength := congrArg List.length htyped
      rw [List.length_map] at hlength
      exact hlength.trans hcount.symm
    rwa [← Stack.values_inj (hentries.symm.trans hvalues) hcount']
  | run _ _ _ hcall hres _ hrun =>
    exact .inr ⟨_, m₁, Policy.startFunc_apply hroom hcall hres, hrun, Stack.values_eq hvalues⟩

end Machine

namespace Action

open Machine

variable {callHost : HostCall} {fuel func : Nat} {args vs : List Value} {s s' : Store}

/-- A call that returns gives as many values as the function has results. They have the types of the
results if and only if the code leaves its frame with values of these types on top of the stack; a
host function, which is not run, always gives such values. -/
theorem call_typed_iff (h : call callHost fuel func args s = .ok vs s') :
    ∃ g, s.func func = .ok g ∧ vs.length = g.type.results.length ∧
      (vs.map Value.type = g.type.results ↔
        ∀ m m₁, Visits callHost (startFunc callHost func args) s.busier m →
          step m = .ok .leave m₁ → m₁.stack.frames.size = 1 →
          (m₁.stack.values.rtake g.type.results.length).map Value.type = g.type.results) := by
  obtain ⟨g, m, hg, hlen, hrun⟩ := call_ok h
  have hg' : s.busier.func func = .ok g := hg
  refine ⟨g, hg, (runFunc_results hg' hrun).1, ?_⟩
  rcases runFunc_ends hg' hlen hrun with ⟨f, rfl, htyped⟩ | ⟨m₀, mₑ, hstart, hend, rfl⟩
  · refine ⟨fun _ m m₁ hv ↦ ?_, fun _ ↦ htyped⟩
    -- There are no states to visit.
    obtain ⟨m₀, _, hstart, -⟩ := hv.runTo_eq
    obtain ⟨_, _, _, hcode, -⟩ := func_start hstart
    obtain ⟨_, hf, -⟩ := callee_code hcode
    cases hg'.symm.trans hf
  · constructor
    · intro htyped m m₁ hv hstep hone
      have hto := hv.runTo_ok hstart hend
      rw [runTo_apply] at hto
      cases hadv : advance callHost 0 m with
      | error e m' =>
        rw [hadv] at hto
        cases hto
      | ok done m' =>
        obtain ⟨rfl, hvalues⟩ := (hv.above hg' hlen).leave hstep hone hadv
        rw [hadv] at hto
        cases hto
        rwa [← hvalues]
    · intro hall
      obtain ⟨m, hv, hadv⟩ := Visits.ends (.start hstart) hend
      obtain ⟨m₁, hstep, hone⟩ := (hv.above hg' hlen).ends hadv
      rw [((hv.above hg' hlen).leave hstep hone hadv).2]
      exact hall m m₁ hv hstep hone

theorem call_typed_iff_adding :
    ∃ s', call noHost 6 0 [] addingStore = .ok [.i32 7] s' ∧
      ∀ m m₁, Visits noHost (startFunc noHost 0 []) addingStore.busier m →
        step m = .ok .leave m₁ → m₁.stack.frames.size = 1 →
        (m₁.stack.values.rtake 1).map Value.type = [.i32] := by
  have hrun := Outcome.eq_ok_final
    (show Outcome.value? (call noHost 6 0 [] addingStore) = some [.i32 7] by decide +kernel)
  obtain ⟨g, hg, -, htyped⟩ := call_typed_iff hrun
  cases hg
  exact ⟨_, hrun, htyped.mp rfl⟩

end Action

namespace Engine

def mistyped : Module where
  types := [⟨[], [.i32]⟩]
  funcTypes := [0]
  exports := [⟨"f", .func, 0⟩]
  functions := [⟨0, [], #[.i64Const 1, .end_]⟩]

def mistypedBytes : List UInt8 :=
  [0x00, 0x61, 0x73, 0x6D, 1, 0, 0, 0,
    1, 5, 1, 0x60, 0, 1, 0x7F,
    3, 2, 1, 0,
    7, 5, 1, 1, 0x66, 0, 0,
    10, 6, 1, 4, 0, 0x42, 1, 0x0B]

def noSupply : Host.Resolver where
  func _ _ _ := none
  table _ _ _ := none
  memory _ _ _ := none
  global _ _ _ := none

theorem call_mistyped :
    Module.decode mistypedBytes = .ok mistyped ∧
    ∃ s s' g, instantiate 8 mistyped noSupply {} = .ok 0 s ∧ s.func 0 = .ok g ∧
      call 8 0 [] s = .ok [.i64 1] s' ∧ [Value.i64 1].map Value.type ≠ g.type.results := by
  refine ⟨by decide +kernel, Outcome.final (instantiate 8 mistyped noSupply {}),
    Outcome.final (call 8 0 [] (Outcome.final (instantiate 8 mistyped noSupply {}))),
    .code ⟨[], [.i32]⟩ 0 0, ?_, ?_, ?_, by decide⟩
  · rfl
  · rfl
  · rfl

end Engine

end Wasm
