import Wasm.Proofs.Machine.Isolation

namespace Wasm

namespace Action

variable {callHost : HostCall} {fuel : Nat} {args rs : List Value} {s s' : Store}

theorem call_ok {func : Nat} (h : call callHost fuel func args s = .ok rs s') :
    ∃ g m, s.func func = .ok g ∧ args.length = g.type.params.length ∧
      Machine.runFunc callHost fuel func args g.type.results.length
        (Machine.fresh { s with active := s.active + 1 }) = .ok rs m := by
  rw [call_apply] at h
  split at h
  · cases h
  · rename_i g hg
    split at h
    · rename_i hl
      split at h
      · cases h
      · split at h
        · cases h
        · simp only [nested, start_apply] at h
          generalize hr : Machine.runFunc callHost fuel func args g.type.results.length _ = r at h
          cases r with
          | error e m => cases h
          | ok vs m =>
            cases h
            exact ⟨g, m, hg, hl, hr⟩
    · cases h

theorem length_call {func : Nat} (h : call callHost fuel func args s = .ok rs s') :
    ∃ g, s.func func = .ok g ∧ rs.length = g.type.results.length := by
  obtain ⟨g, m, hg, _, hr⟩ := call_ok h
  have hg' : Store.func { s with active := s.active + 1 } func = .ok g := hg
  exact ⟨g, hg, (Machine.runFunc_results hg' hr).1⟩

theorem invoke_ok {inst : Nat} {name : String}
    (h : invoke callHost fuel inst name args s = .ok rs s') :
    ∃ owner addr, s.instance_ inst = .ok owner ∧ owner.export? name = some ⟨.func, addr⟩ ∧
      call callHost fuel addr args s = .ok rs s' := by
  simp only [invoke, Runner.invoke, Outcome.bind_apply, Outcome.get_apply] at h
  cases ho : s.instance_ inst with
  | error t =>
    rw [ho] at h
    cases h
  | ok owner =>
    rw [ho] at h
    simp only [Stop.check, Outcome.pure_apply] at h
    cases hx : owner.export? name with
    | none =>
      rw [hx] at h
      cases h
    | some x =>
      rw [hx] at h
      obtain ⟨kind, addr⟩ := x
      cases kind with
      | func => exact ⟨owner, addr, rfl, hx, h⟩
      | _ => cases h

end Action

namespace Machine

/-- Whatever a function does, its call leaves what lies beneath its parameters as it is, and
replaces the parameters by as many values as it has results. -/
theorem calls_isolated (callHost : HostCall) :
    (∀ store const m m₁ func, Reachable callHost store const m → step m = .ok (.call func) m₁ →
      ∃ saved, Stack.onFrame (modify fun f ↦ { f with pc := m.pc + 1 }) m₁.stack = .ok () saved ∧
        ∀ done m₂, advance callHost 0 m = .ok done m₂ → done = false ∧
          ∃ g, m₁.store.func func = .ok g ∧ Isolated callHost saved (m.pc + 1) g m₂) ∧
    (∀ store func args m,
      (do Stack.pushValues args; call callHost func; resume : Run Unit) (fresh store) = .ok () m →
      ∃ type inst index, store.func func = .ok (.code type inst index) ∧
        type.params.length ≤ args.length ∧
        ∀ m', Inside callHost 0 m m' →
          (args.take (args.length - type.params.length)).map Entry.value <+:
            m'.stack.entries.toList ∧
          ∀ done m'', advance callHost 0 m' = .ok done m'' → m''.stack.frames.size ≤ 0 →
            done = true ∧ Completed ((args.take (args.length - type.params.length)).map Entry.value)
              #[] type.results.length m'') ∧
    (∀ fuel func args rs store g m, store.func func = .ok g →
      runFunc callHost fuel func args g.type.results.length (fresh store) = .ok rs m →
      rs.length = g.type.results.length ∧ g.type.params.length ≤ args.length ∧
        m.stack.entries.toList =
          (args.take (args.length - g.type.params.length)).map Entry.value) ∧
    (∀ fuel func args rs s s', Action.call callHost fuel func args s = .ok rs s' →
      ∃ g, s.func func = .ok g ∧ rs.length = g.type.results.length) ∧
    (∀ fuel inst name args rs s s', Action.invoke callHost fuel inst name args s = .ok rs s' →
      ∃ owner addr g, s.instance_ inst = .ok owner ∧ owner.export? name = some ⟨.func, addr⟩ ∧
        s.func addr = .ok g ∧ rs.length = g.type.results.length) := by
  refine ⟨fun _ _ _ _ _ hm hc ↦ call_isolated hm hc, fun _ _ _ _ h ↦ first_call_isolated h,
    fun _ _ _ _ _ _ _ hg h ↦ runFunc_results hg h, fun _ _ _ _ _ _ h ↦ Action.length_call h, ?_⟩
  intro fuel inst name args rs s s' h
  obtain ⟨owner, addr, ho, hx, hcall⟩ := Action.invoke_ok h
  obtain ⟨g, hg, hlen⟩ := Action.length_call hcall
  exact ⟨owner, addr, g, ho, hx, hg, hlen⟩

def adding : Module where
  types := [⟨[], [.i32]⟩, ⟨[.i32], [.i32]⟩]
  funcTypes := [0, 1]
  functions := [⟨0, [], #[.i32Const 5, .i32Const 7, .call 1, .end_]⟩,
    ⟨1, [], #[.localGet 0, .end_]⟩]

def addingStore : Store where
  funcs := #[.code ⟨[], [.i32]⟩ 0 0, .code ⟨[.i32], [.i32]⟩ 0 1]
  instances := #[{ funcs := #[0, 1], mod := adding }]

def noHost : HostCall := fun _ _ ↦ throw .outOfFuel

theorem calls_isolated_adding :
    (∃ m m₁ m₂ saved g, Reachable noHost addingStore #[] m ∧ step m = .ok (.call 1) m₁ ∧
      advance noHost 0 m = .ok false m₂ ∧ Isolated noHost saved 3 g m₂) ∧
    ∃ s' g, Action.call noHost 6 0 [] addingStore = .ok [.i32 7] s' ∧
      addingStore.func 0 = .ok g ∧ [Value.i32 7].length = g.type.results.length := by
  obtain ⟨hcall, _, _, hlength, _⟩ := calls_isolated noHost
  constructor
  · have h₀ : Reachable noHost addingStore #[] _ := @Reachable.func _ _ _ 0 [] _ rfl
    have h₁ : Reachable noHost addingStore #[] _ := h₀.step rfl
    have h₂ : Reachable noHost addingStore #[] _ := h₁.step rfl
    obtain ⟨saved, _, hadvance⟩ := hcall _ _ _ _ 1 h₂ rfl
    obtain ⟨_, g, _, hisolated⟩ := hadvance _ _ rfl
    exact ⟨_, _, _, saved, g, h₂, rfl, rfl, hisolated⟩
  · have hrun : (match Action.call noHost 6 0 [] addingStore with
        | .ok rs _ => rs
        | .error _ _ => []) = [.i32 7] := by decide +kernel
    cases hr : Action.call noHost 6 0 [] addingStore with
    | error e s' =>
      rw [hr] at hrun
      cases hrun
    | ok rs s' =>
      rw [hr] at hrun
      obtain rfl : rs = [.i32 7] := hrun
      obtain ⟨g, hg, hlen⟩ := hlength _ _ _ _ _ _ hr
      exact ⟨s', g, rfl, hg, hlen⟩

end Machine

end Wasm
