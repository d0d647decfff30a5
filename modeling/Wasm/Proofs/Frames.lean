import Wasm.Proofs.Machine.Laws
import Wasm.Proofs.Growth

namespace Wasm

open Outcome Stack

def Store.Defines (s : Store) (func : Nat) (type : FuncType) (inst : Nat) (d : FuncDef) : Prop :=
  ∃ index owner, s.funcs[func]? = some (.code type inst index) ∧
    s.instances[inst]? = some owner ∧ owner.mod.functions[index]? = some d

theorem Store.Defines.grows {s s' : Store} {func inst : Nat} {type : FuncType} {d : FuncDef}
    (h : s.Defines func type inst d) (hs : s.Grows s') : s'.Defines func type inst d := by
  obtain ⟨index, owner, hfunc, howner, hbody⟩ := h
  obtain ⟨owner', howner', hmod⟩ := hs.instances inst owner howner
  exact ⟨index, owner', hs.funcs func _ hfunc, howner', hmod ▸ hbody⟩

theorem Store.Defines.unique {s : Store} {func inst inst' : Nat} {type type' : FuncType}
    {d d' : FuncDef} (h : s.Defines func type inst d) (h' : s.Defines func type' inst' d') :
    type = type' ∧ inst = inst' ∧ d = d' := by
  obtain ⟨index, owner, hfunc, howner, hbody⟩ := h
  obtain ⟨index', owner', hfunc', howner', hbody'⟩ := h'
  cases hfunc.symm.trans hfunc'
  cases howner.symm.trans howner'
  cases hbody.symm.trans hbody'
  exact ⟨rfl, rfl, rfl⟩

def FuncDef.localTypes (d : FuncDef) (type : FuncType) : List ValType := type.params ++ d.locals

namespace Frame

structure Runs (f : Frame) (type : FuncType) (inst : Nat) (d : FuncDef) : Prop where
  inst : f.inst = inst
  body : f.body = d.body
  arity : f.arity = type.results.length
  types : f.locals.toList.map Value.type = d.localTypes type

/-- A frame of a function has what the store says of the function. -/
def Faithful (s : Store) (f : Frame) : Prop :=
  ∀ func, f.func = some func → ∃ type inst d, s.Defines func type inst d ∧ f.Runs type inst d

variable {f f' : Frame} {type : FuncType} {inst : Nat} {d : FuncDef} {s s' : Store}

theorem Runs.evolves (h : f.Runs type inst d) (hf : f.Evolves f') : f'.Runs type inst d where
  inst := hf.inst.trans h.inst
  body := hf.body.trans h.body
  arity := hf.arity.trans h.arity
  types := by
    have htypes := congrArg Array.toList hf.types
    rw [Array.toList_map, Array.toList_map] at htypes
    exact htypes.trans h.types

theorem Faithful.evolves (h : f.Faithful s) (hf : f.Evolves f') (hs : s.Grows s') :
    f'.Faithful s' := by
  intro func hfunc
  obtain ⟨type, inst, d, hdef, hruns⟩ := h func (hf.func ▸ hfunc)
  exact ⟨type, inst, d, hdef.grows hs, hruns.evolves hf⟩

/-- The types of the parameters are checked as they are taken from the stack, and the other locals
start as zeros of their types. -/
theorem runs_called (func : Nat) {args : List Value} (hargs : args.map Value.type = type.params) :
    (Machine.called func inst type d args).Runs type inst d where
  inst := rfl
  body := rfl
  arity := rfl
  types := by
    have hzero : Value.type ∘ Value.zero = id := funext Value.type_zero
    simp [Machine.called, FuncDef.localTypes, hargs, hzero]

/-- A local that the function declares is there, and is of the type that it was declared with. -/
theorem Runs.declared (h : f.Runs type inst d) {i : Nat} {t : ValType}
    (ht : (d.localTypes type)[i]? = some t) : ∃ v, f.locals[i]? = some v ∧ v.type = t := by
  rw [← h.types, List.getElem?_map, Option.map_eq_some_iff] at ht
  obtain ⟨v, hv, hvt⟩ := ht
  exact ⟨v, by simpa using hv, hvt⟩

end Frame

namespace Machine

theorem lasting_faithful : Lasting fun s f ↦ f.Faithful s where
  evolves := Frame.Faithful.evolves
  called {_ func inst index type owner d _} hfunc howner hbody hargs := by
    intro _ hsome
    cases hsome
    exact ⟨type, inst, d, ⟨index, owner, hfunc, howner, hbody⟩, Frame.runs_called func hargs⟩

theorem Occurs.faithful {callHost : HostCall}
    (hhost : ∀ f args s, Store.Grows s (final (callHost f args s))) {s : Store} {m : Machine}
    (h : Occurs callHost s m) :
    s.Grows m.store ∧ ∀ f, .frame f ∈ m.stack.entries → f.Faithful m.store := by
  obtain hm | ⟨inst, code, _, hm⟩ := (law_retains lasting_faithful hhost).occurs h
  · exact ⟨hm.grows, hm.frames (.fresh _ s)⟩
  -- The frame of an initializer is of no function.
  · exact ⟨hm.grows, hm.frames (.starting nofun)⟩

theorem exec_localGet (length : Nat) (i : Idx) {m : Machine} {f : Frame} {v : Value}
    (hf : currentFrame m.stack = .ok f m.stack) (hv : f.locals[i.toNat]? = some v) :
    exec length (.localGet i) m =
      if m.stack.entries.size < m.stack.limit then
        .ok .next { m with stack.entries := m.stack.entries.push (.value v) }
      else .error .stackOverflow m := by
  have hget : localGet i.toNat m = onStack (pushValue v) m := by
    change (onStack currentFrame >>= _) m = _
    rw [bind_apply]
    simp only [onStack, hf, hv]
    rfl
  change (localGet i.toNat >>= fun _ ↦ pure Flow.next) m = _
  rw [bind_apply, hget]
  simp only [onStack, pushValue, push]
  by_cases hroom : m.stack.entries.size < m.stack.limit
  · simp only [hroom, if_true]
    rfl
  · simp only [hroom, if_false]

/-- A frame is pushed with the address that was called. -/
theorem enter_ok {func inst index : Nat} {type : FuncType} {m m' : Machine}
    (h : enter func type inst index m = .ok () m') :
    ∃ f, m'.stack.entries.back? = some (.frame f) ∧ f.func = some func := by
  rw [enter_apply] at h
  split at h
  · cases h
  · split at h
    · cases h
    · split at h
      · cases h
      · split at h
        · cases h
        · rw [pushFrame_apply] at h
          split at h
          · rename_i hpush
            split at hpush
            · cases hpush
              cases h
              exact ⟨_, Array.back?_push, rfl⟩
            · cases hpush
          · cases h

/-- A call that pushes no frame under the address is one of a host function. -/
theorem call_pushes {callHost : HostCall} {func : Nat} {m m' : Machine}
    (h : call callHost func m = .ok () m') :
    m'.stack.frames = m.stack.frames ∨
      ∃ f, m'.stack.entries.back? = some (.frame f) ∧ f.func = some func := by
  rw [call_apply] at h
  split at h
  · cases h
  · split at h
    · rename_i henter
      cases h
      exact .inr (enter_ok henter)
    · cases h
  · rename_i f _
    have hsame : Respects (fun m m' : Machine ↦ m'.stack.frames = m.stack.frames)
        (callOut callHost f) := respects_callOut (fun hm ↦ hm.stack.frames) fun _ _ ↦ rfl
    exact .inl (hsame.ok h)

/-- In every state of every run, on whatever store and with whatever host functions, each frame of a
function is as the function is defined, and the definition stays what it was. So `local.get` of a
local that the function declares pushes a value of the declared type. A call that pushes a frame
pushes one of the function that is called. -/
theorem frames_faithful (fuel n : Nat) {s : Store} {m : Machine}
    (h : Occurs (Engine.hostCall fuel n) s m) :
    s.Grows m.store ∧
    (∀ f func, .frame f ∈ m.stack.entries → f.func = some func →
      ∃ type inst d, m.store.Defines func type inst d ∧ f.inst = inst ∧ f.body = d.body ∧
        f.arity = type.results.length ∧
        f.locals.toList.map Value.type = type.params ++ d.locals) ∧
    (∀ f func type inst d, currentFrame m.stack = .ok f m.stack → f.func = some func →
      m.store.Defines func type inst d →
      ∀ (i : Idx) (t : ValType), (type.params ++ d.locals)[i.toNat]? = some t →
        ∃ v, v.type = t ∧ ∀ length, exec length (.localGet i) m =
          if m.stack.entries.size < m.stack.limit then
            .ok .next { m with stack.entries := m.stack.entries.push (.value v) }
          else .error .stackOverflow m) ∧
    ∀ func m', call (Engine.hostCall fuel n) func m = .ok () m' →
      m'.stack.frames = m.stack.frames ∨
        ∃ f, m'.stack.entries.back? = some (.frame f) ∧ f.func = some func := by
  obtain ⟨hgrows, hfaith⟩ :=
    h.faithful fun f args s ↦ (Engine.extends_hostCall fuel n f args s).toGrows
  refine ⟨hgrows, fun f func hf hfunc ↦ ?_, ?_, fun _ _ ↦ call_pushes⟩
  · obtain ⟨type, inst, d, hdef, hruns⟩ := hfaith f hf func hfunc
    exact ⟨type, inst, d, hdef, hruns.inst, hruns.body, hruns.arity, hruns.types⟩
  · intro f func type inst d hcur hfunc hdef i t ht
    obtain ⟨type', inst', d', hdef', hruns⟩ := hfaith f (currentFrame_ok hcur).2 func hfunc
    obtain ⟨rfl, rfl, rfl⟩ := hdef.unique hdef'
    obtain ⟨v, hv, hvt⟩ := hruns.declared ht
    exact ⟨v, hvt, fun length ↦ exec_localGet length i hcur hv⟩

/-- A function that passes a number to another, which has a parameter and a local of different
types and sets the local. -/
def assigning : Module where
  types := [⟨[], [.i64]⟩, ⟨[.i32], [.i64]⟩]
  funcTypes := [0, 1]
  functions := [⟨0, [], #[.i32Const 7, .call 1, .end_]⟩,
    ⟨1, [.i64], #[.i64Const 5, .localSet 1, .localGet 1, .end_]⟩]

def assigningStore : Store where
  funcs := #[.code ⟨[], [.i64]⟩ 0 0, .code ⟨[.i32], [.i64]⟩ 0 1]
  instances := #[{ funcs := #[0, 1], mod := assigning }]

def assigned : Machine :=
  final (runFunc (Engine.hostCall 0 0) 4 0 [] 1 (fresh assigningStore))

theorem frames_faithful_assigning :
    Occurs (Engine.hostCall 0 0) assigningStore assigned ∧ assigned.stack.frames.size = 2 ∧
    (∃ f, .frame f ∈ assigned.stack.entries ∧ f.func = some 1 ∧ f.arity = 1 ∧
      f.locals.toList.map Value.type = [.i32, .i64]) ∧
    ∃ v, v.type = .i64 ∧ ∀ length, exec length (.localGet 1) assigned =
      .ok .next { assigned with stack.entries := assigned.stack.entries.push (.value v) } := by
  have hoccurs : Occurs (Engine.hostCall 0 0) assigningStore assigned := .func 4 0 [] 1
  obtain ⟨hgrows, hframes, hget, _⟩ := frames_faithful 0 0 hoccurs
  have hdef : assigned.store.Defines 1 ⟨[.i32], [.i64]⟩ 0 _ :=
    Store.Defines.grows ⟨1, _, rfl, rfl, rfl⟩ hgrows
  have hroom : assigned.stack.entries.size < assigned.stack.limit := by decide +kernel
  have hinner : (currentFrame.run' assigned.stack).bind Frame.func = some 1 := by decide +kernel
  cases hcur : currentFrame assigned.stack with
  | error t stack =>
    rw [EStateM.run', EStateM.run, hcur] at hinner
    cases hinner
  | ok f stack =>
    rw [EStateM.run', EStateM.run, hcur] at hinner
    obtain ⟨hsame, hmem⟩ := currentFrame_ok hcur
    rw [hsame] at hcur
    obtain ⟨type, inst, d, hdef', _, _, harity, htypes⟩ := hframes f 1 hmem hinner
    obtain ⟨rfl, rfl, rfl⟩ := hdef.unique hdef'
    obtain ⟨v, hv, hexec⟩ := hget f 1 _ _ _ hcur hinner hdef 1 .i64 rfl
    simp only [hroom, if_true] at hexec
    exact ⟨hoccurs, by decide +kernel, ⟨f, hmem, hinner, harity, htypes⟩, v, hv, hexec⟩

end Machine

end Wasm
