import Wasm.Proofs.Policy.Runs

namespace Wasm

/-- What code of the instance can change, by address. Of its memories this is the first. -/
def Instance.Reaches (inst : Instance) : Entity → Nat → Prop
  | .table, a => a ∈ inst.tables
  | .memory, a => inst.memories[0]? = some a
  | .global, a => a ∈ inst.globals
  | .elem, a => a ∈ inst.elems
  | .data, a => a ∈ inst.datas
  | _, _ => False

/-- What code of the instances of the kind `J` can change. -/
def Store.Reaches (s : Store) (J : Nat → Prop) (e : Entity) (a : Nat) : Prop :=
  ∃ i inst, J i ∧ s.instances[i]? = some inst ∧ inst.Reaches e a

/-- The store has become `s'` by nothing but changes within the reach of the instances of the kind
`J`. -/
structure Store.Confined (J : Nat → Prop) (s s' : Store) : Prop where
  config : s'.config = s.config
  funcs : s'.funcs = s.funcs
  instances : s'.instances = s.instances
  tables : ∀ a, ¬ s.Reaches J .table a → s'.heap.tables[a]? = s.heap.tables[a]?
  memories : ∀ a, ¬ s.Reaches J .memory a → s'.heap.memories[a]? = s.heap.memories[a]?
  globals : ∀ a, ¬ s.Reaches J .global a → s'.heap.globals[a]? = s.heap.globals[a]?
  elems : ∀ a, ¬ s.Reaches J .elem a → s'.heap.elems[a]? = s.heap.elems[a]?
  datas : ∀ a, ¬ s.Reaches J .data a → s'.heap.datas[a]? = s.heap.datas[a]?

theorem Store.Confined.refl (J : Nat → Prop) (s : Store) : s.Confined J s :=
  ⟨rfl, rfl, rfl, fun _ _ ↦ rfl, fun _ _ ↦ rfl, fun _ _ ↦ rfl, fun _ _ ↦ rfl, fun _ _ ↦ rfl⟩

/-- A frame of the instance is pushed during the run that a call from outside leads to. -/
def Store.Enters (callHost : HostCall) (s : Store) (func : Nat) (args : List Value) (i : Nat) :
    Prop :=
  ∃ m f, Machine.Visits callHost (Machine.startFunc callHost func args) s.busier m ∧
    Entry.frame f ∈ m.stack.entries ∧ f.inst = i

/-- A call from outside leads to a run that calls no host function. -/
structure Store.Quiet (callHost : HostCall) (s : Store) (func : Nat) (args : List Value) :
    Prop where
  first : s.Accepts func args → ∀ f args', ¬ (Machine.opening s.busier args).CallsOut func f args'
  later : ∀ m, Machine.Visits callHost (Machine.startFunc callHost func args) s.busier m →
    ∀ f args' s', ¬ m.Asks f args' s'

namespace Policy

/-- Frames of the instances of the kind `K`, and no change out of the reach of the instances of the
kind `J`. -/
def confine (J K : Nat → Prop) (s : Store) : Policy where
  store := s.Confined J
  grants _ e a := match e with
    | .instance_ => K a
    | .func | .body => True
    | e => s.Reaches J e a
  trap _ := True

variable {J K : Nat → Prop} {s₀ s : Store}

theorem confine_leads {s' : Store} (h : s₀.Confined J s') : (confine J K s₀).Leads s s' :=
  ⟨h, fun _ _ ha ↦ ha⟩

theorem confine_value (v : Value) : (confine J K s₀).value s v := fun _ _ ↦ trivial

theorem confine_reports : (confine J K s₀).Reports := ⟨fun _ ↦ trivial, fun _ _ _ ↦ trivial⟩

theorem confine_enters : (confine J (fun _ ↦ True) s₀).Enters where
  toReports := confine_reports
  code _ _ _ := trivial
  body _ _ _ _ _ := trivial
  active _ hs := confine_leads
    ⟨hs.config, hs.funcs, hs.instances, hs.tables, hs.memories, hs.globals, hs.elems, hs.datas⟩

theorem getElem?_setIfInBounds_of_reach {α : Type} {xs : Array α} {P : Nat → Prop} {a b : Nat}
    {x : α} (ha : P a) (hb : ¬ P b) : (xs.setIfInBounds a x)[b]? = xs[b]? := by
  have hne : a ≠ b := by
    rintro rfl
    exact hb ha
  exact Array.getElem?_setIfInBounds_ne hne

/-- Instructions stay within the reach of the instance of the current frame. -/
theorem confine_admits : (confine J J s₀).Admits where
  toReports := confine_reports
  owner := by
    intro s i inst hs hi hinst
    rw [hs.instances] at hinst
    exact ⟨fun _ _ ↦ trivial, fun a ha ↦ ⟨i, inst, hi, hinst, ha⟩,
      fun a ha ↦ ⟨i, inst, hi, hinst, ha⟩, fun a ha ↦ ⟨i, inst, hi, hinst, ha⟩,
      fun a ha ↦ ⟨i, inst, hi, hinst, ha⟩, fun a ha ↦ ⟨i, inst, hi, hinst, ha⟩,
      fun _ _ _ ↦ trivial⟩
  reference _ := trivial
  tableValue _ _ v _ := ⟨confine_value v, trivial⟩
  globalValue _ _ := confine_value _
  elemValue _ _ v _ := ⟨confine_value v, trivial⟩
  table hs ha _ _ := confine_leads { hs with
    tables := fun b hb ↦ (getElem?_setIfInBounds_of_reach ha hb).trans (hs.tables b hb) }
  memory hs ha _ _ := confine_leads { hs with
    memories := fun b hb ↦ (getElem?_setIfInBounds_of_reach ha hb).trans (hs.memories b hb) }
  global hs ha _ _ := confine_leads { hs with
    globals := fun b hb ↦ (getElem?_setIfInBounds_of_reach ha hb).trans (hs.globals b hb) }
  elem hs ha := confine_leads { hs with
    elems := fun b hb ↦ (getElem?_setIfInBounds_of_reach ha hb).trans (hs.elems b hb) }
  data hs ha := confine_leads { hs with
    datas := fun b hb ↦ (getElem?_setIfInBounds_of_reach ha hb).trans (hs.datas b hb) }

/-- A machine whose frames are known to be of the kind `K`. -/
theorem confine_safe {m : Machine} {K' : Nat → Prop} (hm : (confine J K' s₀).Safe m)
    (hframes : ∀ f, Entry.frame f ∈ m.stack.entries → K f.inst) : (confine J K s₀).Safe m := by
  refine ⟨hm.store, fun e he ↦ ?_⟩
  cases e with
  | value v => exact confine_value v
  | label l => trivial
  | frame f => exact ⟨hframes f he, fun v _ ↦ confine_value v⟩

/-- The instruction is confined by the frames there were before, the call that it asks for changes
nothing. -/
theorem confine_advance {callHost : HostCall} {base : Nat} {m : Machine}
    (hm : (confine J J s₀).Safe m) (hquiet : ∀ f args s, ¬ m.Asks f args s) :
    (confine J (fun _ ↦ True) s₀).Proceeds (fun _ _ ↦ True) m.store
      (Machine.advance callHost base m) := by
  have hstep := confine_admits.step hm.store m rfl hm
  rw [Machine.advance_apply]
  generalize hx : Machine.step m = r at hstep
  cases r with
  | error t m' => exact ⟨confine_leads hstep.1.store, trivial⟩
  | ok x m' =>
    obtain ⟨hlead, hm', _⟩ := hstep
    have hsafe : (confine J (fun _ ↦ True) s₀).Safe m' := confine_safe hm' fun _ _ ↦ trivial
    have hflow : (confine J (fun _ ↦ True) s₀).flow m'.store x := by cases x <;> trivial
    refine Proceeds.after (confine_enters.conclude hsafe hflow ?_) (confine_leads hlead.store)
    rintro func stack f args rfl hsave hout _
    exact absurd ⟨func, _, .mk hx hsave, hout, rfl⟩ (hquiet f args m'.store)

variable {callHost : HostCall} {func : Nat} {args : List Value}

/-- Where there are no host functions, a step calls none. -/
theorem not_asks {m : Machine} (hm : (confine (fun _ ↦ True) (fun _ ↦ True) s).Safe m)
    (hcode : ∀ (a : Nat) (f : Host.Func), s.funcs[a]? ≠ some (.host f)) (f : Host.Func)
    (args : List Value) (s' : Store) : ¬ m.Asks f args s' := by
  rintro ⟨func, m', hcall, hout, -⟩
  cases hcall with
  | @mk m₁ stack hstep hsave =>
    have hok := confine_admits.step hm.store m rfl hm
    rw [hstep] at hok
    have hfunc := hout.func
    rw [Store.func, hok.1.store.funcs] at hfunc
    split at hfunc
    · rename_i hg
      cases hfunc
      exact hcode func f hg
    · cases hfunc

theorem quiet_of_code (hcode : ∀ (a : Nat) (f : Host.Func), s.funcs[a]? ≠ some (.host f)) :
    s.Quiet callHost func args := by
  have hsafe (m : Machine)
      (hm : Machine.Visits callHost (Machine.startFunc callHost func args) s.busier m) :
      (confine (fun _ ↦ True) (fun _ ↦ True) s.busier).Safe m := by
    induction hm with
    | start h =>
      obtain ⟨type, inst, f, -, -, -, rfl⟩ := Machine.func_start h
      refine ⟨.refl _ _, fun e _ ↦ ?_⟩
      cases e with
      | value v => exact confine_value v
      | label l => trivial
      | frame f => exact ⟨trivial, fun v _ ↦ confine_value v⟩
    | @step m m' _ hadv ih =>
      have hstep : (confine (fun _ ↦ True) (fun _ ↦ True) s.busier).Proceeds (fun _ _ ↦ True)
          m.store (Machine.advance callHost 0 m) := confine_advance ih (not_asks ih hcode)
      rw [hadv] at hstep
      exact hstep.2.1
  refine ⟨fun _ f args' hout ↦ ?_, fun m hm ↦ not_asks (hsafe m hm) hcode⟩
  have hfunc := hout.func
  simp only [Machine.opening, Store.busier, Store.func] at hfunc
  split at hfunc
  · rename_i hg
    cases hfunc
    exact hcode func f hg
  · cases hfunc

end Policy

namespace Action

open Policy

variable {callHost : HostCall} {s : Store} {func : Nat} {args : List Value}

/-- A call from outside that calls no host function, whether it returns, traps or runs out of steps:
it adds no function and no instance, and changes nothing out of the reach of the instances of which
it pushes a frame. -/
theorem call_confined (h : s.Quiet callHost func args) (fuel : Nat) :
    s.Confined (s.Enters callHost func args)
      (Outcome.final (call callHost fuel func args s)) := by
  have hset : (confine (s.Enters callHost func args) (fun _ ↦ True) s).Settles (fun _ ↦ True)
      (fun vs s' ↦ ∀ v ∈ vs, (confine (s.Enters callHost func args) (fun _ ↦ True) s).value s' v) s
      (call callHost fuel func args s) := by
    refine confine_enters.actionCall (.refl _ s) (fun v _ ↦ confine_value v) (fun _ ↦ trivial)
      (fun _ ↦ trivial) fun hacc ↦ ⟨fun f args' hout _ _ ↦ absurd hout (h.first hacc f args'), ?_⟩
    intro m hm hsafe
    -- Whatever frames a visited state has, their instances are entered by definition.
    exact confine_advance (confine_safe hsafe fun f hf ↦ ⟨m, f, hm, hf, rfl⟩) (h.later m hm)
  exact hset.final

/-- Three instances with a global each. The function of the first calls that of the second, which
sets its own global. -/
def crossing : Store where
  funcs := #[.code ⟨[], []⟩ 0 0, .code ⟨[], []⟩ 1 0]
  instances := #[
    { funcs := #[0, 1], globals := #[0]
      mod := { types := [⟨[], []⟩], funcTypes := [0], functions := [⟨0, [], #[.call 1, .end_]⟩] } },
    { funcs := #[1], globals := #[1]
      mod := { types := [⟨[], []⟩], funcTypes := [0]
               functions := [⟨0, [], #[.i32Const 7, .globalSet 0, .end_]⟩] } },
    { globals := #[2] }]
  heap.globals := #[⟨⟨.i32, true⟩, .i32 1⟩, ⟨⟨.i32, true⟩, .i32 2⟩, ⟨⟨.i32, true⟩, .i32 3⟩]

theorem call_confined_crossing :
    crossing.Quiet (fun _ _ ↦ throw .outOfFuel) 0 [] ∧
    crossing.Confined (crossing.Enters (fun _ _ ↦ throw .outOfFuel) 0 [])
      (Outcome.final (call (fun _ _ ↦ throw .outOfFuel) 8 0 [] crossing)) ∧
    (Outcome.final (call (fun _ _ ↦ throw .outOfFuel) 8 0 [] crossing)).heap.globals =
      #[⟨⟨.i32, true⟩, .i32 1⟩, ⟨⟨.i32, true⟩, .i32 7⟩, ⟨⟨.i32, true⟩, .i32 3⟩] := by
  have hquiet : crossing.Quiet (fun _ _ ↦ throw .outOfFuel) 0 [] := by
    refine quiet_of_code fun a f ↦ ?_
    match a with
    | 0 => nofun
    | 1 => nofun
    | a + 2 => nofun
  exact ⟨hquiet, call_confined hquiet 8, by decide +kernel⟩

end Action

end Wasm
