import Wasm.Proofs.Addresses

namespace Wasm

namespace Store

structure Extends (s s' : Store) : Prop extends s.Grows s' where
  config : s'.config = s.config

theorem Extends.refl (s : Store) : s.Extends s := ⟨.refl s, rfl⟩

theorem Extends.trans {s s' s'' : Store} (h : s.Extends s') (h' : s'.Extends s'') :
    s.Extends s'' :=
  ⟨h.toGrows.trans h'.toGrows, h'.config.trans h.config⟩

theorem Extends.congr {s s' : Store} (hf : s'.funcs = s.funcs) (hi : s'.instances = s.instances)
    (hc : s'.config = s.config) : s.Extends s' :=
  ⟨.congr hf hi, hc⟩

theorem extends_allocFunc (s : Store) (g : FuncInst) : s.Extends (s.allocFunc g).2 := by
  refine ⟨⟨fun i f hf ↦ ?_, fun i inst h ↦ ⟨inst, h, rfl⟩⟩, rfl⟩
  exact getElem?_push_of_some hf g

theorem extends_allocInstance (s : Store) (inst : Instance) :
    s.Extends (s.allocInstance inst).2 := by
  refine ⟨⟨fun i f hf ↦ hf, fun i owner howner ↦ ⟨owner, ?_, rfl⟩⟩, rfl⟩
  exact getElem?_push_of_some howner inst

/-- An instance may change in all but its module. -/
theorem extends_modify {s : Store} {i : Nat} {inst : Instance} {f : Instance → Instance}
    (hinst : s.instances[i]? = some inst) (hf : (f inst).mod = inst.mod) :
    s.Extends { s with instances := s.instances.modify i f } := by
  refine ⟨⟨fun j g hg ↦ hg, fun j owner howner ↦ ?_⟩, rfl⟩
  simp only [Array.getElem?_modify]
  split
  · rename_i hij
    subst hij
    cases hinst.symm.trans howner
    exact ⟨f inst, by rw [hinst]; rfl, hf⟩
  · exact ⟨owner, howner, rfl⟩

end Store

namespace Policy

def extend (s : Store) : Policy where
  store s' := s.Extends s'
  grants _ _ _ := True
  trap _ := True

variable {s₀ s s' : Store}

theorem extend_leads (hs : s₀.Extends s) (h : s.Extends s') : (extend s₀).Leads s s' :=
  ⟨hs.trans h, fun _ _ _ ↦ trivial⟩

/-- What leaves functions and instances alone. -/
theorem extend_same (hs : s₀.Extends s) (hf : s'.funcs = s.funcs)
    (hi : s'.instances = s.instances) (hc : s'.config = s.config) : (extend s₀).Leads s s' :=
  extend_leads hs (.congr hf hi hc)

theorem extend_links : (extend s₀).Links (fun _ ↦ True) (fun _ ↦ True) (fun _ ↦ True) where
  trap _ := trivial
  missing _ _ _ := trivial
  owner _ _ _ := by constructor <;> intros <;> trivial
  reference _ := trivial
  tableValue _ _ _ _ := ⟨fun _ _ ↦ trivial, trivial⟩
  globalValue _ _ _ _ := trivial
  elemValue _ _ _ _ := ⟨fun _ _ ↦ trivial, trivial⟩
  table hs _ _ _ := extend_same hs rfl rfl rfl
  memory hs _ _ _ := extend_same hs rfl rfl rfl
  global hs _ _ _ := extend_same hs rfl rfl rfl
  elem hs _ := extend_same hs rfl rfl rfl
  data hs _ := extend_same hs rfl rfl rfl
  code _ _ _ := trivial
  body _ _ _ _ _ := trivial
  active _ hs := extend_same hs rfl rfl rfl
  present _ _ := trivial
  spans _ _ := by constructor <;> intros <;> trivial
  own _ := trivial
  allocInstance hs _ := extend_leads hs (Store.extends_allocInstance _ _)
  modify hs _ hinst hmod _ := extend_leads hs (Store.extends_modify hinst hmod)
  allocHost hs _ := extend_leads hs (Store.extends_allocFunc _ _)
  allocCode hs _ _ _ := extend_leads hs (Store.extends_allocFunc _ _)
  allocTable hs _ _ _ := extend_same hs rfl rfl rfl
  allocMemory hs _ _ _ _ := extend_same hs rfl rfl rfl
  allocGlobal hs _ _ := extend_same hs rfl rfl rfl
  allocElem hs _ := extend_same hs rfl rfl rfl
  allocData _ hs := extend_same hs rfl rfl rfl

theorem extend_alloc (hs : s₀.Extends s) (e : Host.Fresh Host.Func) :
    (extend s₀).Leads s (s.alloc e).2 := by
  cases e with
  | func f => exact extend_leads hs (Store.extends_allocFunc _ _)
  | code type inst index => exact extend_leads hs (Store.extends_allocFunc _ _)
  | instance_ inst => exact extend_leads hs (Store.extends_allocInstance _ _)
  | table type slots =>
    obtain h | h := s.alloc_table type slots <;> rw [h] <;> exact extend_same hs rfl rfl rfl
  | memory type bytes =>
    obtain h | ⟨m, -, h⟩ := s.alloc_memory type bytes <;> rw [h] <;>
      exact extend_same hs rfl rfl rfl
  | global type init => exact extend_same hs rfl rfl rfl
  | elem refs => exact extend_same hs rfl rfl rfl
  | data bytes => exact extend_same hs rfl rfl rfl

/-- All that a host can ask for leaves what was there. -/
theorem extend_conducts (fuel : Nat) :
    (extend s₀).Conducts (fun _ ↦ True) (fun _ ↦ True) fuel fun _ _ _ ↦ True where
  items _ _ := trivial
  next _ _ := trivial
  host _ _ _ := trivial
  honors {n act s} _ hs := by
    cases act with
    | finish result =>
      cases result with
      | ok vs => exact fun _ _ _ _ ↦ trivial
      | error t => trivial
    | log vs next => exact extend_same hs rfl rfl rfl
    | readLog k => trivial
    | get k => trivial
    | put heap next => exact extend_same hs rfl rfl rfl
    | alloc e k => exact extend_alloc hs e
    | call func args k => exact ⟨fun _ _ _ _ ↦ trivial, fun _ ↦ trivial⟩
    | invoke inst name args k => exact ⟨fun _ _ _ _ ↦ trivial, fun _ ↦ trivial⟩
    | instantiate m r k =>
      exact ⟨trivial, fun _ _ _ _ _ ↦ trivial, fun _ _ _ _ _ _ _ _ _ ↦ trivial⟩

end Policy

/-- Calls of host functions extend the store, to any depth of nesting. -/
theorem Engine.extends_hostCall (fuel n : Nat) (f : Host.Func) (args : List Value) (s : Store) :
    s.Extends (Outcome.final (hostCall fuel n f args s)) := by
  cases n with
  | zero => exact .refl s
  | succ n =>
    have hperf := Policy.extend_links.performs (Policy.extend_conducts fuel)
      (Policy.extend_links.attends (Policy.extend_conducts fuel) n) (f.run args) s trivial (.refl s)
    exact hperf.final

end Wasm
