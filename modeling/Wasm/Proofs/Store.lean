import Mathlib
import Wasm.Machine.Basic

namespace Wasm

theorem Table.eq_of_create? {type : TableType} {a : Allocator} {t : Table}
    (h : Table.create? type a = some t) : t = .create type :=
  (Option.some.inj (Option.ite_none_right_eq_some.mp h).2).symm

namespace Store

/-- What instructions never change about a store. -/
def frozen (s : Store) : Store := { s with heap := {} }

def bodyOf (s : Store) (addr : Nat) : Option Code :=
  match s.funcs[addr]? with
  | some (.code _ inst index) => do
    let owner ← s.instances[inst]?
    let f ← owner.mod.functions[index]?
    return f.body
  | _ => none

def codeOf (s : Store) (const : Code) : Option Nat → Option Code
  | none => some const
  | some addr => s.bodyOf addr

/-- A store to which functions and instances have been added. The modules of the instances that were
there are the same. -/
structure Grows (s s' : Store) : Prop where
  funcs : ∀ (i : Nat) (f : FuncInst), s.funcs[i]? = some f → s'.funcs[i]? = some f
  instances : ∀ (i : Nat) (inst : Instance), s.instances[i]? = some inst →
    ∃ inst', s'.instances[i]? = some inst' ∧ inst'.mod = inst.mod

theorem Grows.refl (s : Store) : Grows s s :=
  ⟨fun _ _ h ↦ h, fun _ inst h ↦ ⟨inst, h, rfl⟩⟩

theorem Grows.trans {s s' s'' : Store} (h : Grows s s') (h' : Grows s' s'') : Grows s s'' := by
  refine ⟨fun i f hf ↦ h'.funcs i f (h.funcs i f hf), fun i inst hi ↦ ?_⟩
  obtain ⟨inst', hi', hmod⟩ := h.instances i inst hi
  obtain ⟨inst'', hi'', hmod'⟩ := h'.instances i inst' hi'
  exact ⟨inst'', hi'', hmod'.trans hmod⟩

theorem Grows.congr {s s' : Store} (hf : s'.funcs = s.funcs) (hi : s'.instances = s.instances) :
    Grows s s' := by
  constructor
  · intro i f h
    rw [hf]
    exact h
  · intro i inst h
    rw [hi]
    exact ⟨inst, h, rfl⟩

theorem Grows.bodyOf {s s' : Store} (h : Grows s s') {addr : Nat} {body : Code}
    (hb : s.bodyOf addr = some body) : s'.bodyOf addr = some body := by
  unfold Store.bodyOf at hb ⊢
  cases hf : s.funcs[addr]? with
  | none =>
    rw [hf] at hb
    cases hb
  | some g =>
    rw [hf] at hb
    rw [h.funcs addr g hf]
    cases g with
    | host f => cases hb
    | code type inst index =>
      simp only [Option.bind_eq_bind, Option.bind_eq_some_iff] at hb ⊢
      obtain ⟨owner, ho, f, hf, hbody⟩ := hb
      obtain ⟨owner', ho', hmod⟩ := h.instances inst owner ho
      exact ⟨owner', ho', f, by rw [hmod]; exact hf, hbody⟩

theorem Grows.codeOf {s s' : Store} (h : Grows s s') {const body : Code} {func : Option Nat}
    (hb : s.codeOf const func = some body) : s'.codeOf const func = some body := by
  cases func with
  | none => exact hb
  | some addr => exact h.bodyOf hb

/-- A table that a host adds is one of null references, up to what its first slots begin with. -/
theorem alloc_table (s : Store) (type : TableType) (slots : Array Value) :
    (s.alloc (.table type slots)).2 = s ∨
      (s.alloc (.table type slots)).2 = (s.allocTable ((Table.create type).prefill slots)).2 := by
  unfold alloc
  dsimp only
  cases ht : Table.create? type s.allocator with
  | none => exact .inl rfl
  | some t => exact .inr (Table.eq_of_create? ht ▸ rfl)

theorem alloc_memory (s : Store) (type : MemoryType) (bytes : List UInt8) :
    (s.alloc (.memory type bytes)).2 = s ∨ ∃ m, Memory.create? type s.allocator = some m ∧
      (s.alloc (.memory type bytes)).2 = (s.allocMemory (m.prefill bytes)).2 := by
  unfold alloc
  dsimp only
  cases hm : Memory.create? type s.allocator with
  | none => exact .inl rfl
  | some m => exact .inr ⟨m, rfl, rfl⟩

end Store

theorem Machine.onHeap_apply {α : Type} (op : HeapM α) (m : Machine) : onHeap op m =
    match op m.store.heap with
    | .ok a heap => .ok a { m with store.heap := heap }
    | .error t heap => .error t { m with store.heap := heap } := by
  change onStore (Store.onHeap op) m = _
  simp only [onStore, Store.onHeap]
  cases op m.store.heap <;> rfl

end Wasm
