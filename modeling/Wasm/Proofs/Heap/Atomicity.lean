import Wasm.Proofs.Respects
import Wasm.Proofs.Heap

namespace Wasm

open Outcome

namespace Outcome

variable {ε σ α β : Type}

def Atomic (op : EStateM ε σ α) : Prop := ∀ s e s', op s = .error e s' → s' = s

theorem Atomic.modify (f : σ → σ) : Atomic (modify f : EStateM ε σ Unit) := nofun

/-- What is checked first is checked in the state that a later failure leaves. -/
theorem Respects.then {op : EStateM ε σ α} {k : α → EStateM ε σ β} (h : Respects Eq op)
    (hk : ∀ a, Atomic (k a)) : Atomic (op >>= k) := by
  intro s e s' hs
  have hop := h s
  rw [bind_apply] at hs
  generalize op s = x at hs hop
  cases x with
  | error e' s₁ =>
    cases hs
    exact hop.symm
  | ok a s₁ =>
    cases hop
    exact hk a _ e s' hs

def atSlot {τ : Type} (xs : Array τ) (a : Nat) (put : Array τ → σ) (missing : ε)
    (op : EStateM ε τ α) : EStateM.Result ε σ α :=
  match xs[a]? with
  | none => .error missing (put xs)
  | some x =>
    match op x with
    | .ok b y => .ok b (put (xs.setIfInBounds a y))
    | .error e y => .error e (put (xs.setIfInBounds a y))

variable {τ : Type} {xs : Array τ} {a : Nat} {put : Array τ → σ} {missing : ε}

theorem Respects.atSlot {op : EStateM ε τ α} (h : Respects Eq op) {s : σ} (hs : put xs = s) :
    s = final (atSlot xs a put missing op) := by
  subst hs
  unfold Outcome.atSlot
  cases hx : xs[a]? with
  | none => rfl
  | some x =>
    have hop : x = final (op x) := h x
    simp only
    cases hy : op x with
    | ok b y =>
      rw [hy] at hop
      cases hop
      exact congrArg put (setIfInBounds_of_getElem? hx).symm
    | error e y =>
      rw [hy] at hop
      cases hop
      exact congrArg put (setIfInBounds_of_getElem? hx).symm

theorem Atomic.atSlot {op : EStateM ε τ α} (h : Atomic op) {e : ε} {s s' : σ} (hput : put xs = s)
    (hs : atSlot xs a put missing op = .error e s') : s' = s := by
  subst hput
  unfold Outcome.atSlot at hs
  cases hx : xs[a]? with
  | none =>
    rw [hx] at hs
    cases hs
    rfl
  | some x =>
    rw [hx] at hs
    simp only at hs
    cases hy : op x with
    | ok b y =>
      rw [hy] at hs
      cases hs
    | error e' y =>
      rw [hy] at hs
      cases hs
      cases h x e y hy
      exact congrArg put (setIfInBounds_of_getElem? hx)

end Outcome

namespace Table

theorem reads_get (i : Nat) : Respects Eq (get i) := by
  intro t
  unfold get
  cases t.elems[i]? <;> rfl

theorem reads_check (start len : Nat) : Respects Eq (check start len) := by
  intro t
  unfold check
  split <;> rfl

theorem reads_slice (start len : Nat) : Respects Eq (slice start len) :=
  (reads_check start len).bind fun _ ↦ Respects.get.bind fun _ ↦ .pure _

theorem atomic_set (i : Nat) (v : Value) : Atomic (set i v) := by
  intro t e t' h
  unfold set at h
  split at h
  · cases h
  · cases h
    rfl

theorem atomic_grow (n : Nat) (v : Value) (cap : Nat) (a : Allocator) :
    Atomic (grow n v cap a) := by
  intro t e t' h
  simp only [grow] at h
  split at h <;> cases h

theorem atomic_fill (start : Nat) (v : Value) (len : Nat) : Atomic (fill start v len) :=
  (reads_check start len).then fun _ ↦ .modify _

theorem atomic_copy (dst src len : Nat) : Atomic (copy dst src len) :=
  (reads_check src len).then fun _ ↦ (reads_check dst len).then fun _ ↦ .modify _

theorem atomic_init (dst : Nat) (vs : Array Value) (src len : Nat) :
    Atomic (init dst vs src len) := by
  have hrest : Atomic (do check dst len; modify fun t ↦
      ⟨t.type, splice t.elems dst (vs.extract src (src + len))⟩) :=
    (reads_check dst len).then fun _ ↦ .modify _
  unfold init
  split
  · exact (Respects.throw _).then fun _ ↦ hrest
  · exact hrest

end Table

namespace Memory

theorem reads_check (addr len : Nat) : Respects Eq (check addr len) := by
  intro m
  unfold check
  split <;> rfl

theorem reads_load (addr len : Nat) : Respects Eq (load addr len) :=
  (reads_check addr len).bind fun _ ↦ Respects.get.bind fun _ ↦ .pure _

theorem atomic_store (addr : Nat) (bs : List UInt8) : Atomic (store addr bs) :=
  (reads_check addr bs.length).then fun _ ↦ .modify _

theorem atomic_grow (n cap : Nat) (a : Allocator) : Atomic (grow n cap a) := by
  intro m e m' h
  simp only [grow] at h
  split at h <;> cases h

theorem atomic_fill (dst : Nat) (b : UInt8) (len : Nat) : Atomic (fill dst b len) :=
  (reads_check dst len).then fun _ ↦ .modify _

theorem atomic_copy (dst src len : Nat) : Atomic (copy dst src len) :=
  (reads_check src len).then fun _ ↦ (reads_check dst len).then fun _ ↦ .modify _

theorem atomic_init (dst : Nat) (data : List UInt8) (src len : Nat) :
    Atomic (init dst data src len) := by
  have hrest : Atomic (do check dst len; modify fun m ↦
      ⟨m.type, splice m.bytes dst ((data.drop src).take len).toByteArray⟩) :=
    (reads_check dst len).then fun _ ↦ .modify _
  unfold init
  split
  · exact (Respects.throw _).then fun _ ↦ hrest
  · exact hrest

end Memory

theorem Global.atomic_set (v : Value) : Atomic (Global.set v) := by
  intro g e g' h
  unfold set at h
  split at h
  · cases h
  · cases h
    rfl

namespace Heap

variable {α : Type}

theorem reads_table (a : Nat) : Respects Eq (table a) := by
  intro h
  unfold table
  cases h.tables[a]? <;> rfl

theorem reads_memory (a : Nat) : Respects Eq (memory a) := by
  intro h
  unfold memory
  cases h.memories[a]? <;> rfl

theorem reads_global (a : Nat) : Respects Eq (global a) := by
  intro h
  unfold global
  cases h.globals[a]? <;> rfl

theorem reads_elem (a : Nat) : Respects Eq (elem a) := by
  intro h
  unfold elem
  cases h.elems[a]? <;> rfl

theorem reads_data (a : Nat) : Respects Eq (data a) := by
  intro h
  unfold data
  cases h.datas[a]? <;> rfl

theorem onTable_eq (h : Heap) (a : Nat) (op : TableM α) : onTable a op h =
    atSlot h.tables a (fun tables ↦ { h with tables }) (.invalidAddress .table a) op := by
  rw [onTable_apply, atSlot]
  cases h.tables[a]? with
  | none => rfl
  | some x =>
    simp only
    cases op x <;> rfl

theorem onMemory_eq (h : Heap) (a : Nat) (op : MemoryM α) : onMemory a op h =
    atSlot h.memories a (fun memories ↦ { h with memories }) (.invalidAddress .memory a) op := by
  rw [onMemory_apply, atSlot]
  cases h.memories[a]? with
  | none => rfl
  | some x =>
    simp only
    cases op x <;> rfl

theorem onGlobal_eq (h : Heap) (a : Nat) (op : EStateM Trap Global α) : onGlobal a op h =
    atSlot h.globals a (fun globals ↦ { h with globals }) (.invalidAddress .global a) op := by
  rw [onGlobal_apply, atSlot]
  cases h.globals[a]? with
  | none => rfl
  | some x =>
    simp only
    cases op x <;> rfl

theorem reads_onTable {op : TableM α} (h : Respects Eq op) (a : Nat) :
    Respects Eq (onTable a op) := by
  intro heap
  rw [onTable_eq]
  exact h.atSlot rfl

theorem reads_onMemory {op : MemoryM α} (h : Respects Eq op) (a : Nat) :
    Respects Eq (onMemory a op) := by
  intro heap
  rw [onMemory_eq]
  exact h.atSlot rfl

theorem atomic_onTable {op : TableM α} (h : Atomic op) (a : Nat) : Atomic (onTable a op) := by
  intro heap e heap' hs
  rw [onTable_eq] at hs
  exact h.atSlot rfl hs

theorem atomic_onMemory {op : MemoryM α} (h : Atomic op) (a : Nat) : Atomic (onMemory a op) := by
  intro heap e heap' hs
  rw [onMemory_eq] at hs
  exact h.atSlot rfl hs

theorem atomic_onGlobal {op : EStateM Trap Global α} (h : Atomic op) (a : Nat) :
    Atomic (onGlobal a op) := by
  intro heap e heap' hs
  rw [onGlobal_eq] at hs
  exact h.atSlot rfl hs

theorem atomic_dropElem (a : Nat) : Atomic (dropElem a) :=
  (reads_elem a).then fun _ ↦ nofun

theorem atomic_dropData (a : Nat) : Atomic (dropData a) :=
  (reads_data a).then fun _ ↦ nofun

/-- The slots are read from one table before any is written to the other. -/
theorem atomic_copyTable (dstTable srcTable dst src len : Nat) :
    Atomic (copyTable dstTable srcTable dst src len) := by
  unfold copyTable
  split
  · exact atomic_onTable (Table.atomic_copy dst src len) dstTable
  · exact (reads_onTable (Table.reads_slice src len) srcTable).then fun vs ↦
      atomic_onTable (Table.atomic_init dst vs 0 len) dstTable

end Heap

end Wasm
