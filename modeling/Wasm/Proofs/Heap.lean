import Wasm.Heap
import Wasm.Proofs.Stack.Contents

namespace Wasm

variable {α : Type}

structure Table.Updates (V : Value → Prop) (t t' : Table) : Prop where
  elem : t'.type.elem = t.type.elem
  max : t'.type.limits.max = t.type.limits.max
  size : t.size ≤ t'.size
  values : ∀ v ∈ t'.elems, v ∈ t.elems ∨ V v

structure Memory.Updates (m m' : Memory) : Prop where
  max : m'.type.limits.max = m.type.limits.max
  size : m.size ≤ m'.size

structure Table.Revises (cap : Nat) (V : Value → Prop) (t t' : Table) : Prop
    extends t.Updates V t' where
  bound : t'.size = t.size ∨ t'.size ≤ cap ∧ t'.size ≤ t.type.limits.top

structure Memory.Revises (cap : Nat) (m m' : Memory) : Prop extends m.Updates m' where
  bound : m'.size = m.size ∨ ∃ n, m'.size = m.size + n * pageSize ∧ m.pages + n ≤ cap ∧
    m.pages + n ≤ m.type.limits.top

structure Global.Updates (V : Value → Prop) (g g' : Global) : Prop where
  mutable : g.type.mutable = true
  type : g'.type = g.type
  typed : g'.value.type = g.type.value
  value : V g'.value

namespace Table

variable {cap : Nat} {V : Value → Prop} {Q : α → Prop}

theorem Updates.refl (t : Table) : t.Updates V t := ⟨rfl, rfl, le_rfl, fun _ h ↦ .inl h⟩

theorem Revises.refl (t : Table) : t.Revises cap V t := ⟨.refl t, .inl rfl⟩

/-- As many slots as before. -/
theorem Revises.same {t : Table} {elems : Array Value} (hsize : elems.size = t.size)
    (hvalues : ∀ v ∈ elems, v ∈ t.elems ∨ V v) : t.Revises cap V ⟨t.type, elems⟩ :=
  ⟨⟨rfl, rfl, hsize.ge, hvalues⟩, .inl hsize⟩

def Changes (cap : Nat) (V : Value → Prop) (op : TableM α) (Q : α → Prop) : Prop :=
  ∀ t : Table, (∀ v ∈ t.elems, V v) → match op t with
    | .ok a t' => t.Revises cap V t' ∧ Q a
    | .error e t' => t.Revises cap V t' ∧ e.dangling = false

theorem changes_get (i : Nat) : Changes cap V (get i) V := by
  intro t ht
  unfold get
  cases hv : t.elems[i]? with
  | none => exact ⟨.refl t, rfl⟩
  | some v => exact ⟨.refl t, ht v (Array.mem_of_getElem? hv)⟩

theorem changes_set (i : Nat) {v : Value} (hv : V v) : Changes cap V (set i v) fun _ ↦ True := by
  intro t _
  by_cases hin : t.InBounds i 1
  · simp only [set, hin, if_true]
    refine ⟨.same ?_ fun w hw ↦ ?_, trivial⟩
    · simp [size]
    · obtain hmem | rfl := Array.mem_or_eq_of_mem_setIfInBounds hw
      · exact .inl hmem
      · exact .inr hv
  · simp only [set, hin, if_false]
    exact ⟨.refl t, rfl⟩

theorem changes_grow (n cap : Nat) {v : Value} (hv : V v) (a : Allocator) :
    Changes cap V (grow n v cap a) fun _ ↦ True := by
  intro t _
  by_cases hroom : t.size + n < UInt32.size ∧ t.size + n ≤ t.type.limits.top ∧
      t.size + n ≤ cap ∧ a.resizes (t.size * slotSize) ((t.size + n) * slotSize)
  · simp only [grow, hroom, and_self, if_true]
    refine ⟨⟨⟨rfl, rfl, ?_, fun w hw ↦ ?_⟩, .inr ?_⟩, trivial⟩
    · simp [size]
    · obtain hmem | hmem := Array.mem_append.mp hw
      · exact .inl hmem
      · rw [Array.mem_replicate] at hmem
        exact .inr (hmem.2 ▸ hv)
    · simpa [size] using ⟨hroom.2.2.1, hroom.2.1⟩
  · simp only [grow, hroom, if_false]
    exact ⟨.refl t, trivial⟩

/-- Replacing a range by as many values. -/
theorem Revises.splice {t : Table} {start : Nat} {vs : Array Value} (hin : t.InBounds start vs.size)
    (hvs : ∀ v ∈ vs, v ∈ t.elems ∨ V v) :
    t.Revises cap V ⟨t.type, Table.splice t.elems start vs⟩ := by
  refine .same ?_ fun v hv ↦ ?_
  · simp only [InBounds, Table.size] at hin
    simp only [Table.size, Table.splice, Array.size_append, Array.size_extract]
    omega
  · simp only [Table.splice, Array.mem_append] at hv
    obtain (hmem | hmem) | hmem := hv
    · exact .inl (Stack.mem_of_mem_extract hmem)
    · exact hvs v hmem
    · exact .inl (Stack.mem_of_mem_extract hmem)

/-- A table that is created and prefilled holds nulls, and what it is prefilled with. -/
theorem mem_prefill_create {type : TableType} {vs : Array Value} {v : Value}
    (hv : v ∈ ((create type).prefill vs).elems) : v = .null type.elem ∨ v ∈ vs := by
  have hfits : (create type).InBounds 0 (vs.extract 0 (create type).size).size := by
    simp only [InBounds, Array.size_extract]
    omega
  have hrev : (create type).Revises 0 (· ∈ vs) ((create type).prefill vs) :=
    .splice hfits fun w hw ↦ .inr (Stack.mem_of_mem_extract hw)
  exact (hrev.values v hv).imp_left fun h ↦ (Array.mem_replicate.mp h).2

theorem changes_fill (start len : Nat) {v : Value} (hv : V v) :
    Changes cap V (fill start v len) fun _ ↦ True := by
  intro t _
  simp only [fill, Outcome.bind_apply, check]
  by_cases hin : t.InBounds start len
  · simp only [hin, if_true, Outcome.modify_apply]
    refine ⟨.splice (by simpa using hin) fun w hw ↦ ?_, trivial⟩
    rw [Array.mem_replicate] at hw
    exact .inr (hw.2 ▸ hv)
  · simp only [hin, if_false]
    exact ⟨.refl t, rfl⟩

theorem changes_copy (dst src len : Nat) : Changes cap V (copy dst src len) fun _ ↦ True := by
  intro t _
  simp only [copy, Outcome.bind_apply, check]
  by_cases hsrc : t.InBounds src len
  · by_cases hdst : t.InBounds dst len
    · simp only [hsrc, hdst, if_true, Outcome.modify_apply]
      refine ⟨.splice ?_ fun w hw ↦ .inl (Stack.mem_of_mem_extract hw), trivial⟩
      simp only [InBounds, size, Array.size_extract] at hsrc hdst ⊢
      omega
    · simp only [hsrc, hdst, if_true, if_false]
      exact ⟨.refl t, rfl⟩
  · simp only [hsrc, if_false]
    exact ⟨.refl t, rfl⟩

theorem changes_slice (start len : Nat) :
    Changes cap V (slice start len) fun vs ↦ ∀ v ∈ vs, V v := by
  intro t ht
  simp only [slice, Outcome.bind_apply, check]
  by_cases hin : t.InBounds start len
  · simp only [hin, if_true]
    exact ⟨.refl t, fun v hv ↦ ht v (Stack.mem_of_mem_extract hv)⟩
  · simp only [hin, if_false]
    exact ⟨.refl t, rfl⟩

theorem changes_init (dst src len : Nat) {vs : Array Value} (hvs : ∀ v ∈ vs, V v) :
    Changes cap V (init dst vs src len) fun _ ↦ True := by
  intro t _
  by_cases hlen : vs.size < src + len
  · simp only [init, hlen, if_true]
    exact ⟨.refl t, rfl⟩
  · simp only [init, hlen, if_false, Outcome.bind_apply, check]
    by_cases hin : t.InBounds dst len
    · simp only [hin, if_true]
      refine ⟨.splice ?_ fun w hw ↦ .inr (hvs w (Stack.mem_of_mem_extract hw)), trivial⟩
      simp only [InBounds, Array.size_extract] at hin ⊢
      omega
    · simp only [hin, if_false]
      exact ⟨.refl t, rfl⟩

end Table

namespace Memory

variable {cap : Nat}

theorem size_replicate (n : Nat) (b : UInt8) : ByteArray.size ⟨Array.replicate n b⟩ = n :=
  Array.size_replicate

theorem Revises.refl (m : Memory) : m.Revises cap m := ⟨⟨rfl, le_rfl⟩, .inl rfl⟩

def Changes (cap : Nat) (op : MemoryM α) : Prop :=
  ∀ m : Memory, match op m with
    | .ok _ m' => m.Revises cap m'
    | .error e m' => m.Revises cap m' ∧ e.dangling = false

theorem changes_load (addr len : Nat) : Changes cap (load addr len) := by
  intro m
  simp only [load, Outcome.bind_apply, check]
  by_cases hin : m.InBounds addr len
  · simp only [hin, if_true]
    exact .refl m
  · simp only [hin, if_false]
    exact ⟨.refl m, rfl⟩

theorem changes_grow (n cap : Nat) (a : Allocator) : Changes cap (grow n cap a) := by
  intro m
  by_cases hroom : m.pages + n < UInt32.size ∧ m.pages + n ≤ m.type.limits.top ∧
      m.pages + n ≤ cap ∧ a.resizes m.size ((m.pages + n) * pageSize)
  · simp only [grow, hroom, and_self, if_true]
    have hsize : (m.bytes ++ zeros (n * pageSize)).size = m.size + n * pageSize := by
      rw [ByteArray.size_append, zeros, size_replicate]
      rfl
    exact ⟨⟨rfl, hsize.ge.trans' (Nat.le_add_right ..)⟩, .inr ⟨n, hsize, hroom.2.2.1, hroom.2.1⟩⟩
  · simp only [grow, hroom, if_false]
    exact .refl m

/-- Replacing a range of bytes by as many. -/
theorem Revises.splice {m : Memory} {addr : Nat} {bs : ByteArray} (hin : m.InBounds addr bs.size) :
    m.Revises cap ⟨m.type, Memory.splice m.bytes addr bs⟩ := by
  have hsize : (Memory.splice m.bytes addr bs).size = m.size := by
    simp only [InBounds, Memory.size] at hin
    simp only [Memory.size, Memory.splice, ByteArray.copySlice_eq_append, ByteArray.size_append,
      ByteArray.size_extract, ByteArray.size_data]
    omega
  exact ⟨⟨rfl, hsize.ge⟩, .inl hsize⟩

theorem changes_store (addr : Nat) (bs : List UInt8) : Changes cap (store addr bs) := by
  intro m
  simp only [store, Outcome.bind_apply, check]
  by_cases hin : m.InBounds addr bs.length
  · simp only [hin, if_true]
    exact .splice (by rwa [List.size_toByteArray])
  · simp only [hin, if_false]
    exact ⟨.refl m, rfl⟩

theorem changes_fill (dst : Nat) (b : UInt8) (len : Nat) : Changes cap (fill dst b len) := by
  intro m
  simp only [fill, Outcome.bind_apply, check]
  by_cases hin : m.InBounds dst len
  · simp only [hin, if_true]
    exact .splice (by rwa [size_replicate])
  · simp only [hin, if_false]
    exact ⟨.refl m, rfl⟩

theorem changes_copy (dst src len : Nat) : Changes cap (copy dst src len) := by
  intro m
  simp only [copy, Outcome.bind_apply, check]
  by_cases hsrc : m.InBounds src len
  · by_cases hdst : m.InBounds dst len
    · simp only [hsrc, hdst, if_true]
      refine .splice ?_
      simp only [InBounds, size, ByteArray.size_extract] at hsrc hdst ⊢
      omega
    · simp only [hsrc, hdst, if_true, if_false]
      exact ⟨.refl m, rfl⟩
  · simp only [hsrc, if_false]
    exact ⟨.refl m, rfl⟩

theorem changes_init (dst : Nat) (data : List UInt8) (src len : Nat) :
    Changes cap (init dst data src len) := by
  intro m
  by_cases hlen : data.length < src + len
  · simp only [init, hlen, if_true]
    exact ⟨.refl m, rfl⟩
  · simp only [init, hlen, if_false, Outcome.bind_apply, check]
    by_cases hin : m.InBounds dst len
    · simp only [hin, if_true]
      refine .splice ?_
      simp only [InBounds, List.size_toByteArray, List.length_take, List.length_drop] at hin ⊢
      omega
    · simp only [hin, if_false]
      exact ⟨.refl m, rfl⟩

end Memory

namespace Heap

theorem onTable_apply (h : Heap) (a : Nat) (op : TableM α) : onTable a op h =
    match h.tables[a]? with
    | none => .error (.invalidAddress .table a) h
    | some t =>
      match op t with
      | .ok x t' => .ok x { h with tables := h.tables.setIfInBounds a t' }
      | .error e t' => .error e { h with tables := h.tables.setIfInBounds a t' } := by
  unfold onTable
  by_cases ha : a < h.tables.size
  · simp only [ha, dite_true, onSlot_eq, Array.getElem?_eq_getElem, Array.setIfInBounds]
    cases op h.tables[a] <;> rfl
  · simp only [ha, dite_false, Array.getElem?_eq_none (Nat.not_lt.mp ha)]

theorem onMemory_apply (h : Heap) (a : Nat) (op : MemoryM α) : onMemory a op h =
    match h.memories[a]? with
    | none => .error (.invalidAddress .memory a) h
    | some m =>
      match op m with
      | .ok x m' => .ok x { h with memories := h.memories.setIfInBounds a m' }
      | .error e m' => .error e { h with memories := h.memories.setIfInBounds a m' } := by
  unfold onMemory
  by_cases ha : a < h.memories.size
  · simp only [ha, dite_true, onSlot_eq, Array.getElem?_eq_getElem, Array.setIfInBounds]
    cases op h.memories[a] <;> rfl
  · simp only [ha, dite_false, Array.getElem?_eq_none (Nat.not_lt.mp ha)]

theorem onGlobal_apply (h : Heap) (a : Nat) (op : EStateM Trap Global α) : onGlobal a op h =
    match h.globals[a]? with
    | none => .error (.invalidAddress .global a) h
    | some g =>
      match op g with
      | .ok x g' => .ok x { h with globals := h.globals.setIfInBounds a g' }
      | .error e g' => .error e { h with globals := h.globals.setIfInBounds a g' } := by
  unfold onGlobal
  by_cases ha : a < h.globals.size
  · simp only [ha, dite_true, onSlot_eq, Array.getElem?_eq_getElem, Array.setIfInBounds]
    cases op h.globals[a] <;> rfl
  · simp only [ha, dite_false, Array.getElem?_eq_none (Nat.not_lt.mp ha)]

theorem dropElem_apply (h : Heap) (a : Nat) : dropElem a h =
    match h.elems[a]? with
    | none => .error (.invalidAddress .elem a) h
    | some vs => .ok vs { h with elems := h.elems.setIfInBounds a #[] } := by
  simp only [dropElem, Outcome.bind_apply, elem]
  cases h.elems[a]? <;> rfl

theorem dropData_apply (h : Heap) (a : Nat) : dropData a h =
    match h.datas[a]? with
    | none => .error (.invalidAddress .data a) h
    | some bs => .ok bs { h with datas := h.datas.setIfInBounds a [] } := by
  simp only [dropData, Outcome.bind_apply, data]
  cases h.datas[a]? <;> rfl

end Heap

end Wasm
