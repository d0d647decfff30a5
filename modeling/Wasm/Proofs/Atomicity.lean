import Wasm.Proofs.Machine.Laws

namespace Wasm

open Outcome Stack

namespace Stack

variable {α β : Type}

def Pops (op : StackM α) : Prop :=
  ∀ s a s', op s = .ok a s' → s'.entries.size + 1 = s.entries.size ∧ s'.limit = s.limit

theorem pops_peekDrop {k : Value → StackM α}
    (hk : ∀ v s a s', k v s = .ok a s' → s' = { s with entries := s.entries.pop }) :
    Pops (peekValue >>= k) := by
  intro s a s' h
  rw [bind_apply] at h
  unfold peekValue at h
  cases hback : s.entries.back? with
  | none =>
    rw [hback] at h
    cases h
  | some e =>
    have hpos : 0 < s.entries.size := by
      obtain ⟨hlt, _⟩ := Array.getElem?_eq_some_iff.mp hback
      omega
    rw [hback] at h
    cases e with
    | value v =>
      rw [hk v s a s' h]
      refine ⟨?_, rfl⟩
      simp only [Array.size_pop]
      omega
    | label l => cases h
    | frame f => cases h

theorem pops_popValue : Pops popValue := by
  refine pops_peekDrop fun v s a s' h ↦ ?_
  cases h
  rfl

theorem pops_popAs (t : ValType) (view : Value → Option α) : Pops (popAs t view) := by
  refine pops_peekDrop fun v s a s' h ↦ ?_
  cases hview : view v with
  | none =>
    rw [hview] at h
    cases h
  | some b =>
    rw [hview] at h
    cases h
    rfl

theorem Pops.map {op : StackM β} (h : Pops op) (f : β → α) : Pops (f <$> op) := by
  intro s a s' hs
  rw [map_apply] at hs
  cases hop : op s with
  | error t s₁ =>
    rw [hop] at hs
    cases hs
  | ok b s₁ =>
    rw [hop] at hs
    cases hs
    exact h s b s' hop

theorem pops_popNat : Pops popNat := (pops_popAs _ _).map _

theorem pops_storeOperand (op : StoreOp) : Pops op.popOperand := by
  cases op with
  | full t => cases t <;> exact (pops_popAs _ _).map _
  | narrow n =>
    refine Pops.map ?_ _
    cases n.width <;> exact pops_popAs _ _

end Stack

namespace Machine

variable {α β : Type} {m m' : Machine} {t : Trap}

/-- Machines that have the same store. -/
def SameStore (m m' : Machine) : Prop := m'.store = m.store

instance : IsPreorder Machine SameStore where
  refl _ := rfl
  trans _ _ _ h h' := Eq.trans h' h

theorem sameStore_onStack (op : StackM α) : Respects SameStore (onStack op) := by
  intro m
  simp only [onStack]
  cases op m.stack <;> rfl

/-- A program that writes nothing to the heap leaves the store as it is. -/
theorem Program.sameStore {H : (γ : Type) → HeapM γ → Prop} {op : Exec α}
    (hH : ∀ γ op, H γ op → Respects Eq op) (h : Program H op) : Respects SameStore op := by
  induction h with
  | pure a => exact .pure a
  | throw t => exact .throw t
  | bind _ _ ih ihk => exact ih.bind ihk
  | get _ _ ihk => exact Respects.get.bind ihk
  | stack _ => exact sameStore_onStack _
  | @heap _ op hop =>
    intro m
    have hsame := hH _ op hop m.store.heap
    rw [onHeap_apply]
    generalize op m.store.heap = x at hsame
    cases x <;> cases hsame <;> rfl

theorem sameStore_blockEnd : Respects SameStore blockEnd := by
  refine (sameStore_onStack currentFrame).bind fun f ↦ Respects.get.bind fun m₀ ↦ ?_
  intro m
  simp only [onEnds]
  cases BlockEnds.find f.func f.body m₀.pc m.ends <;> rfl

theorem sameStore_enterBlock (t : BlockType) (isLoop : Bool) :
    Respects SameStore (enterBlock t isLoop) :=
  ((Program.blockArity (H := fun _ op ↦ Respects Eq op) t).sameStore fun _ _ h ↦ h).bind fun _ ↦
    sameStore_blockEnd.bind fun _ ↦ Respects.get.bind fun _ ↦ sameStore_onStack _

theorem sameStore_enterIf (t : BlockType) : Respects SameStore (enterIf t) := by
  refine (sameStore_onStack popI32).bind fun x ↦ ?_
  have henter := (sameStore_enterBlock t false)
  split
  · exact henter.bind fun _ ↦ .pure _
  · refine sameStore_blockEnd.bind fun e ↦ ?_
    cases e.elsePc with
    | some pc => exact henter.bind fun _ ↦ .pure _
    | none => exact .pure _

/-- Of the instructions none but those that write to the heap change the store. -/
theorem sameStore_exec {i : Instr} (hi : i.writes = false) (length : Nat) :
    Respects SameStore (exec length i) := by
  cases hopens : i.opens with
  | false => exact (Program.exec hopens length).sameStore fun _ _ h ↦ h hi
  | true =>
    cases i with
    | block t => exact (sameStore_enterBlock t false).bind fun _ ↦ .pure _
    | loop t => exact (sameStore_enterBlock t true).bind fun _ ↦ .pure _
    | if_ t => exact sameStore_enterIf t
    | _ => cases hopens

/-- On a stack with room for `n` more entries, a failure leaves the store as it was. -/
def Spares (n : Nat) (op : Exec α) : Prop :=
  ∀ m : Machine, m.stack.entries.size + n ≤ m.stack.limit →
    ∀ t m', op m = .error t m' → m'.store = m.store

namespace Spares

variable {n : Nat}

/-- A part of the machine is looked at. -/
theorem read {op : Exec β} {k : β → Exec α} (h : Respects Eq op) (hk : ∀ b, Spares n (k b)) :
    Spares n (op >>= k) := by
  intro m hroom t m' hm
  have hop := h m
  rw [bind_apply] at hm
  generalize op m = x at hop hm
  cases x with
  | error t' m₁ =>
    cases hop
    cases hm
    rfl
  | ok b m₁ =>
    cases hop
    exact hk b _ hroom t m' hm

/-- An operand is taken off the stack, which makes room for one more entry. -/
theorem pop {op : StackM β} {k : β → Exec α} (h : Pops op)
    (hk : ∀ b, Spares (n + 1) (k b)) : Spares n (onStack op >>= k) := by
  intro m hroom t m' hm
  rw [bind_apply] at hm
  simp only [onStack] at hm
  cases hop : op m.stack with
  | error t' s =>
    rw [hop] at hm
    cases hm
    rfl
  | ok b s =>
    rw [hop] at hm
    obtain ⟨hsize, hlimit⟩ := h _ _ _ hop
    exact hk b { m with stack := s } (by simp only; omega) t m' hm

theorem write {op : HeapM α} (h : Atomic op) : Spares n (onHeap op) := by
  intro m _ t m' hm
  rw [onHeap_apply] at hm
  cases hop : op m.store.heap with
  | ok a heap =>
    rw [hop] at hm
    cases hm
  | error t' heap =>
    rw [hop] at hm
    cases hm
    rw [h _ _ _ hop]

/-- The old size has room in the place of the operand. -/
theorem grow {op : HeapM (Option Nat)} (h : Atomic op) :
    Spares (n + 1) (onHeap op >>= pushGrown) := by
  intro m hroom t m' hm
  rw [bind_apply, onHeap_apply] at hm
  cases hop : op m.store.heap with
  | error t' heap =>
    rw [hop] at hm
    cases hm
    rw [h _ _ _ hop]
  | ok old heap =>
    rw [hop] at hm
    have hlt : m.stack.entries.size < m.stack.limit := by omega
    have hpush : pushGrown old { m with store.heap := heap } = .error t m' := hm
    simp [pushGrown, liftM, monadLift, MonadLift.monadLift, onStack, pushValue, Stack.push, hlt]
      at hpush

theorem andPure {op : Exec β} (h : Spares n op) (a : α) : Spares n (op >>= fun _ ↦ pure a) := by
  intro m hroom t m' hm
  rw [bind_apply] at hm
  cases hop : op m with
  | ok b m₁ =>
    rw [hop] at hm
    cases hm
  | error t' m₁ =>
    rw [hop] at hm
    cases hm
    exact h m hroom _ _ hop

end Spares

section Instructions

theorem reads_check (r : Except Trap α) : Respects Eq (check r) := by
  cases r with
  | ok a => exact .pure a
  | error t => exact .throw t

theorem reads_onHeap {op : HeapM α} (h : Respects Eq op) : Respects Eq (onHeap op) := by
  intro m
  have hop := h m.store.heap
  rw [onHeap_apply]
  generalize op m.store.heap = x at hop
  cases x <;> cases hop <;> rfl

theorem reads_instance : Respects Eq instance_ := by
  have hframe : Respects Eq (onStack currentFrame) := by
    intro m
    have hop := reads_currentFrame m.stack
    simp only [onStack]
    generalize currentFrame m.stack = x at hop
    cases x <;> cases hop <;> rfl
  exact hframe.bind fun _ ↦ Respects.get.bind fun _ ↦ reads_check _

theorem reads_memoryAddr : Respects Eq memoryAddr := reads_instance.bind fun _ ↦ reads_check _

theorem reads_tableAddr (i : Idx) : Respects Eq (tableAddr i) :=
  reads_instance.bind fun _ ↦ reads_check _

variable {n : Nat}

theorem Spares.popNat {k : Nat → Exec α} (hk : ∀ x, Spares (n + 1) (k x)) :
    Spares n (onStack Stack.popNat >>= k) := .pop pops_popNat hk

theorem Spares.popRef {k : Value → Exec α} (hk : ∀ v, Spares (n + 1) (k v)) :
    Spares n (onStack Stack.popRef >>= k) := .pop (pops_popAs _ _) hk

theorem Spares.effectiveAddr {arg : MemArg} {k : Nat → Exec α} (hk : ∀ a, Spares (n + 1) (k a)) :
    Spares n (Machine.effectiveAddr arg >>= k) := by
  unfold Machine.effectiveAddr
  rw [bind_assoc]
  exact .popNat fun x ↦ hk _

/-- An operation on the memory of the current frame. -/
theorem Spares.onFirstMemory {op : MemoryM α} (h : Atomic op) :
    Spares n (do Heap.onMemory (← Machine.memoryAddr) op) :=
  .read reads_memoryAddr fun a ↦ .write (Heap.atomic_onMemory h a)

/-- An operation on a table of the current frame. -/
theorem Spares.onNthTable {op : TableM α} (h : Atomic op) (t : Idx) :
    Spares n (do Heap.onTable (← Machine.tableAddr t) op) :=
  .read (reads_tableAddr t) fun a ↦ .write (Heap.atomic_onTable h a)

theorem spares_globalSet (i : Nat) : Spares n (globalSet i) := by
  refine .read reads_instance fun inst ↦ .read (reads_check _) fun a ↦ .pop pops_popValue fun v ↦
    .read (reads_onHeap (Heap.reads_global a)) fun g ↦ ?_
  have hset : Spares (n + 1) (onHeap (Heap.onGlobal a (Global.set v))) :=
    .write (Heap.atomic_onGlobal (Global.atomic_set v) a)
  cases g.type.mutable with
  | true => exact hset
  | false => exact .read (.throw _) fun _ ↦ hset

theorem spares_tableInit (e t : Idx) : Spares n (tableInit e t) :=
  .popNat fun len ↦ .popNat fun src ↦ .popNat fun dst ↦ .read reads_instance fun _ ↦
    .read (reads_check _) fun a ↦ .read (reads_check _) fun b ↦
      .read (reads_onHeap (Heap.reads_elem b)) fun vs ↦
        .write (Heap.atomic_onTable (Table.atomic_init dst vs src len) a)

theorem spares_memoryInit (d : Idx) : Spares n (memoryInit d) :=
  .popNat fun len ↦ .popNat fun src ↦ .popNat fun dst ↦ .read reads_instance fun _ ↦
    .read (reads_check _) fun a ↦ .read (reads_check _) fun b ↦
      .read (reads_onHeap (Heap.reads_data b)) fun bs ↦
        .write (Heap.atomic_onMemory (Memory.atomic_init dst bs src len) a)

/-- The instructions that write to the heap. -/
theorem spares_simple {i : Instr} (hi : i.writes = true) : Spares 0 (simple i) := by
  cases i with
  | globalSet i => exact spares_globalSet _
  | tableSet t => exact .popRef fun v ↦ .popNat fun i ↦ .onNthTable (Table.atomic_set i v) t
  | tableGrow t =>
    -- What is pushed once the table has grown takes the place of an operand.
    exact .popNat fun len ↦ .popRef fun v ↦ .read (reads_tableAddr t) fun a ↦ .read .get fun _ ↦
      .grow (Heap.atomic_onTable (Table.atomic_grow len v _ _) a)
  | tableFill t =>
    exact .popNat fun len ↦ .popRef fun v ↦ .popNat fun i ↦
      .onNthTable (Table.atomic_fill i v len) t
  | tableCopy d s =>
    exact .popNat fun len ↦ .popNat fun src ↦ .popNat fun dst ↦ .read (reads_tableAddr d) fun _ ↦
      .read (reads_tableAddr s) fun _ ↦ .write (Heap.atomic_copyTable _ _ dst src len)
  | tableInit e t => exact spares_tableInit e t
  | elemDrop e =>
    exact .read reads_instance fun _ ↦ .read (reads_check _) fun a ↦
      (Spares.write (Heap.atomic_dropElem a)).andPure _
  | store op arg =>
    exact .pop (pops_storeOperand op) fun v ↦ .effectiveAddr fun addr ↦
      .onFirstMemory (Memory.atomic_store addr _)
  | memoryGrow =>
    exact .popNat fun len ↦ .read reads_memoryAddr fun a ↦ .read .get fun _ ↦
      .grow (Heap.atomic_onMemory (Memory.atomic_grow len _ _) a)
  | memoryInit d => exact spares_memoryInit d
  | dataDrop d =>
    exact .read reads_instance fun _ ↦ .read (reads_check _) fun a ↦
      (Spares.write (Heap.atomic_dropData a)).andPure _
  | memoryCopy =>
    exact .popNat fun len ↦ .popNat fun src ↦ .popNat fun dst ↦
      .onFirstMemory (Memory.atomic_copy dst src len)
  | memoryFill =>
    exact .popNat fun len ↦ .popNat fun b ↦ .popNat fun dst ↦
      .onFirstMemory (Memory.atomic_fill dst (UInt8.ofNat b) len)
  | _ => cases hi

theorem exec_of_writes {i : Instr} (hi : i.writes = true) (length : Nat) :
    exec length i = (do simple i; return .next) := by
  cases i with
  | globalSet _ | tableSet _ | tableGrow _ | tableFill _ | tableCopy _ _ | tableInit _ _
  | elemDrop _ | store _ _ | memoryGrow | memoryInit _ | dataDrop _ | memoryCopy
  | memoryFill => rfl
  | _ => cases hi

/-- An instruction that traps, on a stack that keeps to its limit. -/
theorem exec_trap {m m' : Machine} {t : Trap} (hm : m.stack.Fits) {length : Nat} {i : Instr}
    (h : exec length i m = .error t m') : m'.store = m.store := by
  cases hi : i.writes with
  | false =>
    have hsame := sameStore_exec hi length m
    rwa [h] at hsame
  | true =>
    rw [exec_of_writes hi] at h
    exact (spares_simple hi).andPure Flow.next m hm t m' h

end Instructions

/-- A trap leaves the whole store as it was before the instruction, whatever the instruction is, in
every state of a run and in every other state whose stack keeps to its limit. -/
theorem trap_keeps_store {callHost : HostCall} {s : Store} {m m' : Machine} {t : Trap}
    (hm : Occurs callHost s m ∨ m.stack.entries.size ≤ m.stack.limit) :
    (∀ length i, exec length i m = .error t m' → m'.store = m.store) ∧
    (step m = .error t m' → m'.store = m.store) := by
  have hfits : m.stack.Fits := hm.elim Occurs.fits id
  have hexec (length : Nat) (i : Instr) (h : exec length i m = .error t m') :
      m'.store = m.store := exec_trap hfits h
  refine ⟨hexec, fun h ↦ ?_⟩
  rw [step_apply] at h
  cases hf : currentFrame m.stack with
  | error t' stack =>
    rw [hf] at h
    cases h
    rfl
  | ok f stack =>
    rw [hf] at h
    simp only at h
    cases hi : f.body[m.pc]? with
    | some i =>
      rw [hi] at h
      exact hexec _ i h
    | none =>
      rw [hi] at h
      cases h
      rfl

def overcopying : Machine where
  store.instances := #[{ tables := #[0, 1] }]
  store.heap.tables := #[.create ⟨.funcref, ⟨1, none⟩⟩, .create ⟨.externref, ⟨3, none⟩⟩]
  stack.entries := #[.frame ⟨0, some 0, #[], 0, 0, #[.tableCopy 0 1, .end_]⟩, .value (.i32 0),
    .value (.i32 0), .value (.i32 2)]
  stack.frames := #[0]
  stack.limit := 4

theorem trap_keeps_store_overcopying :
    overcopying.stack.entries.size ≤ overcopying.stack.limit ∧
    ∃ m', step overcopying = .error .tableOutOfBounds m' ∧ m'.store = overcopying.store := by
  refine ⟨by decide, _, rfl, ?_⟩
  exact (@trap_keeps_store noHost {} _ _ _ (.inr (by decide))).2 rfl

end Machine

end Wasm
