import Wasm.Proofs.Numeric.Signatures
import Wasm.Proofs.Machine.Laws
import Wasm.Proofs.Linking.Definitions

namespace Wasm

open Outcome Stack

variable {σ α β : Type}

def Instr.isControl : Instr → Bool
  | unreachable | nop | block _ | loop _ | if_ _ | else_ | end_ | br _ | brIf _ | brTable _ _
  | return_ | call _ | callIndirect _ _ => true
  | _ => false

/-- The last instructions to be tried are those that are numeric. -/
theorem Machine.simple_numeric (op : NumOp) : simple (.numeric op) = onStack op.exec := by
  funext m
  change ((onStack (op.exec >>= fun _ ↦ pure true)) >>= fun done ↦
    if done = true then pure () else throw Trap.unimplemented) m = _
  simp only [bind_apply, onStack]
  cases op.exec m.stack <;> rfl

def Implemented (op : EStateM Trap σ α) : Prop :=
  ∀ s s', op s ≠ .error .unimplemented s'

namespace Implemented

theorem pure (a : α) : Implemented (pure a : EStateM Trap σ α) := by
  intro s s' h
  cases h

theorem throw {t : Trap} (ht : (t == .unimplemented) = false) :
    Implemented (throw t : EStateM Trap σ α) := by
  intro s s' h
  cases h
  cases ht

theorem get : Implemented (get : EStateM Trap σ σ) := by
  intro s s' h
  cases h

theorem modify (f : σ → σ) : Implemented (modify f : EStateM Trap σ Unit) := by
  intro s s' h
  cases h

theorem bind {op : EStateM Trap σ α} {k : α → EStateM Trap σ β} (h : Implemented op)
    (hk : ∀ a, Implemented (k a)) : Implemented (op >>= k) := by
  intro s s' hs
  rcases bind_error hs with hop | ⟨a, s₁, -, hrest⟩
  · exact h s s' hop
  · exact hk a s₁ s' hrest

theorem map {op : EStateM Trap σ α} (h : Implemented op) (f : α → β) : Implemented (f <$> op) := by
  intro s s' hs
  rw [map_apply] at hs
  cases hop : op s with
  | ok a s₁ =>
    rw [hop] at hs
    cases hs
  | error t s₁ =>
    rw [hop] at hs
    cases hs
    exact h s s' hop

section Heap

theorem tableCheck (start len : Nat) : Implemented (Table.check start len) := by
  grind [Implemented, Table.check]

theorem tableInit (d : Nat) (vs : Array Value) (s n : Nat) :
    Implemented (Table.init d vs s n) := by
  unfold Table.init
  split
  · exact (throw rfl).bind fun _ ↦ (tableCheck d n).bind fun _ ↦ modify _
  · exact (tableCheck d n).bind fun _ ↦ modify _

theorem memoryCheck (addr len : Nat) : Implemented (Memory.check addr len) := by
  grind [Implemented, Memory.check]

theorem memoryLoad (addr len : Nat) : Implemented (Memory.load addr len) :=
  (memoryCheck addr len).bind fun _ ↦ get.bind fun _ ↦ .pure _

theorem memoryInit (d : Nat) (data : List UInt8) (s n : Nat) :
    Implemented (Memory.init d data s n) := by
  unfold Memory.init
  split
  · exact (throw rfl).bind fun _ ↦ (memoryCheck d n).bind fun _ ↦ modify _
  · exact (memoryCheck d n).bind fun _ ↦ modify _

theorem table (addr : Nat) : Implemented (Heap.table addr) := by
  grind [Implemented, Heap.table]

theorem memory (addr : Nat) : Implemented (Heap.memory addr) := by
  grind [Implemented, Heap.memory]

theorem global (addr : Nat) : Implemented (Heap.global addr) := by
  grind [Implemented, Heap.global]

theorem elem (addr : Nat) : Implemented (Heap.elem addr) := by
  grind [Implemented, Heap.elem]

theorem data (addr : Nat) : Implemented (Heap.data addr) := by
  grind [Implemented, Heap.data]

theorem onTable {op : TableM α} (h : Implemented op) (addr : Nat) :
    Implemented (Heap.onTable addr op) := by
  intro s s'
  rw [Heap.onTable_apply]
  grind [Implemented]

theorem onMemory {op : MemoryM α} (h : Implemented op) (addr : Nat) :
    Implemented (Heap.onMemory addr op) := by
  intro s s'
  rw [Heap.onMemory_apply]
  grind [Implemented]

theorem onGlobal {op : EStateM Trap Global α} (h : Implemented op) (addr : Nat) :
    Implemented (Heap.onGlobal addr op) := by
  intro s s'
  rw [Heap.onGlobal_apply]
  grind [Implemented]

theorem tableGrow (n : Nat) (v : Value) (cap : Nat) (a : Allocator) :
    Implemented (Table.grow n v cap a) := by
  intro t t' h
  simp only [Table.grow] at h
  split at h <;> cases h

theorem memoryGrow (n cap : Nat) (a : Allocator) : Implemented (Memory.grow n cap a) := by
  intro m m' h
  simp only [Memory.grow] at h
  split at h <;> cases h

theorem copyTable (dt st d s n : Nat) : Implemented (Heap.copyTable dt st d s n) := by
  have hslice : Implemented (Table.slice s n) :=
    (tableCheck s n).bind fun _ ↦ get.bind fun _ ↦ .pure _
  unfold Heap.copyTable
  split
  · exact ((tableCheck s n).bind fun _ ↦ (tableCheck d n).bind fun _ ↦ modify _).onTable dt
  · exact (hslice.onTable st).bind fun vs ↦ (tableInit d vs 0 n).onTable dt

end Heap

section Stack

theorem popAs (t : ValType) (view : Value → Option α) : Implemented (popAs t view) := by
  intro s s' hs
  rcases popAs_cases t view s with ⟨base, v, a, -, -, hpop⟩ | ⟨-, e, he, hpop⟩
  · cases hpop.symm.trans hs
  · cases hpop.symm.trans hs
    cases he

theorem peekValue : Implemented peekValue := by
  grind [Implemented, Stack.peekValue]

theorem popValue : Implemented popValue :=
  peekValue.bind fun v ↦ (modify _).bind fun _ ↦ .pure v

theorem push (e : Entry) : Implemented (push e) := by
  grind [Implemented, Stack.push]

theorem pushValues (vs : List Value) : Implemented (pushValues vs) := by
  induction vs with
  | nil => exact .pure _
  | cons v vs ih => exact (push _).bind fun _ ↦ ih

theorem popValues (n : Nat) : Implemented (popValues n) := by
  grind [Implemented, Stack.popValues]

theorem frameIndex : Implemented frameIndex := by
  grind [Implemented, Stack.frameIndex]

theorem currentFrame : Implemented currentFrame := by
  refine frameIndex.bind fun i ↦ get.bind fun s ↦ ?_
  split
  · exact .pure _
  · exact .throw rfl

theorem onFrame {op : EStateM Trap Frame α} (h : Implemented op) : Implemented (onFrame op) := by
  have hentry : Implemented (onEntry op) := by
    intro e e'
    unfold onEntry
    grind [Implemented]
  intro s s'
  rw [onFrame_apply]
  have hindex := frameIndex s
  split
  · split
    · rw [onSlot_eq]
      grind [Implemented]
    · simp
  · grind

theorem ofObeys {ts : List ValType} {t : ValType} {op : StackM Unit} (h : Obeys ts t op) :
    Implemented op := by
  intro s s' hs
  by_cases hoffers : s.Offers ts
  · obtain ⟨base, vs, rfl, hvs⟩ := hoffers
    rcases h.typed base vs hvs with ⟨v, -, hop⟩ | ⟨e, he, hop⟩
    · exact push _ base s' (hop ▸ hs)
    · cases hop.symm.trans hs
      cases he
  · obtain ⟨e, n, he, -, hop⟩ := h.untyped s hoffers
    cases hop.symm.trans hs
    cases he

theorem findLabel? (depth : Nat) : Implemented (findLabel? depth) :=
  frameIndex.bind fun _ ↦ get.bind fun _ ↦ .pure _

theorem unwind (place n : Nat) : Implemented (unwind place n) :=
  (popValues n).bind fun vs ↦ (modify _).bind fun _ ↦ pushValues vs

theorem currentLabel (depth : Nat) : Implemented (currentLabel depth) := by
  refine (findLabel? depth).bind fun x ↦ ?_
  cases x with
  | some x => exact .pure _
  | none => exact .throw rfl

theorem popLabel : Implemented popLabel := by
  refine (findLabel? 0).bind fun x ↦ ?_
  cases x with
  | some x => exact (unwind _ _).bind fun _ ↦ .pure _
  | none => exact .throw rfl

theorem takeBranch (depth : Nat) : Implemented (Stack.branch depth) := by
  refine (findLabel? depth).bind fun x ↦ ?_
  cases x with
  | some x => exact (unwind _ _).bind fun _ ↦ .pure _
  | none => exact .pure _

theorem pushLabel (l : Label) : Implemented (pushLabel l) :=
  (popValues _).bind fun vs ↦ (push _).bind fun _ ↦ pushValues vs

end Stack

section Machine

open Machine

theorem onStack {op : StackM α} (h : Implemented op) : Implemented (onStack op) := by
  intro s s'
  unfold Machine.onStack
  grind [Implemented]

theorem onEnds {op : EStateM Trap BlockEnds α} (h : Implemented op) : Implemented (onEnds op) := by
  intro s s'
  unfold Machine.onEnds
  grind [Implemented]

theorem onHeap {op : HeapM α} (h : Implemented op) : Implemented (onHeap op) := by
  intro s s'
  rw [onHeap_apply]
  grind [Implemented]

theorem check {r : Except Trap α} (hr : r ≠ .error .unimplemented) : Implemented (check r) := by
  cases r with
  | ok a => exact .pure a
  | error t => exact .throw (by simpa using hr)

theorem lookup (space : Space) (addrs : Array Nat) (i : Nat) :
    Implemented (Machine.check (Instance.lookup space addrs i)) :=
  check (by grind [Instance.lookup])

theorem instance_ : Implemented instance_ :=
  currentFrame.onStack.bind fun _ ↦ get.bind fun _ ↦ check (by grind [Store.instance_])

theorem memoryAddr : Implemented memoryAddr := instance_.bind fun _ ↦ lookup _ _ _

theorem tableAddr (i : Idx) : Implemented (tableAddr i) := instance_.bind fun _ ↦ lookup _ _ _

theorem popNat : Implemented (Machine.onStack popNat) := ((popAs _ _).map _).onStack

theorem popRef : Implemented (Machine.onStack popRef) := (popAs _ _).onStack

theorem pushValue (v : Value) : Implemented (Machine.onStack (pushValue v)) := (push _).onStack

theorem onNthTable {op : TableM α} (h : Implemented op) (t : Idx) :
    Implemented (do Heap.onTable (← Machine.tableAddr t) op) :=
  (tableAddr t).bind fun a ↦ (h.onTable a).onHeap

theorem onFirstMemory {op : MemoryM α} (h : Implemented op) :
    Implemented (do Heap.onMemory (← Machine.memoryAddr) op) :=
  memoryAddr.bind fun a ↦ (h.onMemory a).onHeap

theorem setLocal (i : Nat) (v : Value) : Implemented (setLocal i v) := by
  have hset : Implemented (Frame.setLocal i v) := by grind [Implemented, Frame.setLocal]
  exact hset.onFrame.onStack

theorem effectiveAddr (arg : MemArg) : Implemented (effectiveAddr arg) :=
  popNat.bind fun _ ↦ .pure _

theorem popOperand (op : StoreOp) : Implemented op.popOperand := by
  cases op with
  | full t => cases t <;> exact (popAs _ _).map _
  | narrow n => cases n <;> exact (popAs _ _).map _

theorem simple {i : Instr} (hi : i.isControl = false) : Implemented (simple i) := by
  cases i with
  | refNull t => exact pushValue _
  | refIsNull => exact popRef.bind fun _ ↦ pushValue _
  | refFunc f => exact instance_.bind fun _ ↦ (lookup _ _ _).bind fun _ ↦ pushValue _
  | drop => exact popValue.onStack.bind fun _ ↦ .pure _
  | select =>
    exact (popAs _ _).onStack.bind fun _ ↦ popValue.onStack.bind fun _ ↦
      (popAs _ _).onStack.bind fun _ ↦ pushValue _
  | selectTyped ts =>
    match ts with
    | [] => exact .throw rfl
    | [t] =>
      exact (popAs _ _).onStack.bind fun _ ↦ (popAs _ _).onStack.bind fun _ ↦
        (popAs _ _).onStack.bind fun _ ↦ pushValue _
    | _ :: _ :: _ => exact .throw rfl
  | localGet i =>
    refine currentFrame.onStack.bind fun f ↦ ?_
    cases f.locals[i.toNat]? with
    | some v => exact pushValue v
    | none => exact .throw rfl
  | localSet i => exact popValue.onStack.bind fun _ ↦ setLocal _ _
  | localTee i => exact peekValue.onStack.bind fun _ ↦ setLocal _ _
  | globalGet i =>
    exact instance_.bind fun _ ↦ (lookup _ _ _).bind fun a ↦ (global a).onHeap.bind fun _ ↦
      pushValue _
  | globalSet i =>
    refine instance_.bind fun _ ↦ (lookup _ _ _).bind fun a ↦ popValue.onStack.bind fun v ↦
      (global a).onHeap.bind fun g ↦ ?_
    have hset : Implemented (Global.set v) := by grind [Implemented, Global.set]
    cases g.type.mutable with
    | true => exact (hset.onGlobal a).onHeap
    | false => exact (throw rfl).bind fun _ ↦ (hset.onGlobal a).onHeap
  | tableGet t =>
    have hget (i : Nat) : Implemented (Table.get i) := by grind [Implemented, Table.get]
    exact popNat.bind fun i ↦ (tableAddr t).bind fun a ↦ ((hget i).onTable a).onHeap.bind fun _ ↦
      pushValue _
  | tableSet t =>
    have hset (i : Nat) (v : Value) : Implemented (Table.set i v) := by
      grind [Implemented, Table.set]
    exact popRef.bind fun v ↦ popNat.bind fun i ↦ onNthTable (hset i v) t
  | tableSize t => exact (tableAddr t).bind fun a ↦ (table a).onHeap.bind fun _ ↦ pushValue _
  | tableGrow t =>
    exact popNat.bind fun n ↦ popRef.bind fun v ↦ (tableAddr t).bind fun a ↦ get.bind fun _ ↦
      ((tableGrow n v _ _).onTable a).onHeap.bind fun _ ↦ pushValue _
  | tableFill t =>
    exact popNat.bind fun n ↦ popRef.bind fun v ↦ popNat.bind fun i ↦
      onNthTable ((tableCheck i n).bind fun _ ↦ modify _) t
  | tableCopy d s =>
    exact popNat.bind fun _ ↦ popNat.bind fun _ ↦ popNat.bind fun _ ↦ (tableAddr d).bind fun _ ↦
      (tableAddr s).bind fun _ ↦ (copyTable _ _ _ _ _).onHeap
  | tableInit e t =>
    exact popNat.bind fun _ ↦ popNat.bind fun _ ↦ popNat.bind fun _ ↦ instance_.bind fun _ ↦
      (lookup _ _ _).bind fun a ↦ (lookup _ _ _).bind fun b ↦ (elem b).onHeap.bind fun _ ↦
        ((tableInit _ _ _ _).onTable a).onHeap
  | elemDrop e =>
    exact instance_.bind fun _ ↦ (lookup _ _ _).bind fun a ↦
      ((elem a).bind fun _ ↦ (modify _).bind fun _ ↦ .pure _).onHeap.bind fun _ ↦ .pure _
  | load op arg =>
    exact (effectiveAddr arg).bind fun addr ↦ memoryAddr.bind fun a ↦
      ((memoryLoad addr op.size).onMemory a).onHeap.bind fun _ ↦ pushValue _
  | store op arg =>
    exact (popOperand op).onStack.bind fun _ ↦ (effectiveAddr arg).bind fun addr ↦
      onFirstMemory ((memoryCheck addr _).bind fun _ ↦ modify _)
  | memorySize => exact memoryAddr.bind fun a ↦ (memory a).onHeap.bind fun _ ↦ pushValue _
  | memoryGrow =>
    exact popNat.bind fun n ↦ memoryAddr.bind fun a ↦ get.bind fun _ ↦
      ((memoryGrow n _ _).onMemory a).onHeap.bind fun _ ↦ pushValue _
  | memoryInit d =>
    exact popNat.bind fun _ ↦ popNat.bind fun _ ↦ popNat.bind fun _ ↦ instance_.bind fun _ ↦
      (lookup _ _ _).bind fun a ↦ (lookup _ _ _).bind fun b ↦ (data b).onHeap.bind fun _ ↦
        ((memoryInit _ _ _ _).onMemory a).onHeap
  | dataDrop d =>
    exact instance_.bind fun _ ↦ (lookup _ _ _).bind fun a ↦
      ((data a).bind fun _ ↦ (modify _).bind fun _ ↦ .pure _).onHeap.bind fun _ ↦ .pure _
  | memoryCopy =>
    exact popNat.bind fun n ↦ popNat.bind fun s ↦ popNat.bind fun d ↦
      onFirstMemory ((memoryCheck s n).bind fun _ ↦ (memoryCheck d n).bind fun _ ↦ modify _)
  | memoryFill =>
    exact popNat.bind fun n ↦ popNat.bind fun _ ↦ popNat.bind fun d ↦
      onFirstMemory ((memoryCheck d n).bind fun _ ↦ modify _)
  | i32Const bits => exact pushValue _
  | i64Const bits => exact pushValue _
  | f32Const bits => exact pushValue _
  | f64Const bits => exact pushValue _
  | numeric op =>
    rw [simple_numeric]
    exact (ofObeys op.obeys).onStack
  | _ => cases hi

theorem branch (depth : Nat) : Implemented (Machine.branch depth) := by
  refine (takeBranch depth).onStack.bind fun x ↦ ?_
  cases x <;> exact .pure _

theorem indirectCallee (type table : Idx) : Implemented (indirectCallee type table) := by
  refine popNat.bind fun i ↦ instance_.bind fun inst ↦ (check ?_).bind fun expected ↦
    (lookup _ _ _).bind fun a ↦ (Implemented.table a).onHeap.bind fun t ↦ ?_
  · grind [Instance.funcType]
  · split
    · exact .throw rfl
    · refine get.bind fun m ↦ (check ?_).bind fun f ↦ ?_
      · grind [Store.func]
      · split
        · exact .pure _
        · exact .throw rfl
    · exact .throw rfl
    · exact .throw rfl

theorem blockArity (t : BlockType) : Implemented (blockArity t) := by
  cases t with
  | empty => exact .pure _
  | value t => exact .pure _
  | func i =>
    refine instance_.bind fun inst ↦ ?_
    cases (BlockType.func i).arity inst.mod.types with
    | some a => exact .pure a
    | none => exact .throw rfl

theorem blockEnd : Implemented blockEnd :=
  currentFrame.onStack.bind fun f ↦ get.bind fun m ↦
    onEnds (by grind [Implemented, BlockEnds.find, Code.blockEnd])

theorem enterBlock (t : BlockType) (isLoop : Bool) : Implemented (enterBlock t isLoop) :=
  (blockArity t).bind fun _ ↦ blockEnd.bind fun _ ↦ get.bind fun _ ↦ (pushLabel _).onStack

theorem enterIf (t : BlockType) : Implemented (enterIf t) := by
  have henter := enterBlock t false
  refine (popAs _ _).onStack.bind fun x ↦ ?_
  split
  · exact henter.bind fun _ ↦ .pure _
  · refine blockEnd.bind fun e ↦ ?_
    cases e.elsePc with
    | some pc => exact henter.bind fun _ ↦ .pure _
    | none => exact .pure _

theorem exec (length : Nat) (i : Instr) : Implemented (exec length i) := by
  cases i with
  | unreachable => exact .throw rfl
  | nop => exact .pure _
  | block t => exact (enterBlock t false).bind fun _ ↦ .pure _
  | loop t => exact (enterBlock t true).bind fun _ ↦ .pure _
  | if_ t => exact enterIf t
  | else_ => exact (currentLabel 0).onStack.bind fun _ ↦ .pure _
  | end_ =>
    refine get.bind fun m ↦ ?_
    split
    · exact .pure _
    · exact popLabel.onStack.bind fun _ ↦ .pure _
  | br l => exact branch _
  | brIf l =>
    refine (popAs _ _).onStack.bind fun x ↦ ?_
    split
    · exact branch _
    · exact .pure _
  | brTable ls l => exact popNat.bind fun _ ↦ branch _
  | return_ => exact .pure _
  | call f => exact instance_.bind fun _ ↦ (lookup _ _ _).bind fun _ ↦ .pure _
  | callIndirect type table => exact (indirectCallee type table).bind fun _ ↦ .pure _
  | _ => exact (simple rfl).bind fun _ ↦ .pure _

theorem step : Implemented step := by
  refine currentFrame.onStack.bind fun f ↦ get.bind fun m ↦ ?_
  cases f.body[m.pc]? with
  | some i => exact exec _ i
  | none => exact .throw rfl

end Machine

end Implemented

end Wasm
