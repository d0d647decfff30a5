import Wasm.Proofs.Machine.Scope

namespace Wasm

section Ordinary

variable {σ τ α β : Type}

theorem Ordinary.pure (a : α) : Ordinary (pure a : EStateM Trap σ α) := by
  intro s t s' h
  cases h

theorem Ordinary.throw {t : Trap} (ht : t.bracketing = false) :
    Ordinary (throw t : EStateM Trap σ α) := by
  intro s u s' h
  cases h
  exact ht

theorem Ordinary.bind {op : EStateM Trap σ α} {k : α → EStateM Trap σ β} (h : Ordinary op)
    (hk : ∀ a, Ordinary (k a)) : Ordinary (op >>= k) := by
  intro s t s' hs
  rw [Outcome.bind_apply] at hs
  cases hop : op s with
  | ok a s₁ =>
    rw [hop] at hs
    exact hk a s₁ t s' hs
  | error u s₁ =>
    rw [hop] at hs
    cases hs
    exact h s t s' hop

theorem Ordinary.get : Ordinary (get : EStateM Trap σ σ) := by
  intro s t s' h
  cases h

theorem Ordinary.modify (f : σ → σ) : Ordinary (modify f : EStateM Trap σ Unit) := by
  intro s t s' h
  cases h

end Ordinary

section Heap

variable {α : Type}

theorem Ordinary.table (addr : Nat) : Ordinary (Heap.table addr) := by
  grind [Ordinary, Heap.table, Trap.bracketing]

theorem Ordinary.memory (addr : Nat) : Ordinary (Heap.memory addr) := by
  grind [Ordinary, Heap.memory, Trap.bracketing]

theorem Ordinary.global (addr : Nat) : Ordinary (Heap.global addr) := by
  grind [Ordinary, Heap.global, Trap.bracketing]

theorem Ordinary.elem (addr : Nat) : Ordinary (Heap.elem addr) := by
  grind [Ordinary, Heap.elem, Trap.bracketing]

theorem Ordinary.data (addr : Nat) : Ordinary (Heap.data addr) := by
  grind [Ordinary, Heap.data, Trap.bracketing]

theorem Ordinary.dropElem (addr : Nat) : Ordinary (Heap.dropElem addr) :=
  (elem addr).bind fun vs ↦ (modify _).bind fun _ ↦ .pure vs

theorem Ordinary.dropData (addr : Nat) : Ordinary (Heap.dropData addr) :=
  (data addr).bind fun bs ↦ (modify _).bind fun _ ↦ .pure bs

theorem Ordinary.onTable {op : TableM α} (h : Ordinary op) (addr : Nat) :
    Ordinary (Heap.onTable addr op) := by
  intro s t s' ht
  simp only [Heap.onTable, onSlot_eq] at ht
  grind [Ordinary, Trap.bracketing]

theorem Ordinary.onMemory {op : MemoryM α} (h : Ordinary op) (addr : Nat) :
    Ordinary (Heap.onMemory addr op) := by
  intro s t s' ht
  simp only [Heap.onMemory, onSlot_eq] at ht
  grind [Ordinary, Trap.bracketing]

theorem Ordinary.onGlobal {op : EStateM Trap Global α} (h : Ordinary op) (addr : Nat) :
    Ordinary (Heap.onGlobal addr op) := by
  intro s t s' ht
  simp only [Heap.onGlobal, onSlot_eq] at ht
  grind [Ordinary, Trap.bracketing]

theorem Ordinary.setGlobal (v : Value) : Ordinary (Global.set v) := by
  grind [Ordinary, Global.set, Trap.bracketing]

theorem Ordinary.tableCheck (start len : Nat) : Ordinary (Table.check start len) := by
  grind [Ordinary, Table.check, Trap.bracketing]

theorem Ordinary.tableGet (i : Nat) : Ordinary (Table.get i) := by
  grind [Ordinary, Table.get, Trap.bracketing]

theorem Ordinary.tableSet (i : Nat) (v : Value) : Ordinary (Table.set i v) := by
  grind [Ordinary, Table.set, Trap.bracketing]

theorem Ordinary.tableGrow (n : Nat) (v : Value) (cap : Nat) (a : Allocator) :
    Ordinary (Table.grow n v cap a) := by
  intro x t x' h
  simp only [Table.grow] at h
  split at h <;> cases h

theorem Ordinary.tableFill (i : Nat) (v : Value) (n : Nat) : Ordinary (Table.fill i v n) :=
  (tableCheck i n).bind fun _ ↦ modify _

theorem Ordinary.tableSlice (i n : Nat) : Ordinary (Table.slice i n) :=
  (tableCheck i n).bind fun _ ↦ get.bind fun _ ↦ .pure _

theorem Ordinary.tableCopy (d s n : Nat) : Ordinary (Table.copy d s n) :=
  (tableCheck s n).bind fun _ ↦ (tableCheck d n).bind fun _ ↦ modify _

theorem Ordinary.tableInit (d : Nat) (vs : Array Value) (s n : Nat) :
    Ordinary (Table.init d vs s n) := by
  unfold Table.init
  split
  · exact (throw rfl).bind fun _ ↦ (tableCheck d n).bind fun _ ↦ modify _
  · exact (tableCheck d n).bind fun _ ↦ modify _

theorem Ordinary.copyTable (dt st d s n : Nat) : Ordinary (Heap.copyTable dt st d s n) := by
  unfold Heap.copyTable
  split
  · exact (tableCopy d s n).onTable dt
  · exact ((tableSlice s n).onTable st).bind fun vs ↦ (tableInit d vs 0 n).onTable dt

theorem Ordinary.memoryCheck (addr len : Nat) : Ordinary (Memory.check addr len) := by
  grind [Ordinary, Memory.check, Trap.bracketing]

theorem Ordinary.memoryLoad (addr len : Nat) : Ordinary (Memory.load addr len) :=
  (memoryCheck addr len).bind fun _ ↦ get.bind fun _ ↦ .pure _

theorem Ordinary.memoryStore (addr : Nat) (bs : List UInt8) : Ordinary (Memory.store addr bs) :=
  (memoryCheck addr bs.length).bind fun _ ↦ modify _

theorem Ordinary.memoryGrow (n cap : Nat) (a : Allocator) : Ordinary (Memory.grow n cap a) := by
  intro x t x' h
  simp only [Memory.grow] at h
  split at h <;> cases h

theorem Ordinary.memoryFill (d : Nat) (b : UInt8) (n : Nat) : Ordinary (Memory.fill d b n) :=
  (memoryCheck d n).bind fun _ ↦ modify _

theorem Ordinary.memoryCopy (d s n : Nat) : Ordinary (Memory.copy d s n) :=
  (memoryCheck s n).bind fun _ ↦ (memoryCheck d n).bind fun _ ↦ modify _

theorem Ordinary.memoryInit (d : Nat) (bs : List UInt8) (s n : Nat) :
    Ordinary (Memory.init d bs s n) := by
  unfold Memory.init
  split
  · exact (throw rfl).bind fun _ ↦ (memoryCheck d n).bind fun _ ↦ modify _
  · exact (memoryCheck d n).bind fun _ ↦ modify _

end Heap

theorem IBin.eval_ordinary {w : Nat} {x y : BitVec w} {op : IBin} {t : Trap}
    (h : op.eval x y = .error t) : t.bracketing = false := by
  cases op with
  | div s => cases s <;> grind [IBin.eval, Trap.bracketing]
  | rem s => cases s <;> grind [IBin.eval, Trap.bracketing]
  | shr s => cases s <;> cases h
  | _ => cases h

theorem Fp.toInt_ordinary {w dst : Width} {s : Sign} {x : Fp.Bits w} {t : Trap}
    (h : Fp.toInt dst s x = .error t) : t.bracketing = false := by
  grind [Fp.toInt, Trap.bracketing]

theorem StackLocal.pushResult {α : Type} {r : Except Trap α} (f : α → Value)
    (hr : ∀ t, r = .error t → t.bracketing = false) : StackLocal (Stack.pushResult (r.map f)) := by
  cases r with
  | ok a => exact .pushValue (f a)
  | error t => exact .throw (hr t rfl)

theorem StackLocal.numeric (op : NumOp) : StackLocal op.exec := by
  cases op with
  | eqz w => exact (popInt w).bind fun _ ↦ .pushValue _
  | irel w op => exact (popInt w).bind fun _ ↦ (popInt w).bind fun _ ↦ .pushValue _
  | frel w op => exact (popFloat w).bind fun _ ↦ (popFloat w).bind fun _ ↦ .pushValue _
  | iun w op => exact (popInt w).bind fun _ ↦ .pushValue _
  | ibin w op =>
    exact (popInt w).bind fun _ ↦ (popInt w).bind fun _ ↦ .pushResult _ fun _ ↦ IBin.eval_ordinary
  | funary w op => exact (popFloat w).bind fun _ ↦ .pushValue _
  | fbin w op => exact (popFloat w).bind fun _ ↦ (popFloat w).bind fun _ ↦ .pushValue _
  | wrap => exact popI64.bind fun _ ↦ .pushValue _
  | extend s => exact popI32.bind fun _ ↦ .pushValue _
  | trunc dst src s => exact (popFloat src).bind fun _ ↦ .pushResult _ fun _ ↦ Fp.toInt_ordinary
  | truncSat dst src s => exact (popFloat src).bind fun _ ↦ .pushValue _
  | convert dst src s => exact (popInt src).bind fun _ ↦ .pushValue _
  | demote => exact popF64.bind fun _ ↦ .pushValue _
  | promote => exact popF32.bind fun _ ↦ .pushValue _
  | bitsOfFloat w => exact (popFloat w).bind fun _ ↦ .pushValue _
  | floatOfBits w => exact (popInt w).bind fun _ ↦ .pushValue _
  | signExtend n => exact (popInt n.width).bind fun _ ↦ .pushValue _

theorem StackLocal.storeOperand (op : StoreOp) : StackLocal op.popOperand := by
  cases op with
  | full t =>
    cases t with
    | i32 => exact popI32.map _
    | i64 => exact popI64.map _
    | f32 => exact popF32.map _
    | f64 => exact popF64.map _
  | narrow n => exact (popInt n.width).map _

namespace Machine

/-- A look-up in an index space of the current instance. -/
theorem lookup_ordinary {space : Space} {addrs : Array Nat} {i : Nat} {t : Trap}
    (h : Instance.lookup space addrs i = .error t) : t.bracketing = false := by
  grind [Instance.lookup, Trap.bracketing]

theorem local_lookup (space : Space) (addrs : Array Nat) (i : Nat) :
    Local (check (Instance.lookup space addrs i)) :=
  .check fun _ ht ↦ lookup_ordinary ht

theorem local_memoryAddr : Local memoryAddr :=
  Local.instance_.bind fun _ ↦ local_lookup _ _ _

theorem local_tableAddr (i : Idx) : Local (tableAddr i) :=
  Local.instance_.bind fun _ ↦ local_lookup _ _ _

theorem localGet_fill (i : Nat) (c : Context) (s : Scope) :
    localGet i (c.fill s) = (match s.locals[i]? with
      | some v => onStack (Stack.pushValue v)
      | none => throw (.indexOutOfRange .local_ i) : Exec Unit) (c.fill s) := by
  change EStateM.bind (onStack Stack.currentFrame) _ _ = _
  simp only [EStateM.bind, onStack, Context.fill, Context.activation, Stack.currentFrame_of]
  cases s.locals[i]? <;> rfl

theorem local_localGet (i : Nat) : Local (localGet i) := by
  intro c b hcb s hs
  rw [localGet_fill, localGet_fill]
  cases s.locals[i]? with
  | some v => exact StackLocal.pushValue v c b hcb s hs
  | none => exact .error _ s hs rfl rfl

theorem setLocal_fill (i : Nat) (v : Value) (c : Context) (s : Scope) :
    setLocal i v (c.fill s) = match s.locals[i]? with
      | some old =>
        if old.type = v.type then .ok () (c.fill { s with locals := s.locals.setIfInBounds i v })
        else .error (.typeMismatch old.type v.type) (c.fill s)
      | none => .error (.indexOutOfRange .local_ i) (c.fill s) := by
  change onStack (Stack.onFrame (Frame.setLocal i v)) (c.fill s) = _
  simp only [onStack, Context.fill, Context.activation, Stack.onFrame_of, Frame.setLocal]
  cases s.locals[i]? with
  | none => rfl
  | some old => by_cases h : old.type = v.type <;> simp only [h, if_true, if_false]

theorem local_setLocal (i : Nat) (v : Value) : Local (setLocal i v) := by
  intro c b _ s hs
  rw [setLocal_fill, setLocal_fill]
  cases s.locals[i]? with
  | none => exact .error _ s hs rfl rfl
  | some old =>
    by_cases h : old.type = v.type
    · simp only [h, if_true]
      exact .ok () { s with locals := s.locals.setIfInBounds i v } hs rfl
    · simp only [h, if_false]
      exact .error _ s hs rfl rfl

theorem local_globalGet (i : Nat) : Local (globalGet i) :=
  Local.instance_.bind fun _ ↦ (local_lookup _ _ _).bind fun addr ↦
    (Local.onHeap (.global addr)).bind fun _ ↦ StackLocal.pushValue _

theorem local_globalSet (i : Nat) : Local (globalSet i) := by
  refine Local.instance_.bind fun _ ↦ (local_lookup _ _ _).bind fun addr ↦
    Local.bind StackLocal.popValue fun v ↦ (Local.onHeap (.global addr)).bind fun g ↦ ?_
  have hset : Local (onHeap (Heap.onGlobal addr (Global.set v))) :=
    .onHeap ((Ordinary.setGlobal v).onGlobal addr)
  split
  · exact (Local.throw rfl).bind fun _ ↦ hset
  · exact hset

theorem local_pushGrown (old : Option Nat) : Local (pushGrown old) :=
  StackLocal.pushValue _

theorem local_tableGet (t : Idx) : Local (tableGet t) :=
  Local.bind StackLocal.popNat fun i ↦ (local_tableAddr t).bind fun addr ↦
    (Local.onHeap ((Ordinary.tableGet i).onTable addr)).bind fun _ ↦ StackLocal.pushValue _

theorem local_tableSet (t : Idx) : Local (tableSet t) :=
  Local.bind StackLocal.popRef fun v ↦ Local.bind StackLocal.popNat fun i ↦
    (local_tableAddr t).bind fun addr ↦ .onHeap ((Ordinary.tableSet i v).onTable addr)

theorem local_tableSize (t : Idx) : Local (tableSize t) :=
  (local_tableAddr t).bind fun addr ↦ (Local.onHeap (.table addr)).bind fun _ ↦
    StackLocal.pushValue _

theorem local_tableGrow (t : Idx) : Local (tableGrow t) := by
  refine Local.bind StackLocal.popNat fun n ↦ Local.bind StackLocal.popRef fun v ↦
    (local_tableAddr t).bind fun addr ↦ Local.get ?_ fun m ↦ ?_
  · rintro ⟨⟩ ⟨⟩ rfl
    rfl
  · exact (Local.onHeap ((Ordinary.tableGrow n v _ _).onTable addr)).bind local_pushGrown

theorem local_tableFill (t : Idx) : Local (tableFill t) :=
  Local.bind StackLocal.popNat fun n ↦ Local.bind StackLocal.popRef fun v ↦
    Local.bind StackLocal.popNat fun i ↦ (local_tableAddr t).bind fun addr ↦
      .onHeap ((Ordinary.tableFill i v n).onTable addr)

theorem local_tableCopy (d s : Idx) : Local (tableCopy d s) :=
  Local.bind StackLocal.popNat fun _ ↦ Local.bind StackLocal.popNat fun _ ↦
    Local.bind StackLocal.popNat fun _ ↦ (local_tableAddr d).bind fun _ ↦
      (local_tableAddr s).bind fun _ ↦ .onHeap (.copyTable _ _ _ _ _)

theorem local_tableInit (e t : Idx) : Local (tableInit e t) :=
  Local.bind StackLocal.popNat fun _ ↦ Local.bind StackLocal.popNat fun _ ↦
    Local.bind StackLocal.popNat fun _ ↦ Local.instance_.bind fun _ ↦
      (local_lookup _ _ _).bind fun _ ↦ (local_lookup _ _ _).bind fun elem ↦
        (Local.onHeap (.elem elem)).bind fun _ ↦ .onHeap ((Ordinary.tableInit _ _ _ _).onTable _)

theorem local_elemDrop (e : Idx) : Local (elemDrop e) :=
  Local.instance_.bind fun _ ↦ (local_lookup _ _ _).bind fun addr ↦
    (Local.onHeap (.dropElem addr)).bind fun _ ↦ .pure _

theorem local_effectiveAddr (arg : MemArg) : Local (effectiveAddr arg) :=
  Local.bind StackLocal.popNat fun _ ↦ .pure _

theorem local_load (op : LoadOp) (arg : MemArg) : Local (load op arg) :=
  (local_effectiveAddr arg).bind fun addr ↦ local_memoryAddr.bind fun _ ↦
    (Local.onHeap ((Ordinary.memoryLoad addr op.size).onMemory _)).bind fun _ ↦
      StackLocal.pushValue _

theorem local_store (op : StoreOp) (arg : MemArg) : Local (store_ op arg) :=
  Local.bind (StackLocal.storeOperand op) fun _ ↦ (local_effectiveAddr arg).bind fun addr ↦
    local_memoryAddr.bind fun _ ↦ .onHeap ((Ordinary.memoryStore addr _).onMemory _)

theorem local_memorySize : Local memorySize :=
  local_memoryAddr.bind fun addr ↦ (Local.onHeap (.memory addr)).bind fun _ ↦
    StackLocal.pushValue _

theorem local_memoryGrow : Local memoryGrow := by
  refine Local.bind StackLocal.popNat fun n ↦ local_memoryAddr.bind fun addr ↦
    Local.get ?_ fun m ↦ ?_
  · rintro ⟨⟩ ⟨⟩ rfl
    rfl
  · exact (Local.onHeap ((Ordinary.memoryGrow n _ _).onMemory addr)).bind local_pushGrown

theorem local_memoryInit (d : Idx) : Local (memoryInit d) :=
  Local.bind StackLocal.popNat fun _ ↦ Local.bind StackLocal.popNat fun _ ↦
    Local.bind StackLocal.popNat fun _ ↦ Local.instance_.bind fun _ ↦
      (local_lookup _ _ _).bind fun _ ↦ (local_lookup _ _ _).bind fun data ↦
        (Local.onHeap (.data data)).bind fun _ ↦
          .onHeap ((Ordinary.memoryInit _ _ _ _).onMemory _)

theorem local_dataDrop (d : Idx) : Local (dataDrop d) :=
  Local.instance_.bind fun _ ↦ (local_lookup _ _ _).bind fun addr ↦
    (Local.onHeap (.dropData addr)).bind fun _ ↦ .pure _

theorem local_memoryCopy : Local memoryCopy :=
  Local.bind StackLocal.popNat fun _ ↦ Local.bind StackLocal.popNat fun _ ↦
    Local.bind StackLocal.popNat fun _ ↦ local_memoryAddr.bind fun _ ↦
      .onHeap ((Ordinary.memoryCopy _ _ _).onMemory _)

theorem local_memoryFill : Local memoryFill :=
  Local.bind StackLocal.popNat fun _ ↦ Local.bind StackLocal.popNat fun _ ↦
    Local.bind StackLocal.popNat fun _ ↦ local_memoryAddr.bind fun _ ↦
      .onHeap ((Ordinary.memoryFill _ _ _).onMemory _)

theorem local_execNumeric (i : Instr) : Local (do
    unless ← onStack i.execNumeric do
      throw .unimplemented) := by
  refine Local.bind (?_ : StackLocal i.execNumeric) fun done ↦ ?_
  · cases i with
    | numeric op => exact (StackLocal.numeric op).bind fun _ ↦ .pure true
    | _ => exact .pure false
  · cases done with
    | true => exact .pure ()
    | false => exact .throw rfl

theorem local_simple (i : Instr) : Local (simple i) := by
  cases i with
  | refNull t => exact StackLocal.pushValue _
  | refIsNull => exact Local.bind StackLocal.popRef fun _ ↦ StackLocal.pushValue _
  | refFunc f =>
    exact Local.instance_.bind fun _ ↦ (local_lookup _ _ _).bind fun _ ↦ StackLocal.pushValue _
  | drop => exact Local.bind StackLocal.popValue fun _ ↦ .pure _
  | select =>
    exact Local.bind StackLocal.popI32 fun _ ↦ Local.bind StackLocal.popValue fun y ↦
      Local.bind (StackLocal.popTyped y.type) fun _ ↦ StackLocal.pushValue _
  | selectTyped ts =>
    match ts with
    | [] => exact .throw rfl
    | [t] =>
      exact Local.bind StackLocal.popI32 fun _ ↦ Local.bind (StackLocal.popTyped t) fun _ ↦
        Local.bind (StackLocal.popTyped t) fun _ ↦ StackLocal.pushValue _
    | _ :: _ :: _ => exact .throw rfl
  | localGet i => exact local_localGet _
  | localSet i => exact Local.bind StackLocal.popValue fun v ↦ local_setLocal _ v
  | localTee i => exact Local.bind StackLocal.peekValue fun v ↦ local_setLocal _ v
  | globalGet i => exact local_globalGet _
  | globalSet i => exact local_globalSet _
  | tableGet t => exact local_tableGet t
  | tableSet t => exact local_tableSet t
  | tableSize t => exact local_tableSize t
  | tableGrow t => exact local_tableGrow t
  | tableFill t => exact local_tableFill t
  | tableCopy d s => exact local_tableCopy d s
  | tableInit e t => exact local_tableInit e t
  | elemDrop e => exact local_elemDrop e
  | load op arg => exact local_load op arg
  | store op arg => exact local_store op arg
  | memorySize => exact local_memorySize
  | memoryGrow => exact local_memoryGrow
  | memoryInit d => exact local_memoryInit d
  | dataDrop d => exact local_dataDrop d
  | memoryCopy => exact local_memoryCopy
  | memoryFill => exact local_memoryFill
  | i32Const bits => exact StackLocal.pushValue _
  | i64Const bits => exact StackLocal.pushValue _
  | f32Const bits => exact StackLocal.pushValue _
  | f64Const bits => exact StackLocal.pushValue _
  | _ => exact local_execNumeric _

theorem local_blockArity (t : BlockType) : Local (blockArity t) := by
  cases t with
  | empty => exact .pure _
  | value t => exact .pure _
  | func i =>
    refine Local.instance_.bind fun inst ↦ ?_
    cases (BlockType.func i).arity inst.mod.types with
    | some a => exact .pure a
    | none => exact .throw rfl

theorem local_func (s : Store) (addr : Nat) : Local (check (s.func addr)) := by
  refine .check fun t ht ↦ ?_
  grind [Store.func, Trap.bracketing]

theorem local_indirectCallee (type table : Idx) : Local (indirectCallee type table) := by
  refine Local.bind StackLocal.popNat fun i ↦ Local.instance_.bind fun inst ↦
    Local.bind (.check fun t ht ↦ ?_) fun expected ↦ (local_lookup _ _ _).bind fun addr ↦
      (Local.onHeap (.table addr)).bind fun t ↦ ?_
  · grind [Instance.funcType, Trap.bracketing]
  · split
    · exact .throw rfl
    · rename_i addr _
      refine Local.get ?_ fun m ↦ (local_func m.store addr).bind fun f ↦ ?_
      · rintro ⟨⟩ ⟨⟩ rfl
        rfl
      · split
        · exact .pure _
        · exact .throw rfl
    · exact .throw rfl
    · exact .throw rfl

end Machine

end Wasm
