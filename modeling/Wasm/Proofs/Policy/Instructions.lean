import Wasm.Proofs.Policy

namespace Wasm.Policy

open Machine

variable {R : Policy} {s : Store} {α : Type}

variable (R) in
def flow (s : Store) : Flow → Prop
  | .call f => R.grants s .func f
  | _ => True

abbrev Effect (R : Policy) (s : Store) (op : Exec Unit) : Prop := R.Acts s op fun _ _ ↦ True

theorem find_address {func : Option Nat} {code : Code} {start : Nat} {ends ends' : BlockEnds}
    {t : Trap} (h : BlockEnds.find func code start ends = .error t ends') : t.dangling = false := by
  unfold BlockEnds.find at h
  split at h
  · cases h
  · split at h
    · cases h
    · rename_i ht
      cases h
      unfold Code.blockEnd at ht
      grind [Trap.dangling]

namespace Admits

variable (hR : R.Admits)

include hR

theorem pushValue {v : Value} (hv : R.value s v) :
    R.Effect s (Machine.onStack (Stack.pushValue v)) :=
  (hR.onStack (Stack.Keeps.pushValue hv)).acts fun _ h ↦ h

theorem pushScalar {v : Value} (hv : v.Scalar) : R.Effect s (Machine.onStack (Stack.pushValue v)) :=
  hR.pushValue (value_scalar hv)

theorem popNat : R.Reads s (Machine.onStack Stack.popNat) fun _ ↦ True :=
  hR.onStack .popNat

theorem popI32 : R.Reads s (Machine.onStack Stack.popI32) fun _ ↦ True :=
  hR.onStack (.popNumber _ _)

theorem popRef : R.Reads s (Machine.onStack Stack.popRef) (R.held s) :=
  (hR.onStack (Stack.Keeps.popRef (P := R.entry s))).imp fun _ hv ↦ ⟨hv.1, hR.reference hv.2⟩

theorem popValue : R.Reads s (Machine.onStack Stack.popValue) (R.value s) :=
  hR.onStack (Stack.Keeps.popValue (P := R.entry s))

theorem popTyped (t : ValType) : R.Reads s (Machine.onStack (Stack.popTyped t)) (R.value s) :=
  hR.onStack (Stack.Keeps.popTyped (P := R.entry s) t)

theorem lookup {space : Space} {addrs : Array Nat} {i : Nat} {Q : Nat → Prop}
    (hQ : ∀ a, addrs[i]? = some a → Q a) :
    R.Reads s (check (Instance.lookup space addrs i)) Q := by
  unfold Instance.lookup
  cases ha : addrs[i]? with
  | some a => exact .pure (hQ a ha)
  | none => exact .throw (hR.trap rfl)

theorem member {space : Space} {addrs : Array Nat} {i : Nat} {Q : Nat → Prop}
    (hQ : ∀ a ∈ addrs, Q a) : R.Reads s (check (Instance.lookup space addrs i)) Q :=
  hR.lookup fun a ha ↦ hQ a (Array.mem_of_getElem? ha)

theorem instance_ (hs : R.store s) : R.Reads s instance_ (R.Owns s) := by
  refine (hR.onStack (Stack.Keeps.currentFrame (P := R.entry s))).bind fun f hf ↦ .get ?_
  rintro m rfl
  unfold Store.instance_
  cases hinst : m.store.instances[f.inst]? with
  | none => exact .throw (hR.missing hs hf.1 (Array.getElem?_eq_none_iff.mp hinst))
  | some inst => exact .pure (hR.owner hs hf.1 hinst)

theorem tableAddr (hs : R.store s) (i : Idx) :
    R.Reads s (tableAddr i) fun a ↦ R.grants s .table a :=
  (hR.instance_ hs).bind fun _ ho ↦ hR.member ho.tables

theorem memoryAddr (hs : R.store s) : R.Reads s memoryAddr fun a ↦ R.grants s .memory a :=
  (hR.instance_ hs).bind fun _ ho ↦ hR.lookup ho.memory

theorem localGet (i : Nat) : R.Effect s (localGet i) := by
  refine (hR.onStack (Stack.Keeps.currentFrame (P := R.entry s))).then fun f hf ↦ ?_
  cases hv : f.locals[i]? with
  | none => exact Acts.throw (hR.trap rfl)
  | some v => exact hR.pushValue (hf.2 v (Array.mem_of_getElem? hv))

theorem setLocal (i : Nat) {v : Value} (hv : R.value s v) : R.Effect s (setLocal i v) := by
  refine Reads.acts (hR.onStack (.onFrame fun f hf ↦ ?_)) fun _ h ↦ h
  unfold Frame.setLocal
  cases hold : f.locals[i]? with
  | none => rfl
  | some old =>
    by_cases htype : old.type = v.type
    · simp only [htype, if_true]
      refine ⟨⟨hf.1, fun w hw ↦ ?_⟩, trivial⟩
      obtain hmem | rfl := Array.mem_or_eq_of_mem_setIfInBounds hw
      · exact hf.2 w hmem
      · exact hv
    · simp only [htype, if_false]
      rfl

theorem globalGet (hs : R.store s) (i : Nat) : R.Effect s (globalGet i) :=
  (hR.instance_ hs).then fun _ ho ↦ (hR.member ho.globals).then fun _ ha ↦
    (hR.global_reads hs ha).then fun _ hg ↦ hR.pushValue (hR.globalValue hs hg)

theorem globalSet (hs : R.store s) (i : Nat) : R.Effect s (globalSet i) := by
  refine (hR.instance_ hs).then fun _ ho ↦ (hR.member ho.globals).then fun a ha ↦
    hR.popValue.then fun v hv ↦ (hR.global_reads hs ha).then fun g hg ↦ ?_
  by_cases hmut : g.type.mutable = true
  · simp only [hmut, Bool.not_true, Bool.false_eq_true, if_false]
    exact (hR.setGlobal hs ha hg hmut hv).acts
  · simp only [Bool.not_eq_true] at hmut
    simp only [hmut, Bool.not_false, if_true]
    exact Acts.bind (T := fun _ _ ↦ False) (.throw (hR.trap rfl)) fun _ _ _ h ↦ h.elim

theorem pushGrown (old : Option Nat) : R.Effect s (pushGrown old) := by
  cases old <;> exact hR.pushScalar (by nofun)

theorem tableGet (hs : R.store s) (t : Idx) : R.Effect s (tableGet t) :=
  hR.popNat.then fun i _ ↦ (hR.tableAddr hs t).then fun _ ha ↦
    (hR.onTable hs ha (Table.changes_get i)).acts.bind fun _ _ hlead hv ↦
      hR.pushValue (hlead.value hv.1)

theorem tableSet (hs : R.store s) (t : Idx) : R.Effect s (tableSet t) :=
  hR.popRef.then fun _ hv ↦ hR.popNat.then fun i _ ↦ (hR.tableAddr hs t).then fun _ ha ↦
    (hR.onTable hs ha (Table.changes_set i hv)).acts

theorem tableSize (hs : R.store s) (t : Idx) : R.Effect s (tableSize t) :=
  (hR.tableAddr hs t).then fun _ ha ↦ (hR.table_reads hs ha).then fun _ _ ↦
    hR.pushScalar (by nofun)

theorem tableGrow (hs : R.store s) (t : Idx) : R.Effect s (tableGrow t) := by
  refine hR.popNat.then fun n _ ↦ hR.popRef.then fun _ hv ↦ (hR.tableAddr hs t).then fun _ ha ↦
    .get ?_
  rintro m rfl
  exact (hR.onTable hs ha (Table.changes_grow n _ hv _)).acts.bind fun old _ _ _ ↦ hR.pushGrown old

theorem tableFill (hs : R.store s) (t : Idx) : R.Effect s (tableFill t) :=
  hR.popNat.then fun n _ ↦ hR.popRef.then fun _ hv ↦ hR.popNat.then fun i _ ↦
    (hR.tableAddr hs t).then fun _ ha ↦ (hR.onTable hs ha (Table.changes_fill i n hv)).acts

theorem copyTable (hs : R.store s) {dstTable srcTable : Nat} (hd : R.grants s .table dstTable)
    (hsrc : R.grants s .table srcTable) (dst src len : Nat) :
    R.Effect s (Machine.onHeap (Heap.copyTable dstTable srcTable dst src len)) := by
  unfold Heap.copyTable
  by_cases hsame : dstTable = srcTable
  · simp only [hsame, if_true]
    exact (hR.onTable hs hsrc (Table.changes_copy dst src len)).acts
  · simp only [hsame, if_false]
    -- The values are on their way between two tables, so the policy is asked twice.
    refine Alters.acts ?_
    have hslice := hR.onTable hs hsrc (Table.changes_slice src len)
    rw [Alters] at hslice
    rw [Alters, Outcome.bind_apply]
    generalize Heap.onTable srcTable (Table.slice src len) s.heap = r at hslice
    cases r with
    | error t heap => exact hslice
    | ok vs heap =>
      obtain ⟨hlead, hvs⟩ := hslice
      have hinit := hR.onTable hlead.store (hlead.grants _ _ hd)
        (Table.changes_init dst 0 len fun v hv ↦ hlead.held (hvs v hv))
      simp only [Alters] at hinit ⊢
      generalize Heap.onTable dstTable (Table.init dst vs 0 len) heap = r at hinit
      cases r with
      | error t heap' => exact ⟨hlead.trans hinit.1, hinit.2⟩
      | ok u heap' => exact ⟨hlead.trans hinit.1, hinit.2⟩

theorem tableCopy (hs : R.store s) (dst src : Idx) : R.Effect s (tableCopy dst src) :=
  hR.popNat.then fun n _ ↦ hR.popNat.then fun i _ ↦ hR.popNat.then fun d _ ↦
    (hR.tableAddr hs dst).then fun _ hd ↦ (hR.tableAddr hs src).then fun _ hsrc ↦
      hR.copyTable hs hd hsrc d i n

theorem tableInit (hs : R.store s) (e t : Idx) : R.Effect s (tableInit e t) :=
  hR.popNat.then fun n _ ↦ hR.popNat.then fun i _ ↦ hR.popNat.then fun d _ ↦
    (hR.instance_ hs).then fun _ ho ↦ (hR.member ho.tables).then fun _ ha ↦
      (hR.member ho.elems).then fun _ he ↦
        (hR.elem_reads hs he).then fun _ hvs ↦
          (hR.onTable hs ha (Table.changes_init d i n (hR.elemValue hs hvs))).acts

theorem elemDrop (hs : R.store s) (e : Idx) : R.Effect s (elemDrop e) :=
  (hR.instance_ hs).then fun _ ho ↦ (hR.member ho.elems).then fun _ ha ↦
    (hR.dropElem hs ha).acts.bind fun _ _ _ _ ↦ Acts.pure trivial

theorem effectiveAddr (arg : MemArg) : R.Reads s (effectiveAddr arg) fun _ ↦ True :=
  hR.popNat.bind fun _ _ ↦ .pure trivial

/-- An operation on the memory of the current frame. -/
theorem onFirstMemory (hs : R.store s) {op : MemoryM α}
    (h : Memory.Changes s.config.maxMemoryPages op) :
    R.Acts s (do Heap.onMemory (← Machine.memoryAddr) op) fun _ _ ↦ True :=
  (hR.memoryAddr hs).then fun _ ha ↦ (hR.onMemory hs ha h).acts

theorem load (hs : R.store s) (op : LoadOp) (arg : MemArg) : R.Effect s (load op arg) := by
  refine (hR.effectiveAddr arg).then fun addr _ ↦ (hR.memoryAddr hs).then fun _ ha ↦
    (hR.onMemory hs ha (Memory.changes_load addr op.size)).acts.bind fun _ _ _ _ ↦ ?_
  refine hR.pushScalar ?_
  cases op with
  | full t => cases t <;> nofun
  | narrow n sign => exact Value.scalar_int _ _

theorem store (hs : R.store s) (op : StoreOp) (arg : MemArg) : R.Effect s (store_ op arg) :=
  (hR.onStack (.storeOperand op)).then fun _ _ ↦ (hR.effectiveAddr arg).then fun addr _ ↦
    hR.onFirstMemory hs (Memory.changes_store addr _)

theorem memorySize (hs : R.store s) : R.Effect s memorySize :=
  (hR.memoryAddr hs).then fun _ ha ↦ (hR.memory_reads hs ha).then fun _ _ ↦
    hR.pushScalar (by nofun)

theorem memoryGrow (hs : R.store s) : R.Effect s memoryGrow := by
  refine hR.popNat.then fun n _ ↦ (hR.memoryAddr hs).then fun _ ha ↦ .get ?_
  rintro m rfl
  exact (hR.onMemory hs ha (Memory.changes_grow n _ _)).acts.bind fun old _ _ _ ↦ hR.pushGrown old

theorem memoryInit (hs : R.store s) (d : Idx) : R.Effect s (memoryInit d) :=
  hR.popNat.then fun n _ ↦ hR.popNat.then fun i _ ↦ hR.popNat.then fun dst _ ↦
    (hR.instance_ hs).then fun _ ho ↦ (hR.lookup ho.memory).then fun _ ha ↦
      (hR.member ho.datas).then fun _ hd ↦ (hR.data_reads hs hd).then fun bs _ ↦
        (hR.onMemory hs ha (Memory.changes_init dst bs i n)).acts

theorem dataDrop (hs : R.store s) (d : Idx) : R.Effect s (dataDrop d) :=
  (hR.instance_ hs).then fun _ ho ↦ (hR.member ho.datas).then fun _ ha ↦
    (hR.dropData hs ha).acts.bind fun _ _ _ _ ↦ Acts.pure trivial

theorem memoryCopy (hs : R.store s) : R.Effect s memoryCopy :=
  hR.popNat.then fun n _ ↦ hR.popNat.then fun i _ ↦ hR.popNat.then fun d _ ↦
    hR.onFirstMemory hs (Memory.changes_copy d i n)

theorem memoryFill (hs : R.store s) : R.Effect s memoryFill :=
  hR.popNat.then fun n _ ↦ hR.popNat.then fun b _ ↦ hR.popNat.then fun d _ ↦
    hR.onFirstMemory hs (Memory.changes_fill d (UInt8.ofNat b) n)

theorem select (c : BitVec 32) {x y : Value} (hx : R.value s x) (hy : R.value s y) :
    R.Effect s (select c x y) := by
  unfold Machine.select
  split
  · exact hR.pushValue hx
  · exact hR.pushValue hy

theorem execNumeric (i : Instr) : R.Effect s (do
    unless ← Machine.onStack i.execNumeric do
      throw .unimplemented) := by
  have hnum : Stack.Keeps (R.entry s) i.execNumeric fun _ ↦ True := by
    cases i with
    | numeric op =>
      exact (Stack.Keeps.numeric (fun _ hv ↦ value_scalar hv) op).bind fun _ _ ↦ .pure trivial
    | _ => exact .pure trivial
  refine (hR.onStack hnum).then fun done _ ↦ ?_
  cases done with
  | true => exact Acts.pure trivial
  | false => exact Acts.throw (hR.trap rfl)

theorem simple (hs : R.store s) (i : Instr) : R.Effect s (simple i) := by
  cases i with
  | refNull t => exact hR.pushScalar (by cases t <;> nofun)
  | refIsNull => exact hR.popRef.then fun _ _ ↦ hR.pushScalar (by nofun)
  | refFunc f =>
    refine (hR.instance_ hs).then fun _ ho ↦ (hR.member ho.funcs).then fun a ha ↦ hR.pushValue ?_
    rintro b ⟨⟩
    exact ha
  | drop => exact hR.popValue.then fun _ _ ↦ Acts.pure trivial
  | select =>
    exact hR.popI32.then fun c _ ↦ hR.popValue.then fun y hy ↦ (hR.popTyped y.type).then
      fun _ hx ↦ hR.select c hx hy
  | selectTyped ts =>
    match ts with
    | [] => exact Acts.throw (hR.trap rfl)
    | [t] =>
      exact hR.popI32.then fun c _ ↦ (hR.popTyped t).then fun y hy ↦ (hR.popTyped t).then
        fun _ hx ↦ hR.select c hx hy
    | _ :: _ :: _ => exact Acts.throw (hR.trap rfl)
  | localGet i => exact hR.localGet _
  | localSet i => exact hR.popValue.then fun _ hv ↦ hR.setLocal _ hv
  | localTee i =>
    exact (hR.onStack (Stack.Keeps.peekValue (P := R.entry s))).then fun _ hv ↦ hR.setLocal _ hv
  | globalGet i => exact hR.globalGet hs _
  | globalSet i => exact hR.globalSet hs _
  | tableGet t => exact hR.tableGet hs t
  | tableSet t => exact hR.tableSet hs t
  | tableSize t => exact hR.tableSize hs t
  | tableGrow t => exact hR.tableGrow hs t
  | tableFill t => exact hR.tableFill hs t
  | tableCopy d t => exact hR.tableCopy hs d t
  | tableInit e t => exact hR.tableInit hs e t
  | elemDrop e => exact hR.elemDrop hs e
  | load op arg => exact hR.load hs op arg
  | store op arg => exact hR.store hs op arg
  | memorySize => exact hR.memorySize hs
  | memoryGrow => exact hR.memoryGrow hs
  | memoryInit d => exact hR.memoryInit hs d
  | dataDrop d => exact hR.dataDrop hs d
  | memoryCopy => exact hR.memoryCopy hs
  | memoryFill => exact hR.memoryFill hs
  | i32Const bits => exact hR.pushScalar (by nofun)
  | i64Const bits => exact hR.pushScalar (by nofun)
  | f32Const bits => exact hR.pushScalar (by nofun)
  | f64Const bits => exact hR.pushScalar (by nofun)
  | _ => exact hR.execNumeric _

theorem blockArity (hs : R.store s) (t : BlockType) :
    R.Reads s (blockArity t) fun _ ↦ True := by
  cases t with
  | empty => exact .pure trivial
  | value t => exact .pure trivial
  | func i =>
    refine (hR.instance_ hs).bind fun inst _ ↦ ?_
    cases (BlockType.func i).arity inst.mod.types with
    | some a => exact .pure trivial
    | none => exact .throw (hR.trap rfl)

theorem blockEnd : R.Reads s blockEnd fun _ ↦ True := by
  refine (hR.onStack (Stack.Keeps.currentFrame (P := R.entry s))).bind fun f _ ↦ .get fun m hm ↦ ?_
  intro m' hs hm'
  simp only [onEnds]
  cases hf : BlockEnds.find f.func f.body m.pc m'.ends with
  | ok e ends => exact ⟨hs, ⟨hm'.store, hm'.stack⟩, trivial⟩
  | error t ends => exact ⟨hs, hR.trap (find_address hf)⟩

theorem enterBlock (hs : R.store s) (t : BlockType) (isLoop : Bool) :
    R.Reads s (enterBlock t isLoop) fun _ ↦ True :=
  (hR.blockArity hs t).bind fun _ _ ↦ hR.blockEnd.bind fun _ _ ↦ .get fun _ _ ↦
    hR.onStack (.pushLabel trivial)

theorem enterIf (hs : R.store s) (t : BlockType) : R.Reads s (enterIf t) (R.flow s) := by
  refine hR.popI32.bind fun x _ ↦ ?_
  split
  · exact (hR.enterBlock hs t false).bind fun _ _ ↦ .pure trivial
  · refine hR.blockEnd.bind fun e _ ↦ ?_
    cases e.elsePc with
    | none => exact .pure trivial
    | some pc => exact (hR.enterBlock hs t false).bind fun _ _ ↦ .pure trivial

theorem branch (depth : Nat) : R.Reads s (branch depth) (R.flow s) := by
  refine (hR.onStack (.branch depth)).bind fun x _ ↦ ?_
  cases x with
  | jump pc => exact .pure trivial
  | leave => exact .pure trivial

theorem indirectCallee (hs : R.store s) (type table : Idx) :
    R.Reads s (indirectCallee type table) fun a ↦ R.grants s .func a := by
  refine hR.popNat.bind fun i _ ↦ (hR.instance_ hs).bind fun inst ho ↦ ?_
  refine @Reads.bind _ _ _ _ _ _ _ (fun _ ↦ True) ?_ fun expected _ ↦ ?_
  · unfold Instance.funcType
    cases inst.mod.types[type.toNat]? with
    | some t => exact .pure trivial
    | none => exact .throw (hR.trap rfl)
  refine (hR.member ho.tables).bind fun a ha ↦ (hR.table_reads hs ha).bind
    fun t ht ↦ ?_
  split
  · exact .throw (hR.trap rfl)
  · rename_i addr hv
    have hfunc := (hR.tableValue hs ht _ (Array.mem_of_getElem? hv)).1 addr rfl
    refine .get fun m hm ↦ ?_
    subst hm
    unfold Store.func
    cases hf : m.store.funcs[addr]? with
    | none =>
      exact Reads.bind (T := fun _ ↦ False)
        (.throw (hR.missing hs hfunc (Array.getElem?_eq_none_iff.mp hf))) fun _ h ↦ h.elim
    | some f =>
      change R.Reads m.store (if f.type = expected then _ else _) _
      split
      · exact .pure hfunc
      · exact .throw (hR.trap rfl)
  · exact .throw (hR.trap rfl)
  · exact .throw (hR.trap rfl)

theorem exec (hs : R.store s) (length : Nat) (i : Instr) :
    R.Acts s (exec length i) fun x s' ↦ R.flow s' x := by
  have hflow {op : Exec Flow} (h : R.Reads s op (R.flow s)) :
      R.Acts s op fun x s' ↦ R.flow s' x := h.acts fun _ hx ↦ hx
  cases i with
  | unreachable => exact hflow (.throw (hR.trap rfl))
  | nop => exact hflow (.pure trivial)
  | block t => exact hflow ((hR.enterBlock hs t false).bind fun _ _ ↦ .pure trivial)
  | loop t => exact hflow ((hR.enterBlock hs t true).bind fun _ _ ↦ .pure trivial)
  | if_ t => exact hflow (hR.enterIf hs t)
  | else_ => exact hflow ((hR.onStack (.currentLabel 0)).bind fun _ _ ↦ .pure trivial)
  | end_ =>
    refine hflow (.get fun m _ ↦ ?_)
    split
    · exact .pure trivial
    · exact (hR.onStack .popLabel).bind fun _ _ ↦ .pure trivial
  | br l => exact hflow (hR.branch _)
  | brIf l =>
    refine hflow (hR.popI32.bind fun x _ ↦ ?_)
    split
    · exact hR.branch _
    · exact .pure trivial
  | brTable ls l => exact hflow (hR.popNat.bind fun _ _ ↦ hR.branch _)
  | return_ => exact hflow (.pure trivial)
  | call f =>
    exact hflow ((hR.instance_ hs).bind fun _ ho ↦ (hR.member ho.funcs).bind fun _ ha ↦ .pure ha)
  | callIndirect type table =>
    exact hflow ((hR.indirectCallee hs type table).bind fun _ ha ↦ .pure ha)
  | _ => exact (hR.simple hs _).bind fun _ _ _ _ ↦ Acts.pure trivial

/-- The current instruction, before the call or return that it asks for. -/
theorem step (hs : R.store s) : R.Acts s step fun x s' ↦ R.flow s' x := by
  refine (hR.onStack (Stack.Keeps.currentFrame (P := R.entry s))).then fun f _ ↦ .get fun m _ ↦ ?_
  cases f.body[m.pc]? with
  | some i => exact hR.exec hs _ i
  | none => exact Acts.throw (hR.trap rfl)

end Admits

end Wasm.Policy
