import Wasm.Proofs.Stack.Changes
import Wasm.Proofs.Heap.Atomicity
import Wasm.Proofs.Store

namespace Wasm

open Outcome Stack

def Instr.writes : Instr → Bool
  | .globalSet _ | .tableSet _ | .tableGrow _ | .tableFill _ | .tableCopy _ _ | .tableInit _ _
  | .elemDrop _ | .store _ _ | .memoryGrow | .memoryInit _ | .dataDrop _ | .memoryCopy
  | .memoryFill => true
  | _ => false

namespace Machine

/-- Programs that are made of looks at the machine, of operations on the stack and of operations of
the kind `H` on the heap. -/
inductive Program (H : (β : Type) → HeapM β → Prop) : {α : Type} → Exec α → Prop
  | pure {α : Type} (a : α) : Program H (pure a)
  | throw {α : Type} (t : Trap) : Program H (throw t : Exec α)
  | bind {α β : Type} {op : Exec α} {k : α → Exec β} : Program H op → (∀ a, Program H (k a)) →
    Program H (op >>= k)
  | get {α : Type} {k : Machine → Exec α} : (∀ m ends, k { m with ends } = k m) →
    (∀ m, Program H (k m)) → Program H (get >>= k)
  | stack {α : Type} {op : StackM α} : Respects Stack.Evolves op → Program H (onStack op)
  | heap {α : Type} {op : HeapM α} : H α op → Program H (onHeap op)

/-- The operations on the heap that an instruction is made of: those that write nothing, unless the
instruction may write. -/
def Touches (i : Instr) (α : Type) (op : HeapM α) : Prop := i.writes = false → Respects Eq op

variable {H : (β : Type) → HeapM β → Prop} {α : Type}

namespace Program

theorem check (r : Except Trap α) : Program H (check r) := by
  cases r with
  | ok a => exact .pure a
  | error t => exact .throw t

theorem instance_ : Program H instance_ :=
  .bind (.stack evolves_currentFrame) fun _ ↦ .get (fun _ _ ↦ rfl) fun _ ↦ .check _

theorem memoryAddr : Program H memoryAddr := instance_.bind fun _ ↦ .check _

theorem tableAddr (i : Idx) : Program H (tableAddr i) := instance_.bind fun _ ↦ .check _

theorem popNat : Program H (onStack popNat) := .stack evolves_popNat

theorem popRef : Program H (onStack popRef) := .stack (evolves_popAs _ _)

theorem push (v : Value) : Program H (onStack (pushValue v)) := .stack (evolves_pushValue v)

theorem effectiveAddr (arg : MemArg) : Program H (effectiveAddr arg) := popNat.bind fun _ ↦ .pure _

/-- An operation on the memory of the current frame. -/
theorem onFirstMemory {op : MemoryM α} (h : ∀ a, H α (Heap.onMemory a op)) :
    Program H (do Heap.onMemory (← Machine.memoryAddr) op) :=
  memoryAddr.bind fun a ↦ .heap (h a)

/-- An operation on a table of the current frame. -/
theorem onNthTable {op : TableM α} (h : ∀ a, H α (Heap.onTable a op)) (t : Idx) :
    Program H (do Heap.onTable (← Machine.tableAddr t) op) :=
  (tableAddr t).bind fun a ↦ .heap (h a)

theorem setLocal (i : Nat) (v : Value) : Program H (setLocal i v) :=
  .stack (evolves_onFrame (Frame.evolves_setLocal i v))

theorem localGet (i : Nat) : Program H (localGet i) := by
  refine .bind (.stack evolves_currentFrame) fun f ↦ ?_
  cases f.locals[i]? with
  | some v => exact .push v
  | none => exact .throw _

theorem simple (i : Instr) : Program (Touches i) (simple i) := by
  cases i with
  | refNull t => exact .push _
  | refIsNull => exact popRef.bind fun _ ↦ .push _
  | refFunc f => exact instance_.bind fun _ ↦ (check _).bind fun _ ↦ .push _
  | drop => exact .bind (.stack evolves_popValue) fun _ ↦ .pure _
  | select =>
    exact .bind (.stack (evolves_popAs _ _)) fun _ ↦ .bind (.stack evolves_popValue) fun _ ↦
      .bind (.stack (evolves_popAs _ _)) fun _ ↦ .push _
  | selectTyped ts =>
    match ts with
    | [] => exact .throw _
    | [t] =>
      exact .bind (.stack (evolves_popAs _ _)) fun _ ↦ .bind (.stack (evolves_popAs _ _)) fun _ ↦
        .bind (.stack (evolves_popAs _ _)) fun _ ↦ .push _
    | _ :: _ :: _ => exact .throw _
  | localGet i => exact .localGet _
  | localSet i => exact .bind (.stack evolves_popValue) fun _ ↦ .setLocal _ _
  | localTee i => exact .bind (.stack evolves_peekValue) fun _ ↦ .setLocal _ _
  | globalGet i =>
    exact instance_.bind fun _ ↦ (check _).bind fun a ↦
      .bind (.heap fun _ ↦ Heap.reads_global a) fun _ ↦ .push _
  | globalSet i =>
    refine instance_.bind fun _ ↦ (check _).bind fun _ ↦ .bind (.stack evolves_popValue) fun _ ↦
      .bind (.heap nofun) fun g ↦ ?_
    cases g.type.mutable with
    | true => exact .heap nofun
    | false => exact .bind (.throw _) fun _ ↦ .heap nofun
  | tableGet t =>
    exact popNat.bind fun i ↦ .bind (.tableAddr t) fun a ↦
      .bind (.heap fun _ ↦ Heap.reads_onTable (Table.reads_get i) a) fun _ ↦ .push _
  | tableSet t => exact popRef.bind fun _ ↦ popNat.bind fun _ ↦ .onNthTable (fun _ ↦ nofun) t
  | tableSize t =>
    exact .bind (.tableAddr t) fun a ↦ .bind (.heap fun _ ↦ Heap.reads_table a) fun _ ↦ .push _
  | tableGrow t =>
    exact popNat.bind fun _ ↦ popRef.bind fun _ ↦ .bind (.tableAddr t) fun _ ↦
      .get (fun _ _ ↦ rfl) fun _ ↦ .bind (.heap nofun) fun _ ↦ .push _
  | tableFill t =>
    exact popNat.bind fun _ ↦ popRef.bind fun _ ↦ popNat.bind fun _ ↦ .onNthTable (fun _ ↦ nofun) t
  | tableCopy d s =>
    exact popNat.bind fun _ ↦ popNat.bind fun _ ↦ popNat.bind fun _ ↦ .bind (.tableAddr d) fun _ ↦
      .bind (.tableAddr s) fun _ ↦ .heap nofun
  | tableInit e t =>
    exact popNat.bind fun _ ↦ popNat.bind fun _ ↦ popNat.bind fun _ ↦ instance_.bind fun _ ↦
      (check _).bind fun _ ↦ (check _).bind fun _ ↦ .bind (.heap nofun) fun _ ↦ .heap nofun
  | elemDrop e =>
    exact instance_.bind fun _ ↦ (check _).bind fun _ ↦ .bind (.heap nofun) fun _ ↦ .pure _
  | load op arg =>
    exact (effectiveAddr arg).bind fun addr ↦ memoryAddr.bind fun a ↦
      .bind (.heap fun _ ↦ Heap.reads_onMemory (Memory.reads_load addr op.size) a) fun _ ↦ .push _
  | store op arg =>
    exact .bind (.stack (evolves_storeOperand op)) fun _ ↦ (effectiveAddr arg).bind fun _ ↦
      .onFirstMemory fun _ ↦ nofun
  | memorySize =>
    exact memoryAddr.bind fun a ↦ .bind (.heap fun _ ↦ Heap.reads_memory a) fun _ ↦ .push _
  | memoryGrow =>
    exact popNat.bind fun _ ↦ memoryAddr.bind fun _ ↦ .get (fun _ _ ↦ rfl) fun _ ↦
      .bind (.heap nofun) fun _ ↦ .push _
  | memoryInit d =>
    exact popNat.bind fun _ ↦ popNat.bind fun _ ↦ popNat.bind fun _ ↦ instance_.bind fun _ ↦
      (check _).bind fun _ ↦ (check _).bind fun _ ↦ .bind (.heap nofun) fun _ ↦ .heap nofun
  | dataDrop d =>
    exact instance_.bind fun _ ↦ (check _).bind fun _ ↦ .bind (.heap nofun) fun _ ↦ .pure _
  | memoryCopy =>
    exact popNat.bind fun _ ↦ popNat.bind fun _ ↦ popNat.bind fun _ ↦ .onFirstMemory fun _ ↦ nofun
  | memoryFill =>
    exact popNat.bind fun _ ↦ popNat.bind fun _ ↦ popNat.bind fun _ ↦ .onFirstMemory fun _ ↦ nofun
  | i32Const bits => exact .push _
  | i64Const bits => exact .push _
  | f32Const bits => exact .push _
  | f64Const bits => exact .push _
  | _ =>
    refine .bind (.stack (evolves_execNumeric _)) fun done ↦ ?_
    cases done with
    | true => exact .pure _
    | false => exact .throw _

theorem branch (depth : Nat) : Program H (branch depth) := by
  refine .bind (.stack (evolves_branch depth)) fun x ↦ ?_
  cases x with
  | jump pc => exact .pure _
  | leave => exact .pure _

theorem indirectCallee (hread : ∀ (β : Type) (op : HeapM β), Respects Eq op → H β op)
    (type table : Idx) : Program H (indirectCallee type table) := by
  refine popNat.bind fun i ↦ instance_.bind fun inst ↦ (check _).bind fun expected ↦
    (check _).bind fun a ↦ .bind (.heap (hread _ _ (Heap.reads_table a))) fun t ↦ ?_
  split
  · exact .throw _
  · refine .get (fun _ _ ↦ rfl) fun m ↦ (check _).bind fun f ↦ ?_
    split
    · exact .pure _
    · exact .throw _
  · exact .throw _
  · exact .throw _

/-- Instructions that enter no construct do not look at the ends that were found before. -/
theorem exec {i : Instr} (hi : i.opens = false) (length : Nat) :
    Program (Touches i) (exec length i) := by
  cases i with
  | block t => cases hi
  | loop t => cases hi
  | if_ t => cases hi
  | unreachable => exact .throw _
  | nop => exact .pure _
  | else_ => exact .bind (.stack (evolves_currentLabel 0)) fun _ ↦ .pure _
  | end_ =>
    refine .get (fun _ _ ↦ rfl) fun m ↦ ?_
    split
    · exact .pure _
    · exact .bind (.stack evolves_popLabel) fun _ ↦ .pure _
  | br l => exact .branch _
  | brIf l =>
    refine .bind (.stack (evolves_popAs _ _)) fun x ↦ ?_
    split
    · exact .branch _
    · exact .pure _
  | brTable ls l => exact popNat.bind fun _ ↦ .branch _
  | return_ => exact .pure _
  | call f => exact instance_.bind fun _ ↦ (check _).bind fun _ ↦ .pure _
  | callIndirect type table =>
    exact (indirectCallee (fun _ _ h _ ↦ h) type table).bind fun _ ↦ .pure _
  | _ => exact (simple _).bind fun _ ↦ .pure _

theorem blockArity (t : BlockType) : Program H (blockArity t) := by
  cases t with
  | empty => exact .pure _
  | value t => exact .pure _
  | func i =>
    refine instance_.bind fun inst ↦ ?_
    cases (BlockType.func i).arity inst.mod.types with
    | some a => exact .pure a
    | none => exact .throw _

end Program

end Machine

end Wasm
