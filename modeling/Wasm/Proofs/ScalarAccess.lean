import Wasm.Proofs.Atomicity
import Wasm.Proofs.Memory
import Wasm.Proofs.Machine.Operands
import Wasm.Bytes.LittleEndian.Lemmas

namespace Wasm

open Outcome

namespace Memory

variable {m : Memory} {addr len start : Nat} {bs : List UInt8}

/-- A memory in which the `n` bytes from `addr` on have become the low ones of the number `x`, the
least significant first. -/
structure Written (m : Memory) (addr n x : Nat) (m' : Memory) : Prop where
  type : m'.type = m.type
  size : m'.size = m.size
  bytes : ∀ i, m'.bytes.data[i]? =
    if addr ≤ i ∧ i < addr + n then some (UInt8.ofNat (x / 256 ^ (i - addr)))
    else m.bytes.data[i]?

theorem written_put {n x : Nat} (h : addr + n ≤ m.size) :
    m.Written addr n x (m.put addr (LittleEndian.encode n x)) := by
  have hlen := LittleEndian.length_encode n x
  refine ⟨rfl, size_put .., fun i ↦ ?_⟩
  rw [getElem?_put (by rwa [hlen]), hlen]
  split
  · rw [LittleEndian.getElem?_encode, if_pos (by omega)]
  · rfl

theorem range_put_self (h : start + bs.length ≤ m.size) :
    (m.put start bs).range start bs.length = bs := by
  have hlen : (m.bytes.data.toList.take start).length = start := by
    rw [List.length_take]
    exact Nat.min_eq_left (Nat.le_trans (Nat.le_add_right ..) h)
  rw [range, put, overwrite_eq_append h, List.append_assoc, List.drop_left' hlen, List.take_left]

theorem range_put_disjoint (h : start + bs.length ≤ m.size)
    (hd : addr + len ≤ start ∨ start + bs.length ≤ addr) :
    (m.put start bs).range addr len = m.range addr len := by
  apply List.ext_getElem?
  intro i
  rw [range, range, List.getElem?_take, List.getElem?_take]
  split
  · rw [List.getElem?_drop, List.getElem?_drop, Array.getElem?_toList, Array.getElem?_toList,
      getElem?_put h, if_neg (by omega)]
  · rfl

end Memory

def NumType.toValType : NumType → ValType
  | .i32 => .i32
  | .i64 => .i64
  | .f32 => .f32
  | .f64 => .f64

def NumType.int : Width → NumType
  | .w32 => .i32
  | .w64 => .i64

def LoadOp.type : LoadOp → NumType
  | full t => t
  | narrow n _ => .int n.width

def StoreOp.type : StoreOp → NumType
  | full t => t
  | narrow n => .int n.width

def Value.bits : Value → Nat
  | i32 x | f32 x => x.toNat
  | i64 x | f64 x => x.toNat
  | v128 x => x.toNat
  | funcref _ | externref _ => 0

def Value.ofInt : NumType → Int → Value
  | .i32, x => .i32 (.ofInt 32 x)
  | .i64, x => .i64 (.ofInt 64 x)
  | .f32, x => .f32 (.ofInt 32 x)
  | .f64, x => .f64 (.ofInt 64 x)

theorem Value.type_ofInt (t : NumType) (x : Int) : (ofInt t x).type = t.toValType := by
  cases t <;> rfl

/-- What a load makes of the low bits of a number: the number that they are, which is negative if
the load is signed and the highest of them is set. -/
def LoadOp.extended (op : LoadOp) (x : Nat) : Int :=
  match op with
  | narrow _ .signed => (x : Int).bmod (2 ^ (8 * op.size))
  | _ => (x : Int) % (2 ^ (8 * op.size) : Nat)

theorem LoadOp.extended_mod (op : LoadOp) (x : Nat) :
    op.extended (x % 2 ^ (8 * op.size)) = op.extended x := by
  unfold extended
  split
  · rw [Int.natCast_mod, Int.emod_bmod]
  · rw [← Int.natCast_mod, ← Int.natCast_mod, Nat.mod_mod]

theorem ofInt_emod (w x : Nat) :
    BitVec.ofInt w ((x : Int) % (2 ^ w : Nat)) = BitVec.ofNat w x := by
  rw [← Int.natCast_mod, BitVec.ofInt_natCast]
  apply BitVec.eq_of_toNat_eq
  simp

theorem LoadOp.value_eq (op : LoadOp) (x : Nat) : op.value x = .ofInt op.type (op.extended x) := by
  cases op with
  | full t =>
    cases t with
    | i32 => exact congrArg Value.i32 (ofInt_emod 32 x).symm
    | i64 => exact congrArg Value.i64 (ofInt_emod 64 x).symm
    | f32 => exact congrArg Value.f32 (ofInt_emod 32 x).symm
    | f64 => exact congrArg Value.f64 (ofInt_emod 64 x).symm
  | narrow n s =>
    have hbits : 8 * (narrow n s).size = n.bits := by cases n <;> rfl
    have hresize : s.resize n.width.bits (BitVec.ofNat n.bits x) =
        BitVec.ofInt n.width.bits ((narrow n s).extended x) := by
      cases s with
      | signed =>
        rw [extended, hbits, ← BitVec.toInt_ofNat]
        rfl
      | unsigned =>
        have hlow : (narrow n .unsigned).extended x = (x : Int) % (2 ^ n.bits : Nat) :=
          congrArg (fun k : Nat ↦ (x : Int) % (2 ^ k : Nat)) hbits
        rw [hlow, ← Int.natCast_mod, BitVec.ofInt_natCast, ← BitVec.toNat_ofNat,
          BitVec.ofNat_toNat]
        rfl
    cases n with
    | i32x8 => exact congrArg Value.i32 hresize
    | i32x16 => exact congrArg Value.i32 hresize
    | i64x8 => exact congrArg Value.i64 hresize
    | i64x16 => exact congrArg Value.i64 hresize
    | i64x32 => exact congrArg Value.i64 hresize

namespace Stack

variable {s : Stack} {v : Value}

theorem popInt_pushed {w : Width} (h : v.type = .int w) :
    (BitVec.toNat <$> popInt w) (s.pushed v) = .ok v.bits s := by
  cases w with
  | w32 =>
    cases v <;> cases h
    exact map_popAs_pushed BitVec.toNat rfl
  | w64 =>
    cases v <;> cases h
    exact map_popAs_pushed BitVec.toNat rfl

theorem popFloat_pushed {w : Width} (h : v.type = .float w) :
    (BitVec.toNat <$> popFloat w) (s.pushed v) = .ok v.bits s := by
  cases w with
  | w32 =>
    cases v <;> cases h
    exact map_popAs_pushed BitVec.toNat rfl
  | w64 =>
    cases v <;> cases h
    exact map_popAs_pushed BitVec.toNat rfl

theorem popOperand_pushed {op : StoreOp} (h : v.type = op.type.toValType) :
    op.popOperand (s.pushed v) = .ok v.bits s := by
  cases op with
  | full t =>
    cases t with
    | i32 => exact popInt_pushed (w := .w32) h
    | i64 => exact popInt_pushed (w := .w64) h
    | f32 => exact popFloat_pushed (w := .w32) h
    | f64 => exact popFloat_pushed (w := .w64) h
  | narrow n => cases n <;> exact popInt_pushed h

end Stack

theorem LoadOp.value_bits {t : NumType} {v : Value} (h : v.type = t.toValType) :
    (full t).value v.bits = v := by
  have hself {w : Nat} (x : BitVec w) : BitVec.ofNat w x.toNat = x := by
    rw [BitVec.ofNat_toNat, BitVec.setWidth_eq]
  cases t with
  | i32 =>
    cases v <;> cases h
    exact congrArg Value.i32 (hself _)
  | i64 =>
    cases v <;> cases h
    exact congrArg Value.i64 (hself _)
  | f32 =>
    cases v <;> cases h
    exact congrArg Value.f32 (hself _)
  | f64 =>
    cases v <;> cases h
    exact congrArg Value.f64 (hself _)

/-- Where a memory is accessed, in natural numbers: nothing wraps. -/
def MemArg.addr (arg : MemArg) (base : BitVec 32) : Nat :=
  base.toNat + arg.offset.toNat

namespace Machine

open Stack

variable {m : Machine} {mem : Memory} {a length : Nat} {v : Value} {base : BitVec 32} {arg : MemArg}

/-- The memory of the current frame is the one at address `a`. -/
structure HasMemory (m : Machine) (a : Nat) (mem : Memory) : Prop where
  addr : memoryAddr m = .ok a m
  memory : m.store.heap.memories[a]? = some mem

def withMemory (m : Machine) (a : Nat) (mem : Memory) : Machine :=
  { m with store.heap.memories := m.store.heap.memories.setIfInBounds a mem }

/-- The first memory of the instance of the current frame. Memories themselves are not looked at. -/
theorem memoryAddr_ok_iff : memoryAddr m = .ok a m ↔
    ∃ f inst, currentFrame m.stack = .ok f m.stack ∧ m.store.instance_ f.inst = .ok inst ∧
      inst.memoryAddr 0 = .ok a := by
  have hread := reads_currentFrame m.stack
  change ((onStack currentFrame >>= fun f ↦ get >>= fun m ↦ check (m.store.instance_ f.inst)) >>=
    fun inst ↦ check (inst.memoryAddr 0)) m = _ ↔ _
  simp only [bind_apply, onStack, get_apply]
  generalize currentFrame m.stack = x at hread
  cases x with
  | error t stack => simp
  | ok f stack =>
    cases hread
    simp only
    cases hinst : m.store.instance_ f.inst with
    | error t => simp [check, hinst]
    | ok inst => cases haddr : inst.memoryAddr 0 <;> simp [check, hinst, haddr]

theorem HasMemory.withMemory (h : m.HasMemory a mem) (mem' : Memory) :
    (m.withMemory a mem').HasMemory a mem' := by
  have hlt := (Array.getElem?_eq_some_iff.mp h.memory).1
  constructor
  · obtain ⟨f, inst, hf, hinst, haddr⟩ := memoryAddr_ok_iff.mp h.addr
    exact memoryAddr_ok_iff.mpr ⟨f, inst, hf, hinst, haddr⟩
  · simp [Machine.withMemory, hlt]

theorem effectiveAddr_pushed :
    effectiveAddr arg (m.pushed (.i32 base)) = .ok (arg.addr base) m := by
  change (onStack popNat >>= fun x ↦ pure (x + arg.offset.toNat)) (m.pushed (.i32 base)) = _
  simp only [bind_apply, onStack_popNat_pushed, pure_apply, MemArg.addr]

theorem exec_store {op : StoreOp} (hm : m.HasMemory a mem) (hv : v.type = op.type.toValType) :
    exec length (.store op arg) ((m.pushed (.i32 base)).pushed v) =
      if arg.addr base + op.size ≤ mem.size then
        .ok .next (m.withMemory a (mem.put (arg.addr base)
          (LittleEndian.encode op.size v.bits)))
      else .error (.memoryOutOfBounds (arg.addr base) op.size) m := by
  change ((onStack op.popOperand >>= fun x ↦ effectiveAddr arg >>= fun addr ↦ memoryAddr >>= fun a ↦
    onHeap (Heap.onMemory a (Memory.store addr (LittleEndian.encode op.size x)))) >>= fun _ ↦
      pure Flow.next) _ = _
  simp only [bind_apply, onStack_pushed (popOperand_pushed hv), effectiveAddr_pushed, hm.addr,
    onHeap_apply, Heap.onMemory_apply, hm.memory, Memory.store_apply, LittleEndian.length_encode]
  by_cases hfit : arg.addr base + op.size ≤ mem.size
  · simp only [hfit, if_true]
    rfl
  · -- The memory is put back as it was.
    simp only [hfit, if_false, setIfInBounds_of_getElem? hm.memory]

theorem exec_load {op : LoadOp} (hm : m.HasMemory a mem)
    (hroom : m.stack.entries.size < m.stack.limit) :
    exec length (.load op arg) (m.pushed (.i32 base)) =
      if arg.addr base + op.size ≤ mem.size then
        .ok .next (m.pushed (op.value (LittleEndian.decode
          (mem.range (arg.addr base) op.size))))
      else .error (.memoryOutOfBounds (arg.addr base) op.size) m := by
  change ((effectiveAddr arg >>= fun addr ↦ memoryAddr >>= fun a ↦
    onHeap (Heap.onMemory a (Memory.load addr op.size)) >>= fun bs ↦
      onStack (pushValue (op.value (LittleEndian.decode bs)))) >>= fun _ ↦ pure Flow.next) _ = _
  simp only [bind_apply, effectiveAddr_pushed, hm.addr,
    onHeap_apply, Heap.onMemory_apply, hm.memory, Memory.load_apply]
  by_cases hfit : arg.addr base + op.size ≤ mem.size
  · simp only [hfit, if_true, setIfInBounds_of_getElem? hm.memory, onStack, pushValue, push, hroom]
    rfl
  · simp only [hfit, if_false, setIfInBounds_of_getElem? hm.memory]

/-- A load from `base` puts `v` in the place of its operand, and does nothing else. -/
def Loads (m : Machine) (op : LoadOp) (arg : MemArg) (base : BitVec 32) (v : Value) : Prop :=
  ∀ length, exec length (.load op arg) (m.pushed (.i32 base)) = .ok .next (m.pushed v)

theorem pushed_inj {w : Value} (h : m.pushed v = m.pushed w) : v = w :=
  Stack.pushed_inj (congrArg Machine.stack h)

theorem loads_iff {op : LoadOp} (hm : m.HasMemory a mem)
    (hroom : m.stack.entries.size < m.stack.limit) : m.Loads op arg base v ↔
      arg.addr base + op.size ≤ mem.size ∧
      v = .ofInt op.type
        (op.extended (LittleEndian.decode (mem.range (arg.addr base) op.size))) := by
  simp only [Loads, exec_load hm hroom, LoadOp.value_eq]
  by_cases hfit : arg.addr base + op.size ≤ mem.size
  · simp only [hfit, if_true, true_and, forall_const]
    constructor
    · intro h
      cases pushed_inj (EStateM.Result.ok.inj h).2
      rfl
    · intro h
      rw [h]
  · simp [hfit]

theorem loads_written {op : LoadOp} (hm : m.HasMemory a mem)
    (hroom : m.stack.entries.size < m.stack.limit) (hfit : arg.addr base + op.size ≤ mem.size)
    (x : Nat) :
    (m.withMemory a (mem.put (arg.addr base) (LittleEndian.encode op.size x))).Loads op arg base
      (.ofInt op.type (op.extended x)) := by
  have hlen := LittleEndian.length_encode op.size x
  have hself := @Memory.range_put_self mem (arg.addr base) (LittleEndian.encode op.size x)
    (by rwa [hlen])
  rw [hlen] at hself
  -- Bits that were not written make no difference to what the load makes of the others.
  have hbase : 256 ^ op.size = 2 ^ (8 * op.size) := by rw [Nat.pow_mul]
  refine (loads_iff (hm.withMemory _) hroom).mpr ⟨by rwa [Memory.size_put], ?_⟩
  rw [hself, LittleEndian.decode_encode, hbase, LoadOp.extended_mod]

theorem loads_apart {op : LoadOp} {n : Nat} {bs : List UInt8} (hm : m.HasMemory a mem)
    (hroom : m.stack.entries.size < m.stack.limit) (hfit : n + bs.length ≤ mem.size)
    (hd : arg.addr base + op.size ≤ n ∨ n + bs.length ≤ arg.addr base) :
    (m.withMemory a (mem.put n bs)).Loads op arg base v ↔ m.Loads op arg base v := by
  rw [loads_iff (hm.withMemory _) hroom, loads_iff hm hroom, Memory.size_put,
    Memory.range_put_disjoint hfit hd]

/-- A store traps if and only if its range of bytes is not all within the memory, and then changes
nothing in the store. Otherwise it changes these bytes and no others. A load traps under the same
condition. One of as many bytes from where a store has written gives the low bits of the operand,
filled up with zeros or with their sign, and a number that is stored and loaded as a whole comes
back bit by bit. One of other bytes gives what it gave before. -/
theorem scalar_access (hm : m.HasMemory a mem) (hroom : m.stack.entries.size < m.stack.limit)
    (store : StoreOp) (hv : v.type = store.type.toValType) (arg : MemArg) (base : BitVec 32) :
    (mem.size < arg.addr base + store.size → ∀ length,
      exec length (.store store arg) ((m.pushed (.i32 base)).pushed v) =
        .error (.memoryOutOfBounds (arg.addr base) store.size) m) ∧
    (arg.addr base + store.size ≤ mem.size → ∃ mem',
      (∀ length, exec length (.store store arg) ((m.pushed (.i32 base)).pushed v) =
        .ok .next (m.withMemory a mem')) ∧
      mem.Written (arg.addr base) store.size v.bits mem' ∧
      (m.withMemory a mem').HasMemory a mem' ∧
      ∀ (load : LoadOp) (arg' : MemArg) (base' : BitVec 32),
        (arg'.addr base' = arg.addr base → load.size = store.size →
          (m.withMemory a mem').Loads load arg' base' (.ofInt load.type (load.extended v.bits))) ∧
        (arg'.addr base' = arg.addr base → ∀ t, load = .full t → store = .full t →
          (m.withMemory a mem').Loads load arg' base' v) ∧
        (arg'.addr base' + load.size ≤ arg.addr base ∨
            arg.addr base + store.size ≤ arg'.addr base' →
          ∀ w, (m.withMemory a mem').Loads load arg' base' w ↔ m.Loads load arg' base' w)) ∧
    ∀ (load : LoadOp) (arg' : MemArg) (base' : BitVec 32),
      (mem.size < arg'.addr base' + load.size → ∀ length,
        exec length (.load load arg') (m.pushed (.i32 base')) =
          .error (.memoryOutOfBounds (arg'.addr base') load.size) m) ∧
      (arg'.addr base' + load.size ≤ mem.size →
        ∃ w, w.type = load.type.toValType ∧ m.Loads load arg' base' w) := by
  refine ⟨?_, ?_, ?_⟩
  · intro hout length
    rw [exec_store hm hv, if_neg (Nat.not_le.mpr hout)]
  · intro hfit
    refine ⟨mem.put (arg.addr base) (LittleEndian.encode store.size v.bits), fun length ↦ ?_,
      Memory.written_put hfit, hm.withMemory _, fun load arg' base' ↦ ⟨?_, ?_, ?_⟩⟩
    · rw [exec_store hm hv, if_pos hfit]
    · intro haddr hsize
      rw [← haddr, ← hsize] at hfit ⊢
      exact loads_written hm hroom hfit v.bits
    · intro haddr t hload hstore
      subst hload hstore
      rw [← haddr] at hfit ⊢
      have hloads := @loads_written m mem a base' arg' (.full t) hm hroom hfit v.bits
      have hbits : (LoadOp.full t).value v.bits = v := LoadOp.value_bits hv
      rwa [← LoadOp.value_eq, hbits] at hloads
    · intro hd w
      have hlen := LittleEndian.length_encode store.size v.bits
      exact loads_apart hm hroom (by rwa [hlen]) (by rwa [hlen])
  · intro load arg' base'
    constructor
    · intro hout length
      rw [exec_load hm hroom, if_neg (Nat.not_le.mpr hout)]
    · intro hfit
      exact ⟨_, Value.type_ofInt .., (loads_iff hm hroom).mpr ⟨hfit, rfl⟩⟩

def eightBytes : Machine where
  store.instances := #[{ memories := #[0] }]
  store.heap.memories := #[⟨⟨⟨1, none⟩⟩, ⟨#[1, 2, 3, 4, 5, 6, 7, 8]⟩⟩]
  stack.entries := #[.frame ⟨0, some 0, #[], 0, 0, #[]⟩]
  stack.frames := #[0]
  stack.limit := 3

theorem scalar_access_eightBytes : ∃ mem',
    exec 1 (.store (.narrow .i64x16) ⟨1, 4⟩)
      ((eightBytes.pushed (.i32 2)).pushed (.i64 0xABCD8001)) =
        .ok .next (eightBytes.withMemory 0 mem') ∧
    mem'.bytes.data[6]? = some 0x01 ∧ mem'.bytes.data[7]? = some 0x80 ∧
    (eightBytes.withMemory 0 mem').Loads (.narrow .i32x16 .signed) ⟨1, 6⟩ 0 (.i32 (-32767)) := by
  have hm : eightBytes.HasMemory 0 ⟨⟨⟨1, none⟩⟩, ⟨#[1, 2, 3, 4, 5, 6, 7, 8]⟩⟩ := ⟨rfl, rfl⟩
  obtain ⟨-, hstore, -⟩ := @scalar_access eightBytes _ 0 (.i64 0xABCD8001) hm (by decide)
    (.narrow .i64x16) rfl ⟨1, 4⟩ 2
  obtain ⟨mem', hexec, hwritten, -, hloads⟩ := hstore (by decide)
  have hvalue : Value.ofInt .i32 ((LoadOp.narrow .i32x16 .signed).extended 0xABCD8001) =
      .i32 (-32767) := by decide
  refine ⟨mem', hexec 1, ?_, ?_, hvalue ▸ (hloads (.narrow .i32x16 .signed) ⟨1, 6⟩ 0).1 rfl rfl⟩
  · exact hwritten.bytes 6
  · exact hwritten.bytes 7

end Machine

end Wasm
