import Wasm.Proofs.Encode.Reads

namespace Wasm

section Tables

@[simp] theorem Sign.mem_all (s : Sign) : s ∈ Sign.all := by cases s <;> decide

@[simp] theorem Width.mem_all (w : Width) : w ∈ Width.all := by cases w <;> decide

@[simp] theorem Narrow.mem_all (n : Narrow) : n ∈ Narrow.all := by cases n <;> decide

@[simp] theorem NumType.mem_all (t : NumType) : t ∈ NumType.all := by cases t <;> decide

@[simp] theorem IRel.mem_all (op : IRel) : op ∈ IRel.all := by cases op <;> simp [IRel.all]

@[simp] theorem FRel.mem_all (op : FRel) : op ∈ FRel.all := by cases op <;> decide

@[simp] theorem IUn.mem_all (op : IUn) : op ∈ IUn.all := by cases op <;> decide

@[simp] theorem IBin.mem_all (op : IBin) : op ∈ IBin.all := by cases op <;> simp [IBin.all]

@[simp] theorem FUn.mem_all (op : FUn) : op ∈ FUn.all := by cases op <;> decide

@[simp] theorem FBin.mem_all (op : FBin) : op ∈ FBin.all := by cases op <;> decide

theorem LoadOp.mem_all (op : LoadOp) : op ∈ LoadOp.all := by cases op <;> simp [LoadOp.all]

theorem StoreOp.mem_all (op : StoreOp) : op ∈ StoreOp.all := by cases op <;> simp [StoreOp.all]

theorem NumOp.mem_byOpcode {op : NumOp} (h : op.isPrefixed = false) : op ∈ byOpcode := by
  cases op with
  | truncSat => cases h
  | trunc dst src s => cases dst <;> simp [byOpcode]
  | convert dst src s => cases dst <;> simp [byOpcode]
  | _ => simp [byOpcode]

theorem NumOp.mem_bySubOpcode {op : NumOp} (h : op.isPrefixed = true) : op ∈ bySubOpcode := by
  cases op with
  | truncSat dst src s => simp [bySubOpcode]
  | _ => cases h

/-- Where the opcodes of the operators are, and that the tables have them there. -/
theorem NumOp.opcode_spec {op : NumOp} (h : op.isPrefixed = false) :
    0x45 ≤ op.opcode.toNat ∧ op.opcode.toNat ≤ 0xC4 ∧ ofOpcode? op.opcode = some op := by
  have : ∀ op ∈ byOpcode, 0x45 ≤ op.opcode.toNat ∧ op.opcode.toNat ≤ 0xC4 ∧
    ofOpcode? op.opcode = some op := by decide +kernel
  exact this op (mem_byOpcode h)

theorem NumOp.subOpcode_spec {op : NumOp} (h : op.isPrefixed = true) :
    op.opcode.toNat < 8 ∧ bySubOpcode[op.opcode.toNat]? = some op := by
  have : ∀ op ∈ bySubOpcode, op.opcode.toNat < 8 ∧ bySubOpcode[op.opcode.toNat]? = some op := by
    decide +kernel
  exact this op (mem_bySubOpcode h)

theorem LoadOp.opcode_spec (op : LoadOp) :
    0x28 ≤ op.opcode.toNat ∧ op.opcode.toNat ≤ 0x35 ∧ ofOpcode? op.opcode = some op := by
  have : ∀ op ∈ LoadOp.all, 0x28 ≤ op.opcode.toNat ∧ op.opcode.toNat ≤ 0x35 ∧
    ofOpcode? op.opcode = some op := by decide +kernel
  exact this op op.mem_all

theorem StoreOp.opcode_spec (op : StoreOp) :
    0x36 ≤ op.opcode.toNat ∧ op.opcode.toNat ≤ 0x3E ∧ ofOpcode? op.opcode = some op := by
  have : ∀ op ∈ StoreOp.all, 0x36 ≤ op.opcode.toNat ∧ op.opcode.toNat ≤ 0x3E ∧
    ofOpcode? op.opcode = some op := by decide +kernel
  exact this op op.mem_all

theorem LoadOp.ofOpcode?_eq_none : ∀ b : UInt8, 0x36 ≤ b.toNat → ofOpcode? b = none := by
  decide +kernel

theorem StoreOp.ofOpcode?_eq_none : ∀ b : UInt8, 0x3F ≤ b.toNat → ofOpcode? b = none := by
  decide +kernel

end Tables

theorem Instr.encode_ne_nil (i : Instr) : i.encode ≠ [] := by
  cases i with
  | numeric op =>
    rw [Instr.encode]
    split <;> exact List.cons_ne_nil _ _
  | _ => exact List.cons_ne_nil _ _

namespace Reader

open Leb128

variable {types : List FuncType} {i : Instr} {bs : List UInt8}

theorem reads_valType (t : ValType) : Reads valType [t.byte] t := by
  refine .anywhere fun start ↦ (reads_byte _).give ?_
  rw [ValType.ofByte?_byte]

theorem reads_refType (t : RefType) : Reads refType [t.byte] t := by
  refine .anywhere fun start ↦ (reads_byte _).give ?_
  rw [RefType.byte, ValType.ofByte?_byte]
  cases t <;> rfl

theorem reads_valTypes (ts : List ValType) :
    Reads (vector valType) (vectorOf (ts.map fun t ↦ [t.byte])) ts :=
  reads_vector_map (fun t _ ↦ reads_valType t) fun _ _ ↦ List.cons_ne_nil _ _

theorem reads_indices (is : List Idx) : Reads (vector u32) (vectorOf (is.map Leb128.u32)) is :=
  reads_vector_map (fun i _ ↦ reads_u32 i) fun _ _ ↦ encode_ne_nil _

theorem reads_zeroByte : Reads zeroByte [0x00] () :=
  .anywhere fun _ ↦ (reads_byte _).give rfl

/-- The first byte of a type index stands for nothing else. -/
theorem encodeSigned_head (n : Nat) : ∃ b bs, encodeSigned n = b :: bs ∧ b ≠ 0x40 ∧
    ValType.ofByte? b = none := by
  have hbyte : ∀ b : UInt8, (b < 64 ∨ 128 ≤ b) → b ≠ 0x40 ∧ ValType.ofByte? b = none := by
    decide +kernel
  rw [encodeSigned]
  split
  · rename_i h
    refine ⟨_, _, rfl, hbyte _ (.inl ?_)⟩
    rw [UInt8.lt_iff_toNat_lt, UInt8.toNat_ofNat']
    change _ < 64
    omega
  · refine ⟨_, _, rfl, hbyte _ (.inr ?_)⟩
    rw [UInt8.le_iff_toNat_le, UInt8.toNat_ofNat']
    change 128 ≤ _
    omega

theorem reads_blockType {b : BlockType} (h : ∀ t, b = .func t → t.toNat < types.length) :
    Reads (blockType types) b.encode b := by
  refine .anywhere fun start ↦ ?_
  cases b with
  | empty => exact .peek ((reads_skip _).give rfl)
  | value t =>
    refine .peek ?_
    have ht : t.byte ≠ 0x40 := by cases t <;> decide
    rw [if_neg ht, ValType.ofByte?_byte]
    exact (reads_skip _).give rfl
  | func t =>
    have hlt := h t rfl
    obtain ⟨x, bs, hx, hne, hnone⟩ := encodeSigned_head t.toNat
    have hidx : Reads (signed 33) (encodeSigned t.toNat) t.toNat := by
      have := t.toNat_lt
      exact reads_signed (by decide) (by decide) (by omega) (by norm_num; omega)
    rw [BlockType.encode]
    rw [hx] at hidx ⊢
    refine .peek ?_
    rw [if_neg hne, hnone]
    refine hidx.give ?_
    rw [if_neg (by omega), if_neg (by omega), Int.toNat_natCast, UInt32.ofNat_toNat]

theorem reads_memArg (a : MemArg) : Reads memArg a.encode a :=
  (reads_u32 _).bind ((reads_u32 _).give rfl)

theorem reads_bits {w n : Nat} (x : BitVec w) (h : 2 ^ w = 256 ^ n) :
    Reads (littleEndian n) (LittleEndian.encode n x.toNat) x.toNat := by
  have hx := reads_littleEndian n x.toNat
  rwa [Nat.mod_eq_of_lt (h ▸ x.isLt)] at hx

/-- An opcode that is not treated by name. -/
theorem Reads.regular {x : UInt8} (h : 0x28 ≤ x.toNat ∧ x.toNat ≤ 0x3E ∨
    0x45 ≤ x.toNat ∧ x.toNat ≤ 0xC4) (hr : ∀ start, Reads (regular start x) bs i) :
    Reads (instr types) (x :: bs) i := by
  refine .anywhere fun start ↦ .byte ?_
  split
  case h_34 => exact hr start
  all_goals omega

theorem reads_numeric (op : NumOp) :
    Reads (instr types) (Instr.numeric op).encode (.numeric op) := by
  rw [Instr.encode]
  cases hp : op.isPrefixed with
  | false =>
    obtain ⟨hlow, hhigh, hop⟩ := NumOp.opcode_spec hp
    refine .regular (.inr ⟨hlow, hhigh⟩) fun start ↦ ?_
    rw [Reader.regular, LoadOp.ofOpcode?_eq_none _ (by omega),
      StoreOp.ofOpcode?_eq_none _ (by omega), hop]
    exact .pure _
  | true =>
    obtain ⟨hlt, hop⟩ := NumOp.subOpcode_spec hp
    have hsize : op.opcode.toNat < UInt32.size := hlt.trans (by decide)
    refine .anywhere fun start ↦ .byte ((reads_length hsize).give ?_)
    rw [UInt32.toNat_ofNat_of_lt' hsize]
    split
    case h_11 => rw [hop]
    all_goals omega

theorem reads_instr (h : i.InTypes types) : Reads (instr types) i.encode i := by
  have hblock {b : BlockType} (hb : i.signature? = some b) : Reads (blockType types) b.encode b :=
    reads_blockType fun t ht ↦ h t (ht ▸ hb)
  cases i with
  | numeric op => exact reads_numeric op
  | load op a =>
    obtain ⟨hlow, hhigh, hop⟩ := op.opcode_spec
    refine .regular (.inl ⟨hlow, by omega⟩) fun start ↦ ?_
    rw [Reader.regular, hop]
    exact (reads_memArg a).give rfl
  | store op a =>
    obtain ⟨hlow, hhigh, hop⟩ := op.opcode_spec
    refine .regular (.inl ⟨by omega, hhigh⟩) fun start ↦ ?_
    rw [Reader.regular, LoadOp.ofOpcode?_eq_none _ hlow, hop]
    exact (reads_memArg a).give rfl
  | unreachable | nop | else_ | end_ | return_ | drop | select | refIsNull =>
    exact .anywhere fun _ ↦ .byte (.pure _)
  | block t | loop t | if_ t => exact .anywhere fun _ ↦ .byte ((hblock rfl).give rfl)
  | br x | brIf x | call x | localGet x | localSet x | localTee x | globalGet x | globalSet x
  | tableGet x | tableSet x | refFunc x =>
    exact .anywhere fun _ ↦ .byte ((reads_u32 x).give rfl)
  | brTable ls l =>
    exact .anywhere fun _ ↦ .byte ((reads_indices ls).bind ((reads_u32 l).give rfl))
  | callIndirect type table =>
    exact .anywhere fun _ ↦ .byte ((reads_u32 type).bind ((reads_u32 table).give rfl))
  | selectTyped ts => exact .anywhere fun _ ↦ .byte ((reads_valTypes ts).give rfl)
  | memorySize | memoryGrow => exact .anywhere fun _ ↦ .byte (reads_zeroByte.give rfl)
  | i32Const x => exact .anywhere fun _ ↦ .byte ((reads_word x (by decide) (by decide)).give rfl)
  | i64Const x => exact .anywhere fun _ ↦ .byte ((reads_word x (by decide) (by decide)).give rfl)
  | f32Const x =>
    refine .anywhere fun _ ↦ .byte ((reads_bits x (by decide)).give ?_)
    rw [BitVec.ofNat_toNat, BitVec.setWidth_eq]
  | f64Const x =>
    refine .anywhere fun _ ↦ .byte ((reads_bits x (by decide)).give ?_)
    rw [BitVec.ofNat_toNat, BitVec.setWidth_eq]
  | refNull t => exact .anywhere fun _ ↦ .byte ((reads_refType t).give rfl)
  | dataDrop x => exact .anywhere fun _ ↦ .byte ((reads_u32 9).bind ((reads_u32 x).give rfl))
  | elemDrop x => exact .anywhere fun _ ↦ .byte ((reads_u32 13).bind ((reads_u32 x).give rfl))
  | tableGrow x => exact .anywhere fun _ ↦ .byte ((reads_u32 15).bind ((reads_u32 x).give rfl))
  | tableSize x => exact .anywhere fun _ ↦ .byte ((reads_u32 16).bind ((reads_u32 x).give rfl))
  | tableFill x => exact .anywhere fun _ ↦ .byte ((reads_u32 17).bind ((reads_u32 x).give rfl))
  | memoryInit x =>
    exact .anywhere fun _ ↦
      .byte ((reads_u32 8).bind ((reads_u32 x).bind (reads_zeroByte.give rfl)))
  | memoryCopy =>
    exact .anywhere fun _ ↦ .byte ((reads_u32 10).bind (reads_zeroByte.bind
      (reads_zeroByte.give rfl)))
  | memoryFill => exact .anywhere fun _ ↦ .byte ((reads_u32 11).bind (reads_zeroByte.give rfl))
  | tableInit x y =>
    exact .anywhere fun _ ↦ .byte ((reads_u32 12).bind ((reads_u32 x).bind
      ((reads_u32 y).give rfl)))
  | tableCopy x y =>
    exact .anywhere fun _ ↦ .byte ((reads_u32 14).bind ((reads_u32 x).bind
      ((reads_u32 y).give rfl)))

theorem reads_exprFrom {n d : Nat} {is : List Instr} (hn : is.length ≤ n)
    (hpos : ∀ k < is.length, 0 ≤ d + depth (is.take k)) (hend : d + depth is = -1)
    (htypes : ∀ i ∈ is, i.InTypes types) :
    Reads (exprFrom types n d) (is.flatMap Instr.encode) is := by
  induction is generalizing n d with
  | nil =>
    rw [depth_nil] at hend
    omega
  | cons i is ih =>
    obtain ⟨n, rfl⟩ := Nat.exists_eq_succ_of_ne_zero (Nat.ne_zero_of_lt hn)
    rw [exprFrom_succ]
    refine (reads_instr (htypes i (List.mem_cons_self ..))).bind ?_
    have htypes' : ∀ i ∈ is, i.InTypes types := fun j hj ↦ htypes j (List.mem_cons_of_mem _ hj)
    have hn' : is.length ≤ n := Nat.le_of_succ_le_succ hn
    have hnext (k : Nat) (hk : k < is.length) : 0 ≤ d + depth (i :: is.take k) :=
      hpos (k + 1) (Nat.succ_lt_succ hk)
    unfold exprRest
    by_cases hi : i = .end_
    · subst hi
      rw [if_pos rfl]
      simp only [depth_end] at hend hnext
      cases d with
      | zero =>
        -- Depth 0 is closed here, so nothing can follow.
        cases is with
        | nil => exact .pure _
        | cons j is =>
          have := hnext 0 (Nat.succ_pos _)
          simp at this
      | succ d =>
        refine (ih hn' (fun k hk ↦ ?_) ?_ htypes').give rfl
        · have := hnext k hk
          omega
        · omega
    · rw [if_neg hi]
      by_cases hopen : i.opens = true
      · rw [if_pos hopen]
        simp only [depth_opens hopen] at hend hnext
        refine (ih hn' (fun k hk ↦ ?_) ?_ htypes').give rfl
        · have := hnext k hk
          omega
        · omega
      · rw [if_neg hopen]
        have hplain : i.plain = true := Instr.plain_iff.mpr ⟨by simpa using hopen, hi⟩
        simp only [depth_plain hplain] at hend hnext
        exact (ih hn' hnext hend htypes').give rfl

end Reader

theorem Code.WellNested.depth_eq {code : Code} (h : code.WellNested) : depth code.toList = -1 := by
  have hpos : 0 < code.size := Array.size_pos_iff.mpr h.nonempty
  obtain ⟨hlast, hzero⟩ := (h.closed_iff (code.size - 1)).mpr (by omega)
  have htake : code.toList = code.toList.take (code.size - 1) ++ [.end_] := by
    have hall : code.toList = code.toList.take (code.size - 1 + 1) := by
      rw [Nat.sub_add_cancel hpos, ← Array.length_toList, List.take_length]
    rw [List.take_add_one, Array.getElem?_toList, hlast] at hall
    exact hall
  rw [htake, depth_append, hzero, depth_end]
  rfl

namespace Reader

theorem reads_expr {code : Code} (h : code.WellNested) (htypes : ∀ i ∈ code, i.InTypes types) :
    Reads (expr types) code.encode code := by
  intro hsize rest consumed base hpos
  let steps := Cursor.remaining ⟨code.encode ++ rest, consumed, base⟩ + 1
  have hlen : code.toList.length ≤ steps := by
    have := length_le_flatMap Instr.encode_ne_nil code.toList
    simp only [steps, Cursor.remaining, List.length_append, Code.encode]
    omega
  have hfrom : Reads (exprFrom types steps 0) code.encode code.toList :=
    reads_exprFrom hlen (fun k hk ↦ by simpa using h.depth_nonneg k hk) (by simpa using h.depth_eq)
      fun i hi ↦ htypes i (Array.mem_toList_iff.mp hi)
  have hcode : Reads (exprFrom types steps 0 >>= fun is ↦ pure is.toArray) code.encode code :=
    hfrom.give (by rw [Array.toArray_toList])
  exact hcode hsize rest consumed base hpos

end Reader

end Wasm
