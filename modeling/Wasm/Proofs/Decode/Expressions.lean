import Wasm.Proofs.Decode.Forms

namespace Wasm

open Leb128

def BlockType.forms (types : List FuncType) : BlockType → Language UInt8
  | empty => {[0x40]}
  | value t => {[t.byte]}
  | func i => {bs | bs ∈ signedForms 33 i.toNat ∧ i.toNat < types.length}

def MemArg.forms (a : MemArg) : Language UInt8 := u32Forms a.align * u32Forms a.offset

/-- The opcode of an instruction, with the number that follows it if it is `0xFC`, and then the
immediates. -/
def Instr.forms (types : List FuncType) : Instr → Language UInt8
  | unreachable => {[0x00]}
  | nop => {[0x01]}
  | block t => {[0x02]} * t.forms types
  | loop t => {[0x03]} * t.forms types
  | if_ t => {[0x04]} * t.forms types
  | else_ => {[0x05]}
  | end_ => {[0x0B]}
  | br l => {[0x0C]} * u32Forms l
  | brIf l => {[0x0D]} * u32Forms l
  | brTable ls l => {[0x0E]} * (vectorForms u32Forms ls * u32Forms l)
  | return_ => {[0x0F]}
  | call f => {[0x10]} * u32Forms f
  | callIndirect type table => {[0x11]} * (u32Forms type * u32Forms table)
  | drop => {[0x1A]}
  | select => {[0x1B]}
  | selectTyped ts => {[0x1C]} * vectorForms (fun t ↦ {[t.byte]}) ts
  | localGet i => {[0x20]} * u32Forms i
  | localSet i => {[0x21]} * u32Forms i
  | localTee i => {[0x22]} * u32Forms i
  | globalGet i => {[0x23]} * u32Forms i
  | globalSet i => {[0x24]} * u32Forms i
  | tableGet t => {[0x25]} * u32Forms t
  | tableSet t => {[0x26]} * u32Forms t
  | load op a => {[op.opcode]} * a.forms
  | store op a => {[op.opcode]} * a.forms
  | memorySize => {[0x3F]} * {[0x00]}
  | memoryGrow => {[0x40]} * {[0x00]}
  | i32Const x => {[0x41]} * signedForms 32 x.toInt
  | i64Const x => {[0x42]} * signedForms 64 x.toInt
  | f32Const x => {[0x43]} * LittleEndian.forms 4 x.toNat
  | f64Const x => {[0x44]} * LittleEndian.forms 8 x.toNat
  | refNull t => {[0xD0]} * {[t.byte]}
  | refIsNull => {[0xD1]}
  | refFunc f => {[0xD2]} * u32Forms f
  | memoryInit d => {[0xFC]} * (u32Forms 8 * (u32Forms d * {[0x00]}))
  | dataDrop d => {[0xFC]} * (u32Forms 9 * u32Forms d)
  | memoryCopy => {[0xFC]} * (u32Forms 10 * ({[0x00]} * {[0x00]}))
  | memoryFill => {[0xFC]} * (u32Forms 11 * {[0x00]})
  | tableInit elem table => {[0xFC]} * (u32Forms 12 * (u32Forms elem * u32Forms table))
  | elemDrop e => {[0xFC]} * (u32Forms 13 * u32Forms e)
  | tableCopy dst src => {[0xFC]} * (u32Forms 14 * (u32Forms dst * u32Forms src))
  | tableGrow t => {[0xFC]} * (u32Forms 15 * u32Forms t)
  | tableSize t => {[0xFC]} * (u32Forms 16 * u32Forms t)
  | tableFill t => {[0xFC]} * (u32Forms 17 * u32Forms t)
  | numeric op =>
    if op.isPrefixed then {[0xFC]} * Leb128.forms 32 op.opcode.toNat else {[op.opcode]}

section Opcodes

variable {x : UInt8}

theorem LoadOp.opcode_of_ofOpcode? {op : LoadOp} (h : ofOpcode? x = some op) : op.opcode = x := by
  have hall : ∀ x, ∀ op ∈ LoadOp.ofOpcode? x, op.opcode = x := by decide +kernel
  exact hall x op h

theorem StoreOp.opcode_of_ofOpcode? {op : StoreOp} (h : ofOpcode? x = some op) :
    op.opcode = x := by
  have hall : ∀ x, ∀ op ∈ StoreOp.ofOpcode? x, op.opcode = x := by decide +kernel
  exact hall x op h

theorem NumOp.opcode_of_ofOpcode? {op : NumOp} (h : ofOpcode? x = some op) :
    op.opcode = x ∧ op.isPrefixed = false := by
  have hall : ∀ x, ∀ op ∈ NumOp.ofOpcode? x, op.opcode = x ∧ op.isPrefixed = false := by
    decide +kernel
  exact hall x op h

theorem NumOp.opcode_of_bySubOpcode {n : Nat} {op : NumOp} (h : bySubOpcode[n]? = some op) :
    op.opcode.toNat = n ∧ op.isPrefixed = true := by
  have hall : ∀ n < 8, ∀ op ∈ bySubOpcode[n]?, op.opcode.toNat = n ∧ op.isPrefixed = true := by
    decide +kernel
  exact hall n (length_bySubOpcode ▸ (List.getElem?_eq_some_iff.mp h).1) op h

end Opcodes

namespace Reader

variable {types : List FuncType}

theorem accepts_valType : Accepts valType fun t ↦ {[t.byte]} := by
  constructor
  · refine .anywhere fun start ↦ accepts_byte.finds.bind fun x ↦ ?_
    cases ht : ValType.ofByte? x with
    | none => exact .throw _
    | some t =>
      refine .pure ?_
      rw [one_mul, ValType.byte_of_ofByte? ht]
  · intro t
    refine .anywhere fun start ↦ (accepts_byte.takes t.byte).give ?_
    rw [ValType.ofByte?_byte]

theorem accepts_refType : Accepts refType fun t ↦ {[t.byte]} := by
  constructor
  · refine .anywhere fun start ↦ accepts_byte.finds.bind fun x ↦ ?_
    rw [one_mul]
    split
    · rename_i ht
      exact .pure (by rw [← ValType.byte_of_ofByte? ht]; rfl)
    · rename_i ht
      exact .pure (by rw [← ValType.byte_of_ofByte? ht]; rfl)
    · exact .throw _
  · intro t
    refine .anywhere fun start ↦ (accepts_byte.takes t.byte).give ?_
    rw [RefType.byte, ValType.ofByte?_byte]
    cases t <;> rfl

theorem accepts_zeroByte : Accepts zeroByte fun _ ↦ {[0x00]} := by
  constructor
  · refine .anywhere fun start ↦ accepts_byte.finds.bind fun x ↦ ?_
    by_cases hx : x = 0
    · subst hx
      exact .pure (one_mul _).le
    · rw [if_pos hx]
      exact .throw _
  · intro _
    exact .anywhere fun start ↦ (accepts_byte.takes 0).give rfl

theorem accepts_memArg : Accepts memArg MemArg.forms := by
  constructor
  · refine accepts_u32.finds.bind fun align ↦ accepts_u32.finds.bind fun offset ↦ .pure ?_
    rw [one_mul]
    rfl
  · intro a
    exact (accepts_u32.takes a.align).bind ((accepts_u32.takes a.offset).give rfl)

/-- The bytes that stand for a block type of their own have the sign bit of a short number. -/
theorem blockByte_sign : ∀ x : UInt8, x = 0x40 ∨ ValType.ofByte? x ≠ none →
    x < 128 ∧ ¬ x.toNat % 128 < 64 := by
  decide +kernel

/-- The first byte of a type index stands for nothing else. -/
theorem typeIndex_head {w n : Nat} {x : UInt8} {bs : List UInt8}
    (h : SpellsSigned w (x :: bs) n) : x ≠ 0x40 ∧ ValType.ofByte? x = none := by
  by_contra hx
  obtain ⟨hlast, hsign⟩ := blockByte_sign x (by tauto)
  have hvalue := h.value_eq
  cases h.terminated with
  | last =>
    rw [signedValue_singleton, if_neg hsign] at hvalue
    omega
  | more hmore => exact hmore hlast

theorem skip_ok {x : UInt8} {u : List UInt8} {consumed base : Nat} {c : Cursor}
    (h : skip 1 ⟨x :: u, consumed, base⟩ = .ok () c) : c = ⟨u, consumed + 1, base⟩ := by
  obtain ⟨bs, _, hbs, ⟨⟩⟩ := Outcome.bind_ok h
  obtain ⟨rest, hu, hlen, -, rfl⟩ := bytes_ok hbs
  obtain ⟨y, rfl⟩ := List.length_eq_one_iff.mp hlen
  obtain ⟨-, rfl⟩ := List.cons.inj hu
  rfl

theorem finds_blockType : Finds 1 (blockType types) (BlockType.forms types) := by
  refine .anywhere fun start ↦ ?_
  intro u consumed base t c ht
  obtain ⟨x, c₁, hx, ht⟩ := Outcome.bind_ok ht
  cases u with
  | nil => cases hx
  | cons y u =>
    cases hx
    by_cases hempty : x = 0x40
    · rw [if_pos hempty] at ht
      obtain ⟨_, _, hskip, ⟨⟩⟩ := Outcome.bind_ok ht
      obtain rfl := skip_ok hskip
      refine ⟨[x], u, rfl, rfl, ?_⟩
      rintro _ rfl
      exact congrArg (fun z ↦ [z]) hempty
    · rw [if_neg hempty] at ht
      cases hvalue : ValType.ofByte? x with
      | some v =>
        rw [hvalue] at ht
        obtain ⟨_, _, hskip, ⟨⟩⟩ := Outcome.bind_ok ht
        obtain rfl := skip_ok hskip
        refine ⟨[x], u, rfl, rfl, ?_⟩
        rintro _ rfl
        exact congrArg (fun z ↦ [z]) (ValType.byte_of_ofByte? hvalue).symm
      | none =>
        rw [hvalue] at ht
        obtain ⟨i, c₁, hi, ht⟩ := Outcome.bind_ok ht
        obtain ⟨q, rest, hq, rfl, hforms⟩ :=
          (accepts_signed (by decide : 33 ≤ 64)).finds _ _ _ _ _ hi
        have hmem : q ∈ signedForms 33 i := hforms [] Language.nil_mem_one
        split at ht
        · cases ht
        · split at ht
          · cases ht
          · rename_i hneg hlt
            cases ht
            refine ⟨q, rest, hq, rfl, ?_⟩
            rintro _ rfl
            have hhigh : i < 2 ^ 32 := (mem_signedForms.mp hmem).high
            have hsize : i.toNat < UInt32.size := by
              change _ < 2 ^ 32
              omega
            change q ∈ signedForms 33 (UInt32.ofNat i.toNat).toNat ∧
              (UInt32.ofNat i.toNat).toNat < types.length
            rw [UInt32.toNat_ofNat_of_lt' hsize, Int.toNat_of_nonneg (by omega)]
            exact ⟨hmem, by omega⟩

theorem Takes.peek {β : Type} {x : UInt8} {q : List UInt8} {f : UInt8 → Reader β} {b : β}
    (h : Takes (f x) {x :: q} b) : Takes (peek >>= f) {x :: q} b := by
  rintro _ rfl rest consumed base hpos
  exact h _ rfl rest consumed base hpos

theorem takes_skip (x : UInt8) : Takes (skip 1) {[x]} () := by
  have hbytes : Takes (bytes 1) {[x]} [x] := by
    rintro _ rfl rest consumed base hpos
    exact bytes_append [x] rest hpos
  exact hbytes.give rfl

theorem takes_blockType (t : BlockType) : Takes (blockType types) (t.forms types) t := by
  refine .anywhere fun start ↦ ?_
  cases t with
  | empty =>
    refine .peek ?_
    rw [if_pos rfl]
    exact (takes_skip 0x40).give rfl
  | value t =>
    have ht : t.byte ≠ 0x40 := by cases t <;> decide
    refine .peek ?_
    rw [if_neg ht, ValType.ofByte?_byte]
    exact (takes_skip t.byte).give rfl
  | func i =>
    rintro q ⟨hq, hlt⟩
    have hspell := mem_signedForms.mp hq
    have hi : Takes (signed 33) {q} (i.toNat : Int) := by
      rintro _ rfl
      exact (accepts_signed (by decide : 33 ≤ 64)).takes i.toNat _ hq
    cases q with
    | nil => exact absurd rfl hspell.terminated.ne_nil
    | cons x q =>
      obtain ⟨hne, hnone⟩ := typeIndex_head hspell
      refine Takes.peek ?_ _ rfl
      rw [if_neg hne, hnone]
      refine hi.give ?_
      rw [if_neg (by omega), if_neg (by omega), Int.toNat_natCast, UInt32.ofNat_toNat]

/-- An opcode that is not treated by name. -/
theorem Takes.regular {i : Instr} {x : UInt8} {L : Language UInt8}
    (h : 0x28 ≤ x.toNat ∧ x.toNat ≤ 0x3E ∨ 0x45 ≤ x.toNat ∧ x.toNat ≤ 0xC4)
    (hr : ∀ start, Takes (Reader.regular start x) L i) : Takes (instr types) ({[x]} * L) i := by
  refine .anywhere fun start ↦ .byte ?_
  split
  case h_34 => exact hr start
  all_goals omega

theorem finds_regular (start : Nat) (x : UInt8) :
    Finds {[x]} (regular start x) (Instr.forms types) := by
  unfold regular
  cases hload : LoadOp.ofOpcode? x with
  | some op =>
    refine accepts_memArg.finds.bind fun a ↦ .pure ?_
    rw [Instr.forms, LoadOp.opcode_of_ofOpcode? hload]
  | none =>
    cases hstore : StoreOp.ofOpcode? x with
    | some op =>
      refine accepts_memArg.finds.bind fun a ↦ .pure ?_
      rw [Instr.forms, StoreOp.opcode_of_ofOpcode? hstore]
    | none =>
      cases hnum : NumOp.ofOpcode? x with
      | some op =>
        obtain ⟨hop, hplain⟩ := NumOp.opcode_of_ofOpcode? hnum
        refine .pure ?_
        rw [Instr.forms, hop, hplain]
        exact le_rfl
      | none => exact .throw _

theorem finds_prefixed (start : Nat) : Finds {[0xFC]} (prefixed start) (Instr.forms types) := by
  refine accepts_u32.finds.bind fun sub ↦ ?_
  unfold u32Forms
  generalize sub.toNat = n
  split
  case h_1 =>
    refine accepts_u32.finds.bind fun d ↦ accepts_zeroByte.finds.bind fun _ ↦ .pure ?_
    rw [mul_assoc, mul_assoc]
    exact le_rfl
  case h_3 =>
    refine accepts_zeroByte.finds.bind fun _ ↦ accepts_zeroByte.finds.bind fun _ ↦ .pure ?_
    rw [mul_assoc, mul_assoc]
    exact le_rfl
  case h_4 => exact accepts_zeroByte.finds.bind fun _ ↦ .pure (mul_assoc _ _ _).le
  case h_5 | h_7 =>
    refine accepts_u32.finds.bind fun i ↦ accepts_u32.finds.bind fun j ↦ .pure ?_
    rw [mul_assoc, mul_assoc]
    exact le_rfl
  case h_2 | h_6 | h_8 | h_9 | h_10 =>
    exact accepts_u32.finds.bind fun i ↦ .pure (mul_assoc _ _ _).le
  case h_11 =>
    split
    · rename_i op hop
      obtain ⟨rfl, hsub⟩ := NumOp.opcode_of_bySubOpcode hop
      refine .pure ?_
      rw [Instr.forms, if_pos hsub]
    · exact .throw _

theorem finds_instr : Finds 1 (instr types) (Instr.forms types) := by
  refine .anywhere fun start ↦ accepts_byte.finds.bind fun x ↦ ?_
  rw [one_mul]
  have hx : ({[x]} : Language UInt8) = {[UInt8.ofNat x.toNat]} := by rw [UInt8.ofNat_toNat]
  split
  case h_34 => exact finds_regular start x
  all_goals
    rename_i hop
    rw [hx, hop]
  case h_1 | h_2 | h_6 | h_7 | h_11 | h_14 | h_15 | h_31 => exact .pure le_rfl
  case h_3 | h_4 | h_5 => exact finds_blockType.bind fun t ↦ .pure le_rfl
  case h_8 | h_9 | h_12 | h_17 | h_18 | h_19 | h_20 | h_21 | h_22 | h_23 | h_32 =>
    exact accepts_u32.finds.bind fun i ↦ .pure le_rfl
  case h_10 =>
    refine (accepts_vector accepts_u32).finds.bind fun ls ↦ accepts_u32.finds.bind fun l ↦ .pure ?_
    rw [mul_assoc]
    exact le_rfl
  case h_13 =>
    refine accepts_u32.finds.bind fun type ↦ accepts_u32.finds.bind fun table ↦ .pure ?_
    rw [mul_assoc]
    exact le_rfl
  case h_16 => exact (accepts_vector accepts_valType).finds.bind fun ts ↦ .pure le_rfl
  case h_24 | h_25 => exact accepts_zeroByte.finds.bind fun _ ↦ .pure le_rfl
  case h_26 | h_27 => exact (accepts_word (by decide) (by decide)).finds.bind fun v ↦ .pure le_rfl
  case h_28 =>
    exact (accepts_littleEndian 4).finds.bind fun v ↦
      .pure (mul_le_mul_right (forms_le_word (by decide) v) _)
  case h_29 =>
    exact (accepts_littleEndian 8).finds.bind fun v ↦
      .pure (mul_le_mul_right (forms_le_word (by decide) v) _)
  case h_30 => exact accepts_refType.finds.bind fun t ↦ .pure le_rfl
  case h_33 => exact finds_prefixed start

theorem takes_numeric (op : NumOp) :
    Takes (instr types) ((Instr.numeric op).forms types) (.numeric op) := by
  rw [Instr.forms]
  cases hp : op.isPrefixed with
  | false =>
    obtain ⟨hlow, hhigh, hop⟩ := NumOp.opcode_spec hp
    rw [if_neg Bool.false_ne_true, ← mul_one ({[op.opcode]} : Language UInt8)]
    refine .regular (.inr ⟨hlow, hhigh⟩) fun start ↦ ?_
    rw [Reader.regular, LoadOp.ofOpcode?_eq_none _ (by omega),
      StoreOp.ofOpcode?_eq_none _ (by omega), hop]
    exact .pure _
  | true =>
    obtain ⟨hlt, hop⟩ := NumOp.subOpcode_spec hp
    have hsize : op.opcode.toNat < UInt32.size := hlt.trans (by decide)
    have hsub := accepts_u32.takes (UInt32.ofNat op.opcode.toNat)
    rw [u32Forms, UInt32.toNat_ofNat_of_lt' hsize] at hsub
    rw [if_pos rfl]
    refine .anywhere fun start ↦ .byte (hsub.give ?_)
    rw [UInt32.toNat_ofNat_of_lt' hsize]
    split
    case h_11 => rw [hop]
    all_goals omega

theorem takes_instr (i : Instr) : Takes (instr types) (i.forms types) i := by
  have hu32 := accepts_u32.takes
  have hzero := accepts_zeroByte.takes ()
  cases i with
  | numeric op => exact takes_numeric op
  | load op a =>
    obtain ⟨hlow, hhigh, hop⟩ := op.opcode_spec
    refine .regular (.inl ⟨hlow, by omega⟩) fun start ↦ ?_
    rw [Reader.regular, hop]
    exact (accepts_memArg.takes a).give rfl
  | store op a =>
    obtain ⟨hlow, hhigh, hop⟩ := op.opcode_spec
    refine .regular (.inl ⟨by omega, hhigh⟩) fun start ↦ ?_
    rw [Reader.regular, LoadOp.ofOpcode?_eq_none _ hlow, hop]
    exact (accepts_memArg.takes a).give rfl
  | unreachable | nop | else_ | end_ | return_ | drop | select | refIsNull =>
    exact .anywhere fun _ ↦ (accepts_byte.takes _).give rfl
  | block t | loop t | if_ t => exact .anywhere fun _ ↦ .byte ((takes_blockType t).give rfl)
  | br x | brIf x | call x | localGet x | localSet x | localTee x | globalGet x | globalSet x
  | tableGet x | tableSet x | refFunc x =>
    exact .anywhere fun _ ↦ .byte ((hu32 x).give rfl)
  | brTable ls l =>
    exact .anywhere fun _ ↦ .byte (((accepts_vector accepts_u32).takes ls).bind
      ((hu32 l).give rfl))
  | callIndirect type table =>
    exact .anywhere fun _ ↦ .byte ((hu32 type).bind ((hu32 table).give rfl))
  | selectTyped ts =>
    exact .anywhere fun _ ↦ .byte (((accepts_vector accepts_valType).takes ts).give rfl)
  | memorySize | memoryGrow => exact .anywhere fun _ ↦ .byte (hzero.give rfl)
  | i32Const x =>
    exact .anywhere fun _ ↦ .byte (((accepts_word (by decide) (by decide)).takes x).give rfl)
  | i64Const x =>
    exact .anywhere fun _ ↦ .byte (((accepts_word (by decide) (by decide)).takes x).give rfl)
  | f32Const x =>
    refine .anywhere fun _ ↦ .byte (((accepts_littleEndian 4).takes x.toNat).give ?_)
    rw [BitVec.ofNat_toNat, BitVec.setWidth_eq]
  | f64Const x =>
    refine .anywhere fun _ ↦ .byte (((accepts_littleEndian 8).takes x.toNat).give ?_)
    rw [BitVec.ofNat_toNat, BitVec.setWidth_eq]
  | refNull t => exact .anywhere fun _ ↦ .byte ((accepts_refType.takes t).give rfl)
  | dataDrop x => exact .anywhere fun _ ↦ .byte ((hu32 9).bind ((hu32 x).give rfl))
  | elemDrop x => exact .anywhere fun _ ↦ .byte ((hu32 13).bind ((hu32 x).give rfl))
  | tableGrow x => exact .anywhere fun _ ↦ .byte ((hu32 15).bind ((hu32 x).give rfl))
  | tableSize x => exact .anywhere fun _ ↦ .byte ((hu32 16).bind ((hu32 x).give rfl))
  | tableFill x => exact .anywhere fun _ ↦ .byte ((hu32 17).bind ((hu32 x).give rfl))
  | memoryInit x =>
    exact .anywhere fun _ ↦ .byte ((hu32 8).bind ((hu32 x).bind (hzero.give rfl)))
  | memoryCopy => exact .anywhere fun _ ↦ .byte ((hu32 10).bind (hzero.bind (hzero.give rfl)))
  | memoryFill => exact .anywhere fun _ ↦ .byte ((hu32 11).bind (hzero.give rfl))
  | tableInit x y =>
    exact .anywhere fun _ ↦ .byte ((hu32 12).bind ((hu32 x).bind ((hu32 y).give rfl)))
  | tableCopy x y =>
    exact .anywhere fun _ ↦ .byte ((hu32 14).bind ((hu32 x).bind ((hu32 y).give rfl)))

theorem accepts_instr (types : List FuncType) : Accepts (instr types) (Instr.forms types) :=
  ⟨finds_instr, takes_instr⟩

end Reader

/-- The last instruction is the first `end_` at depth 0, where `d` constructs are open before the
first instruction. -/
def Stops (d : Int) (is : List Instr) : Prop :=
  ∃ body, is = body ++ [.end_] ∧ d + depth body = 0 ∧
    ∀ n, body[n]? = some .end_ → d + depth (body.take n) ≠ 0

theorem not_stops_nil (d : Int) : ¬ Stops d [] := by
  rintro ⟨body, h, -⟩
  cases body <;> cases h

theorem stops_cons {d : Int} {i : Instr} {is : List Instr} : Stops d (i :: is) ↔
    if i = .end_ ∧ d = 0 then is = [] else Stops (d + depth [i]) is := by
  have hdepth (js : List Instr) : depth (i :: js) = depth [i] + depth js := by
    rw [← depth_append, List.singleton_append]
  split
  · rename_i hi
    obtain ⟨rfl, rfl⟩ := hi
    constructor
    · rintro ⟨body, h, -, hbefore⟩
      cases body with
      | nil => exact (List.cons.inj h).2
      | cons j body =>
        obtain ⟨rfl, -⟩ := List.cons.inj h
        exact absurd rfl (hbefore 0 rfl)
    · rintro rfl
      exact ⟨[], rfl, rfl, nofun⟩
  · rename_i hi
    constructor
    · rintro ⟨body, h, hzero, hbefore⟩
      cases body with
      | nil =>
        obtain ⟨rfl, -⟩ := List.cons.inj h
        exact absurd ⟨rfl, by simpa using hzero⟩ hi
      | cons j body =>
        obtain ⟨rfl, rfl⟩ := List.cons.inj h
        rw [hdepth, ← add_assoc] at hzero
        refine ⟨body, rfl, hzero, fun n hn ↦ ?_⟩
        have hlater := hbefore (n + 1) hn
        rwa [List.take_succ_cons, hdepth, ← add_assoc] at hlater
    · rintro ⟨body, rfl, hzero, hbefore⟩
      refine ⟨i :: body, rfl, by rw [hdepth]; omega, fun n hn ↦ ?_⟩
      cases n with
      | zero =>
        intro hzero
        exact hi ⟨Option.some.inj hn, by simpa using hzero⟩
      | succ n =>
        rw [List.take_succ_cons, hdepth, ← add_assoc]
        exact hbefore n hn

/-- An expression: its instructions one after the other, of which the last closes it. -/
def Code.forms (types : List FuncType) (code : Code) : Language UInt8 :=
  {q | q ∈ (code.toList.map (Instr.forms types)).prod ∧ Stops 0 code.toList}

namespace Reader

variable {types : List FuncType}

/-- The rest of an expression is read at the depth that the first instruction leads to. -/
theorem exprRest_eq (types : List FuncType) (n d : Nat) (i : Instr) :
    exprRest types n d i = if i = .end_ ∧ (d : Int) = 0 then pure []
      else exprFrom types n (d + depth [i]).toNat := by
  unfold exprRest
  by_cases hend : i = .end_
  · subst hend
    rw [if_pos rfl, depth_end]
    cases d with
    | zero => rfl
    | succ d =>
      rw [if_neg (by omega), depth_nil]
      push_cast
      simp
  · have hnot : ¬ (i = .end_ ∧ (d : Int) = 0) := fun h ↦ hend h.1
    rw [if_neg hend, if_neg hnot]
    by_cases hopen : i.opens = true
    · rw [if_pos hopen, depth_opens hopen]
      rfl
    · have hplain : i.plain = true := Instr.plain_iff.mpr ⟨by simpa using hopen, hend⟩
      rw [if_neg hopen, depth_plain hplain]
      rfl

theorem depth_next {d : Nat} {i : Instr} (h : ¬ (i = .end_ ∧ (d : Int) = 0)) :
    ((d + depth [i]).toNat : Int) = d + depth [i] := by
  apply Int.toNat_of_nonneg
  by_cases hend : i = .end_
  · subst hend
    rw [depth_end, depth_nil]
    have hd : (d : Int) ≠ 0 := fun hd ↦ h ⟨rfl, hd⟩
    omega
  · simp only [depth, List.count_singleton, beq_iff_eq, if_neg hend]
    omega

theorem finds_exprFrom (n d : Nat) : Finds 1 (exprFrom types n d) fun is ↦
    {q | q ∈ (is.map (Instr.forms types)).prod ∧ Stops d is} := by
  induction n generalizing d with
  | zero => exact .anywhere fun _ ↦ .throw _
  | succ n ih =>
    rw [exprFrom_succ]
    have hrest (i : Instr) : Finds 1 (exprRest types n d i) fun is ↦
        {q | q ∈ (is.map (Instr.forms types)).prod ∧ Stops d (i :: is)} := by
      simp only [exprRest_eq, stops_cons]
      split
      · refine .pure ?_
        rintro _ rfl
        exact ⟨rfl, rfl⟩
      · rename_i hi
        rw [← depth_next hi]
        exact ih _
    refine finds_instr.bind fun i ↦ (hrest i).bind fun is ↦ .pure ?_
    rw [one_mul]
    rintro _ ⟨p, hp, q, ⟨hq, hstops⟩, rfl⟩
    refine ⟨?_, hstops⟩
    rw [List.map_cons, List.prod_cons]
    exact Language.append_mem_mul hp hq

theorem takes_exprFrom {n d : Nat} {is : List Instr} (hn : is.length ≤ n) (h : Stops d is) :
    Takes (exprFrom types n d) (is.map (Instr.forms types)).prod is := by
  induction is generalizing n d with
  | nil => exact absurd h (not_stops_nil _)
  | cons i is ih =>
    obtain ⟨n, rfl⟩ := Nat.exists_eq_succ_of_ne_zero (Nat.ne_zero_of_lt hn)
    rw [exprFrom_succ, List.map_cons, List.prod_cons]
    refine (takes_instr i).bind ?_
    rw [stops_cons] at h
    rw [exprRest_eq]
    split at h
    · rename_i hi
      subst h
      rw [if_pos hi]
      exact (Takes.pure _).give rfl
    · rename_i hi
      rw [← depth_next hi] at h
      rw [if_neg hi]
      exact (ih (Nat.le_of_succ_le_succ hn) h).give rfl

/-- An instruction takes a byte at least. -/
theorem ne_nil_of_mem_forms {i : Instr} {p : List UInt8} (h : p ∈ i.forms types) : p ≠ [] := by
  rintro rfl
  have hread := takes_instr i [] h [] 0 0 (by decide)
  cases hread

theorem length_le_of_mem_prod {is : List Instr} {q : List UInt8}
    (h : q ∈ (is.map (Instr.forms types)).prod) : is.length ≤ q.length := by
  induction is generalizing q with
  | nil => exact Nat.zero_le _
  | cons i is ih =>
    rw [List.map_cons, List.prod_cons] at h
    obtain ⟨p, hp, q, hq, rfl⟩ := h
    have hpos := List.length_pos_iff.mpr (ne_nil_of_mem_forms hp)
    have hle := ih hq
    simp only [List.length_cons, List.length_append]
    omega

theorem accepts_expr (types : List FuncType) : Accepts (expr types) (Code.forms types) := by
  constructor
  · intro u consumed base code c hcode
    obtain ⟨c₀, _, ⟨⟩, hcode⟩ := Outcome.bind_ok hcode
    obtain ⟨is, _, his, ⟨⟩⟩ := Outcome.bind_ok hcode
    exact finds_exprFrom _ 0 _ _ _ _ _ his
  · rintro code q ⟨hq, hstops⟩ rest consumed base hpos
    let steps := Cursor.remaining ⟨q ++ rest, consumed, base⟩ + 1
    have hlen : code.toList.length ≤ steps := by
      have := length_le_of_mem_prod hq
      simp only [steps, Cursor.remaining, List.length_append]
      omega
    have htakes : Takes (exprFrom types steps 0 >>= fun is ↦ pure is.toArray) _ code :=
      (takes_exprFrom hlen hstops).give (by rw [Array.toArray_toList])
    exact htakes q hq rest consumed base hpos

/-- An instruction is read, and all of its bytes and no others are taken, exactly if the bytes are
one of its forms. The same holds of an expression: its bytes are those of its instructions, of which
the last is the first `end_` at depth 0. Bytes in memory have fewer than `2 ^ 64` positions. -/
theorem instr_expr_exact (types : List FuncType) (p rest : List UInt8) (consumed base : Nat)
    (hpos : consumed + (p ++ rest).length < UInt64.size) :
    (∀ i : Instr, instr types ⟨p ++ rest, consumed, base⟩ =
      .ok i ⟨rest, consumed + p.length, base⟩ ↔ p ∈ i.forms types) ∧
    (∀ code : Code, expr types ⟨p ++ rest, consumed, base⟩ =
      .ok code ⟨rest, consumed + p.length, base⟩ ↔
        p ∈ (code.toList.map (Instr.forms types)).prod ∧
        ∃ body, code.toList = body ++ [.end_] ∧ depth body = 0 ∧
          ∀ n, body[n]? = some .end_ → depth (body.take n) ≠ 0) := by
  refine ⟨fun i ↦ (accepts_instr types).iff hpos, fun code ↦ ?_⟩
  rw [(accepts_expr types).iff hpos]
  change _ ∧ Stops 0 code.toList ↔ _
  simp only [Stops, zero_add]

/-- A block whose type index and a `memory.fill` whose second opcode are padded, before the two ends
and one more byte. -/
theorem instr_expr_exact_padded :
    let types : List FuncType := [⟨[], []⟩]
    let code : Code := #[.block (.func 0), .memoryFill, .end_, .end_]
    let p : List UInt8 := [0x02, 0x80, 0x00, 0xFC, 0x8B, 0x80, 0x00, 0x00, 0x0B, 0x0B]
    3 + (p ++ [0x01]).length < UInt64.size ∧
      expr types ⟨p ++ [0x01], 3, 0⟩ = .ok code ⟨[0x01], 13, 0⟩ ∧
      p ∈ (code.toList.map (Instr.forms types)).prod := by
  intro types code p
  have hpos : 3 + (p ++ [0x01]).length < UInt64.size := by decide
  have hread : expr types ⟨p ++ [0x01], 3, 0⟩ = .ok code ⟨[0x01], 13, 0⟩ := by cbv
  exact ⟨hpos, hread, (((instr_expr_exact types p [0x01] 3 0 hpos).2 code).mp hread).1⟩

end Reader

end Wasm
