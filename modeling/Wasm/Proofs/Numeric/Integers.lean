import Wasm.Proofs.Numeric.Signatures

namespace Wasm

open Outcome Stack

variable {w : Nat} {x y : BitVec w}

def IRel.Holds (x y : BitVec w) : IRel → Prop
  | eq => x.toNat = y.toNat
  | ne => x.toNat ≠ y.toNat
  | lt s => s.toInt x < s.toInt y
  | gt s => s.toInt x > s.toInt y
  | le s => s.toInt x ≤ s.toInt y
  | ge s => s.toInt x ≥ s.toInt y

def IUn.count (x : BitVec w) : IUn → Nat
  | clz => ((List.range w).takeWhile fun i ↦ !x.getMsbD i).length
  | ctz => ((List.range w).takeWhile fun i ↦ !x.getLsbD i).length
  | popcnt => (List.range w).countP x.getLsbD

/-- The integer that is the result, up to a multiple of `2 ^ w`. Quotients are taken toward zero,
and the counts of shifts and rotations modulo the width. Bits that a rotation moves beyond one end
come back at the other. -/
def IBin.integer (x y : BitVec w) : IBin → Except Trap Int
  | add => .ok (x.toNat + y.toNat)
  | sub => .ok (x.toNat - y.toNat)
  | mul => .ok (x.toNat * y.toNat)
  | div s =>
    if s.toInt y = 0 then .error .divisionByZero
    else if s = .signed ∧ x.toInt = (BitVec.intMin w).toInt ∧ y.toInt = -1 then
      .error .integerOverflow
    else .ok ((s.toInt x).tdiv (s.toInt y))
  | rem s =>
    if s.toInt y = 0 then .error .divisionByZero else .ok ((s.toInt x).tmod (s.toInt y))
  | and => .ok (x.toNat &&& y.toNat : Nat)
  | or => .ok (x.toNat ||| y.toNat : Nat)
  | xor => .ok (x.toNat ^^^ y.toNat : Nat)
  | shl => .ok (x.toNat * 2 ^ (y.toNat % w) : Nat)
  | shr s => .ok (s.toInt x / 2 ^ (y.toNat % w))
  | rotl => .ok (x.toNat * 2 ^ (y.toNat % w) + x.toNat / 2 ^ (w - y.toNat % w) : Nat)
  | rotr => .ok (x.toNat / 2 ^ (y.toNat % w) + x.toNat * 2 ^ (w - y.toNat % w) : Nat)

theorem IRel.eval_lt (s : Sign) : (lt s).eval x y = true ↔ s.toInt x < s.toInt y := by
  cases s with
  | signed => exact BitVec.slt_iff_toInt_lt
  | unsigned => exact BitVec.ult_iff_lt.trans Int.ofNat_lt.symm

theorem IRel.eval_le (s : Sign) : (le s).eval x y = true ↔ s.toInt x ≤ s.toInt y := by
  cases s with
  | signed => exact BitVec.sle_iff_toInt_le
  | unsigned => exact BitVec.ule_iff_le.trans Int.ofNat_le.symm

theorem IRel.eval_iff (op : IRel) : op.eval x y = true ↔ op.Holds x y := by
  cases op with
  | eq => simp [eval, Holds, BitVec.toNat_inj]
  | ne => simp [eval, Holds, BitVec.toNat_inj]
  | lt s => exact eval_lt s
  | gt s =>
    have h := @eval_lt w y x s
    cases s <;> exact h
  | le s => exact eval_le s
  | ge s =>
    have h := @eval_le w y x s
    cases s <;> exact h

instance (op : IRel) (x y : BitVec w) : Decidable (op.Holds x y) :=
  decidable_of_iff _ op.eval_iff

namespace IUn

theorem length_takeWhile_range {p : Nat → Bool} {n : Nat} (hle : n ≤ w)
    (hbefore : ∀ i < n, p i = true) (hat : n < w → p n = false) :
    ((List.range w).takeWhile p).length = n := by
  obtain ⟨k, rfl⟩ := Nat.exists_eq_add_of_le hle
  rw [List.range_add, List.takeWhile_append_of_pos (by simpa using hbefore)]
  cases k with
  | zero => simp
  | succ k => simp [List.range_succ_eq_map, hat (by omega)]

theorem toNat_width (w : Nat) : (w : BitVec w).toNat = w := by
  rw [BitVec.natCast_eq_ofNat, BitVec.toNat_ofNat]
  exact Nat.mod_eq_of_lt Nat.lt_two_pow_self

theorem count_ctz : count x .ctz = x.ctz.toNat := by
  have hle : x.ctz.toNat ≤ w := by
    have h := BitVec.le_def.mp (BitVec.clz_le (x := x.reverse))
    rwa [toNat_width, ← BitVec.ctz_eq_reverse_clz] at h
  refine length_takeWhile_range hle (fun i hi ↦ ?_) fun hlt ↦ ?_
  · rw [BitVec.getLsbD_false_of_lt_ctz hi]
    rfl
  · have hne : x ≠ 0#w := by
      rw [← BitVec.ctz_lt_iff_ne_zero, BitVec.lt_def, toNat_width]
      exact hlt
    rw [BitVec.getLsbD_true_ctz_of_ne_zero hne]
    rfl

theorem count_clz : count x .clz = x.clz.toNat := by
  rw [BitVec.clz_eq_reverse_ctz, ← count_ctz]
  simp only [count, BitVec.getLsbD_reverse]

theorem cpopNatRec_eq_countP (n : Nat) : x.cpopNatRec n 0 = (List.range n).countP x.getLsbD := by
  induction n with
  | zero => rfl
  | succ n ih =>
    rw [BitVec.cpopNatRec_succ, BitVec.cpopNatRec_eq, ih, List.range_succ, List.countP_append]
    cases h : x.getLsbD n <;> simp [h]

theorem toNat_eval (op : IUn) : (op.eval x).toNat = op.count x := by
  cases op with
  | clz => exact count_clz.symm
  | ctz => exact count_ctz.symm
  | popcnt => rw [eval, BitVec.toNat_cpop, cpopNatRec_eq_countP, count]

end IUn

namespace IBin

theorem ofInt_sub (a b : Int) : BitVec.ofInt w (a - b) = BitVec.ofInt w a - BitVec.ofInt w b := by
  rw [Int.sub_eq_add_neg, BitVec.ofInt_add, BitVec.ofInt_neg, BitVec.sub_eq_add_neg]

theorem ofInt_toNat (x : BitVec w) : BitVec.ofInt w x.toNat = x := by
  rw [BitVec.ofInt_natCast, BitVec.ofNat_toNat, BitVec.setWidth_eq]

/-- The two parts of a number that has been rotated have no bit in common. -/
theorem or_rotated {n j : Nat} (hn : n < 2 ^ w) (hj : j ≤ w) :
    (n <<< j % 2 ^ w ||| n >>> (w - j)) = n <<< j % 2 ^ w + n >>> (w - j) := by
  have hpow : 2 ^ w = 2 ^ (w - j) * 2 ^ j := by rw [← Nat.pow_add, Nat.sub_add_cancel hj]
  have hhigh : n <<< j % 2 ^ w = (n % 2 ^ (w - j)) <<< j := by
    rw [Nat.shiftLeft_eq, Nat.shiftLeft_eq, hpow, Nat.mul_mod_mul_right]
  have hlow : n >>> (w - j) < 2 ^ j := by
    rw [Nat.shiftRight_eq_div_pow]
    exact Nat.div_lt_of_lt_mul (hpow ▸ hn)
  rw [hhigh, Nat.shiftLeft_add_eq_or_of_lt hlow]

theorem rotated_mod {n j : Nat} (hn : n < 2 ^ w) (hj : j ≤ w) :
    (n <<< j % 2 ^ w ||| n >>> (w - j)) = (n * 2 ^ j + n / 2 ^ (w - j)) % 2 ^ w := by
  have hlt : (n <<< j % 2 ^ w ||| n >>> (w - j)) < 2 ^ w :=
    Nat.or_lt_two_pow (Nat.mod_lt _ (Nat.two_pow_pos w))
      (Nat.lt_of_le_of_lt (Nat.shiftRight_le ..) hn)
  have hsum := or_rotated hn hj
  rw [hsum] at hlt ⊢
  rw [← Nat.shiftLeft_eq, ← Nat.shiftRight_eq_div_pow, Nat.add_mod, Nat.add_mod_mod,
    Nat.mod_eq_of_lt hlt]

/-- Casts to 32 bits lose nothing of a count that is taken modulo a power of two. -/
theorem shiftCount_eq (hw : w ∣ 2 ^ 32) (y : BitVec w) : shiftCount y = y.toNat % w := by
  rw [shiftCount, BitVec.toNat_setWidth, Nat.mod_mod_of_dvd _ hw]

theorem rotateCount_eq (hw : w ∣ 2 ^ 32) (y : BitVec w) : rotateCount y = y.toNat % w := by
  have hpos := Nat.pos_of_dvd_of_pos hw (Nat.two_pow_pos 32)
  have hlt := (Nat.mod_lt y.toNat hpos).trans_le (Nat.le_of_dvd (Nat.two_pow_pos 32) hw)
  rw [rotateCount, BitVec.toNat_setWidth, BitVec.toNat_umod, BitVec.toNat_ofNat,
    Nat.mod_eq_of_lt Nat.lt_two_pow_self, Nat.mod_eq_of_lt hlt]

theorem eval_rotl (hw : w ∣ 2 ^ 32) : rotl.eval x y = (rotl.integer x y).map (BitVec.ofInt w) := by
  have hk := Nat.mod_lt y.toNat (Nat.pos_of_dvd_of_pos hw (Nat.two_pow_pos 32))
  refine congrArg Except.ok (BitVec.eq_of_toNat_eq ?_)
  rw [rotateCount_eq hw, BitVec.toNat_rotateLeft, Nat.mod_mod, rotated_mod x.isLt hk.le,
    BitVec.ofInt_natCast, BitVec.toNat_ofNat]

theorem eval_rotr (hw : w ∣ 2 ^ 32) : rotr.eval x y = (rotr.integer x y).map (BitVec.ofInt w) := by
  have hk := Nat.mod_lt y.toNat (Nat.pos_of_dvd_of_pos hw (Nat.two_pow_pos 32))
  refine congrArg Except.ok (BitVec.eq_of_toNat_eq ?_)
  -- A rotation to the right by `k` is one to the left by `w - k`.
  have hleft := rotated_mod x.isLt (Nat.sub_le w (y.toNat % w))
  rw [Nat.sub_sub_self hk.le] at hleft
  rw [rotateCount_eq hw, BitVec.toNat_rotateRight, Nat.mod_mod, Nat.or_comm, hleft, Nat.add_comm,
    BitVec.ofInt_natCast, BitVec.toNat_ofNat]

theorem toInt_eq_zero_iff (s : Sign) : s.toInt y = 0 ↔ y = 0 := by
  cases s with
  | signed =>
    change y.toInt = 0 ↔ y = 0#w
    rw [← BitVec.toInt_inj, BitVec.toInt_zero]
  | unsigned =>
    change (y.toNat : Int) = 0 ↔ y = 0#w
    rw [← BitVec.toNat_inj, BitVec.toNat_zero, Int.natCast_eq_zero]

theorem toInt_neg_one (hw : 0 < w) : (-1 : BitVec w).toInt = -1 := by
  change (-1#w).toInt = -1
  rw [BitVec.neg_one_eq_allOnes, BitVec.toInt_allOnes, if_pos hw]

theorem overflows_iff (hw : 0 < w) : x.toInt = (BitVec.intMin w).toInt ∧ y.toInt = -1 ↔
    x = BitVec.intMin w ∧ y = -1 := by
  rw [BitVec.toInt_inj, ← toInt_neg_one hw, BitVec.toInt_inj]

theorem eval_div (s : Sign) (hw : 0 < w) :
    (div s).eval x y = ((div s).integer x y).map (BitVec.ofInt w) := by
  cases s with
  | signed =>
    have hdiv : x.sdiv y = BitVec.ofInt w (x.toInt.tdiv y.toInt) := by
      apply BitVec.eq_of_toInt_eq
      rw [BitVec.toInt_sdiv, BitVec.toInt_ofInt]
    simp only [eval, integer, toInt_eq_zero_iff, true_and, overflows_iff hw, hdiv]
    split
    · rfl
    · split <;> rfl
  | unsigned =>
    have hdiv : x / y = BitVec.ofInt w ((x.toNat : Int).tdiv y.toNat) := by
      rw [← Int.ofNat_tdiv, ← BitVec.toNat_udiv, ofInt_toNat]
    simp only [eval, integer, toInt_eq_zero_iff, reduceCtorEq, false_and, if_false, hdiv]
    split <;> rfl

theorem eval_rem (s : Sign) : (rem s).eval x y = ((rem s).integer x y).map (BitVec.ofInt w) := by
  cases s with
  | signed =>
    have hrem : x.srem y = BitVec.ofInt w (x.toInt.tmod y.toInt) := by
      rw [← BitVec.toInt_srem, BitVec.ofInt_toInt]
    simp only [eval, integer, toInt_eq_zero_iff, hrem]
    split <;> rfl
  | unsigned =>
    have hrem : x % y = BitVec.ofInt w ((x.toNat : Int).tmod y.toNat) := by
      rw [← Int.ofNat_tmod, ← BitVec.toNat_umod, ofInt_toNat]
    simp only [eval, integer, toInt_eq_zero_iff, hrem]
    split <;> rfl

theorem eval_shr (s : Sign) (hw : w ∣ 2 ^ 32) :
    (shr s).eval x y = ((shr s).integer x y).map (BitVec.ofInt w) := by
  have hpow (k : Nat) : ((2 ^ k : Nat) : Int) = 2 ^ k := Int.natCast_pow 2 k
  cases s with
  | signed =>
    refine congrArg Except.ok ?_
    have hshift := BitVec.toInt_sshiftRight (x := x) (n := y.toNat % w)
    rw [Int.shiftRight_eq_div_pow, hpow] at hshift
    rw [Sign.toInt, shiftCount_eq hw, ← hshift, BitVec.ofInt_toInt]
  | unsigned =>
    refine congrArg Except.ok (BitVec.eq_of_toNat_eq ?_)
    have hlt : x.toNat / 2 ^ (y.toNat % w) < 2 ^ w :=
      Nat.lt_of_le_of_lt (Nat.div_le_self ..) x.isLt
    rw [Sign.toInt, ← hpow, ← Int.natCast_ediv, BitVec.ofInt_natCast, BitVec.toNat_ofNat,
      Nat.mod_eq_of_lt hlt, shiftCount_eq hw, BitVec.toNat_ushiftRight, Nat.shiftRight_eq_div_pow]

/-- Words are divided, shifted and all the rest as the integers are. -/
theorem eval_eq (hw : w ∣ 2 ^ 32) (op : IBin) :
    op.eval x y = (op.integer x y).map (BitVec.ofInt w) := by
  cases op with
  | add =>
    refine congrArg Except.ok ?_
    rw [BitVec.ofInt_add, ofInt_toNat, ofInt_toNat]
  | sub =>
    refine congrArg Except.ok ?_
    rw [ofInt_sub, ofInt_toNat, ofInt_toNat]
  | mul =>
    refine congrArg Except.ok ?_
    rw [BitVec.ofInt_mul, ofInt_toNat, ofInt_toNat]
  | div s => exact eval_div s (Nat.pos_of_dvd_of_pos hw (Nat.two_pow_pos 32))
  | rem s => exact eval_rem s
  | and => exact congrArg Except.ok (by rw [← BitVec.toNat_and, ofInt_toNat])
  | or => exact congrArg Except.ok (by rw [← BitVec.toNat_or, ofInt_toNat])
  | xor => exact congrArg Except.ok (by rw [← BitVec.toNat_xor, ofInt_toNat])
  | shl =>
    refine congrArg Except.ok (BitVec.eq_of_toNat_eq ?_)
    rw [shiftCount_eq hw, BitVec.toNat_shiftLeft, Nat.shiftLeft_eq, BitVec.ofInt_natCast,
      BitVec.toNat_ofNat]
  | shr s => exact eval_shr s hw
  | rotl => exact eval_rotl hw
  | rotr => exact eval_rotr hw

/-- A dividend is what its quotient and its remainder make of the divisor. -/
theorem dividend_eq {s : Sign} {q r : BitVec w} (hq : (div s).eval x y = .ok q)
    (hr : (rem s).eval x y = .ok r) : s.toInt x = s.toInt y * s.toInt q + s.toInt r := by
  cases s with
  | signed =>
    simp only [eval] at hq hr
    split at hq
    · cases hq
    · split at hq
      · cases hq
      · rename_i hzero hoverflow
        cases hq
        rw [if_neg hzero] at hr
        cases hr
        have hdiv := BitVec.toInt_sdiv_of_ne_or_ne x y (not_and_or.mp hoverflow)
        rw [Sign.toInt, Sign.toInt, Sign.toInt, Sign.toInt, hdiv, BitVec.toInt_srem,
          Int.mul_tdiv_add_tmod]
  | unsigned =>
    simp only [eval] at hq hr
    split at hq
    · cases hq
    · rename_i hzero
      cases hq
      rw [if_neg hzero] at hr
      cases hr
      rw [Sign.toInt, Sign.toInt, Sign.toInt, Sign.toInt, BitVec.toNat_udiv, BitVec.toNat_umod]
      exact_mod_cast (Nat.div_add_mod x.toNat y.toNat).symm

theorem eval_divisionByZero_iff (op : IBin) : op.eval x y = .error .divisionByZero ↔
    (∃ s, op = div s ∨ op = rem s) ∧ y = 0 := by
  cases op with
  | div s => cases s <;> grind [eval]
  | rem s => cases s <;> grind [eval]
  | shr s => cases s <;> simp [eval]
  | _ => simp [eval]

theorem neg_one_ne_zero (hw : 0 < w) : (-1 : BitVec w) ≠ 0 := by
  intro h
  have hzero := (toInt_eq_zero_iff .signed).mpr h
  rw [Sign.toInt, toInt_neg_one hw] at hzero
  cases hzero

theorem eval_integerOverflow_iff (hw : 0 < w) (op : IBin) :
    op.eval x y = .error .integerOverflow ↔
      op = div .signed ∧ x = BitVec.intMin w ∧ y = -1 := by
  have hne := neg_one_ne_zero hw
  cases op with
  | div s => cases s <;> grind [eval]
  | rem s => cases s <;> grind [eval]
  | shr s => cases s <;> simp [eval]
  | _ => simp [eval]

theorem rotateRight_rotateLeft (x : BitVec w) (k : Nat) :
    (x.rotateLeft k).rotateRight k = x := by
  apply BitVec.eq_of_getElem_eq
  intro i hi
  have hk := Nat.mod_lt k (Nat.zero_lt_of_lt hi)
  rw [BitVec.getElem_rotateRight]
  split
  · rw [BitVec.getElem_rotateLeft, dif_neg (by omega)]
    congr 1
    omega
  · rw [BitVec.getElem_rotateLeft, dif_pos (by omega)]
    congr 1
    omega

theorem rotateLeft_rotateRight (x : BitVec w) (k : Nat) :
    (x.rotateRight k).rotateLeft k = x := by
  apply BitVec.eq_of_getElem_eq
  intro i hi
  have hk := Nat.mod_lt k (Nat.zero_lt_of_lt hi)
  rw [BitVec.getElem_rotateLeft]
  split
  · rw [BitVec.getElem_rotateRight, dif_neg (by omega)]
    congr 1
    omega
  · rw [BitVec.getElem_rotateRight, dif_pos (by omega)]
    congr 1
    omega

theorem rem_intMin (hw : 0 < w) : (rem .signed).eval (BitVec.intMin w) (-1) = .ok 0 := by
  have hrem : (BitVec.intMin w).srem (-1) = 0#w := by
    apply BitVec.eq_of_toInt_eq
    rw [BitVec.toInt_srem, toInt_neg_one hw, BitVec.toInt_zero, Int.tmod_neg, Int.tmod_one]
  rw [eval, hrem, if_neg (neg_one_ne_zero hw)]
  rfl

end IBin

structure IntegerLaws (w : Nat) : Prop where
  zero : (IUn.clz.eval (0 : BitVec w)).toNat = w ∧ (IUn.ctz.eval (0 : BitVec w)).toNat = w
  dividend : ∀ (s : Sign) (x y q r : BitVec w), (IBin.div s).eval x y = .ok q →
    (IBin.rem s).eval x y = .ok r → s.toInt x = s.toInt y * s.toInt q + s.toInt r
  divisionByZero : ∀ (op : IBin) (x y : BitVec w), op.eval x y = .error .divisionByZero ↔
    (∃ s, op = .div s ∨ op = .rem s) ∧ y = 0
  integerOverflow : ∀ (op : IBin) (x y : BitVec w), op.eval x y = .error .integerOverflow ↔
    op = .div .signed ∧ x = BitVec.intMin w ∧ y = -1
  least : (IBin.rem .signed).eval (BitVec.intMin w) (-1) = .ok 0
  rotated : ∀ x k : BitVec w,
    (IBin.rotl.eval x k >>= fun z ↦ IBin.rotr.eval z k) = .ok x ∧
    (IBin.rotr.eval x k >>= fun z ↦ IBin.rotl.eval z k) = .ok x

theorem integerLaws (hw : 0 < w) : IntegerLaws w where
  zero := by
    rw [IUn.toNat_eval, IUn.toNat_eval]
    exact ⟨IUn.length_takeWhile_range le_rfl (by simp) (by simp),
      IUn.length_takeWhile_range le_rfl (by simp) (by simp)⟩
  dividend _ _ _ _ _ := IBin.dividend_eq
  divisionByZero op _ _ := op.eval_divisionByZero_iff
  integerOverflow op _ _ := op.eval_integerOverflow_iff hw
  least := IBin.rem_intMin hw
  rotated x k := ⟨congrArg Except.ok (IBin.rotateRight_rotateLeft x _),
    congrArg Except.ok (IBin.rotateLeft_rotateRight x _)⟩

theorem Value.exists_int {w : Width} {v : Value} (h : v.type = .int w) :
    ∃ x : BitVec w.bits, v = .int w x := by
  cases w <;> cases v <;> cases h <;> exact ⟨_, rfl⟩

theorem Value.exists_float {w : Width} {v : Value} (h : v.type = .float w) :
    ∃ x : BitVec w.bits, v = .float w x := by
  cases w <;> cases v <;> cases h <;> exact ⟨_, rfl⟩

namespace NumOp

def integral : NumOp → Bool
  | eqz _ | irel _ _ | iun _ _ | ibin _ _ | wrap | extend _ | bitsOfFloat _ | floatOfBits _
  | signExtend _ => true
  | _ => false

/-- The standard result of an operator on operands of which the last is on top. An integer that is
not one of the width is reduced to one modulo a power of two. -/
inductive Standard : NumOp → List Value → Except Trap Value → Prop
  | eqz {w : Width} (x : BitVec w.bits) :
    Standard (eqz w) [.int w x] (.ok (.i32 (if x.toNat = 0 then 1 else 0)))
  | irel {w : Width} (op : IRel) (x y : BitVec w.bits) :
    Standard (irel w op) [.int w x, .int w y] (.ok (.i32 (if op.Holds x y then 1 else 0)))
  | iun {w : Width} (op : IUn) (x : BitVec w.bits) :
    Standard (iun w op) [.int w x] (.ok (.int w (.ofNat _ (op.count x))))
  | ibin {w : Width} (op : IBin) (x y : BitVec w.bits) :
    Standard (ibin w op) [.int w x, .int w y]
      ((op.integer x y).map fun n ↦ .int w (.ofInt _ n))
  | wrap (x : BitVec 64) : Standard wrap [.i64 x] (.ok (.i32 (.ofNat 32 x.toNat)))
  | extend (s : Sign) (x : BitVec 32) :
    Standard (extend s) [.i32 x] (.ok (.i64 (.ofInt 64 (s.toInt x))))
  | signExtend (n : Narrow) (x : BitVec n.width.bits) :
    Standard (signExtend n) [.int n.width x]
      (.ok (.int n.width (.ofInt _ ((x.toNat : Int).bmod (2 ^ n.bits)))))
  | bitsOfFloat {w : Width} (x : BitVec w.bits) :
    Standard (bitsOfFloat w) [.float w x] (.ok (.int w x))
  | floatOfBits {w : Width} (x : BitVec w.bits) :
    Standard (floatOfBits w) [.int w x] (.ok (.float w x))

/-- Where there is room for a result, the operator puts it in the place of the operands, or traps
for the same reason when it has taken them. -/
def Yields (op : NumOp) (args : List Value) (r : Except Trap Value) : Prop :=
  ∀ s : Stack, s.entries.size < s.limit →
    Instr.execNumeric (.numeric op) (s.stacked args) = match r with
      | .ok v => .ok true (s.pushed v)
      | .error e => .error e s

theorem yields {op : NumOp} {args : List Value} {r : Except Trap Value}
    (h : ∀ s, op.exec (s.stacked args) = pushResult r s) : op.Yields args r := by
  intro s hs
  change (op.exec >>= fun _ ↦ pure true) (s.stacked args) = _
  rw [bind_apply, h]
  cases r with
  | ok v =>
    rw [pushResult, pushValue_room hs]
    rfl
  | error e => rfl

theorem resize_eq (s : Sign) (x : BitVec 32) : s.resize 64 x = .ofInt 64 (s.toInt x) := by
  cases s with
  | signed => rfl
  | unsigned => exact ((BitVec.ofInt_natCast ..).trans (BitVec.ofNat_toNat ..)).symm

theorem Standard.yields {op : NumOp} {args : List Value} {r : Except Trap Value}
    (h : op.Standard args r) : op.Yields args r := by
  refine NumOp.yields fun s ↦ ?_
  cases h with
  | @eqz w x =>
    have hvalue : Value.ofBool (x = 0) = .i32 (if x.toNat = 0 then 1 else 0) := by
      simp [Value.ofBool, ← BitVec.toNat_inj]
    rw [← hvalue]
    change (popInt w >>= fun x ↦ pushValue (.ofBool (x = 0))) (s.pushed (.int w x)) = _
    rw [bind_apply, popInt_pushed_int]
    rfl
  | @irel w op x y =>
    have hvalue : Value.ofBool (op.eval x y) = .i32 (if op.Holds x y then 1 else 0) := by
      simp only [Value.ofBool, op.eval_iff]
    rw [← hvalue]
    change (popInt w >>= fun y ↦ popInt w >>= fun x ↦ pushValue (.ofBool (op.eval x y)))
      ((s.pushed (.int w x)).pushed (.int w y)) = _
    simp only [bind_apply, popInt_pushed_int]
    rfl
  | @iun w op x =>
    rw [← op.toNat_eval, BitVec.ofNat_toNat, BitVec.setWidth_eq]
    change (popInt w >>= fun x ↦ pushValue (.int w (op.eval x))) (s.pushed (.int w x)) = _
    rw [bind_apply, popInt_pushed_int]
    rfl
  | @ibin w op x y =>
    have hw : w.bits ∣ 2 ^ 32 := by cases w <;> decide
    have hresult : (op.integer x y).map (fun n ↦ Value.int w (.ofInt _ n)) =
        (op.eval x y).map (.int w) := by
      rw [op.eval_eq hw]
      cases op.integer x y <;> rfl
    rw [hresult]
    change (popInt w >>= fun y ↦ popInt w >>= fun x ↦ pushResult ((op.eval x y).map (.int w)))
      ((s.pushed (.int w x)).pushed (.int w y)) = _
    simp only [bind_apply, popInt_pushed_int]
  | wrap x =>
    change (popI64 >>= fun x ↦ pushValue (.i32 (x.setWidth 32))) (s.pushed (.i64 x)) = _
    have hpop : popI64 (s.pushed (.i64 x)) = .ok x s := popAs_pushed rfl
    rw [bind_apply, hpop, BitVec.ofNat_toNat]
    rfl
  | extend sign x =>
    rw [← resize_eq]
    change (popI32 >>= fun x ↦ pushValue (.i64 (sign.resize 64 x))) (s.pushed (.i32 x)) = _
    have hpop : popI32 (s.pushed (.i32 x)) = .ok x s := popAs_pushed rfl
    rw [bind_apply, hpop]
    rfl
  | signExtend n x =>
    rw [← BitVec.toInt_setWidth]
    change (popInt n.width >>= fun x ↦ pushValue (.int n.width
      ((x.setWidth n.bits).signExtend n.width.bits))) (s.pushed (.int n.width x)) = _
    rw [bind_apply, popInt_pushed_int]
    rfl
  | @bitsOfFloat w x =>
    change (popFloat w >>= fun x ↦ pushValue (.int w x)) (s.pushed (.float w x)) = _
    rw [bind_apply, popFloat_pushed_float]
    rfl
  | @floatOfBits w x =>
    change (popInt w >>= fun x ↦ pushValue (.float w x)) (s.pushed (.int w x)) = _
    rw [bind_apply, popInt_pushed_int]
    rfl

theorem standard_of_typed {op : NumOp} (hop : op.integral = true) {args : List Value}
    (hargs : args.map Value.type = op.params) : ∃ r, op.Standard args r := by
  have hunary {t : ValType} (h : args.map Value.type = [t]) : ∃ v, args = [v] ∧ v.type = t :=
    List.map_eq_singleton_iff.mp h
  have hbinary {t : ValType} (h : args.map Value.type = [t, t]) :
      ∃ v v', args = [v, v'] ∧ v.type = t ∧ v'.type = t := by
    obtain ⟨v, vs, rfl, hv, hvs⟩ := List.map_eq_cons_iff.mp h
    obtain ⟨v', rfl, hv'⟩ := List.map_eq_singleton_iff.mp hvs
    exact ⟨v, v', rfl, hv, hv'⟩
  cases op with
  | eqz w =>
    obtain ⟨v, rfl, hv⟩ := hunary hargs
    obtain ⟨x, rfl⟩ := Value.exists_int hv
    exact ⟨_, .eqz x⟩
  | irel w op =>
    obtain ⟨v, v', rfl, hv, hv'⟩ := hbinary hargs
    obtain ⟨x, rfl⟩ := Value.exists_int hv
    obtain ⟨y, rfl⟩ := Value.exists_int hv'
    exact ⟨_, .irel op x y⟩
  | iun w op =>
    obtain ⟨v, rfl, hv⟩ := hunary hargs
    obtain ⟨x, rfl⟩ := Value.exists_int hv
    exact ⟨_, .iun op x⟩
  | ibin w op =>
    obtain ⟨v, v', rfl, hv, hv'⟩ := hbinary hargs
    obtain ⟨x, rfl⟩ := Value.exists_int hv
    obtain ⟨y, rfl⟩ := Value.exists_int hv'
    exact ⟨_, .ibin op x y⟩
  | wrap =>
    obtain ⟨v, rfl, hv⟩ := hunary hargs
    obtain ⟨x, rfl⟩ := @Value.exists_int .w64 v hv
    exact ⟨_, .wrap x⟩
  | extend s =>
    obtain ⟨v, rfl, hv⟩ := hunary hargs
    obtain ⟨x, rfl⟩ := @Value.exists_int .w32 v hv
    exact ⟨_, .extend s x⟩
  | signExtend n =>
    obtain ⟨v, rfl, hv⟩ := hunary hargs
    obtain ⟨x, rfl⟩ := Value.exists_int hv
    exact ⟨_, .signExtend n x⟩
  | bitsOfFloat w =>
    obtain ⟨v, rfl, hv⟩ := hunary hargs
    obtain ⟨x, rfl⟩ := Value.exists_float hv
    exact ⟨_, .bitsOfFloat x⟩
  | floatOfBits w =>
    obtain ⟨v, rfl, hv⟩ := hunary hargs
    obtain ⟨x, rfl⟩ := Value.exists_int hv
    exact ⟨_, .floatOfBits x⟩
  | _ => cases hop

def andThen (op op' : NumOp) : StackM Bool := do
  let _ ← Instr.execNumeric (.numeric op)
  Instr.execNumeric (.numeric op')

theorem andThen_pushed {op op' : NumOp} {v v' : Value} {s : Stack} (h : op.Yields [v] (.ok v'))
    (h' : op'.Yields [v'] (.ok v)) (hs : s.entries.size < s.limit) :
    op.andThen op' (s.pushed v) = .ok true (s.pushed v) := by
  have hfirst : Instr.execNumeric (.numeric op) (s.pushed v) = .ok true (s.pushed v') := h s hs
  rw [andThen, bind_apply, hfirst]
  exact h' s hs

/-- Every integer operator puts the standard result in the place of its operands, whatever these
are, and the laws of integer arithmetic hold of words. A float that is taken for an integer and back
for a float has the same bits, and so has an integer that is taken for a float and back. -/
theorem integral_standard :
    (∀ op : NumOp, op.integral = true → ∀ args : List Value, args.map Value.type = op.params →
      ∃ r, op.Standard args r ∧ op.Yields args r) ∧
    (∀ w : Width, IntegerLaws w.bits) ∧
    ∀ (w : Width) (x : BitVec w.bits) (s : Stack), s.entries.size < s.limit →
      (bitsOfFloat w).andThen (floatOfBits w) (s.pushed (.float w x)) =
        .ok true (s.pushed (.float w x)) ∧
      (floatOfBits w).andThen (bitsOfFloat w) (s.pushed (.int w x)) =
        .ok true (s.pushed (.int w x)) := by
  refine ⟨fun op hop args hargs ↦ ?_, fun w ↦ integerLaws (by cases w <;> decide),
    fun w x s hs ↦ ?_⟩
  · obtain ⟨r, hr⟩ := standard_of_typed hop hargs
    exact ⟨r, hr, hr.yields⟩
  · have hbits := (Standard.bitsOfFloat x).yields
    have hfloat := (Standard.floatOfBits x).yields
    exact ⟨andThen_pushed hbits hfloat hs, andThen_pushed hfloat hbits hs⟩

/-- A count of more than 32 bits. -/
theorem integral_standard_wideCount :
    Instr.execNumeric (.numeric (.ibin .w64 .shl))
      ⟨#[.value (.i64 3), .value (.i64 0x100000041)], #[], 2⟩ =
        .ok true ⟨#[.value (.i64 6)], #[], 2⟩ := by
  obtain ⟨hstandard, -⟩ := integral_standard
  obtain ⟨r, hr, hyields⟩ :=
    hstandard (.ibin .w64 .shl) rfl [.i64 3, .i64 0x100000041] rfl
  have hrun := hyields ⟨#[], #[], 2⟩ (by decide)
  cases hr
  exact hrun

end NumOp

end Wasm
