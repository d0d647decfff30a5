import Wasm.Bytes.Leb128
import Wasm.Proofs.Outcome

namespace Wasm

namespace Leb128

def value : List UInt8 → Nat
  | [] => 0
  | b :: bs => b.toNat % 128 + 128 * value bs

/-- The number of a byte sequence, read as signed: bit 6 of the last byte is the sign. -/
def signedValue (bs : List UInt8) : Int :=
  match bs.getLast? with
  | some b => if b.toNat % 128 < 64 then value bs else value bs - (1 <<< (7 * bs.length) : Nat)
  | none => 0

def number : Sign → List UInt8 → Int
  | .unsigned, bs => value bs
  | .signed, bs => signedValue bs

def InRange : Sign → (bits : Nat) → Int → Prop
  | .unsigned, bits, i => i < 2 ^ bits
  | .signed, bits, i => -2 ^ (bits - 1) ≤ i ∧ i < 2 ^ (bits - 1)

instance (s : Sign) (bits : Nat) (i : Int) : Decidable (InRange s bits i) := by
  cases s <;> unfold InRange <;> infer_instance

def groups (tooLong : DecodeError) : Nat → Reader (List UInt8)
  | 0 => throw tooLong
  | n + 1 => do
    let b ← Reader.byte
    if b < 128 then
      return [b]
    return b :: (← groups tooLong n)

/-- The bytes of one number: all but the last have their top bit set. -/
inductive Terminated : List UInt8 → Prop
  | last {b : UInt8} : b < 128 → Terminated [b]
  | more {b : UInt8} {bs : List UInt8} : ¬ b < 128 → Terminated bs → Terminated (b :: bs)

variable {s : Sign} {bits a d shift : Nat} {b : UInt8} {bs : List UInt8}

theorem Terminated.ne_nil (h : Terminated bs) : bs ≠ [] := by
  cases h <;> exact List.cons_ne_nil _ _

/-- The value of a signed number, digit by digit. -/
theorem signedValue_cons (b : UInt8) (h : bs ≠ []) :
    signedValue (b :: bs) = (b.toNat % 128 : Nat) + 128 * signedValue bs := by
  obtain ⟨c, hc⟩ := Option.isSome_iff_exists.mp (List.getLast?_isSome.mpr h)
  have hlast : (b :: bs).getLast? = some c := by rw [List.getLast?_cons_of_ne_nil h, hc]
  have hpow : (1 <<< (7 * (bs.length + 1)) : Nat) = 128 * 1 <<< (7 * bs.length) := by
    rw [Nat.one_shiftLeft, Nat.one_shiftLeft, Nat.mul_add, Nat.pow_add]
    ring
  simp only [signedValue, hlast, hc, value, List.length_cons, hpow]
  split <;> push_cast <;> ring

theorem signedValue_singleton (b : UInt8) :
    signedValue [b] = b.toNat % 128 - if b.toNat % 128 < 64 then 0 else 128 := by
  simp only [signedValue, List.getLast?_singleton, value, List.length_singleton]
  split <;> simp

theorem number_cons (s : Sign) (b : UInt8) (h : bs ≠ []) :
    number s (b :: bs) = (b.toNat % 128 : Nat) + 128 * number s bs := by
  cases s with
  | signed => exact signedValue_cons b h
  | unsigned =>
    simp only [number, value]
    push_cast
    ring

theorem digit_eq (b : UInt8) : digit b = BitVec.ofNat 64 (b.toNat % 128) := by
  revert b
  decide +kernel

theorem continues_iff (b : UInt8) : b &&& 0x80 = 0 ↔ b < 128 := by
  revert b
  decide +kernel

/-- Digits that are set above all others are added. -/
theorem or_digit (ha : a < 2 ^ shift) (d : Nat) :
    BitVec.ofNat 64 a ||| BitVec.ofNat 64 d <<< shift = BitVec.ofNat 64 (a + 2 ^ shift * d) := by
  apply BitVec.eq_of_toNat_eq
  have hshift : (BitVec.ofNat 64 d <<< shift).toNat = 2 ^ shift * d % 2 ^ 64 := by
    rw [BitVec.toNat_shiftLeft, BitVec.toNat_ofNat, Nat.shiftLeft_eq, Nat.mul_comm,
      Nat.mul_mod, Nat.mod_mod, ← Nat.mul_mod]
  rw [BitVec.toNat_or, hshift, BitVec.toNat_ofNat, BitVec.toNat_ofNat, ← Nat.or_mod_two_pow,
    Nat.or_comm, ← Nat.two_pow_add_eq_or_of_lt ha, Nat.add_comm]

theorem ofInt_congr {i j : Int} (h : 2 ^ 64 ∣ i - j) : BitVec.ofInt 64 i = BitVec.ofInt 64 j := by
  apply BitVec.eq_of_toNat_eq
  rw [BitVec.toNat_ofInt, BitVec.toNat_ofInt]
  exact congrArg Int.toNat (Int.modEq_iff_dvd.mpr h).symm

theorem lt_of_digit (ha : a < 2 ^ shift) (b : UInt8) :
    a + 2 ^ shift * (b.toNat % 128) < 2 ^ (shift + 7) := by
  have hdigit : b.toNat % 128 ≤ 127 := Nat.le_of_lt_succ (Nat.mod_lt _ (by decide))
  have := Nat.mul_le_mul_left (2 ^ shift) hdigit
  rw [pow_add]
  omega

/-- The sign bits that are set are those of the number. At the end of the word there are none to be
set, and the number is the same modulo `2 ^ 64`. -/
theorem signExtend_eq (ha : a < 2 ^ shift) (b : UInt8) :
    signExtend s (BitVec.ofNat 64 (a + 2 ^ shift * (b.toNat % 128))) (shift + 7) b =
      BitVec.ofInt 64 (a + 2 ^ shift * number s [b]) := by
  have hsign : b &&& 0x40 ≠ 0 ↔ ¬ b.toNat % 128 < 64 := by
    revert b
    decide +kernel
  unfold signExtend
  cases s with
  | unsigned =>
    rw [if_neg (by simp), ← BitVec.ofInt_natCast]
    simp [number, value]
  | signed =>
    rw [number, signedValue_singleton]
    by_cases hneg : b.toNat % 128 < 64
    · rw [if_neg (fun h ↦ hsign.mp h.2.2 hneg), if_pos hneg, ← BitVec.ofInt_natCast]
      push_cast
      simp
    · rw [if_neg hneg]
      have hvalue : (a + 2 ^ shift * (b.toNat % 128 - 128) : Int) =
          (a + 2 ^ shift * (b.toNat % 128) : Nat) - 2 ^ (shift + 7) := by
        push_cast
        rw [pow_add]
        ring
      rw [hvalue]
      by_cases hend : shift + 7 < 64
      · rw [if_pos ⟨rfl, hend, hsign.mpr hneg⟩, show -1#64 = BitVec.ofNat 64 (2 ^ 64 - 1) by rfl,
          or_digit (lt_of_digit ha b), ← BitVec.ofInt_natCast]
        refine ofInt_congr ⟨2 ^ (shift + 7), ?_⟩
        push_cast
        ring
      · rw [if_neg (fun h ↦ hend h.2.1), ← BitVec.ofInt_natCast]
        refine ofInt_congr ?_
        rw [sub_sub_cancel]
        exact pow_dvd_pow 2 (Nat.not_lt.mp hend)

/-- The check of the last byte is that of its own number against the bits that are left. -/
theorem fits_iff {used : Nat} (hpos : 0 < used) (hused : used < 7) (b : UInt8) :
    fits s used (digit b) ↔ InRange s used (number s [b]) := by
  have hall : ∀ s ∈ [Sign.signed, .unsigned], ∀ used ∈ [1, 2, 3, 4, 5, 6], ∀ b : UInt8,
      fits s used (digit b) ↔ InRange s used (number s [b]) := by
    decide +kernel
  refine hall s ?_ used ?_ b
  · cases s <;> decide
  · interval_cases used <;> decide

theorem inRange_add {used : Nat} (ha : a < 2 ^ shift) (hused : 0 < used) {i : Int} :
    InRange s (shift + used) (a + 2 ^ shift * i) ↔ InRange s used i := by
  have hpos : (0 : Int) < 2 ^ shift := by positivity
  have ha : (a : Int) < 2 ^ shift := by exact_mod_cast ha
  have hlt (m : Int) : a + 2 ^ shift * i < 2 ^ shift * m ↔ i < m := by
    constructor
    · intro h
      by_contra hle
      have := Int.mul_le_mul_of_nonneg_left (Int.not_lt.mp hle) hpos.le
      omega
    · intro h
      have := Int.mul_le_mul_of_nonneg_left (Int.add_one_le_of_lt h) hpos.le
      rw [mul_add, mul_one] at this
      omega
  cases s with
  | unsigned => rw [InRange, pow_add, hlt, InRange]
  | signed =>
    have hge : -(2 ^ shift * 2 ^ (used - 1)) ≤ a + 2 ^ shift * i ↔ -2 ^ (used - 1) ≤ i := by
      rw [← Int.not_lt, ← Int.not_lt, ← mul_neg, hlt]
    rw [InRange, Nat.add_sub_assoc hused, pow_add, hlt, hge, InRange]

theorem inRange_singleton (s : Sign) (b : UInt8) : InRange s 7 (number s [b]) := by
  revert s b
  have hall : ∀ s ∈ [Sign.signed, .unsigned], ∀ b : UInt8, InRange s 7 (number s [b]) := by
    decide +kernel
  exact fun s ↦ hall s (by cases s <;> decide)

theorem inRange_natCast {n : Nat} : InRange .unsigned bits n ↔ n < 2 ^ bits := by
  rw [InRange]
  norm_cast

theorem InRange.mono {i : Int} {bits' : Nat} (h : InRange s bits i) (hbits : bits ≤ bits') :
    InRange s bits' i := by
  have hpow {m n : Nat} (h : m ≤ n) : (2 : Int) ^ m ≤ 2 ^ n := pow_le_pow_right₀ (by decide) h
  cases s with
  | unsigned => exact lt_of_lt_of_le h (hpow hbits)
  | signed =>
    have hpow := hpow (Nat.sub_le_sub_right hbits 1)
    exact ⟨(neg_le_neg hpow).trans h.1, h.2.trans_le hpow⟩

end Leb128

namespace Reader

open Leb128

variable {s : Sign} {bits start n k b : Nat} {c c' : Cursor} {u bs : List UInt8}

/-- A number that is told after all of its bytes: whether they have ended in time, and whether what
they stand for is in range. -/
def ranged (s : Sign) (bits : Nat) : Reader Int := do
  let start ← offset
  let i := number s (← groups (.lebTooLong (limit bits) start) (limit bits))
  if InRange s bits i then
    return i
  throw (.lebOverflow bits start)

theorem byte_ok {x : UInt8} (h : byte ⟨u, k, b⟩ = .ok x c) :
    ∃ rest, u = x :: rest ∧ c = ⟨rest, k + 1, b⟩ := by
  cases u with
  | nil => cases h
  | cons y rest =>
    cases h
    exact ⟨rest, rfl, rfl⟩

theorem groups_ok {e : DecodeError} (h : groups e n ⟨u, k, b⟩ = .ok bs c) :
    Terminated bs ∧ bs.length ≤ n ∧ ∃ rest, u = bs ++ rest ∧ c = ⟨rest, k + bs.length, b⟩ := by
  induction n generalizing u k bs with
  | zero => cases h
  | succ n ih =>
    obtain ⟨x, _, hx, h⟩ := Outcome.bind_ok h
    obtain ⟨rest, rfl, rfl⟩ := byte_ok hx
    split at h
    · rename_i hlast
      cases h
      exact ⟨.last hlast, Nat.le_add_left 1 n, rest, rfl, rfl⟩
    · rename_i hmore
      obtain ⟨bs, _, hbs, ⟨⟩⟩ := Outcome.bind_ok h
      obtain ⟨hterm, hlen, rest, rfl, rfl⟩ := ih hbs
      refine ⟨.more hmore hterm, Nat.succ_le_succ hlen, rest, rfl, ?_⟩
      rw [List.length_cons, Nat.add_assoc, Nat.add_comm 1]

theorem groups_cons (e : DecodeError) (n : Nat) (x : UInt8) (u : List UInt8) (k b : Nat) :
    groups e (n + 1) ⟨x :: u, k, b⟩ =
      (if x < 128 then pure [x] else (x :: ·) <$> groups e n) ⟨u, k + 1, b⟩ := by
  rw [groups, map_eq_pure_bind]
  rfl

theorem groups_ok_iff (e : DecodeError) : groups e n c = .ok bs c' ↔
    Terminated bs ∧ bs.length ≤ n ∧ bs <+: c.unread ∧ c' = c.advance bs.length := by
  constructor
  · intro h
    obtain ⟨hterm, hlen, rest, hrest, rfl⟩ := groups_ok h
    refine ⟨hterm, hlen, ⟨rest, hrest.symm⟩, ?_⟩
    rw [Cursor.advance, hrest, List.drop_left]
  · rintro ⟨hterm, hlen, ⟨rest, hrest⟩, rfl⟩
    obtain ⟨u, k, b⟩ := c
    obtain rfl : bs ++ rest = u := hrest
    induction hterm generalizing n k with
    | @last x hx =>
      obtain ⟨n, rfl⟩ := Nat.exists_eq_succ_of_ne_zero (Nat.ne_zero_of_lt hlen)
      rw [List.cons_append, groups_cons, if_pos hx]
      rfl
    | @more x bs hx _ ih =>
      obtain ⟨n, rfl⟩ := Nat.exists_eq_succ_of_ne_zero (Nat.ne_zero_of_lt hlen)
      rw [List.cons_append, groups_cons, if_neg hx, Outcome.map_apply,
        ih (Nat.le_of_succ_le_succ hlen)]
      simp only [Cursor.advance, List.length_cons, List.drop_succ_cons]
      rw [Nat.add_assoc, Nat.add_comm 1]

theorem lastByte_of_not_lt {shift : Nat} {b : UInt8} (h : ¬ b < 128) :
    lastByte s bits start shift b = throw (.lebTooLong (limit bits) start) := by
  rw [lastByte, if_pos (mt (continues_iff b).mp h)]
  rfl

/-- The last byte passes its check just when the whole number is in range. -/
theorem lastByte_of_lt {shift a : Nat} {b : UInt8} (hb : b < 128) (ha : a < 2 ^ shift)
    (hshift : shift < bits) (hbits : bits ≤ shift + 7) : lastByte s bits start shift b =
      if InRange s bits (a + 2 ^ shift * number s [b]) then pure ()
      else throw (.lebOverflow bits start) := by
  obtain ⟨used, rfl⟩ := Nat.exists_eq_add_of_le hshift.le
  have hpos : 0 < used := by omega
  rw [lastByte, if_neg (not_not.mpr ((continues_iff b).mpr hb)), Nat.add_sub_cancel_left]
  simp only [inRange_add ha hpos]
  by_cases hused : used < 7
  · simp only [← fits_iff hpos hused]
    by_cases hfits : fits s used (digit b) <;> simp [hused, hfits]
  · obtain rfl : used = 7 := by omega
    rw [if_neg (fun h ↦ hused h.1), if_pos (inRange_singleton s b)]

/-- The rest of a number whose bytes so far stand for `a`. -/
theorem leb128Loop_eq {shift a : Nat} (hn : shift + 7 * n = 7 * limit bits) (ha : a < 2 ^ shift) :
    leb128Loop s bits start n shift (BitVec.ofNat 64 a) = (do
      let i : Int := a + 2 ^ shift * number s (← groups (.lebTooLong (limit bits) start) n)
      if InRange s bits i then
        return BitVec.ofInt 64 i
      throw (.lebOverflow bits start)) := by
  induction n generalizing shift a with
  | zero => rfl
  | succ n ih =>
    unfold limit at hn
    unfold leb128Loop groups
    rw [bind_assoc]
    congr 1
    funext b
    dsimp only
    rw [digit_eq, or_digit ha]
    have hlow := lt_of_digit ha b
    by_cases hb : b < 128
    · simp only [(continues_iff b).mpr hb, if_pos hb, if_true, signExtend_eq ha, pure_bind]
      cases n with
      | zero =>
        rw [if_pos rfl, lastByte_of_lt hb ha (by omega) (by omega)]
        split <;> rfl
      | succ n =>
        have hrange := (inRange_add ha (by decide)).mpr (inRange_singleton s b)
        rw [if_neg (Nat.succ_ne_zero n), if_pos (hrange.mono (by omega))]
    · simp only [continues_iff b, if_neg hb]
      cases n with
      | zero =>
        rw [if_pos rfl, lastByte_of_not_lt hb]
        rfl
      | succ n =>
        rw [if_neg (Nat.succ_ne_zero n), ih (by unfold limit; omega) hlow]
        funext c
        simp only [Outcome.bind_apply]
        cases hbs : groups (.lebTooLong (limit bits) start) (n + 1) c with
        | error e c' => rfl
        | ok bs c' =>
          have hvalue : ((a + 2 ^ shift * (b.toNat % 128) : Nat) : Int) +
              2 ^ (shift + 7) * number s bs = a + 2 ^ shift * number s (b :: bs) := by
            rw [number_cons s b ((groups_ok_iff _).mp hbs).1.ne_nil, pow_add]
            push_cast
            ring
          simp only [hvalue, Outcome.pure_apply]

theorem leb128_eq (s : Sign) (bits : Nat) : leb128 s bits = BitVec.ofInt 64 <$> ranged s bits := by
  unfold leb128 ranged
  rw [map_bind]
  congr 1
  funext start
  have hlimit : 0 + 7 * limit bits = 7 * limit bits := Nat.zero_add _
  have h := @leb128Loop_eq s bits start (limit bits) 0 0 hlimit Nat.one_pos
  simp only [Nat.cast_zero, pow_zero, one_mul, zero_add] at h
  rw [h, map_bind]
  congr 1
  funext bs
  dsimp only
  split <;> rfl

theorem ranged_ok_iff {i : Int} : ranged s bits c = .ok i c' ↔
    ∃ bs, (Terminated bs ∧ bs.length ≤ limit bits ∧ number s bs = i ∧ InRange s bits i) ∧
      bs <+: c.unread ∧ c' = c.advance bs.length := by
  constructor
  · intro h
    obtain ⟨start, _, ⟨⟩, h⟩ := Outcome.bind_ok h
    obtain ⟨bs, _, hbs, h⟩ := Outcome.bind_ok h
    obtain ⟨hterm, hlen, hpre, rfl⟩ := (groups_ok_iff _).mp hbs
    dsimp only at h
    split at h
    · rename_i hrange
      cases h
      exact ⟨bs, ⟨hterm, hlen, rfl, hrange⟩, hpre, rfl⟩
    · cases h
  · rintro ⟨bs, ⟨hterm, hlen, rfl, hrange⟩, hpre, rfl⟩
    have hbs (e : DecodeError) : groups e (limit bits) c = .ok bs (c.advance bs.length) :=
      (groups_ok_iff e).mpr ⟨hterm, hlen, hpre, rfl⟩
    have hoffset : offset c = .ok c.offset c := rfl
    simp only [ranged, Outcome.bind_apply, hoffset, hbs, if_pos hrange, Outcome.pure_apply]

/-- A word of 64 bits holds what is in range, so that nothing is lost. -/
theorem signed_eq (h : bits ≤ 64) : signed bits = ranged .signed bits := by
  rw [signed, leb128_eq]
  funext c
  simp only [Outcome.map_apply]
  cases hi : ranged .signed bits c with
  | error e c' => rfl
  | ok i c' =>
    obtain ⟨bs, ⟨-, -, -, hrange⟩, -⟩ := ranged_ok_iff.mp hi
    have hrange : InRange .signed 64 i := hrange.mono h
    dsimp only
    rw [BitVec.toInt_ofInt_eq_self (by decide) hrange.1 hrange.2]

theorem unsigned_eq (h : bits ≤ 64) : unsigned bits = Int.toNat <$> ranged .unsigned bits := by
  rw [unsigned, leb128_eq]
  funext c
  simp only [Outcome.map_apply]
  cases hi : ranged .unsigned bits c with
  | error e c' => rfl
  | ok i c' =>
    obtain ⟨bs, ⟨-, -, rfl, hrange⟩, -⟩ := ranged_ok_iff.mp hi
    have hlt : value bs < 2 ^ 64 := inRange_natCast.mp (hrange.mono h)
    simp only [number, BitVec.ofInt_natCast, BitVec.toNat_ofNat, Nat.mod_eq_of_lt hlt,
      Int.toNat_natCast]

end Reader
end Wasm
