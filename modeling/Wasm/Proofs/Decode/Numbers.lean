import Wasm.Proofs.Decode.Framing

namespace Wasm

namespace Leb128

variable {w : Nat} {bs : List UInt8}

structure SpellsSigned (bits : Nat) (bs : List UInt8) (i : Int) : Prop where
  terminated : Terminated bs
  length_le : bs.length ≤ limit bits
  value_eq : signedValue bs = i
  low : -2 ^ (bits - 1) ≤ i
  high : i < 2 ^ (bits - 1)

/-- All bytes but the last have their top bit set, and there are no more of them than a number of
`w` bits needs. -/
structure Bounded (w : Nat) (bs : List UInt8) : Prop where
  ne_nil : bs ≠ []
  continued : ∀ b ∈ bs.dropLast, 128 ≤ b
  ended : bs.getLast ne_nil < 128
  length_le : bs.length ≤ w ⌈/⌉ 7

/-- The number whose digits to base 128 are the low seven bits of the bytes. -/
def digitSum (bs : List UInt8) : Nat := ∑ i : Fin bs.length, bs[i].toNat % 128 * 128 ^ (i : Nat)

/-- The same in two's complement, where bit 6 of the last byte is the sign. -/
def signedDigitSum (bs : List UInt8) : Int :=
  digitSum bs - if bs.getLast?.any (·.toNat.testBit 6) then 128 ^ bs.length else 0

/-- One more digit at the end, so that the byte that was last goes on. -/
def extend (digit : UInt8) : List UInt8 → List UInt8
  | [] => [digit]
  | [b] => [b + 128, digit]
  | b :: b' :: bs => b :: extend digit (b' :: bs)

def signDigit (i : Int) : UInt8 := if i < 0 then 0x7F else 0x00

theorem limit_eq (w : Nat) : limit w = w ⌈/⌉ 7 := (Nat.ceilDiv_eq_add_pred_div w 7).symm

theorem terminated_iff : Terminated bs ↔
    ∃ h : bs ≠ [], (∀ b ∈ bs.dropLast, 128 ≤ b) ∧ bs.getLast h < 128 := by
  induction bs with
  | nil => exact iff_of_false nofun fun ⟨h, _⟩ ↦ h rfl
  | cons b bs ih =>
    cases bs with
    | nil =>
      constructor
      · rintro (h | ⟨_, ⟨⟩⟩)
        exact ⟨nofun, nofun, h⟩
      · rintro ⟨_, _, h⟩
        exact .last h
    | cons b' bs =>
      constructor
      · rintro (_ | ⟨hb, h⟩)
        obtain ⟨_, hcont, hlast⟩ := ih.mp h
        exact ⟨nofun, List.forall_mem_cons.mpr ⟨UInt8.not_lt.mp hb, hcont⟩, hlast⟩
      · rintro ⟨_, hcont, hlast⟩
        obtain ⟨hb, hcont⟩ := List.forall_mem_cons.mp hcont
        exact .more (UInt8.not_lt.mpr hb) (ih.mpr ⟨nofun, hcont, hlast⟩)

theorem bounded_iff : Bounded w bs ↔ Terminated bs ∧ bs.length ≤ limit w := by
  rw [limit_eq, terminated_iff]
  constructor
  · rintro ⟨hne, hcont, hlast, hlen⟩
    exact ⟨⟨hne, hcont, hlast⟩, hlen⟩
  · rintro ⟨⟨hne, hcont, hlast⟩, hlen⟩
    exact ⟨hne, hcont, hlast, hlen⟩

theorem value_eq_digitSum (bs : List UInt8) : value bs = digitSum bs := by
  induction bs with
  | nil => rfl
  | cons b bs ih =>
    unfold digitSum at ih ⊢
    change _ = ∑ i : Fin (bs.length + 1), _
    rw [value, ih, Fin.sum_univ_succ, Finset.mul_sum]
    congr 1
    · exact (Nat.mul_one _).symm
    · refine Finset.sum_congr rfl fun i _ ↦ ?_
      rw [Fin.val_succ, pow_succ]
      change 128 * (bs[i].toNat % 128 * _) = bs[i].toNat % 128 * _
      ring

theorem signedValue_eq_signedDigitSum (bs : List UInt8) : signedValue bs = signedDigitSum bs := by
  have hsign : ∀ b : UInt8, b.toNat.testBit 6 = !decide (b.toNat % 128 < 64) := by decide +kernel
  cases hlast : bs.getLast? with
  | none =>
    obtain rfl := List.getLast?_eq_none_iff.mp hlast
    rfl
  | some b =>
    unfold signedValue signedDigitSum
    rw [hlast, value_eq_digitSum, Option.any_some, hsign]
    by_cases hb : b.toNat % 128 < 64
    · simp [hb]
    · simp [hb, Nat.one_shiftLeft, pow_mul]

@[simp] theorem length_extend (d : UInt8) (bs : List UInt8) :
    (extend d bs).length = bs.length + 1 := by
  fun_induction extend d bs with
  | case1 => rfl
  | case2 b => rfl
  | case3 b b' bs ih =>
    rw [List.length_cons, ih]
    rfl

theorem extend_cons (d b : UInt8) (h : bs ≠ []) : extend d (b :: bs) = b :: extend d bs := by
  cases bs with
  | nil => exact absurd rfl h
  | cons b' bs => rfl

theorem extend_ne_nil (d : UInt8) (bs : List UInt8) : extend d bs ≠ [] := by
  rw [← List.length_pos_iff, length_extend]
  omega

theorem toNat_add_128 {b : UInt8} (h : b < 128) : (b + 128).toNat = b.toNat + 128 := by
  have hb : b.toNat < 128 := UInt8.lt_iff_toNat_lt.mp h
  have h128 : (128 : UInt8).toNat = 128 := rfl
  rw [UInt8.toNat_add, h128]
  omega

theorem Terminated.extend (h : Terminated bs) {d : UInt8} (hd : d < 128) :
    Terminated (extend d bs) := by
  induction h with
  | @last b hb =>
    refine .more ?_ (.last hd)
    rw [UInt8.lt_iff_toNat_lt, toNat_add_128 hb]
    exact Nat.not_lt.mpr (Nat.le_add_left ..)
  | @more b bs hb h ih =>
    rw [extend_cons d b h.ne_nil]
    exact .more hb ih

theorem value_extend_zero (h : Terminated bs) : value (extend 0 bs) = value bs := by
  induction h with
  | @last b hb =>
    change (b + 128).toNat % 128 + 0 = b.toNat % 128 + 0
    rw [toNat_add_128 hb, Nat.add_mod_right]
  | @more b bs _ h ih => rw [extend_cons 0 b h.ne_nil, value, value, ih]

/-- The sign is that of the last digit, so that more of the digits before it do not change it. -/
theorem signDigit_cons (b : UInt8) (h : bs ≠ []) :
    signDigit (signedValue (b :: bs)) = signDigit (signedValue bs) := by
  have hlt : b.toNat % 128 < 128 := Nat.mod_lt _ (by decide)
  have hsign : signedValue (b :: bs) < 0 ↔ signedValue bs < 0 := by
    rw [signedValue_cons b h]
    omega
  simp only [signDigit, hsign]

theorem signedValue_extend (h : Terminated bs) :
    signedValue (extend (signDigit (signedValue bs)) bs) = signedValue bs := by
  induction h with
  | @last b hb =>
    have hlt : b.toNat < 128 := UInt8.lt_iff_toNat_lt.mp hb
    rw [extend, signedValue_cons _ (List.cons_ne_nil _ _), toNat_add_128 hb]
    by_cases hsign : b.toNat % 128 < 64
    · have hb : signedValue [b] = b.toNat := by rw [signedValue_singleton, if_pos hsign]; omega
      rw [hb, signDigit, if_neg (by omega)]
      change _ + 128 * (0 : Int) = _
      omega
    · have hb : signedValue [b] = b.toNat - 128 := by
        rw [signedValue_singleton, if_neg hsign]
        omega
      rw [hb, signDigit, if_pos (by omega)]
      change _ + 128 * (-1 : Int) = _
      omega
  | @more b bs _ h ih =>
    rw [signDigit_cons b h.ne_nil, extend_cons _ b h.ne_nil, signedValue_cons b (extend_ne_nil _ _),
      ih, signedValue_cons b h.ne_nil]

theorem signDigit_lt (i : Int) : signDigit i < 128 := by
  unfold signDigit
  split <;> decide

section Padding

theorem length_iterate_extend (d : UInt8) (bs : List UInt8) (j : Nat) :
    ((extend d)^[j] bs).length = bs.length + j := by
  induction j with
  | zero => rfl
  | succ j ih => rw [Function.iterate_succ_apply', length_extend, ih, Nat.add_assoc]

/-- Padding keeps the number. -/
theorem spells_iterate_extend {n j : Nat} (hn : n < 2 ^ w) (hj : (encode n).length + j ≤ limit w) :
    Spells w ((extend 0)^[j] (encode n)) n := by
  have hpad : Terminated ((extend 0)^[j] (encode n)) ∧ value ((extend 0)^[j] (encode n)) = n := by
    clear hj
    induction j with
    | zero => exact ⟨terminated_encode n, value_encode n⟩
    | succ j ih =>
      rw [Function.iterate_succ_apply']
      exact ⟨ih.1.extend (by decide), (value_extend_zero ih.1).trans ih.2⟩
  exact ⟨hpad.1, (length_iterate_extend ..).trans_le hj, hpad.2, hn⟩

theorem spellsSigned_iterate_extend {i : Int} {j : Nat} (hlow : -2 ^ (w - 1) ≤ i)
    (hhigh : i < 2 ^ (w - 1)) (hj : (encodeSigned i).length + j ≤ limit w) :
    SpellsSigned w ((extend (signDigit i))^[j] (encodeSigned i)) i := by
  have hpad : Terminated ((extend (signDigit i))^[j] (encodeSigned i)) ∧
      signedValue ((extend (signDigit i))^[j] (encodeSigned i)) = i := by
    clear hj
    induction j with
    | zero => exact ⟨terminated_encodeSigned i, signedValue_encodeSigned i⟩
    | succ j ih =>
      rw [Function.iterate_succ_apply']
      have hvalue := signedValue_extend ih.1
      rw [ih.2] at hvalue
      exact ⟨ih.1.extend (signDigit_lt i), hvalue⟩
  exact ⟨hpad.1, (length_iterate_extend ..).trans_le hj, hpad.2, hlow, hhigh⟩

end Padding

theorem spells_iff {n : Nat} :
    Spells w bs n ↔ Bounded w bs ∧ n = digitSum bs ∧ n < 2 ^ w := by
  rw [bounded_iff, ← value_eq_digitSum]
  constructor
  · rintro ⟨hterm, hlen, rfl, hlt⟩
    exact ⟨⟨hterm, hlen⟩, rfl, hlt⟩
  · rintro ⟨⟨hterm, hlen⟩, rfl, hlt⟩
    exact ⟨hterm, hlen, rfl, hlt⟩

theorem spellsSigned_iff {i : Int} : SpellsSigned w bs i ↔
    Bounded w bs ∧ i = signedDigitSum bs ∧ -2 ^ (w - 1) ≤ i ∧ i < 2 ^ (w - 1) := by
  rw [bounded_iff, ← signedValue_eq_signedDigitSum]
  constructor
  · rintro ⟨hterm, hlen, rfl, hlow, hhigh⟩
    exact ⟨⟨hterm, hlen⟩, rfl, hlow, hhigh⟩
  · rintro ⟨⟨hterm, hlen⟩, rfl, hlow, hhigh⟩
    exact ⟨hterm, hlen, rfl, hlow, hhigh⟩

/-- What is left of a number that is cut off goes on to its end. -/
theorem Bounded.continued_of_cut {p : List UInt8} (h : Bounded w bs) (hp : p <+: bs)
    (hne : p ≠ bs) : (∀ b ∈ p, 128 ≤ b) ∧ p.length < limit w := by
  obtain ⟨t, rfl⟩ := hp
  have ht : t ≠ [] := fun ht ↦ hne (by rw [ht, List.append_nil])
  constructor
  · intro b hb
    apply h.continued
    rw [List.dropLast_append_of_ne_nil ht]
    exact List.mem_append_left _ hb
  · have hlen := h.length_le
    have hpos := List.length_pos_iff.mpr ht
    rw [limit_eq]
    rw [List.length_append] at hlen
    omega

end Leb128

namespace Reader

open Leb128

variable {w n : Nat} {c c' : Cursor} {bs : List UInt8}

/-- A number that is cut off is told from one that is too long. -/
theorem groups_cut (e : DecodeError) (h : ∀ b ∈ c.unread, 128 ≤ b) (hn : c.unread.length < n) :
    groups e n c = .error (.unexpectedEnd (c.offset + c.unread.length))
      (c.advance c.unread.length) := by
  obtain ⟨u, k, b⟩ := c
  induction u generalizing n k with
  | nil =>
    obtain ⟨n, rfl⟩ := Nat.exists_eq_succ_of_ne_zero (Nat.ne_zero_of_lt hn)
    rfl
  | cons x u ih =>
    obtain ⟨n, rfl⟩ := Nat.exists_eq_succ_of_ne_zero (Nat.ne_zero_of_lt hn)
    obtain ⟨hx, hu⟩ := List.forall_mem_cons.mp h
    rw [groups_cons, if_neg (UInt8.not_lt.mpr hx), Outcome.map_apply,
      ih (k + 1) hu (Nat.lt_of_succ_lt_succ hn)]
    simp only [Cursor.advance, Cursor.offset, List.length_cons, List.drop_succ_cons,
      Nat.add_assoc, Nat.add_comm 1]

theorem signed_ok_iff (hw : w ≤ 64) {i : Int} : signed w c = .ok i c' ↔
    ∃ bs, SpellsSigned w bs i ∧ bs <+: c.unread ∧ c' = c.advance bs.length := by
  rw [signed_eq hw, ranged_ok_iff]
  refine exists_congr fun bs ↦ and_congr_left fun _ ↦ ?_
  constructor
  · rintro ⟨hterm, hlen, hvalue, hlow, hhigh⟩
    exact ⟨hterm, hlen, hvalue, hlow, hhigh⟩
  · rintro ⟨hterm, hlen, hvalue, hlow, hhigh⟩
    exact ⟨hterm, hlen, hvalue, hlow, hhigh⟩

theorem u64_ok_iff (x : UInt64) : u64 c = .ok x c' ↔ unsigned 64 c = .ok x.toNat c' := by
  refine map_ok_iff (fun _ ↦ UInt64.ofNat_toNat) (fun n c' h ↦ ?_) x
  obtain ⟨bs, hbs, -⟩ := (unsigned_ok_iff (by decide)).mp h
  exact UInt64.toNat_ofNat_of_lt' hbs.lt

theorem word_ok_iff (hw : 0 < w) (hmax : w ≤ 64) (x : BitVec w) :
    word w c = .ok x c' ↔ signed w c = .ok x.toInt c' := by
  refine map_ok_iff (fun _ ↦ BitVec.ofInt_toInt) (fun i c' h ↦ ?_) x
  obtain ⟨bs, hbs, -⟩ := (signed_ok_iff hmax).mp h
  exact BitVec.toInt_ofInt_eq_self hw hbs.low hbs.high

/-- A number that is cut off is none. -/
theorem leb128_cut (s : Sign) (h : Bounded w bs) (hcut : c.unread <+: bs) (hne : c.unread ≠ bs) :
    leb128 s w c = .error (.unexpectedEnd (c.offset + c.unread.length))
      (c.advance c.unread.length) := by
  obtain ⟨hcont, hlen⟩ := h.continued_of_cut hcut hne
  have hoffset : offset c = .ok c.offset c := rfl
  rw [leb128_eq, Outcome.map_apply]
  simp only [ranged, Outcome.bind_apply, hoffset, groups_cut _ hcont hlen]

theorem unsigned_cut (h : Bounded w bs) (hcut : c.unread <+: bs) (hne : c.unread ≠ bs) :
    unsigned w c = .error (.unexpectedEnd (c.offset + c.unread.length))
      (c.advance c.unread.length) := by
  rw [unsigned, Outcome.map_apply, leb128_cut _ h hcut hne]

theorem signed_cut (h : Bounded w bs) (hcut : c.unread <+: bs) (hne : c.unread ≠ bs) :
    signed w c = .error (.unexpectedEnd (c.offset + c.unread.length))
      (c.advance c.unread.length) := by
  rw [signed, Outcome.map_apply, leb128_cut _ h hcut hne]

end Reader

namespace Cursor

open Leb128

/-- The next bytes are a bounded encoding of the number `n` of `w` bits, and `c'` is behind them. -/
def UnsignedNext (c : Cursor) (w n : Nat) (c' : Cursor) : Prop :=
  ∃ bs, Bounded w bs ∧ bs <+: c.unread ∧ (n = digitSum bs ∧ n < 2 ^ w) ∧ c' = c.advance bs.length

/-- The same for the signed number `i`. -/
def SignedNext (c : Cursor) (w : Nat) (i : Int) (c' : Cursor) : Prop :=
  ∃ bs, Bounded w bs ∧ bs <+: c.unread ∧
    (i = signedDigitSum bs ∧ -2 ^ (w - 1) ≤ i ∧ i < 2 ^ (w - 1)) ∧ c' = c.advance bs.length

variable {c c' : Cursor} {w : Nat}

theorem unsigned_eq_ok_iff (hw : w ≤ 64) {n : Nat} :
    Reader.unsigned w c = .ok n c' ↔ c.UnsignedNext w n c' := by
  rw [Reader.unsigned_ok_iff hw]
  refine exists_congr fun bs ↦ ?_
  rw [spells_iff]
  tauto

theorem signed_eq_ok_iff (hw : w ≤ 64) {i : Int} :
    Reader.signed w c = .ok i c' ↔ c.SignedNext w i c' := by
  rw [Reader.signed_ok_iff hw]
  refine exists_congr fun bs ↦ ?_
  rw [spellsSigned_iff]
  tauto

end Cursor

namespace Reader

open Leb128

/-- The readers of numbers accept exactly the bounded encodings of the numbers of their width. Among
these are the shortest encoding of each number and every padding of it that the width leaves room
for. A number that is cut off is not accepted. -/
theorem leb128_exact (w : Nat) (hw : 0 < w) (hmax : w ≤ 64) (c c' : Cursor) :
    (∀ n, unsigned w c = .ok n c' ↔ c.UnsignedNext w n c') ∧
    (∀ i, signed w c = .ok i c' ↔ c.SignedNext w i c') ∧
    (∀ x, u32 c = .ok x c' ↔ c.UnsignedNext 32 x.toNat c') ∧
    (∀ x, u64 c = .ok x c' ↔ c.UnsignedNext 64 x.toNat c') ∧
    (∀ x, word w c = .ok x c' ↔ c.SignedNext w x.toInt c') ∧
    (∀ n < 2 ^ w, (encode n).length ≤ w ⌈/⌉ 7 ∧
      ∀ j, (encode n).length + j ≤ w ⌈/⌉ 7 → (extend 0)^[j] (encode n) <+: c.unread →
        unsigned w c = .ok n (c.advance ((encode n).length + j))) ∧
    (∀ i, -2 ^ (w - 1) ≤ i → i < 2 ^ (w - 1) → (encodeSigned i).length ≤ w ⌈/⌉ 7 ∧
      ∀ j, (encodeSigned i).length + j ≤ w ⌈/⌉ 7 →
        (extend (signDigit i))^[j] (encodeSigned i) <+: c.unread →
        signed w c = .ok i (c.advance ((encodeSigned i).length + j))) ∧
    (∀ bs, Bounded w bs → c.unread <+: bs → c.unread ≠ bs →
      let e := DecodeError.unexpectedEnd (c.offset + c.unread.length)
      let c₁ := c.advance c.unread.length
      unsigned w c = .error e c₁ ∧ signed w c = .error e c₁) := by
  simp only [← limit_eq]
  refine ⟨fun n ↦ Cursor.unsigned_eq_ok_iff hmax, fun i ↦ Cursor.signed_eq_ok_iff hmax, fun x ↦ ?_,
    fun x ↦ ?_, fun x ↦ ?_, fun n hn ↦ ⟨length_encode_le_limit hn hw, fun j hj hpre ↦ ?_⟩,
    fun i hlow hhigh ↦ ⟨length_encodeSigned_le_limit hw hlow hhigh, fun j hj hpre ↦ ?_⟩,
    fun bs hbs hcut hne ↦ ⟨unsigned_cut hbs hcut hne, signed_cut hbs hcut hne⟩⟩
  · rw [u32_ok_iff, Cursor.unsigned_eq_ok_iff (by decide)]
  · rw [u64_ok_iff, Cursor.unsigned_eq_ok_iff (by decide)]
  · rw [word_ok_iff hw hmax, Cursor.signed_eq_ok_iff hmax]
  · refine (unsigned_ok_iff hmax).mpr ⟨_, spells_iterate_extend hn hj, hpre, ?_⟩
    rw [length_iterate_extend]
  · refine (signed_ok_iff hmax).mpr ⟨_, spellsSigned_iterate_extend hlow hhigh hj, hpre, ?_⟩
    rw [length_iterate_extend]

/-- The number -1 of 33 bits in all of its five bytes, and the same cut off after the fourth. -/
theorem leb128_exact_longest :
    signed 33 ⟨[0xFF, 0xFF, 0xFF, 0xFF, 0x7F, 0x0B], 7, 0⟩ = .ok (-1) ⟨[0x0B], 12, 0⟩ ∧
    signed 33 ⟨[0xFF, 0xFF, 0xFF, 0xFF], 7, 0⟩ = .error (.unexpectedEnd 11) ⟨[], 11, 0⟩ := by
  have hcode : encodeSigned (-1) = [0x7F] := by
    rw [encodeSigned, if_pos (by decide)]
    rfl
  have hlong : Bounded 33 [0xFF, 0xFF, 0xFF, 0xFF, 0x7F] :=
    ⟨by decide, by decide +kernel, by decide, by rw [← limit_eq]; decide⟩
  constructor
  · obtain ⟨-, -, -, -, -, -, hpad, -⟩ :=
      leb128_exact 33 (by decide) (by decide) ⟨[0xFF, 0xFF, 0xFF, 0xFF, 0x7F, 0x0B], 7, 0⟩ default
    have hlow : (-2 ^ (33 - 1) : Int) ≤ -1 := by norm_num
    obtain ⟨-, hpad⟩ := hpad (-1) hlow (by norm_num)
    rw [hcode, ← limit_eq] at hpad
    exact hpad 4 (by decide) ⟨[0x0B], rfl⟩
  · obtain ⟨-, -, -, -, -, -, -, hcut⟩ :=
      leb128_exact 33 (by decide) (by decide) ⟨[0xFF, 0xFF, 0xFF, 0xFF], 7, 0⟩ default
    exact (hcut _ hlong ⟨[0x7F], rfl⟩ (by decide)).2

end Reader

end Wasm
