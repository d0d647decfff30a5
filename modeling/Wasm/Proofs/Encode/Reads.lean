import Wasm.Proofs.Encode
import Wasm.Proofs.Leb128
import Wasm.Bytes.LittleEndian.Lemmas

namespace Wasm

namespace Leb128

theorem encode_ne_nil (n : Nat) : encode n ≠ [] := by
  unfold encode
  split <;> exact List.cons_ne_nil _ _

theorem encodeSigned_ne_nil (i : Int) : encodeSigned i ≠ [] := by
  unfold encodeSigned
  split <;> exact List.cons_ne_nil _ _

theorem value_encode (n : Nat) : value (encode n) = n := by
  induction n using Nat.strongRecOn with
  | ind n ih =>
    rw [encode]
    split
    · rename_i hn
      simp only [value, UInt8.toNat_ofNat']
      omega
    · rename_i hn
      rw [value, ih (n / 128) (by omega), UInt8.toNat_ofNat']
      omega

theorem signedValue_encodeSigned (i : Int) : signedValue (encodeSigned i) = i := by
  fun_induction encodeSigned i with
  | case1 i h =>
    simp only [signedValue, List.getLast?_singleton, value, UInt8.toNat_ofNat']
    split
    · omega
    · simp only [List.length_singleton, Nat.one_shiftLeft]
      omega
  | case2 i h ih =>
    rw [signedValue_cons _ (encodeSigned_ne_nil _), ih, UInt8.toNat_ofNat']
    omega

theorem ofNat_lt_iff {n : Nat} (h : n < 256) : UInt8.ofNat n < 128 ↔ n < 128 := by
  rw [UInt8.lt_iff_toNat_lt, UInt8.toNat_ofNat_of_lt' h]
  rfl

theorem terminated_encode (n : Nat) : Terminated (encode n) := by
  fun_induction encode n with
  | case1 n h => exact .last ((ofNat_lt_iff (by omega)).mpr h)
  | case2 n h ih =>
    refine .more ?_ ih
    rw [ofNat_lt_iff (by omega)]
    omega

theorem terminated_encodeSigned (i : Int) : Terminated (encodeSigned i) := by
  fun_induction encodeSigned i with
  | case1 i h => exact .last ((ofNat_lt_iff (by omega)).mpr (by omega))
  | case2 i h ih =>
    refine .more ?_ ih
    rw [ofNat_lt_iff (by omega)]
    omega

theorem length_encode_le {n k : Nat} (h : n < 128 ^ (k + 1)) : (encode n).length ≤ k + 1 := by
  induction k generalizing n with
  | zero =>
    rw [encode, if_pos (by omega)]
    exact le_rfl
  | succ k ih =>
    rw [encode]
    split
    · simp
    · have := @ih (n / 128) (by rw [Nat.pow_succ] at h; omega)
      rw [List.length_cons]
      omega

theorem length_encodeSigned_le {i : Int} {k : Nat} (hlow : -(64 * 128 ^ k) ≤ i)
    (hhigh : i < 64 * 128 ^ k) : (encodeSigned i).length ≤ k + 1 := by
  induction k generalizing i with
  | zero =>
    rw [encodeSigned, if_pos (by omega)]
    exact le_rfl
  | succ k ih =>
    rw [encodeSigned]
    split
    · simp
    · rw [pow_succ] at hlow hhigh
      have := @ih (i / 128) (by omega) (by omega)
      rw [List.length_cons]
      omega

/-- The fewest bytes of a number are no more than its width needs. -/
theorem length_encode_le_limit {bits n : Nat} (h : n < 2 ^ bits) (hbits : 0 < bits) :
    (encode n).length ≤ limit bits := by
  obtain ⟨k, hk⟩ : ∃ k, limit bits = k + 1 := ⟨limit bits - 1, by unfold limit; omega⟩
  rw [hk]
  refine length_encode_le (h.trans_le ?_)
  rw [← hk, show 128 = 2 ^ 7 from rfl, ← Nat.pow_mul]
  exact Nat.pow_le_pow_right (by decide) (by unfold limit; omega)

theorem length_encodeSigned_le_limit {bits : Nat} {i : Int} (hbits : 0 < bits)
    (hlow : -2 ^ (bits - 1) ≤ i) (hhigh : i < 2 ^ (bits - 1)) :
    (encodeSigned i).length ≤ limit bits := by
  obtain ⟨k, hk⟩ : ∃ k, limit bits = k + 1 := ⟨limit bits - 1, by unfold limit; omega⟩
  have hpow : (2 : Int) ^ (bits - 1) ≤ 64 * 128 ^ k := by
    have : (64 * 128 ^ k : Int) = 2 ^ (6 + 7 * k) := by rw [pow_add, pow_mul]; rfl
    rw [this]
    exact pow_le_pow_right₀ (by decide) (by unfold limit at hk; omega)
  rw [hk]
  exact length_encodeSigned_le (by omega) (by omega)

end Leb128

namespace Reader

open Leb128

variable {α β : Type} {r : Reader α} {k : α → Reader β} {bs bs' : List UInt8} {a : α} {b : β}

/-- The reader takes exactly the given bytes, whatever follows them, and gives `a`. Payloads have
fewer than `2 ^ 32` bytes, and positions are below `2 ^ 64`. -/
def Reads (r : Reader α) (bs : List UInt8) (a : α) : Prop :=
  bs.length < UInt32.size → ∀ rest consumed base, consumed + bs.length < UInt64.size →
    r ⟨bs ++ rest, consumed, base⟩ = .ok a ⟨rest, consumed + bs.length, base⟩

theorem Reads.pure (a : α) : Reads (pure a) [] a := fun _ _ _ _ _ ↦ rfl

theorem Reads.bind (h : Reads r bs a) (hk : Reads (k a) bs' b) : Reads (r >>= k) (bs ++ bs') b := by
  intro hsize rest consumed base hpos
  rw [List.length_append] at hsize hpos
  rw [List.append_assoc, Outcome.bind_apply, h (by omega) _ _ _ (by omega)]
  dsimp only
  rw [hk (by omega) _ _ _ (by omega), List.length_append, Nat.add_assoc]

theorem Reads.map (h : Reads r bs a) (f : α → β) : Reads (f <$> r) bs (f a) := by
  intro hsize rest consumed base hpos
  rw [Outcome.map_apply, h hsize _ _ _ hpos]

/-- The last of several readers takes nothing more. -/
theorem Reads.give (h : Reads r bs a) (hk : k a = Pure.pure b) : Reads (r >>= k) bs b := by
  have := h.bind (hk ▸ Reads.pure b : Reads (k a) [] b)
  rwa [List.append_nil] at this

/-- Where the reader is does not matter. -/
theorem Reads.anywhere {k : Nat → Reader β} (h : ∀ start, Reads (k start) bs b) :
    Reads (offset >>= k) bs b := fun hsize rest consumed base hpos ↦
  h (base + consumed) hsize rest consumed base hpos

theorem reads_byte (x : UInt8) : Reads byte [x] x := fun _ _ _ _ _ ↦ rfl

theorem Reads.byte {x : UInt8} {k : UInt8 → Reader β} (h : Reads (k x) bs b) :
    Reads (byte >>= k) (x :: bs) b := (reads_byte x).bind h

theorem Reads.peek {x : UInt8} {k : UInt8 → Reader β} (h : Reads (k x) (x :: bs) b) :
    Reads (peek >>= k) (x :: bs) b := fun hsize rest consumed base hpos ↦
  h hsize rest consumed base hpos

theorem bytes_append (bs rest : List UInt8) {consumed base : Nat}
    (hpos : consumed + bs.length < UInt64.size) : bytes bs.length ⟨bs ++ rest, consumed, base⟩ =
      .ok bs ⟨rest, consumed + bs.length, base⟩ := by
  have hslice : slice bs.length ⟨bs ++ rest, consumed, base⟩ =
      .ok bs ⟨bs ++ rest, consumed, base⟩ := by
    simp only [slice, Outcome.bind_apply, Outcome.get_apply, if_neg (Nat.not_le.mpr hpos),
      List.take_left, lt_irrefl, if_false, Outcome.pure_apply]
  simp only [bytes, Outcome.bind_apply, hslice, Outcome.modify_apply, Cursor.advance,
    List.drop_left, Outcome.pure_apply]

theorem reads_bytes (bs : List UInt8) : Reads (bytes bs.length) bs bs :=
  fun _ rest _ _ hpos ↦ bytes_append bs rest hpos

def Fills (r : Reader α) (bs : List UInt8) (a : α) : Prop :=
  bs.length < UInt32.size → ∀ base, r ⟨bs, 0, base⟩ = .ok a ⟨[], bs.length, base⟩

theorem Reads.fills (h : Reads r bs a) : Fills r bs a := by
  intro hsize base
  have := h hsize [] 0 base (by rw [Nat.zero_add]; exact hsize.trans (by decide))
  rwa [List.append_nil, Nat.zero_add] at this

theorem Fills.map (h : Fills r bs a) (f : α → β) : Fills (f <$> r) bs (f a) := by
  intro hsize base
  rw [Outcome.map_apply, h hsize]

theorem sub_append (bs rest : List UInt8) {consumed base : Nat}
    (hpos : consumed + bs.length < UInt64.size) : sub bs.length ⟨bs ++ rest, consumed, base⟩ =
      .ok ⟨bs, 0, base + consumed⟩ ⟨rest, consumed + bs.length, base⟩ := by
  change (bytes bs.length >>= fun bytes ↦ Pure.pure (Cursor.ofBytes bytes (base + consumed)))
    ⟨bs ++ rest, consumed, base⟩ = _
  rw [Outcome.bind_apply, bytes_append bs rest hpos]
  rfl

theorem inside_fills (h : Fills r bs a) (hsize : bs.length < UInt32.size) (base : Nat)
    (outer : Cursor) :
    inside ⟨bs, 0, base⟩ r outer = .ok (a, ⟨[], bs.length, base⟩) outer := by
  unfold inside
  rw [h hsize]

theorem reads_skip (x : UInt8) : Reads (skip 1) [x] () := (reads_bytes [x]).give rfl

theorem reads_littleEndian (n v : Nat) :
    Reads (littleEndian n) (LittleEndian.encode n v) (v % 256 ^ n) := by
  have h := (reads_bytes (LittleEndian.encode n v)).map LittleEndian.decode
  rwa [LittleEndian.decode_encode, LittleEndian.length_encode] at h

theorem reads_ranged {s : Sign} {bits : Nat} (hterm : Terminated bs) (hlen : bs.length ≤ limit bits)
    (h : InRange s bits (number s bs)) : Reads (ranged s bits) bs (number s bs) := by
  intro _ rest consumed base _
  refine ranged_ok_iff.mpr ⟨bs, ⟨hterm, hlen, rfl, h⟩, ⟨rest, rfl⟩, ?_⟩
  rw [Cursor.advance_append]

theorem reads_unsigned {bits n : Nat} (h : n < 2 ^ bits) (hbits : 0 < bits) (hmax : bits ≤ 64) :
    Reads (unsigned bits) (encode n) n := by
  have hvalue : number .unsigned (encode n) = n := congrArg Nat.cast (value_encode n)
  have hrange : InRange .unsigned bits (number .unsigned (encode n)) := by
    rwa [hvalue, inRange_natCast]
  have hread := reads_ranged (terminated_encode n) (length_encode_le_limit h hbits) hrange
  rw [hvalue] at hread
  rw [unsigned_eq hmax]
  exact hread.map Int.toNat

theorem reads_signed {bits : Nat} {i : Int} (hbits : 0 < bits) (hmax : bits ≤ 64)
    (hlow : -2 ^ (bits - 1) ≤ i) (hhigh : i < 2 ^ (bits - 1)) :
    Reads (signed bits) (encodeSigned i) i := by
  have hvalue : number .signed (encodeSigned i) = i := signedValue_encodeSigned i
  have hrange : InRange .signed bits (number .signed (encodeSigned i)) := by
    rw [hvalue]
    exact ⟨hlow, hhigh⟩
  have hread := reads_ranged (terminated_encodeSigned i)
    (length_encodeSigned_le_limit hbits hlow hhigh) hrange
  rw [hvalue] at hread
  rwa [signed_eq hmax]

theorem reads_u32 (n : UInt32) : Reads u32 (Leb128.u32 n) n := by
  have h := (reads_unsigned n.toNat_lt (by decide) (by decide)).map UInt32.ofNat
  rwa [UInt32.ofNat_toNat] at h

theorem reads_length {n : Nat} (h : n < UInt32.size) : Reads u32 (encode n) (UInt32.ofNat n) :=
  (reads_unsigned h (by decide) (by decide)).map UInt32.ofNat

theorem reads_word {w : Nat} (x : BitVec w) (hw : 0 < w) (hmax : w ≤ 64) :
    Reads (word w) (encodeSigned x.toInt) x := by
  have h := (reads_signed hw hmax x.le_toInt x.toInt_lt).map (BitVec.ofInt w)
  rwa [BitVec.ofInt_toInt] at h

theorem reads_times {item : Reader α} {items : List (List UInt8)} {xs : List α}
    (h : List.Forall₂ (Reads item) items xs) :
    Reads (times item xs.length) items.flatten xs := by
  induction h with
  | nil => exact .pure []
  | cons hx _ ih => exact hx.bind (ih.give rfl)

theorem length_le_flatten {items : List (List UInt8)} (h : ∀ bs ∈ items, bs ≠ []) :
    items.length ≤ items.flatten.length := by
  induction items with
  | nil => exact le_rfl
  | cons bs items ih =>
    have hbs := List.length_pos_iff.mpr (h bs (List.mem_cons_self ..))
    have := ih fun x hx ↦ h x (List.mem_cons_of_mem _ hx)
    rw [List.flatten_cons, List.length_append, List.length_cons]
    omega

theorem length_le_flatMap {f : α → List UInt8} (h : ∀ x, f x ≠ []) (xs : List α) :
    xs.length ≤ (xs.flatMap f).length := by
  have hxs := length_le_flatten (List.forall_mem_map.mpr fun x (_ : x ∈ xs) ↦ h x)
  rwa [List.length_map, ← List.flatMap_def] at hxs

/-- Items take bytes, so that there are not too many of them. -/
theorem reads_vector {item : Reader α} {items : List (List UInt8)} {xs : List α}
    (h : List.Forall₂ (Reads item) items xs) (hne : ∀ bs ∈ items, bs ≠ []) :
    Reads (vector item) (vectorOf items) xs := by
  intro hsize
  have hlen : items.length < UInt32.size := by
    have := length_le_flatten hne
    rw [vectorOf, List.length_append] at hsize
    omega
  have htimes : Reads (times item (UInt32.ofNat items.length).toNat) items.flatten xs := by
    rw [UInt32.toNat_ofNat_of_lt' hlen, h.length_eq]
    exact reads_times h
  exact (reads_length hlen).bind htimes hsize

theorem reads_vector_map {item : Reader α} {f : α → List UInt8} {xs : List α}
    (h : ∀ x ∈ xs, Reads item (f x) x) (hne : ∀ x ∈ xs, f x ≠ []) :
    Reads (vector item) (vectorOf (xs.map f)) xs := by
  refine reads_vector ?_ (List.forall_mem_map.mpr hne)
  rw [List.forall₂_map_left_iff, List.forall₂_same]
  exact h

theorem reads_vector_mapIdx {item : Reader α} {f : Nat → α → List UInt8} {xs : List α}
    (h : ∀ x ∈ xs, ∀ i, Reads item (f i x) x) (hne : ∀ i x, f i x ≠ []) :
    Reads (vector item) (vectorOf (xs.mapIdx f)) xs := by
  have hitems : List.Forall₂ (Reads item) (xs.mapIdx f) xs := by
    clear hne
    induction xs generalizing f with
    | nil => exact .nil
    | cons x xs ih =>
      rw [List.mapIdx_cons]
      exact .cons (h x (List.mem_cons_self ..) 0)
        (ih fun y hy i ↦ h y (List.mem_cons_of_mem _ hy) (i + 1))
  refine reads_vector hitems fun bs hbs ↦ ?_
  obtain ⟨i, hi, rfl⟩ := List.mem_mapIdx.mp hbs
  exact hne i _

/-- The number of bytes in front may be padded. -/
theorem reads_byteVector_sized {size : List UInt8} (h : Reads u32 size (UInt32.ofNat bs.length))
    (hlen : bs.length < UInt32.size) : Reads byteVector (size ++ bs) bs := by
  have hbytes : Reads (bytes (UInt32.ofNat bs.length).toNat) bs bs := by
    rw [UInt32.toNat_ofNat_of_lt' hlen]
    exact reads_bytes bs
  exact h.bind hbytes

theorem reads_byteVector (bs : List UInt8) : Reads byteVector (byteVectorOf bs) bs := by
  intro hsize
  have hlen : bs.length < UInt32.size := by
    rw [byteVectorOf, List.length_append] at hsize
    omega
  exact reads_byteVector_sized (reads_length hlen) hlen hsize

theorem reads_name_of {s : String} (h : Reads byteVector bs s.toUTF8.data.toList) :
    Reads name bs s := by
  refine .anywhere fun start ↦ h.give ?_
  have hbytes : s.toUTF8.data.toList.toByteArray = s.toUTF8 := by
    apply ByteArray.ext
    rw [List.data_toByteArray, Array.toArray_toList]
  have hutf : String.fromUTF8? s.toUTF8 = some s := by
    unfold String.fromUTF8?
    rw [String.toUTF8_eq_toByteArray, dif_pos s.isValidUTF8]
    rfl
  rw [hbytes, hutf]

theorem reads_name (s : String) : Reads name (nameOf s) s :=
  reads_name_of (reads_byteVector _)

end Reader

end Wasm
