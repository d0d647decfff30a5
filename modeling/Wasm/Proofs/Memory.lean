import Wasm.Proofs.Linking.Placement

namespace Wasm.Memory

open Outcome

variable {α : Type} {type : MemoryType} {alloc : Allocator} {m m' : Memory}
  {addr len start : Nat} {bs : List UInt8}

def range (m : Memory) (addr len : Nat) : List UInt8 :=
  (m.bytes.data.toList.drop addr).take len

@[simp] theorem size_put (start : Nat) (bs : List UInt8) (m : Memory) :
    (m.put start bs).size = m.size :=
  length_overwrite

theorem length_range (h : addr + len ≤ m.size) : (m.range addr len).length = len := by
  have hsize : m.bytes.data.toList.length = m.size := rfl
  rw [range, List.length_take, List.length_drop, hsize]
  omega

theorem getElem?_range {j : Nat} (hj : j < len) :
    (m.range addr len)[j]? = m.bytes.data[addr + j]? := by
  rw [range, List.getElem?_take_of_lt hj, List.getElem?_drop, Array.getElem?_toList]

theorem load_apply (addr len : Nat) (m : Memory) : load addr len m =
    if addr + len ≤ m.size then .ok (m.range addr len) m
    else .error (.memoryOutOfBounds addr len) m := by
  simp only [load, bind_apply, check, InBounds]
  by_cases h : addr + len ≤ m.size
  · simp only [h, if_true, get_apply, pure_apply]
    simp [range, List.extract_eq_take_drop]
  · simp only [h, if_false]

theorem store_apply (addr : Nat) (bs : List UInt8) (m : Memory) : store addr bs m =
    if addr + bs.length ≤ m.size then .ok () (m.put addr bs)
    else .error (.memoryOutOfBounds addr bs.length) m := by
  simp only [store, bind_apply, check, InBounds]
  by_cases h : addr + bs.length ≤ m.size
  · simp only [h, if_true, modify_apply, splice_put h]
  · simp only [h, if_false]

theorem fill_apply (dst : Nat) (b : UInt8) (len : Nat) (m : Memory) : fill dst b len m =
    if dst + len ≤ m.size then .ok () (m.put dst (List.replicate len b))
    else .error (.memoryOutOfBounds dst len) m := by
  simp only [fill, bind_apply, check, InBounds]
  by_cases h : dst + len ≤ m.size
  · have hbytes : (⟨Array.replicate len b⟩ : ByteArray) = (List.replicate len b).toByteArray := by
      apply ByteArray.ext
      apply Array.toList_inj.mp
      simp
    simp only [h, if_true, modify_apply, hbytes]
    rw [splice_put (by rwa [List.length_replicate])]
  · simp only [h, if_false]

theorem copy_apply (dst src len : Nat) (m : Memory) : copy dst src len m =
    if src + len ≤ m.size then
      if dst + len ≤ m.size then .ok () (m.put dst (m.range src len))
      else .error (.memoryOutOfBounds dst len) m
    else .error (.memoryOutOfBounds src len) m := by
  simp only [copy, bind_apply, check, InBounds]
  by_cases hsrc : src + len ≤ m.size
  · by_cases hdst : dst + len ≤ m.size
    · have hbytes : m.bytes.extract src (src + len) = (m.range src len).toByteArray := by
        apply ByteArray.ext
        apply Array.toList_inj.mp
        simp [range, List.extract_eq_take_drop]
      simp only [hsrc, hdst, if_true, modify_apply, hbytes]
      rw [splice_put (by rwa [length_range hsrc])]
    · simp only [hsrc, hdst, if_true, if_false]
  · simp only [hsrc, if_false]

theorem init_apply (dst : Nat) (data : List UInt8) (src len : Nat) (m : Memory) :
    init dst data src len m =
      if src + len ≤ data.length then
        if dst + len ≤ m.size then .ok () (m.put dst ((data.drop src).take len))
        else .error (.memoryOutOfBounds dst len) m
      else .error (.memoryOutOfBounds src len) m := by
  by_cases hsrc : src + len ≤ data.length
  · simp only [init, Nat.not_lt.mpr hsrc, if_false, bind_apply, check, InBounds]
    by_cases hdst : dst + len ≤ m.size
    · have hlen : ((data.drop src).take len).length = len := by
        rw [List.length_take, List.length_drop]
        omega
      simp only [hsrc, hdst, if_true, modify_apply]
      rw [splice_put (by rwa [hlen])]
    · simp only [hsrc, hdst, if_true, if_false]
  · simp only [init, Nat.lt_of_not_le hsrc, hsrc, if_true, if_false]
    rfl

theorem poke_apply (i : Nat) (b : UInt8) (m : Memory) : poke i b m =
    if i < m.size then .ok m.bytes.data[i]? { m with bytes := m.bytes.set! i b }
    else .ok none m := by
  by_cases h : i < m.size
  · have hget : m.bytes.data[i]? = some (m.bytes.get i h) := Array.getElem?_eq_getElem h
    rw [if_pos h, hget]
    exact dif_pos h
  · rw [if_neg h]
    exact dif_neg h

theorem getElem?_put (h : start + bs.length ≤ m.size) (i : Nat) :
    (m.put start bs).bytes.data[i]? =
      if start ≤ i ∧ i < start + bs.length then bs[i - start]? else m.bytes.data[i]? := by
  have hsize : m.bytes.data.toList.length = m.size := rfl
  rw [← Array.getElem?_toList, ← Array.getElem?_toList, put, overwrite, List.getElem?_mapIdx]
  -- What is written does not reach beyond the end, where it would be cut off.
  by_cases hi : start ≤ i ∧ i < start + bs.length
  · have hlt : i < m.bytes.data.toList.length := by omega
    have hsub : i - start < bs.length := by omega
    rw [if_pos hi, List.getElem?_eq_getElem hlt, List.getElem?_eq_getElem hsub]
    simp [hi.1]
  · rw [if_neg hi]
    by_cases hlow : start ≤ i
    · have hnone : bs[i - start]? = none := List.getElem?_eq_none (by omega)
      simp [hnone]
    · simp [hlow]

/-- The operations on memories, by what they return. Every `grow` has its own allocator, since what
can be had changes with time. -/
inductive Op : Type → Type
  | grow (alloc : Allocator) (delta cap : Nat) : Op (Option Nat)
  | load (addr len : Nat) : Op (List UInt8)
  | store (addr : Nat) (bs : List UInt8) : Op Unit
  | fill (dst : Nat) (b : UInt8) (len : Nat) : Op Unit
  | copy (dst src len : Nat) : Op Unit
  | init (dst : Nat) (data : List UInt8) (src len : Nat) : Op Unit
  | poke (i : Nat) (b : UInt8) : Op (Option UInt8)

def Op.run : Op α → MemoryM α
  | grow alloc delta cap => Memory.grow delta cap alloc
  | load addr len => Memory.load addr len
  | store addr bs => Memory.store addr bs
  | fill dst b len => Memory.fill dst b len
  | copy dst src len => Memory.copy dst src len
  | init dst data src len => Memory.init dst data src len
  | poke i b => Memory.poke i b

/-- There is room for `delta` more pages: their number is one of 32 bits and exceeds neither the
declared maximum nor `cap`, and the allocator gives so many bytes. -/
structure Room (alloc : Allocator) (m : Memory) (delta cap : Nat) : Prop where
  word : m.pages + delta < 2 ^ 32
  max : ∀ max ∈ m.type.limits.max, m.pages + delta ≤ max.toNat
  cap : m.pages + delta ≤ cap
  bytes : alloc.resizes m.size ((m.pages + delta) * pageSize) = true

structure Grown (m : Memory) (delta : Nat) (m' : Memory) : Prop where
  min : m'.type.limits.min.toNat = m.pages + delta
  max : m'.type.limits.max = m.type.limits.max
  size : m'.size = m.size + delta * pageSize
  kept : ∀ i < m.size, m'.bytes.data[i]? = m.bytes.data[i]?
  zero : ∀ i, m.size ≤ i → i < m'.size → m'.bytes.data[i]? = some 0

structure Replaced (m : Memory) (start len : Nat) (byte : Nat → Option UInt8) (m' : Memory) :
    Prop where
  type : m'.type = m.type
  size : m'.size = m.size
  inside : ∀ j < len, m'.bytes.data[start + j]? = byte j
  outside : ∀ i, i < start ∨ start + len ≤ i → m'.bytes.data[i]? = m.bytes.data[i]?

theorem room_iff {delta cap : Nat} : m.Room alloc delta cap ↔
    m.pages + delta < UInt32.size ∧ m.pages + delta ≤ m.type.limits.top ∧
      m.pages + delta ≤ cap ∧ alloc.resizes m.size ((m.pages + delta) * pageSize) = true := by
  have hword : UInt32.size = 2 ^ 32 := rfl
  constructor
  · intro h
    refine ⟨h.word, ?_, h.cap, h.bytes⟩
    cases hmax : m.type.limits.max with
    | none =>
      have hlt := h.word
      simp only [Limits.top, hmax, Option.map_none, Option.getD_none]
      omega
    | some max =>
      simp only [Limits.top, hmax, Option.map_some, Option.getD_some]
      exact h.max max hmax
  · intro ⟨hlt, htop, hcap, hbytes⟩
    refine ⟨hlt, fun max hmax ↦ ?_, hcap, hbytes⟩
    have htop' : m.type.limits.top = max.toNat := by
      rw [Limits.top, hmax]
      rfl
    rwa [← htop']

instance (m : Memory) (delta cap : Nat) : Decidable (m.Room alloc delta cap) :=
  decidable_of_iff _ room_iff.symm

/-- What an operation gives, and the memory it leaves. Ends of ranges are sums of natural numbers,
and an empty range may stand at the very end. -/
def Performs (m : Memory) : Op α → EStateM.Result Trap Memory α → Prop
  | .grow alloc delta cap, r =>
    if m.Room alloc delta cap then ∃ m', r = .ok (some m.pages) m' ∧ m.Grown delta m'
    else r = .ok none m
  | .load addr len, r =>
    if m.size < addr + len then r = .error (.memoryOutOfBounds addr len) m
    else ∃ bs, r = .ok bs m ∧ bs.length = len ∧ ∀ j < len, bs[j]? = m.bytes.data[addr + j]?
  | .store addr bs, r =>
    if m.size < addr + bs.length then r = .error (.memoryOutOfBounds addr bs.length) m
    else ∃ m', r = .ok () m' ∧ m.Replaced addr bs.length (fun j ↦ bs[j]?) m'
  | .fill dst b len, r =>
    if m.size < dst + len then r = .error (.memoryOutOfBounds dst len) m
    else ∃ m', r = .ok () m' ∧ m.Replaced dst len (fun _ ↦ some b) m'
  | .copy dst src len, r =>
    if m.size < src + len then r = .error (.memoryOutOfBounds src len) m
    else if m.size < dst + len then r = .error (.memoryOutOfBounds dst len) m
    else ∃ m', r = .ok () m' ∧ m.Replaced dst len (fun j ↦ m.bytes.data[src + j]?) m'
  | .init dst data src len, r =>
    if data.length < src + len then r = .error (.memoryOutOfBounds src len) m
    else if m.size < dst + len then r = .error (.memoryOutOfBounds dst len) m
    else ∃ m', r = .ok () m' ∧ m.Replaced dst len (fun j ↦ data[src + j]?) m'
  | .poke i b, r =>
    if i < m.size then
      ∃ m', r = .ok m.bytes.data[i]? m' ∧ m.Replaced i 1 (fun _ ↦ some b) m'
    else r = .ok none m

theorem replaced_put {byte : Nat → Option UInt8} (hlen : bs.length = len)
    (h : start + len ≤ m.size) (hbyte : ∀ j < len, bs[j]? = byte j) :
    m.Replaced start len byte (m.put start bs) := by
  subst hlen
  refine ⟨rfl, size_put .., fun j hj ↦ ?_, fun i hi ↦ ?_⟩
  · rw [getElem?_put h, if_pos (by omega), Nat.add_sub_cancel_left, hbyte j hj]
  · rw [getElem?_put h, if_neg (by omega)]

/-- Bytes that are put where they fit. -/
theorem replaced_guarded {t : Trap} {byte : Nat → Option UInt8} (hlen : bs.length = len)
    (hbyte : ∀ j < len, bs[j]? = byte j) :
    let r : EStateM.Result Trap Memory Unit :=
      if start + len ≤ m.size then .ok () (m.put start bs) else .error t m
    if m.size < start + len then r = .error t m
    else ∃ m', r = .ok () m' ∧ m.Replaced start len byte m' := by
  intro r
  split
  · exact if_neg (by omega)
  · have hfit : start + len ≤ m.size := by omega
    exact ⟨_, if_pos hfit, replaced_put hlen hfit hbyte⟩

theorem replaced_set {i : Nat} (h : i < m.size) (b : UInt8) :
    m.Replaced i 1 (fun _ ↦ some b) { m with bytes := m.bytes.set! i b } := by
  have hget (j : Nat) : (m.bytes.set! i b).data[j]? =
      if i = j then some b else m.bytes.data[j]? := by
    have hlt : i < m.bytes.data.size := h
    have hset : (m.bytes.set! i b).data = m.bytes.data.setIfInBounds i b := rfl
    rw [hset, Array.getElem?_setIfInBounds, if_pos hlt]
  refine ⟨rfl, Array.size_setIfInBounds, fun j hj ↦ ?_, fun j hj ↦ ?_⟩
  · rw [hget, if_pos (by omega)]
  · rw [hget, if_neg (by omega)]

theorem grown_append {delta : Nat} (h : m.pages + delta < 2 ^ 32) :
    m.Grown delta ⟨{ m.type with limits.min := UInt32.ofNat (m.pages + delta) },
      m.bytes ++ zeros (delta * pageSize)⟩ := by
  have hsize : (m.bytes ++ zeros (delta * pageSize)).size = m.size + delta * pageSize := by
    rw [ByteArray.size_append, zeros, size_replicate]
    rfl
  refine ⟨UInt32.toNat_ofNat_of_lt' h, rfl, hsize, fun i hi ↦ ?_, fun i hi hlt ↦ ?_⟩
  · have hlt : i < m.bytes.data.size := hi
    simp only [ByteArray.data_append, Array.getElem?_append_left hlt]
  · have hge : m.bytes.data.size ≤ i := hi
    have hlast : i < m.bytes.data.size + delta * pageSize := hsize ▸ hlt
    simp only [ByteArray.data_append, Array.getElem?_append_right hge, zeros]
    exact (Array.getElem?_replicate ..).trans (if_pos (by omega))

theorem Op.performs (o : Op α) (m : Memory) : m.Performs o (o.run m) := by
  cases o with
  | grow alloc delta cap =>
    rw [Performs, run]
    split
    · rename_i hroom
      refine ⟨_, ?_, grown_append hroom.word⟩
      simp only [Memory.grow, room_iff.mp hroom, and_self, if_true]
    · rename_i hroom
      simp only [Memory.grow, mt room_iff.mpr hroom, if_false]
  | load addr len =>
    rw [Performs, run, load_apply]
    split
    · rw [if_neg (by omega)]
    · have hfit : addr + len ≤ m.size := by omega
      rw [if_pos hfit]
      exact ⟨_, rfl, length_range hfit, fun j hj ↦ getElem?_range hj⟩
  | store addr bs =>
    rw [Performs, run, store_apply]
    exact replaced_guarded rfl fun _ _ ↦ rfl
  | fill dst b len =>
    rw [Performs, run, fill_apply]
    exact replaced_guarded List.length_replicate fun j hj ↦ List.getElem?_replicate_of_lt hj
  | copy dst src len =>
    rw [Performs, run, copy_apply]
    split
    · rw [if_neg (by omega)]
    · -- The range is read before any of it is written.
      have hsrc : src + len ≤ m.size := by omega
      rw [if_pos hsrc]
      exact replaced_guarded (length_range hsrc) fun j hj ↦ getElem?_range hj
  | init dst data src len =>
    rw [Performs, run, init_apply]
    split
    · rw [if_neg (by omega)]
    · have hsrc : src + len ≤ data.length := by omega
      have hlen : ((data.drop src).take len).length = len := by
        rw [List.length_take, List.length_drop]
        omega
      rw [if_pos hsrc]
      refine replaced_guarded hlen fun j hj ↦ ?_
      rw [List.getElem?_take_of_lt hj, List.getElem?_drop]
  | poke i b =>
    rw [Performs, run, poke_apply]
    split
    · exact ⟨_, rfl, replaced_set ‹_› b⟩
    · rfl

/-- A memory that was created with the given type: whole pages, as many as the type of the memory
tells, and never more than its maximum. -/
structure Sound (type : MemoryType) (m : Memory) : Prop where
  size : m.size = m.pages * pageSize
  min : m.type.limits.min.toNat = m.pages
  max : m.type.limits.max = type.limits.max
  bound : ∀ max ∈ type.limits.max, m.pages ≤ max.toNat

theorem pages_of_size {n : Nat} (h : m.size = n * pageSize) : m.pages = n := by
  rw [pages, h]
  exact Nat.mul_div_cancel n (by decide)

theorem create?_eq_some_iff : create? type alloc = some m ↔
    alloc.resizes 0 (type.limits.min.toNat * pageSize) = true ∧
      m = ⟨type, zeros (type.limits.min.toNat * pageSize)⟩ := by
  rw [create?, Option.ite_none_right_eq_some, Option.some_inj, eq_comm (b := m)]

theorem Sound.created (hmax : ∀ max ∈ type.limits.max, type.limits.min ≤ max)
    (h : create? type alloc = some m) : m.Sound type := by
  obtain ⟨-, rfl⟩ := create?_eq_some_iff.mp h
  have hsize : Memory.size ⟨type, zeros (type.limits.min.toNat * pageSize)⟩ =
      type.limits.min.toNat * pageSize := size_replicate _ 0
  have hpages := pages_of_size hsize
  refine ⟨by rw [hsize, hpages], hpages.symm, rfl, fun max hm ↦ ?_⟩
  rw [hpages]
  exact UInt32.le_iff_toNat_le.mp (hmax max hm)

theorem Replaced.pages {byte : Nat → Option UInt8} (h : m.Replaced start len byte m') :
    m'.pages = m.pages := by
  rw [Memory.pages, h.size, ← Memory.pages]

theorem Replaced.sound {byte : Nat → Option UInt8} (h : m.Replaced start len byte m')
    (hm : m.Sound type) : m'.Sound type := by
  refine ⟨?_, ?_, ?_, ?_⟩
  · rw [h.size, h.pages, hm.size]
  · rw [h.type, h.pages, hm.min]
  · rw [h.type, hm.max]
  · rw [h.pages]
    exact hm.bound

theorem Grown.pages {delta : Nat} (h : m.Grown delta m') (hm : m.Sound type) :
    m'.pages = m.pages + delta := by
  apply pages_of_size
  rw [h.size, hm.size, Nat.add_mul]

theorem Grown.sound {delta cap : Nat} (h : m.Grown delta m') (hroom : m.Room alloc delta cap)
    (hm : m.Sound type) : m'.Sound type := by
  have hpages := h.pages hm
  refine ⟨?_, ?_, ?_, ?_⟩
  · rw [h.size, hpages, hm.size, Nat.add_mul]
  · rw [h.min, hpages]
  · rw [h.max, hm.max]
  · rw [hpages, ← hm.max]
    exact hroom.max

def Lasts (type : MemoryType) (m m' : Memory) : Prop := m'.Sound type ∧ m.pages ≤ m'.pages

theorem Replaced.lasts {byte : Nat → Option UInt8} (h : m.Replaced start len byte m')
    (hm : m.Sound type) : m.Lasts type m' :=
  ⟨h.sound hm, h.pages.ge⟩

theorem Sound.lasts (hm : m.Sound type) : m.Lasts type m := ⟨hm, le_rfl⟩

theorem lasts_of_replaced {t : Trap} {r : EStateM.Result Trap Memory Unit} {out : Prop}
    [Decidable out] {byte : Nat → Option UInt8} (hm : m.Sound type)
    (h : if out then r = .error t m else ∃ m', r = .ok () m' ∧ m.Replaced start len byte m') :
    m.Lasts type (final r) := by
  split at h
  · exact h ▸ hm.lasts
  · obtain ⟨m', rfl, hreplaced⟩ := h
    exact hreplaced.lasts hm

/-- What one operation preserves. -/
theorem Performs.lasts {o : Op α} {r : EStateM.Result Trap Memory α} (h : m.Performs o r)
    (hm : m.Sound type) : m.Lasts type (final r) := by
  cases o with
  | grow alloc delta cap =>
    rw [Performs] at h
    split at h
    · rename_i hroom
      obtain ⟨m', rfl, hgrown⟩ := h
      exact ⟨hgrown.sound hroom hm, hgrown.pages hm ▸ Nat.le_add_right ..⟩
    · exact h ▸ hm.lasts
  | load addr len =>
    rw [Performs] at h
    split at h
    · exact h ▸ hm.lasts
    · obtain ⟨bs, rfl, -⟩ := h
      exact hm.lasts
  | store addr bs => exact lasts_of_replaced hm h
  | fill dst b len => exact lasts_of_replaced hm h
  | copy dst src len =>
    rw [Performs] at h
    split at h
    · exact h ▸ hm.lasts
    · exact lasts_of_replaced hm h
  | init dst data src len =>
    rw [Performs] at h
    split at h
    · exact h ▸ hm.lasts
    · exact lasts_of_replaced hm h
  | poke i b =>
    rw [Performs] at h
    split at h
    · obtain ⟨m', rfl, hreplaced⟩ := h
      exact hreplaced.lasts hm
    · exact h ▸ hm.lasts

/-- The memories that operations lead to from one that was created with the given type, whether
they succeed or fail, and whatever the allocator does. -/
inductive Reached (type : MemoryType) : Memory → Prop
  | created {alloc : Allocator} {m : Memory} : create? type alloc = some m → Reached type m
  | run {α : Type} {m : Memory} (o : Op α) : Reached type m → Reached type (final (o.run m))

theorem Reached.sound (hmax : ∀ max ∈ type.limits.max, type.limits.min ≤ max)
    (h : Reached type m) : m.Sound type := by
  induction h with
  | created h => exact .created hmax h
  | @run _ m o _ ih => exact (Performs.lasts (o.performs m) ih).1

/-- A memory begins with zeros. Whatever is done to it, it has whole pages, of which it knows the
number; that never exceeds the declared maximum and never decreases. A `grow` fails if and only if
there is no room, and otherwise tells the old number of pages, keeps the old bytes and adds zeros.
Of the other operations each changes exactly its destination, a copy as if through a buffer of its
own, and fails if and only if one of its ranges ends beyond the bytes that it is a range of. One
that fails changes nothing. All this holds for every allocator. -/
theorem reached_array (hmax : ∀ max ∈ type.limits.max, type.limits.min ≤ max) :
    (∀ alloc m, create? type alloc = some m →
      m.pages = type.limits.min.toNat ∧ ∀ i < m.size, m.bytes.data[i]? = some 0) ∧
    (∀ m, Reached type m → m.Sound type ∧ ∀ {α : Type} (o : Op α),
      m.Performs o (o.run m) ∧ m.pages ≤ (final (o.run m)).pages) := by
  refine ⟨fun alloc m hm ↦ ?_, fun m hm ↦ ?_⟩
  · have hsound := Sound.created hmax hm
    obtain ⟨-, rfl⟩ := create?_eq_some_iff.mp hm
    refine ⟨hsound.min.symm, fun i hi ↦ ?_⟩
    exact (Array.getElem?_replicate ..).trans (if_pos ((size_replicate _ 0).subst hi))
  · have hsound := hm.sound hmax
    exact ⟨hsound, fun o ↦ ⟨o.performs m, (Performs.lasts (o.performs m) hsound).2⟩⟩

/-- Four bytes are copied to a range that begins within them, and no second page can be had. -/
theorem reached_array_overlapping : ∃ m m', Reached ⟨⟨1, some 1⟩⟩ m ∧
    copy 12 10 4 m = .ok () m' ∧ m'.bytes.data[15]? = some 0xAB ∧ m'.bytes.data[16]? = some 0 ∧
    grow 1 65536 .ample m' = .ok none m' := by
  obtain ⟨hcreate, hreached⟩ := @reached_array ⟨⟨1, some 1⟩⟩ (by simp)
  obtain ⟨m₀, hnew⟩ : ∃ m, create? ⟨⟨1, some 1⟩⟩ = some m :=
    ⟨_, create?_eq_some_iff.mpr ⟨by decide, rfl⟩⟩
  obtain ⟨hmin, hzero⟩ := hcreate _ _ hnew
  have hpages : m₀.pages = 1 := hmin
  have hm₀ := Reached.created hnew
  have hsize := (hreached m₀ hm₀).1.size
  rw [hpages, Nat.one_mul, pageSize] at hsize
  have hfill := ((hreached m₀ hm₀).2 (.fill 10 0xAB 4)).1
  have hm := hm₀.run (.fill 10 0xAB 4)
  rw [Performs, if_neg (by omega)] at hfill
  obtain ⟨m, hr, filled⟩ := hfill
  rw [hr, final] at hm
  have hsize' := filled.size
  have hcopy := ((hreached m hm).2 (.copy 12 10 4)).1
  have hm' := hm.run (.copy 12 10 4)
  rw [Performs, if_neg (by omega), if_neg (by omega)] at hcopy
  obtain ⟨m', hr', copied⟩ := hcopy
  rw [hr', final] at hm'
  have hone : m'.pages = 1 := by rw [copied.pages, filled.pages, hpages]
  have hgrow := ((hreached m' hm').2 (.grow .ample 1 65536)).1
  rw [Performs, if_neg] at hgrow
  · refine ⟨m, m', hm, hr', ?_, ?_, hgrow⟩
    · rw [copied.inside 3 (by decide), filled.inside 3 (by decide)]
    · rw [copied.outside 16 (by decide), filled.outside 16 (by decide), hzero 16 (by omega)]
  · intro room
    have hle := room.max 1 (hreached m' hm').1.max
    rw [hone] at hle
    exact absurd hle (by decide)

end Wasm.Memory
