import Wasm.Proofs.Decode.Forms

namespace Wasm

variable {α β : Type}

namespace Cursor

variable {c c' c'' : Cursor}

def stop (c : Cursor) : Nat := c.offset + c.remaining

def Reaches (c c' : Cursor) : Prop := ∃ n ≤ c.remaining, c' = c.advance n

namespace Reaches

theorem refl (c : Cursor) : c.Reaches c := ⟨0, Nat.zero_le _, rfl⟩

theorem trans (h : c.Reaches c') (h' : c'.Reaches c'') : c.Reaches c'' := by
  obtain ⟨m, hm, rfl⟩ := h
  obtain ⟨n, hn, rfl⟩ := h'
  rw [remaining_advance] at hn
  refine ⟨m + n, by omega, ?_⟩
  simp only [advance, List.drop_drop, Nat.add_assoc]

theorem size_eq (h : c.Reaches c') : c'.consumed + c'.remaining = c.consumed + c.remaining := by
  obtain ⟨n, hn, rfl⟩ := h
  rw [remaining_advance]
  change c.consumed + n + _ = _
  omega

theorem stop_eq (h : c.Reaches c') : c'.stop = c.stop := by
  obtain ⟨n, hn, rfl⟩ := h
  rw [stop, stop, offset_advance, remaining_advance]
  omega

theorem offset_le (h : c.Reaches c') : c.offset ≤ c'.offset := by
  obtain ⟨n, -, rfl⟩ := h
  rw [offset_advance]
  exact Nat.le_add_right ..

end Reaches

theorem offset_le_stop (c : Cursor) : c.offset ≤ c.stop := Nat.le_add_right ..

end Cursor

/-- The offset that an error tells is `limit` at most. An error that tells how much of a section was
read tells that something was left. -/
def DecodeError.Within (limit : Nat) : DecodeError → Prop
  | unexpectedEnd i | lebOverflow _ i | lebTooLong _ i | invalidUtf8 i | positionOverflow i
  | unknownSection _ i | unknownOpcode _ _ i | malformed i _ => i ≤ limit
  | sectionSize _ declared consumed => consumed < declared
  | badMagic _ | unsupportedVersion _ | bodyCount _ _ | dataCount _ _ => True

theorem DecodeError.Within.mono {limit limit' : Nat} {e : DecodeError} (h : e.Within limit)
    (hl : limit ≤ limit') : e.Within limit' := by
  cases e with
  | sectionSize => exact h
  | badMagic | unsupportedVersion | bodyCount | dataCount => trivial
  | _ => exact Nat.le_trans h hl

namespace Reader

variable {r : Reader α} {f : α → Reader β} {limit n : Nat}

/-- From a cursor that stops at `limit`, the reader moves past bytes that are there, be it a success
or a failure, and its errors tell of places up to `limit`. -/
def Stays (limit : Nat) (r : Reader α) : Prop :=
  ∀ c, c.stop = limit → c.Reaches (Outcome.final (r c)) ∧
    ∀ e c', r c = .error e c' → e.Within limit

namespace Stays

theorem pure (a : α) : Stays limit (pure a) := fun c _ ↦ ⟨.refl c, nofun⟩

theorem throw {e : DecodeError} (h : e.Within limit) : Stays limit (throw e : Reader α) := by
  refine fun c _ ↦ ⟨.refl c, ?_⟩
  rintro _ _ ⟨⟩
  exact h

theorem fail {fault : Fault} {start : Nat} (h : start ≤ limit) :
    Stays limit (fail fault start : Reader α) := .throw h

theorem reaches (h : Stays limit r) {c c' : Cursor} {a : α} (hc : c.stop = limit)
    (ha : r c = .ok a c') : c.Reaches c' := by
  have hreach := (h c hc).1
  rwa [ha] at hreach

/-- The second reader may use what is known of the result of the first. -/
theorem bindOk (h : Stays limit r)
    (hf : ∀ c a c', c.stop = limit → r c = .ok a c' → Stays limit (f a)) :
    Stays limit (r >>= f) := by
  intro c hc
  obtain ⟨hreach, herror⟩ := h c hc
  rw [Outcome.bind_apply]
  cases hr : r c with
  | error e c' =>
    rw [hr] at hreach herror
    refine ⟨hreach, ?_⟩
    rintro _ _ ⟨⟩
    exact herror e c' rfl
  | ok a c' =>
    rw [hr] at hreach
    obtain ⟨hreach', herror'⟩ := hf c a c' hc hr c' (hreach.stop_eq.trans hc)
    exact ⟨hreach.trans hreach', herror'⟩

theorem bind (h : Stays limit r) (hf : ∀ a, Stays limit (f a)) : Stays limit (r >>= f) :=
  h.bindOk fun _ a _ _ _ ↦ hf a

theorem map (h : Stays limit r) (g : α → β) : Stays limit (g <$> r) := by
  rw [map_eq_pure_bind]
  exact h.bind fun a ↦ .pure (g a)

theorem ite {p : Prop} [Decidable p] {s : Reader α} (h : Stays limit r) (hs : Stays limit s) :
    Stays limit (if p then r else s) := by
  split
  · exact h
  · exact hs

theorem get {k : Cursor → Reader α} (h : ∀ c, c.stop = limit → Stays limit (k c)) :
    Stays limit (get >>= k) := fun c hc ↦ h c hc c hc

theorem anywhere {k : Nat → Reader α} (h : ∀ start ≤ limit, Stays limit (k start)) :
    Stays limit (offset >>= k) :=
  .get fun c hc ↦ h c.offset (hc ▸ c.offset_le_stop)

theorem ofExcept {x : Except DecodeError α} (h : ∀ e, x = .error e → e.Within limit) :
    Stays limit (MonadExcept.ofExcept x) := by
  cases x with
  | error e => exact .throw (h e rfl)
  | ok a => exact .pure a

end Stays

structure Needs (n : Nat) (r : Reader α) : Prop where
  succeeds : ∀ c : Cursor, c.consumed + c.remaining < UInt64.size →
    ((∃ a c', r c = .ok a c') ↔ n ≤ c.remaining)
  unmoved : ∀ c e c', r c = .error e c' → c' = c

/-- What comes after the reader does not fail. -/
theorem Needs.andThen (h : Needs n r) (hf : ∀ a c, ∃ b c', f a c = .ok b c') :
    Needs n (r >>= f) := by
  constructor
  · intro c hc
    rw [← h.succeeds c hc, Outcome.bind_apply]
    cases r c with
    | error e c' => exact ⟨nofun, nofun⟩
    | ok a c' => exact ⟨fun _ ↦ ⟨a, c', rfl⟩, fun _ ↦ hf a c'⟩
  · intro c e c' he
    rw [Outcome.bind_apply] at he
    cases hr : r c with
    | error e₁ c₁ =>
      rw [hr] at he
      cases he
      exact h.unmoved c e c' hr
    | ok a c₁ =>
      obtain ⟨b, c₂, hb⟩ := hf a c₁
      rw [hr] at he
      change f a c₁ = _ at he
      rw [hb] at he
      cases he

theorem Needs.anywhere {k : Nat → Reader α} (h : ∀ start, Needs n (k start)) :
    Needs n (offset >>= k) :=
  ⟨fun c ↦ (h c.offset).succeeds c, fun c ↦ (h c.offset).unmoved c⟩

theorem needs_peek : Needs 1 peek := by
  constructor
  · rintro ⟨u, k, b⟩ -
    cases u with
    | nil => exact ⟨nofun, nofun⟩
    | cons x rest => exact ⟨fun _ ↦ Nat.le_add_left .., fun _ ↦ ⟨x, _, rfl⟩⟩
  · rintro ⟨u, k, b⟩ e c' he
    cases u with
    | nil =>
      cases he
      rfl
    | cons x rest => cases he

theorem needs_byte : Needs 1 byte := needs_peek.andThen fun x c ↦ ⟨x, c.advance 1, rfl⟩

theorem slice_apply (n : Nat) (c : Cursor) : slice n c =
    if UInt64.size ≤ c.consumed + n then .error (.positionOverflow c.offset) c
    else if c.remaining < n then .error (.unexpectedEnd c.offset) c
    else .ok (c.unread.take n) c := by
  have hlen : (c.unread.take n).length < n ↔ c.remaining < n := by
    rw [List.length_take, Cursor.remaining]
    omega
  unfold slice
  rw [Outcome.bind_apply, Outcome.get_apply]
  dsimp only
  simp only [hlen]
  split
  · rfl
  · split
    · rfl
    · rfl

theorem needs_slice (n : Nat) : Needs n (slice n) := by
  constructor
  · intro c hc
    rw [slice_apply]
    split
    · exact iff_of_false nofun (by omega)
    · split
      · exact iff_of_false nofun (by omega)
      · exact iff_of_true ⟨_, _, rfl⟩ (by omega)
  · intro c e c' he
    rw [slice_apply] at he
    split at he
    · cases he
      rfl
    · split at he
      · cases he
        rfl
      · cases he

theorem needs_bytes (n : Nat) : Needs n (bytes n) :=
  (needs_slice n).andThen fun bs c ↦ ⟨bs, c.advance n, rfl⟩

theorem needs_skip (n : Nat) : Needs n (skip n) :=
  (needs_bytes n).andThen fun _ c ↦ ⟨(), c, rfl⟩

theorem needs_littleEndian (n : Nat) : Needs n (littleEndian n) := by
  rw [littleEndian, map_eq_pure_bind]
  exact (needs_bytes n).andThen fun _ c ↦ ⟨_, c, rfl⟩

theorem needs_sub (n : Nat) : Needs n (sub n) :=
  .anywhere fun _ ↦ (needs_bytes n).andThen fun _ c ↦ ⟨_, c, rfl⟩

theorem sub_at {c c' d : Cursor} (h : sub n c = .ok d c') : n ≤ c.remaining ∧
    d = .ofBytes (c.unread.take n) c.offset ∧ c' = c.advance n := by
  obtain ⟨u, k, b⟩ := c
  obtain ⟨bs, rest, rfl, rfl, -, rfl, rfl⟩ := sub_ok h
  refine ⟨?_, ?_, ?_⟩
  · rw [Cursor.remaining, List.length_append]
    exact Nat.le_add_right ..
  · rw [List.take_left]
    rfl
  · rw [Cursor.advance_append]

theorem stays_slice (n : Nat) : Stays limit (slice n) := by
  intro c hc
  have hend : c.offset ≤ limit := hc ▸ c.offset_le_stop
  rw [slice_apply]
  split
  · exact Stays.throw (e := .positionOverflow c.offset) hend c hc
  · split
    · exact Stays.throw (e := .unexpectedEnd c.offset) hend c hc
    · exact Stays.pure _ c hc

theorem stays_bytes (n : Nat) : Stays limit (bytes n) := by
  intro c hc
  have hend : c.offset ≤ limit := hc ▸ c.offset_le_stop
  rw [bytes, Outcome.bind_apply, slice_apply]
  by_cases hpos : UInt64.size ≤ c.consumed + n
  · rw [if_pos hpos]
    exact Stays.throw (e := .positionOverflow c.offset) hend c hc
  · rw [if_neg hpos]
    by_cases hlen : c.remaining < n
    · rw [if_pos hlen]
      exact Stays.throw (e := .unexpectedEnd c.offset) hend c hc
    · rw [if_neg hlen]
      refine ⟨⟨n, Nat.not_lt.mp hlen, rfl⟩, ?_⟩
      rintro _ _ ⟨⟩

theorem stays_peek : Stays limit peek := by
  refine .get fun c hc ↦ ?_
  split
  · exact .throw (hc ▸ c.offset_le_stop)
  · exact .pure _

theorem stays_byte : Stays limit byte := by
  intro c hc
  -- The two steps are taken at once, since the second one alone could pass the end.
  obtain ⟨-, herror⟩ := stays_peek c hc
  obtain ⟨u, k, b⟩ := c
  cases u with
  | nil => exact ⟨.refl _, herror⟩
  | cons x rest => exact ⟨⟨1, Nat.le_add_left .., rfl⟩, nofun⟩

theorem stays_groups {e : DecodeError} (h : e.Within limit) (n : Nat) :
    Stays limit (Leb128.groups e n) := by
  induction n with
  | zero => exact .throw h
  | succ n ih => exact stays_byte.bind fun _ ↦ .ite (.pure _) (ih.bind fun _ ↦ .pure _)

theorem stays_leb128 (s : Sign) (bits : Nat) : Stays limit (leb128 s bits) := by
  rw [leb128_eq]
  refine .map (.anywhere fun start hstart ↦ ?_) _
  exact (stays_groups (e := .lebTooLong (Leb128.limit bits) start) hstart _).bind fun _ ↦
    .ite (.pure _) (.throw hstart)

theorem stays_unsigned (bits : Nat) : Stays limit (unsigned bits) := (stays_leb128 _ bits).map _

theorem stays_signed (bits : Nat) : Stays limit (signed bits) := (stays_leb128 _ bits).map _

theorem stays_u32 : Stays limit u32 := (stays_unsigned 32).map _

theorem stays_littleEndian (n : Nat) : Stays limit (littleEndian n) := (stays_bytes n).map _

theorem stays_skip (n : Nat) : Stays limit (skip n) := (stays_bytes n).bind fun _ ↦ .pure ()

theorem stays_byteVector : Stays limit byteVector := stays_u32.bind fun _ ↦ stays_bytes _

theorem stays_sub (n : Nat) : Stays limit (sub n) :=
  .anywhere fun _ _ ↦ (stays_bytes n).bind fun _ ↦ .pure _

/-- The bytes that a reader finds are those at the cursor, and it moves past them. -/
theorem Finds.at {G : α → Language UInt8} (h : Finds 1 r G) {c c' : Cursor} {a : α}
    (ha : r c = .ok a c') : ∃ bs ∈ G a, bs <+: c.unread ∧ c' = c.advance bs.length := by
  obtain ⟨u, k, b⟩ := c
  obtain ⟨bs, rest, rfl, rfl, hbs⟩ := h _ _ _ _ _ ha
  refine ⟨bs, hbs [] Language.nil_mem_one, ⟨rest, rfl⟩, ?_⟩
  rw [Cursor.advance_append]

theorem finds_bytes (n : Nat) : Finds 1 (bytes n) fun bs ↦ {q | q = bs ∧ q.length = n} := by
  intro u consumed base bs c hbs
  obtain ⟨rest, rfl, hlen, -, rfl⟩ := bytes_ok hbs
  refine ⟨bs, rest, rfl, by rw [hlen], ?_⟩
  rintro _ rfl
  exact ⟨rfl, hlen⟩

theorem finds_skip (n : Nat) : Finds 1 (skip n) fun _ ↦ {q | q.length = n} := by
  refine (finds_bytes n).bind fun bs ↦ .pure ?_
  rintro _ ⟨_, rfl, q, ⟨-, hlen⟩, rfl⟩
  exact hlen

theorem finds_byteVector :
    Finds 1 byteVector fun bs ↦ Leb128.forms 32 bs.length * {bs} := by
  refine accepts_u32.finds.bind fun n ↦ ?_
  intro u consumed base bs c hbs
  obtain ⟨rest, rfl, hlen, -, rfl⟩ := bytes_ok hbs
  refine ⟨bs, rest, rfl, by rw [hlen], fun p hp ↦ ?_⟩
  rw [one_mul, u32Forms, ← hlen] at hp
  exact Language.append_mem_mul hp rfl

end Reader

inductive Cursor.Op : Type → Type
  | peek : Op UInt8
  | byte : Op UInt8
  | slice (n : Nat) : Op (List UInt8)
  | bytes (n : Nat) : Op (List UInt8)
  | skip (n : Nat) : Op Unit
  | littleEndian (n : Nat) : Op Nat
  | sub (n : Nat) : Op Cursor
  | unsigned (bits : Fin 65) : Op Nat
  | signed (bits : Fin 65) : Op Int
  | byteVector : Op (List UInt8)

namespace Cursor.Op

def run : Op α → Reader α
  | peek => Reader.peek
  | byte => Reader.byte
  | slice n => Reader.slice n
  | bytes n => Reader.bytes n
  | skip n => Reader.skip n
  | littleEndian n => Reader.littleEndian n
  | sub n => Reader.sub n
  | unsigned bits => Reader.unsigned bits
  | signed bits => Reader.signed bits
  | byteVector => Reader.byteVector

def length? : Op α → Option Nat
  | peek | byte => some 1
  | slice n | bytes n | skip n | littleEndian n | sub n => some n
  | unsigned _ | signed _ | byteVector => none

def looks : Op α → Bool
  | peek | slice _ => true
  | byte | bytes _ | skip _ | littleEndian _ | sub _ | unsigned _ | signed _ | byteVector => false

def forms (offset : Nat) : Op α → α → Language UInt8
  | peek, x | byte, x => {[x]}
  | slice n, bs | bytes n, bs => {q | q = bs ∧ q.length = n}
  | skip n, _ => {q | q.length = n}
  | littleEndian n, v => LittleEndian.forms n v
  | sub n, c => {q | c = .ofBytes q offset ∧ q.length = n}
  | unsigned bits, v => Leb128.forms bits v
  | signed bits, v => Leb128.signedForms bits v
  | byteVector, bs => Leb128.forms 32 bs.length * {bs}

variable {c c' : Cursor} {limit : Nat}

theorem stays (o : Op α) : Reader.Stays limit o.run := by
  cases o with
  | peek => exact Reader.stays_peek
  | byte => exact Reader.stays_byte
  | slice n => exact Reader.stays_slice n
  | bytes n => exact Reader.stays_bytes n
  | skip n => exact Reader.stays_skip n
  | littleEndian n => exact Reader.stays_littleEndian n
  | sub n => exact Reader.stays_sub n
  | unsigned bits => exact Reader.stays_unsigned bits
  | signed bits => exact Reader.stays_signed bits
  | byteVector => exact Reader.stays_byteVector

theorem needs (o : Op α) {n : Nat} (hn : n ∈ o.length?) : Reader.Needs n o.run := by
  cases o <;> cases hn
  case peek => exact Reader.needs_peek
  case byte => exact Reader.needs_byte
  case slice => exact Reader.needs_slice n
  case bytes => exact Reader.needs_bytes n
  case skip => exact Reader.needs_skip n
  case littleEndian => exact Reader.needs_littleEndian n
  case sub => exact Reader.needs_sub n

theorem run_ok (o : Op α) {a : α} (ha : o.run c = .ok a c') : ∃ bs ∈ o.forms c.offset a,
    bs <+: c.unread ∧ c' = if o.looks then c else c.advance bs.length := by
  cases o with
  | peek =>
    obtain ⟨u, k, b⟩ := c
    cases u with
    | nil => cases ha
    | cons x rest =>
      cases ha
      exact ⟨[_], rfl, ⟨rest, rfl⟩, rfl⟩
  | slice n =>
    rw [run, Reader.slice_apply] at ha
    split at ha
    · cases ha
    · split at ha
      · cases ha
      · rename_i hn
        cases ha
        refine ⟨c.unread.take n, ⟨rfl, ?_⟩, List.take_prefix n _, rfl⟩
        exact List.length_take_of_le (Nat.not_lt.mp hn)
  | sub n =>
    obtain ⟨hn, rfl, rfl⟩ := Reader.sub_at ha
    have hlen : (c.unread.take n).length = n := List.length_take_of_le hn
    refine ⟨c.unread.take n, ⟨rfl, hlen⟩, List.take_prefix n _, ?_⟩
    rw [hlen]
    rfl
  | byte => exact Reader.accepts_byte.finds.at ha
  | bytes n => exact (Reader.finds_bytes n).at ha
  | skip n => exact (Reader.finds_skip n).at ha
  | littleEndian n => exact (Reader.accepts_littleEndian n).finds.at ha
  | unsigned bits => exact (Reader.accepts_unsigned bits.is_le).finds.at ha
  | signed bits => exact (Reader.accepts_signed bits.is_le).finds.at ha
  | byteVector => exact Reader.finds_byteVector.at ha

end Cursor.Op

/-- A range of offsets, and a cursor that was split off with it. -/
structure Window where
  start : Nat
  size : Nat
  cursor : Cursor

namespace Window

variable {input : List UInt8} {base : Nat} {v w x : Window}

def stop (w : Window) : Nat := w.start + w.size

def whole (input : List UInt8) (base : Nat) : Window where
  start := base
  size := input.length
  cursor := .ofBytes input base

/-- The cursor has come some way through its range, and what it has left is what the input has
there. -/
structure Faithful (input : List UInt8) (base : Nat) (w : Window) : Prop where
  low : base ≤ w.start
  high : w.stop ≤ base + input.length
  offset_eq : w.cursor.offset = w.start + w.cursor.consumed
  size_eq : w.cursor.consumed + w.cursor.remaining = w.size
  unread_eq : ∀ i < w.cursor.remaining, w.cursor.unread[i]? = input[w.cursor.offset + i - base]?

namespace Faithful

theorem whole (input : List UInt8) (base : Nat) : (whole input base).Faithful input base where
  low := le_rfl
  high := le_rfl
  offset_eq := rfl
  size_eq := Nat.zero_add _
  unread_eq i _ := by
    change input[i]? = input[base + i - base]?
    rw [Nat.add_sub_cancel_left]

theorem stop_eq (h : w.Faithful input base) : w.cursor.stop = w.stop := by
  have hoffset := h.offset_eq
  have hsize := h.size_eq
  rw [Cursor.stop, stop]
  omega

theorem low_offset (h : w.Faithful input base) : base ≤ w.cursor.offset :=
  h.low.trans (h.offset_eq ▸ Nat.le_add_right ..)

/-- Moving past bytes that are there keeps the window. -/
theorem reaches (h : w.Faithful input base) {c : Cursor} (hc : w.cursor.Reaches c) :
    { w with cursor := c }.Faithful input base := by
  have hlow := h.low_offset
  have hoffset := h.offset_eq
  obtain ⟨n, hn, rfl⟩ := hc
  refine ⟨h.low, h.high, ?_, ?_, fun i hi ↦ ?_⟩
  · rw [Cursor.offset_advance]
    change w.cursor.offset + n = w.start + (w.cursor.consumed + n)
    omega
  · have hsize := h.size_eq
    rw [Cursor.remaining_advance]
    change w.cursor.consumed + n + _ = w.size
    omega
  · rw [Cursor.remaining_advance] at hi
    rw [Cursor.offset_advance]
    change (w.cursor.unread.drop n)[i]? = _
    rw [List.getElem?_drop, h.unread_eq (n + i) (by omega)]
    congr 1
    omega

/-- A window that is split off shows a part of what the one that it is split off from shows. -/
theorem enter (h : w.Faithful input base) {n : Nat} {c c' : Cursor}
    (hc : Reader.sub n w.cursor = .ok c c') :
    (⟨w.cursor.offset, n, c⟩ : Window).Faithful input base := by
  have hstop := h.stop_eq
  have hhigh := h.high
  obtain ⟨hn, rfl, -⟩ := Reader.sub_at hc
  have hlen : (w.cursor.unread.take n).length = n := List.length_take_of_le hn
  rw [Cursor.stop] at hstop
  refine ⟨h.low_offset, ?_, rfl, ?_, fun i hi ↦ ?_⟩
  · change w.cursor.offset + n ≤ _
    omega
  · exact (Nat.zero_add _).trans hlen
  · have hi : i < n := hlen ▸ hi
    exact (List.getElem?_take_of_lt hi).trans (h.unread_eq i (hi.trans_le hn))

end Faithful

/-- The two ranges have no offset in common, or one of them is in what the cursor of the other one
has moved past. -/
def Clear (v w : Window) : Prop :=
  v.stop ≤ w.start ∨ w.stop ≤ v.start ∨ (w.start ≤ v.start ∧ v.stop ≤ w.cursor.offset) ∨
    (v.start ≤ w.start ∧ w.stop ≤ v.cursor.offset)

namespace Clear

theorem symm (h : v.Clear w) : w.Clear v := by
  unfold Clear at h ⊢
  tauto

theorem reaches (h : w.Clear x) {c : Cursor} (hc : w.cursor.Reaches c) :
    { w with cursor := c }.Clear x := by
  have hoffset := hc.offset_le
  unfold Clear stop at h ⊢
  dsimp only
  omega

/-- What is split off lies ahead of all that was split off before. -/
theorem enter (h : w.Clear x) (hw : w.Faithful input base) {n : Nat}
    (hn : w.cursor.offset + n ≤ w.stop) (c : Cursor) :
    (⟨w.cursor.offset, n, c⟩ : Window).Clear x := by
  have hoffset := hw.offset_eq
  unfold Clear stop at h ⊢
  unfold stop at hn
  dsimp only
  omega

end Clear

end Window

/-- The cursors that there can be after any operations. What is done is done with the one in front,
and any of them may come to the front. -/
inductive Opened (input : List UInt8) (base : Nat) : List Window → Prop
  | whole : Opened input base [.whole input base]
  | use {w : Window} {ws : List Window} {α : Type} (o : Cursor.Op α) :
    Opened input base (w :: ws) →
    Opened input base ({ w with cursor := Outcome.final (o.run w.cursor) } :: ws)
  | enter {w : Window} {ws : List Window} {n : Nat} {c c' : Cursor} :
    Opened input base (w :: ws) → Reader.sub n w.cursor = .ok c c' →
    Opened input base (⟨w.cursor.offset, n, c⟩ :: { w with cursor := c' } :: ws)
  | leave {w : Window} {ws : List Window} : Opened input base (w :: ws) → Opened input base ws
  | turn {ws ws' : List Window} : Opened input base ws → ws.Perm ws' → Opened input base ws'

/-- What an operation does in a window of the input. A result stands for the bytes that the input
has at the offset of the cursor, none of which is outside the window, and the cursor moves past
these or stays where it is. An error tells of a place up to the end of the window. Where the number
of bytes is known beforehand, the operation succeeds just if they are there, and otherwise the
cursor does not move. -/
structure Cursor.Op.Serves (input : List UInt8) (base : Nat) (w : Window) (o : Op α) : Prop where
  ok : ∀ a c, o.run w.cursor = .ok a c → ∃ bs ∈ o.forms w.cursor.offset a,
    w.cursor.offset + bs.length ≤ w.stop ∧
    (∀ i < bs.length, bs[i]? = input[w.cursor.offset + i - base]?) ∧
    c = if o.looks then w.cursor else w.cursor.advance bs.length
  error : ∀ e c, o.run w.cursor = .error e c → e.Within w.stop
  succeeds : ∀ n ∈ o.length?, (∃ a c, o.run w.cursor = .ok a c) ↔ n ≤ w.cursor.remaining
  unmoved : ∀ n ∈ o.length?, ∀ e c, o.run w.cursor = .error e c → c = w.cursor

section

variable {input : List UInt8} {base : Nat} {w : Window} {ws : List Window}

theorem Window.Faithful.serves (h : w.Faithful input base)
    (hbase : base + input.length < UInt64.size) (o : Cursor.Op α) : o.Serves input base w := by
  have hstop := h.stop_eq
  have hhigh := h.high
  have hoffset := h.offset_eq
  rw [Cursor.stop] at hstop
  refine ⟨fun a c ha ↦ ?_, fun e c he ↦ ?_, fun n hn ↦ ?_, fun n hn ↦ ?_⟩
  · obtain ⟨bs, hbs, ⟨rest, hrest⟩, rfl⟩ := o.run_ok ha
    have hlen : bs.length + rest.length = w.cursor.remaining := by
      rw [Cursor.remaining, ← hrest, List.length_append]
    refine ⟨bs, hbs, by omega, fun i hi ↦ ?_, rfl⟩
    rw [← h.unread_eq i (by omega), ← hrest, List.getElem?_append_left hi]
  · exact (o.stays w.cursor h.stop_eq).2 e c he
  · exact (o.needs hn).succeeds w.cursor (by omega)
  · exact (o.needs hn).unmoved w.cursor

/-- What is true of all cursors that there are at a time, and of each two of them. -/
structure Laid (input : List UInt8) (base : Nat) (ws : List Window) : Prop where
  faithful : ∀ w ∈ ws, w.Faithful input base
  clear : ws.Pairwise Window.Clear

namespace Laid

theorem cons (hw : w.Faithful input base) (hclear : ∀ x ∈ ws, w.Clear x) (h : Laid input base ws) :
    Laid input base (w :: ws) :=
  ⟨List.forall_mem_cons.mpr ⟨hw, h.faithful⟩, List.pairwise_cons.mpr ⟨hclear, h.clear⟩⟩

theorem head (h : Laid input base (w :: ws)) : w.Faithful input base :=
  h.faithful w List.mem_cons_self

theorem tail (h : Laid input base (w :: ws)) : Laid input base ws :=
  ⟨(List.forall_mem_cons.mp h.faithful).2, (List.pairwise_cons.mp h.clear).2⟩

theorem reaches (h : Laid input base (w :: ws)) {c : Cursor} (hc : w.cursor.Reaches c) :
    Laid input base ({ w with cursor := c } :: ws) :=
  .cons (h.head.reaches hc) (fun x hx ↦ ((List.pairwise_cons.mp h.clear).1 x hx).reaches hc) h.tail

theorem enter (h : Laid input base (w :: ws)) {n : Nat} {c c' : Cursor}
    (hc : Reader.sub n w.cursor = .ok c c') :
    Laid input base (⟨w.cursor.offset, n, c⟩ :: { w with cursor := c' } :: ws) := by
  have hstop := h.head.stop_eq
  have hoffset := h.head.offset_eq
  obtain ⟨hn, -, rfl⟩ := Reader.sub_at hc
  rw [Cursor.stop] at hstop
  refine .cons (h.head.enter hc) (List.forall_mem_cons.mpr ⟨?_, fun x hx ↦ ?_⟩)
    (h.reaches ⟨n, hn, rfl⟩)
  -- The cursor that is split off is behind the one it comes from, which has moved past its range.
  · refine .inr (.inr (.inl ⟨?_, ?_⟩))
    · change w.start ≤ w.cursor.offset
      omega
    · rw [Cursor.offset_advance]
      exact le_rfl
  · exact ((List.pairwise_cons.mp h.clear).1 x hx).enter h.head (by omega) c

end Laid

/-- Whatever has been done with them, all cursors are windows of the input, and two of them have no
bytes in common that both of them have yet to read. -/
theorem Opened.laid (h : Opened input base ws) : Laid input base ws := by
  induction h with
  | whole => exact .cons (.whole input base) nofun ⟨nofun, .nil⟩
  | @use w _ _ o _ ih => exact ih.reaches (o.stays w.cursor rfl).1
  | enter _ hc ih => exact ih.enter hc
  | leave _ ih => exact ih.tail
  | turn _ hperm ih =>
    exact ⟨fun w hw ↦ ih.faithful w (hperm.mem_iff.mpr hw),
      (hperm.pairwise_iff Window.Clear.symm).mp ih.clear⟩

end

end Wasm
