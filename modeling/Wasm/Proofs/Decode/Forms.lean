import Wasm.Proofs.Decode.Numbers

namespace Wasm

namespace Leb128

def forms (w n : Nat) : Language UInt8 := {bs | Bounded w bs ∧ n = digitSum bs ∧ n < 2 ^ w}

def signedForms (w : Nat) (i : Int) : Language UInt8 :=
  {bs | Bounded w bs ∧ i = signedDigitSum bs ∧ -2 ^ (w - 1) ≤ i ∧ i < 2 ^ (w - 1)}

theorem mem_forms {w n : Nat} {bs : List UInt8} : bs ∈ forms w n ↔ Spells w bs n := spells_iff.symm

theorem mem_signedForms {w : Nat} {i : Int} {bs : List UInt8} :
    bs ∈ signedForms w i ↔ SpellsSigned w bs i := spellsSigned_iff.symm

end Leb128

def LittleEndian.forms (n v : Nat) : Language UInt8 := {bs | bs.length = n ∧ decode bs = v}

def u32Forms (n : UInt32) : Language UInt8 := Leb128.forms 32 n.toNat

/-- A vector: the number of its items, then the items. -/
def vectorForms {α : Type} (item : α → Language UInt8) (xs : List α) : Language UInt8 :=
  Leb128.forms 32 xs.length * (xs.map item).prod

namespace Reader

variable {α β : Type} {r : Reader α} {f : α → Reader β} {G : α → Language UInt8}
  {H : β → Language UInt8} {L M : Language UInt8} {a : α} {b : β}

/-- What the reader takes, put behind any word of `L`, is a word of the language of its result. -/
def Finds (L : Language UInt8) (r : Reader α) (G : α → Language UInt8) : Prop :=
  ∀ u consumed base a c, r ⟨u, consumed, base⟩ = .ok a c → ∃ q rest, u = q ++ rest ∧
    c = ⟨rest, consumed + q.length, base⟩ ∧ ∀ p ∈ L, p ++ q ∈ G a

/-- The reader takes every word of `L`, whatever follows it, and gives `a`. -/
def Takes (r : Reader α) (L : Language UInt8) (a : α) : Prop :=
  ∀ q ∈ L, ∀ rest consumed base, consumed + q.length < UInt64.size →
    r ⟨q ++ rest, consumed, base⟩ = .ok a ⟨rest, consumed + q.length, base⟩

/-- The reader accepts exactly the words of the language of its result. -/
structure Accepts (r : Reader α) (G : α → Language UInt8) : Prop where
  finds : Finds 1 r G
  takes : ∀ a, Takes r (G a) a

theorem Finds.pure (h : L ≤ G a) : Finds L (pure a) G := by
  intro u consumed base a' c ha
  cases ha
  refine ⟨[], u, rfl, rfl, fun p hp ↦ ?_⟩
  rw [List.append_nil]
  exact h hp

theorem Finds.throw (e : DecodeError) : Finds L (throw e) G := by
  intro u consumed base a c ha
  cases ha

theorem Finds.bind (h : Finds 1 r G) (hf : ∀ a, Finds (L * G a) (f a) H) :
    Finds L (r >>= f) H := by
  intro u consumed base y c hy
  obtain ⟨x, c₁, hx, hy⟩ := Outcome.bind_ok hy
  obtain ⟨q, u₁, rfl, rfl, hq⟩ := h _ _ _ _ _ hx
  obtain ⟨q', rest, rfl, rfl, hq'⟩ := hf x _ _ _ _ _ hy
  refine ⟨q ++ q', rest, (List.append_assoc ..).symm, ?_, fun p hp ↦ ?_⟩
  · rw [List.length_append, Nat.add_assoc]
  · rw [← List.append_assoc]
    exact hq' _ (Language.append_mem_mul hp (hq [] Language.nil_mem_one))

/-- Where the reader is does not matter. -/
theorem Finds.anywhere {f : Nat → Reader β} (h : ∀ start, Finds L (f start) H) :
    Finds L (offset >>= f) H := fun u consumed base y c hy ↦
  h (base + consumed) u consumed base y c hy

theorem Finds.map (h : Finds 1 r G) {g : α → β} (hg : ∀ a, G a ≤ H (g a)) :
    Finds 1 (g <$> r) H := by
  rw [map_eq_pure_bind]
  refine h.bind fun a ↦ .pure ?_
  rw [one_mul]
  exact hg a

theorem Takes.pure (a : α) : Takes (pure a) 1 a := by
  rintro q rfl rest consumed base -
  rfl

theorem Takes.bind (h : Takes r L a) (hf : Takes (f a) M b) : Takes (r >>= f) (L * M) b := by
  rintro _ ⟨p, hp, q, hq, rfl⟩ rest consumed base hpos
  dsimp only at hpos ⊢
  rw [List.length_append] at hpos
  rw [List.append_assoc, Outcome.bind_apply, h p hp _ _ _ (by omega)]
  dsimp only
  rw [hf q hq _ _ _ (by omega), List.length_append, Nat.add_assoc]

/-- The last of several readers takes nothing more. -/
theorem Takes.give (h : Takes r L a) (hf : f a = Pure.pure b) : Takes (r >>= f) L b := by
  have := h.bind (hf ▸ Takes.pure b : Takes (f a) 1 b)
  rwa [mul_one] at this

theorem Takes.anywhere {f : Nat → Reader β} (h : ∀ start, Takes (f start) L b) :
    Takes (offset >>= f) L b := fun q hq rest consumed base hpos ↦
  h (base + consumed) q hq rest consumed base hpos

theorem Takes.map (h : Takes r L a) (g : α → β) : Takes (g <$> r) L (g a) := by
  rw [map_eq_pure_bind]
  exact h.give rfl

/-- What was taken is known from what is left, so that acceptance can be told of given bytes. -/
theorem Accepts.iff (h : Accepts r G) {p rest : List UInt8} {consumed base : Nat} {a : α}
    (hpos : consumed + (p ++ rest).length < UInt64.size) :
    r ⟨p ++ rest, consumed, base⟩ = .ok a ⟨rest, consumed + p.length, base⟩ ↔ p ∈ G a := by
  constructor
  · intro ha
    obtain ⟨q, rest', hu, hc, hq⟩ := h.finds _ _ _ _ _ ha
    obtain rfl : rest = rest' := congrArg Cursor.unread hc
    obtain rfl : p = q := List.append_cancel_right hu
    exact hq [] Language.nil_mem_one
  · intro hp
    rw [List.length_append] at hpos
    exact h.takes a p hp rest consumed base (by omega)

theorem Accepts.of_ok_iff (h : ∀ c c' a, r c = .ok a c' ↔
    ∃ bs ∈ G a, bs <+: c.unread ∧ c' = c.advance bs.length) : Accepts r G := by
  constructor
  · intro u consumed base a c ha
    obtain ⟨bs, hbs, ⟨rest, rfl⟩, rfl⟩ := (h _ _ _).mp ha
    refine ⟨bs, rest, rfl, Cursor.advance_append .., ?_⟩
    rintro _ rfl
    exact hbs
  · intro a q hq rest consumed base _
    exact (h _ _ _).mpr ⟨q, hq, ⟨rest, rfl⟩, (Cursor.advance_append ..).symm⟩

theorem accepts_byte : Accepts byte fun x ↦ {[x]} := by
  constructor
  · intro u consumed base x c hx
    obtain ⟨rest, rfl, rfl⟩ := byte_ok hx
    refine ⟨[x], rest, rfl, rfl, ?_⟩
    rintro _ rfl
    rfl
  · rintro x _ rfl rest consumed base -
    rfl

theorem Takes.byte {x : UInt8} {f : UInt8 → Reader β} (h : Takes (f x) L b) :
    Takes (byte >>= f) ({[x]} * L) b := (accepts_byte.takes x).bind h

theorem accepts_unsigned {w : Nat} (hw : w ≤ 64) : Accepts (unsigned w) (Leb128.forms w) := by
  refine .of_ok_iff fun c c' n ↦ ?_
  simp only [unsigned_ok_iff hw, Leb128.mem_forms]

theorem accepts_signed {w : Nat} (hw : w ≤ 64) : Accepts (signed w) (Leb128.signedForms w) := by
  refine .of_ok_iff fun c c' i ↦ ?_
  simp only [signed_ok_iff hw, Leb128.mem_signedForms]

theorem accepts_u32 : Accepts u32 u32Forms := by
  constructor
  · refine (accepts_unsigned (by decide : 32 ≤ 64)).finds.map fun n q hq ↦ ?_
    rwa [u32Forms, UInt32.toNat_ofNat_of_lt' (Leb128.mem_forms.mp hq).lt]
  · intro n
    have h := ((accepts_unsigned (by decide : 32 ≤ 64)).takes n.toNat).map UInt32.ofNat
    rwa [UInt32.ofNat_toNat] at h

theorem accepts_word {w : Nat} (hw : 0 < w) (hmax : w ≤ 64) :
    Accepts (word w) fun x ↦ Leb128.signedForms w x.toInt := by
  constructor
  · refine (accepts_signed hmax).finds.map fun i q hq ↦ ?_
    have hspell := Leb128.mem_signedForms.mp hq
    rwa [BitVec.toInt_ofInt_eq_self hw hspell.low hspell.high]
  · intro x
    have h := ((accepts_signed hmax).takes x.toInt).map (BitVec.ofInt w)
    rwa [BitVec.ofInt_toInt] at h

theorem accepts_littleEndian (n : Nat) : Accepts (littleEndian n) (LittleEndian.forms n) := by
  constructor
  · have hbytes : Finds 1 (bytes n) fun bs ↦ {q | q = bs ∧ q.length = n} := by
      intro u consumed base bs c hbs
      obtain ⟨rest, rfl, hlen, -, rfl⟩ := bytes_ok hbs
      refine ⟨bs, rest, rfl, by rw [hlen], ?_⟩
      rintro _ rfl
      exact ⟨rfl, hlen⟩
    refine hbytes.map ?_
    rintro _ bs ⟨rfl, hlen⟩
    exact ⟨hlen, rfl⟩
  · rintro _ bs ⟨rfl, rfl⟩ rest consumed base hpos
    rw [littleEndian, Outcome.map_apply, bytes_append bs rest hpos]

/-- As many bytes as a word has lose nothing of it. -/
theorem forms_le_word {w n : Nat} (hw : 2 ^ w = 256 ^ n) (v : Nat) :
    LittleEndian.forms n v ≤ LittleEndian.forms n (BitVec.ofNat w v).toNat := by
  rintro bs ⟨rfl, rfl⟩
  refine ⟨rfl, ?_⟩
  rw [BitVec.toNat_ofNat, Nat.mod_eq_of_lt]
  rw [hw]
  exact LittleEndian.decode_lt bs

theorem finds_times {item : Reader α} (h : Finds 1 item G) (n : Nat) :
    Finds 1 (times item n) fun xs ↦ {q | xs.length = n ∧ q ∈ (xs.map G).prod} := by
  induction n with
  | zero => exact .pure fun q hq ↦ ⟨rfl, hq⟩
  | succ n ih =>
    refine h.bind fun x ↦ ?_
    rw [one_mul]
    refine ih.bind fun xs ↦ .pure ?_
    rintro _ ⟨q, hq, q', ⟨rfl, hq'⟩, rfl⟩
    refine ⟨List.length_cons .., ?_⟩
    rw [List.map_cons, List.prod_cons]
    exact Language.append_mem_mul hq hq'

theorem takes_times {item : Reader α} (h : ∀ a, Takes item (G a) a) (xs : List α) :
    Takes (times item xs.length) (xs.map G).prod xs := by
  induction xs with
  | nil => exact .pure []
  | cons x xs ih =>
    rw [List.map_cons, List.prod_cons]
    exact (h x).bind (ih.give rfl)

theorem accepts_vector {item : Reader α} (h : Accepts item G) :
    Accepts (vector item) (vectorForms G) := by
  constructor
  · refine accepts_u32.finds.bind fun n ↦ ?_
    intro u consumed base xs c hxs
    obtain ⟨q, rest, rfl, rfl, hq⟩ := finds_times h.finds n.toNat _ _ _ _ _ hxs
    obtain ⟨hlen, hmem⟩ := hq [] Language.nil_mem_one
    refine ⟨q, rest, rfl, rfl, fun p hp ↦ ?_⟩
    rw [one_mul, u32Forms, ← hlen] at hp
    exact Language.append_mem_mul hp hmem
  · rintro xs _ ⟨p, hp, q, hq, rfl⟩
    have hsize : xs.length < UInt32.size := (Leb128.mem_forms.mp hp).lt
    have hcount := accepts_u32.takes (UInt32.ofNat xs.length)
    have hitems := takes_times h.takes xs
    rw [u32Forms, UInt32.toNat_ofNat_of_lt' hsize] at hcount
    refine (hcount.bind ?_) _ (Language.append_mem_mul hp hq)
    rwa [UInt32.toNat_ofNat_of_lt' hsize]

end Reader

end Wasm
