import Wasm.Proofs.Decode.Prefixes

namespace Wasm

open Leb128

/-- The bytes of a custom section. Both of its lengths may be padded. -/
def CustomSection.Spelled (c : CustomSection) (bs : List UInt8) : Prop :=
  ∃ size nameSize payload : List UInt8, bs = 0 :: (size ++ payload) ∧
    Spells 32 size payload.length ∧ Spells 32 nameSize c.name.toUTF8.size ∧
    payload = nameSize ++ (c.name.toUTF8.data.toList ++ c.payload)

/-- A header and then whole sections, whatever is in them. The number tells how many of the sections
are custom. -/
inductive Boundary : Nat → List UInt8 → Prop
  | header {bs : List UInt8} : bs.length = 8 → Boundary 0 bs
  | custom {n : Nat} {bs size payload : List UInt8} : Boundary n bs →
    Spells 32 size payload.length → Boundary (n + 1) (bs ++ 0 :: (size ++ payload))
  | other {n : Nat} {bs size payload : List UInt8} {id : UInt8} : Boundary n bs → id ≠ 0 →
    Spells 32 size payload.length → Boundary n (bs ++ id :: (size ++ payload))

/-- The bytes `x` are a header and the sections `ss`, `n` of which are custom, and the bytes `y` are
the sections `ss'`. -/
structure Divides (n : Nat) (x y : List UInt8) (ss ss' : List RawSection) : Prop where
  sized : ∀ s ∈ ss ++ ss', s.Sized
  customs : (ss.filter (·.id = .custom)).length = n
  before : x = Module.preamble ++ ss.flatMap RawSection.bytes
  after : y = ss'.flatMap RawSection.bytes

namespace Divides

variable {n : Nat} {x y : List UInt8} {ss ss' : List RawSection}

/-- A division moves over a whole section. -/
theorem next {size payload : List UInt8} {id : UInt8}
    (h : Divides n x (id :: (size ++ payload) ++ y) ss ss')
    (hsize : Spells 32 size payload.length) :
    ∃ ss ss', Divides (if id = 0 then n + 1 else n) (x ++ id :: (size ++ payload)) y ss ss' := by
  have hzero : ∀ id : SectionId, UInt8.ofNat id.toNat = 0 ↔ id = .custom := by
    intro id
    cases id <;> decide
  obtain ⟨hss, rfl, rfl, hy⟩ := h
  have hss' : ∀ s ∈ ss', s.Sized := fun s hs ↦ hss s (List.mem_append_right _ hs)
  obtain ⟨s, ss', rfl, rfl, rfl, rfl, rfl⟩ := RawSection.split_flatMap_bytes hsize hss' hy
  refine ⟨ss ++ [s], ss', List.append_cons .. ▸ hss, ?_, ?_, rfl⟩
  · rw [List.filter_append, List.length_append, List.filter_singleton]
    simp only [hzero]
    by_cases hc : s.id = .custom <;> simp [hc]
  · rw [List.flatMap_append, List.flatMap_singleton, List.append_assoc, RawSection.bytes]

/-- The section behind a division can be left out. -/
theorem skip {s : RawSection} (h : Divides n x (s.bytes ++ y) ss ss') (hs : s.Sized) :
    ∃ ss', Divides n x y ss ss' := by
  obtain ⟨hsized, hn, hx, hy⟩ := h
  obtain ⟨hss, hss'⟩ := List.forall_mem_append.mp hsized
  obtain ⟨_, ss', rfl, -, -, -, hy⟩ := RawSection.split_flatMap_bytes hs hss' hy
  exact ⟨ss', List.forall_mem_append.mpr ⟨hss, (List.forall_mem_cons.mp hss').2⟩, hn, hx, hy⟩

theorem append_eq (h : Divides n x y ss ss') :
    x ++ y = Module.preamble ++ (ss ++ ss').flatMap RawSection.bytes := by
  rw [h.before, h.after, List.append_assoc, ← List.flatMap_append]

/-- One more section at the division. -/
theorem insert (h : Divides n x y ss ss') {s : RawSection} (hs : s.Sized) :
    (∀ t ∈ ss ++ s :: ss', t.Sized) ∧
    x ++ s.bytes ++ y = Module.preamble ++ (ss ++ s :: ss').flatMap RawSection.bytes := by
  obtain ⟨hss, hss'⟩ := List.forall_mem_append.mp h.sized
  refine ⟨List.forall_mem_append.mpr ⟨hss, List.forall_mem_cons.mpr ⟨hs, hss'⟩⟩, ?_⟩
  rw [h.before, h.after, List.append_assoc, List.append_assoc, ← List.flatMap_cons,
    ← List.flatMap_append]

end Divides

/-- Where bytes are a module, a boundary divides its sections. -/
theorem Boundary.divides {n : Nat} {x y : List UInt8} {m : Module} (h : Boundary n x)
    (hm : Module.decode (x ++ y) = .ok m) : ∃ ss ss', Divides n x y ss ss' := by
  obtain ⟨all, hall, heq⟩ := Module.sections_of_decode hm
  clear hm
  induction h generalizing y with
  | header hlen =>
    obtain ⟨rfl, rfl⟩ := List.append_inj heq hlen
    exact ⟨[], all, hall, rfl, (List.append_nil _).symm, rfl⟩
  | custom _ hsize ih =>
    rw [List.append_assoc] at heq
    obtain ⟨ss, ss', h⟩ := ih heq
    exact h.next hsize
  | other _ hid hsize ih =>
    rw [List.append_assoc] at heq
    obtain ⟨ss, ss', h⟩ := ih heq
    have hnext := h.next hsize
    rwa [if_neg hid] at hnext

namespace CustomSection

variable {c : CustomSection} {bs : List UInt8}

/-- A custom section can be read on its own. -/
theorem Spelled.parses (h : c.Spelled bs) : ∃ s : RawSection, s.Sized ∧ s.bytes = bs ∧
    s.id = .custom ∧ Reader.custom.parse? s.payload = some c := by
  obtain ⟨size, nameSize, payload, rfl, hsize, hname, hpayload⟩ := h
  refine ⟨⟨.custom, size, payload⟩, hsize, rfl, rfl, ?_⟩
  have hlen : payload.length < UInt32.size := hsize.lt
  have hbytes : c.name.toUTF8.size = c.name.toUTF8.data.toList.length := by
    rw [Array.length_toList]
    rfl
  have hread : Reader.Reads Reader.name (nameSize ++ c.name.toUTF8.data.toList) c.name := by
    refine Reader.reads_name_of (Reader.reads_byteVector_sized ?_ ?_)
    · exact hbytes ▸ Reader.reads_spelled hname
    · exact hbytes ▸ hname.lt
  have hfills := Reader.fills_custom_of hread
  rw [List.append_assoc, ← hpayload] at hfills
  unfold Reader.parse?
  rw [Cursor.ofBytes, hfills hlen]
  rfl

end CustomSection

/-- The module with one more custom section, behind the first `n`. -/
def Module.insertCustom (n : Nat) (c : CustomSection) (m : Module) : Module :=
  { m with customs := m.customs.take n ++ c :: m.customs.drop n }

namespace Draft

variable {n : Nat} {c : CustomSection} {d : Draft} {s : RawSection} {ss : List RawSection}

def insertCustom (n : Nat) (c : CustomSection) (d : Draft) : Draft :=
  { d with mod := d.mod.insertCustom n c }

theorem insertCustom_after (hn : n ≤ d.mod.customs.length) (x : Section) :
    (d.insertCustom n c).after x = (d.after x).insertCustom n c := by
  cases x with
  | custom c' =>
    simp only [after, add, insertCustom, Module.insertCustom, List.take_append_of_le_length hn,
      List.drop_append_of_le_length hn, List.append_assoc, List.cons_append]
  | _ => rfl

theorem length_customs_after (d : Draft) (x : Section) :
    d.mod.customs.length ≤ (d.after x).mod.customs.length := by
  cases x with
  | custom c => simp [after, add]
  | _ => exact le_rfl

/-- The sections that follow do not see the custom section. -/
theorem foldlM_insertCustom (hn : n ≤ d.mod.customs.length) :
    ss.foldlM load? (d.insertCustom n c) = (ss.foldlM load? d).map (insertCustom n c) := by
  induction ss generalizing d with
  | nil => rfl
  | cons s ss ih =>
    have hload : (d.insertCustom n c).load? s = (d.load? s).map (insertCustom n c) := by
      unfold load?
      rw [apply_ite (Option.map (insertCustom n c)), Option.map_map]
      congr 2
      funext x
      exact insertCustom_after hn x
    rw [List.foldlM_cons, List.foldlM_cons, hload]
    cases hs : d.load? s with
    | none => rfl
    | some d₁ =>
      obtain ⟨-, x, -, rfl⟩ := load?_eq_some.mp hs
      exact ih (hn.trans (length_customs_after d x))

theorem load?_custom (hid : s.id = .custom) (hparse : Reader.custom.parse? s.payload = some c) :
    d.load? s = some (d.insertCustom d.mod.customs.length c) := by
  refine load?_eq_some.mpr ⟨.inl hid, .custom c, ?_, ?_⟩
  · rw [hid, Reader.payload, Reader.parse?_map, hparse]
    rfl
  · simp [after, add, insertCustom, Module.insertCustom, Section.id]

theorem finish_insertCustom : (d.insertCustom n c).finish = d.finish.map (·.insertCustom n c) := by
  simp only [finish, insertCustom, Module.insertCustom]
  rw [apply_ite (Except.map _), apply_ite (Except.map _)]
  rfl

end Draft

namespace Loads

variable {ss ss' : List RawSection} {s : RawSection} {c : CustomSection} {d : Draft}

theorem length_customs (h : Loads ss d) :
    d.mod.customs.length = (ss.filter (·.id = .custom)).length := by
  induction ss using List.reverseRecOn generalizing d with
  | nil =>
    obtain rfl := nil_iff.mp h
    rfl
  | append_singleton ss s ih =>
    obtain ⟨d, hd, hs⟩ := concat_iff.mp h
    obtain ⟨-, x, hx, rfl⟩ := Draft.load?_eq_some.mp hs
    rw [List.filter_append, List.length_append, ← ih hd, List.filter_singleton,
      ← Reader.id_of_parse? hx]
    cases x with
    | custom c => exact List.length_append
    | _ => rfl

/-- Loading with a custom section between the others. -/
theorem foldlM_custom (hid : s.id = .custom) (hparse : Reader.custom.parse? s.payload = some c) :
    (ss ++ s :: ss').foldlM Draft.load? {} = ((ss ++ ss').foldlM Draft.load? {}).map
      (Draft.insertCustom (ss.filter (·.id = .custom)).length c) := by
  rw [List.foldlM_append, List.foldlM_append]
  cases hd : ss.foldlM Draft.load? {} with
  | none => rfl
  | some d =>
    rw [← length_customs hd]
    change (s :: ss').foldlM Draft.load? d = _
    rw [List.foldlM_cons, Draft.load?_custom hid hparse]
    exact Draft.foldlM_insertCustom le_rfl

end Loads

namespace Module

variable {n : Nat} {x y : List UInt8} {ss ss' : List RawSection} {s : RawSection}
  {c : CustomSection} {m m' : Module}

theorem decode_insertCustom (h : Divides n x y ss ss') (hs : s.Sized) (hid : s.id = .custom)
    (hparse : Reader.custom.parse? s.payload = some c)
    (hlen : (x ++ s.bytes ++ y).length < UInt64.size) :
    decode (x ++ s.bytes ++ y) = .ok m' ↔
      ∃ m, decode (x ++ y) = .ok m ∧ m.insertCustom n c = m' := by
  obtain ⟨hall, heq⟩ := h.insert hs
  have hlen' : (x ++ y).length < UInt64.size := by
    simp only [List.length_append] at hlen ⊢
    omega
  have hfold := @Loads.foldlM_custom ss ss' s c hid hparse
  rw [h.customs] at hfold
  rw [h.append_eq, List.length_append] at hlen'
  rw [heq, List.length_append] at hlen
  rw [heq, h.append_eq, decode_sections hall]
  constructor
  · rintro ⟨-, d', hd', hm'⟩
    obtain ⟨d, hd, rfl⟩ := Option.map_eq_some_iff.mp (hfold.symm.trans hd')
    rw [Draft.finish_insertCustom] at hm'
    cases hm : d.finish with
    | error e =>
      rw [hm] at hm'
      cases hm'
    | ok m =>
      rw [hm] at hm'
      exact ⟨m, (decode_sections h.sized).mpr ⟨hlen', d, hd, hm⟩, Except.ok.inj hm'⟩
  · rintro ⟨m, hm, rfl⟩
    obtain ⟨-, d, hd, hm⟩ := (decode_sections h.sized).mp hm
    refine ⟨hlen, _, hfold.trans (Option.map_eq_some_iff.mpr ⟨d, hd, rfl⟩), ?_⟩
    rw [Draft.finish_insertCustom, hm]
    rfl

/-- The custom sections of a module are those of its sections. -/
theorem length_customs_le (h : Divides n x y ss ss') (hm : decode (x ++ y) = .ok m) :
    n ≤ m.customs.length := by
  rw [h.append_eq] at hm
  obtain ⟨-, d, hd, hm⟩ := (decode_sections h.sized).mp hm
  obtain ⟨-, -, rfl⟩ := finish_ok hm
  change _ ≤ d.mod.customs.length
  rw [hd.length_customs, List.filter_append, List.length_append, h.customs]
  exact Nat.le_add_right _ _

/-- Decoding passes over a custom section between two other sections, or at the end: the bytes with
it are a module if and only if those without it are, and the modules are the same up to the custom
section, which stands behind those before it. Positions fit a machine word, as they do in any
memory. -/
theorem decode_custom (n : Nat) (x y bs : List UInt8) (c : CustomSection) (hx : Boundary n x)
    (hc : c.Spelled bs) (hlen : (x ++ bs ++ y).length < UInt64.size) :
    ((∃ m, decode (x ++ bs ++ y) = .ok m) ↔ ∃ m, decode (x ++ y) = .ok m) ∧
    ∀ m m', decode (x ++ y) = .ok m → decode (x ++ bs ++ y) = .ok m' → ∃ before after,
      before.length = n ∧ m.customs = before ++ after ∧
      m' = { m with customs := before ++ c :: after } := by
  obtain ⟨s, hs, rfl, hid, hparse⟩ := hc.parses
  refine ⟨⟨?_, ?_⟩, ?_⟩
  · rintro ⟨m', hm'⟩
    obtain ⟨ss, _, hwith⟩ := hx.divides (List.append_assoc .. ▸ hm')
    obtain ⟨ss', h⟩ := hwith.skip hs
    obtain ⟨m, hm, -⟩ := (decode_insertCustom h hs hid hparse hlen).mp hm'
    exact ⟨m, hm⟩
  · rintro ⟨m, hm⟩
    obtain ⟨ss, ss', h⟩ := hx.divides hm
    exact ⟨_, (decode_insertCustom h hs hid hparse hlen).mpr ⟨m, hm, rfl⟩⟩
  · intro m m' hm hm'
    obtain ⟨ss, ss', h⟩ := hx.divides hm
    obtain ⟨_, hm₁, rfl⟩ := (decode_insertCustom h hs hid hparse hlen).mp hm'
    cases hm.symm.trans hm₁
    exact ⟨m.customs.take n, m.customs.drop n, List.length_take_of_le (length_customs_le h hm),
      (List.take_append_drop ..).symm, rfl⟩

/-- Between a type and a memory with padded lengths, where a custom section stands before and
another one after. -/
theorem decode_custom_padded :
    let x := preamble ++ 1 :: ([4] ++ [1, 0x60, 0, 0]) ++ 0 :: ([3] ++ [1, 0x61, 7])
    let bs : List UInt8 := [0, 0x84, 0x00, 0x81, 0x00, 0x63, 9]
    let y : List UInt8 := [5, 3, 1, 0, 2, 0, 2, 1, 0x62]
    let c : CustomSection := ⟨"c", [9]⟩
    let m : Module := { types := [⟨[], []⟩], memories := [⟨⟨2, none⟩⟩],
                        customs := [⟨"a", [7]⟩, ⟨"b", []⟩] }
    let m' : Module := { m with customs := [⟨"a", [7]⟩, c, ⟨"b", []⟩] }
    Boundary 1 x ∧ c.Spelled bs ∧ (x ++ bs ++ y).length < UInt64.size ∧
    decode (x ++ y) = .ok m ∧ decode (x ++ bs ++ y) = .ok m' ∧
    ((∃ m, decode (x ++ bs ++ y) = .ok m) ↔ ∃ m, decode (x ++ y) = .ok m) ∧
    ∃ before after, before.length = 1 ∧ m.customs = before ++ after ∧
      m' = { m with customs := before ++ c :: after } := by
  intro x bs y c m m'
  have hx : Boundary 1 x := by
    refine .custom (.other (.header rfl) (by decide) ?_) ?_
    · exact ⟨.last (by decide), by decide, by decide, by decide⟩
    · exact ⟨.last (by decide), by decide, by decide, by decide⟩
  have hc : c.Spelled bs := by
    refine ⟨[0x84, 0x00], [0x81, 0x00], [0x81, 0x00, 0x63, 9], rfl, ?_, ?_, ?_⟩
    · exact ⟨.more (by decide) (.last (by decide)), by decide, by decide, by decide⟩
    · exact ⟨.more (by decide) (.last (by decide)), by decide, by decide +kernel, by decide +kernel⟩
    · decide +kernel
  have hlen : (x ++ bs ++ y).length < UInt64.size := by decide
  have hm : decode (x ++ y) = .ok m := by decide +kernel
  have hm' : decode (x ++ bs ++ y) = .ok m' := by decide +kernel
  obtain ⟨hiff, heq⟩ := decode_custom 1 x y bs c hx hc hlen
  exact ⟨hx, hc, hlen, hm, hm', hiff, heq m m' hm hm'⟩

end Module

end Wasm
