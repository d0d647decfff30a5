import Wasm.Proofs.Decode.Sections
import Wasm.Bytes.LittleEndian.Lemmas

namespace Wasm

theorem LittleEndian.encode_decode (bs : List UInt8) : encode bs.length (decode bs) = bs := by
  induction bs with
  | nil => rfl
  | cons b bs ih =>
    have hlt := b.toNat_lt
    rw [List.length_cons, encode, decode, Nat.add_mul_div_left _ _ (by decide),
      Nat.div_eq_of_lt hlt, Nat.zero_add, ih]
    congr 1
    apply UInt8.toNat_inj.mp
    rw [UInt8.toNat_ofNat']
    omega

namespace Reader

open Leb128

variable {d d' : Draft} {u : List UInt8} {k b n w : Nat} {c c' : Cursor}

/-- A reader that converts what it reads, without loss. -/
theorem map_ok_iff {α β : Type} {r : Reader α} {f : α → β} {g : β → α} (hg : ∀ y, f (g y) = y)
    (hf : ∀ x c', r c = .ok x c' → g (f x) = x) (y : β) :
    (f <$> r) c = .ok y c' ↔ r c = .ok (g y) c' := by
  rw [Outcome.map_apply]
  constructor
  · intro h
    cases hr : r c with
    | error e c₁ =>
      rw [hr] at h
      cases h
    | ok x c₁ =>
      rw [hr] at h
      cases h
      rw [hf x _ hr]
  · intro h
    simp only [h, hg]

theorem unsigned_ok_iff (hw : w ≤ 64) :
    unsigned w c = .ok n c' ↔ ∃ bs, Spells w bs n ∧ bs <+: c.unread ∧ c' = c.advance bs.length := by
  have hmap : (Int.toNat <$> ranged .unsigned w) c = .ok n c' ↔
      ranged .unsigned w c = .ok n c' := by
    refine map_ok_iff (fun _ ↦ rfl) (fun i c₁ hi ↦ ?_) n
    obtain ⟨bs, ⟨-, -, rfl, -⟩, -⟩ := ranged_ok_iff.mp hi
    rfl
  rw [unsigned_eq hw, hmap, ranged_ok_iff]
  refine exists_congr fun bs ↦ and_congr_left fun _ ↦ ?_
  constructor
  · rintro ⟨hterm, hlen, hvalue, hlt⟩
    exact ⟨hterm, hlen, Int.ofNat_inj.mp hvalue, inRange_natCast.mp hlt⟩
  · rintro ⟨hterm, hlen, rfl, hlt⟩
    exact ⟨hterm, hlen, rfl, inRange_natCast.mpr hlt⟩

theorem u32_ok_iff (x : UInt32) : u32 c = .ok x c' ↔ unsigned 32 c = .ok x.toNat c' := by
  refine map_ok_iff (fun _ ↦ UInt32.ofNat_toNat) (fun n c' h ↦ ?_) x
  obtain ⟨bs, hbs, -⟩ := (unsigned_ok_iff (by decide)).mp h
  exact UInt32.toNat_ofNat_of_lt' hbs.lt

theorem u32_ok {x : UInt32} (h : u32 ⟨u, k, b⟩ = .ok x c) :
    ∃ bs rest, Spells 32 bs x.toNat ∧ u = bs ++ rest ∧ c = ⟨rest, k + bs.length, b⟩ := by
  obtain ⟨bs, hbs, ⟨rest, rfl⟩, rfl⟩ := (unsigned_ok_iff (by decide)).mp ((u32_ok_iff x).mp h)
  refine ⟨bs, rest, hbs, rfl, ?_⟩
  rw [Cursor.advance_append]

theorem reads_spelled {bs : List UInt8} (h : Spells 32 bs n) : Reads u32 bs (UInt32.ofNat n) := by
  intro _ rest consumed base _
  rw [u32_ok_iff, UInt32.toNat_ofNat_of_lt' h.lt, unsigned_ok_iff (by decide)]
  refine ⟨bs, h, ⟨rest, rfl⟩, ?_⟩
  rw [Cursor.advance_append]

theorem bytes_ok {bs : List UInt8} (h : bytes n ⟨u, k, b⟩ = .ok bs c) :
    ∃ rest, u = bs ++ rest ∧ bs.length = n ∧ k + n < UInt64.size ∧ c = ⟨rest, k + n, b⟩ := by
  obtain ⟨bs', c₁, hslice, h⟩ := Outcome.bind_ok h
  unfold slice at hslice
  obtain ⟨c₂, _, ⟨⟩, hslice⟩ := Outcome.bind_ok hslice
  dsimp only at hslice
  split at hslice
  · cases hslice
  · rename_i hpos
    split at hslice
    · cases hslice
    · rename_i hlen
      cases hslice
      cases h
      rw [List.length_take] at hlen
      refine ⟨u.drop n, (List.take_append_drop n u).symm, ?_, by omega, rfl⟩
      rw [List.length_take]
      omega

theorem sub_ok {c' : Cursor} (h : sub n ⟨u, k, b⟩ = .ok c' c) : ∃ bs rest, u = bs ++ rest ∧
    bs.length = n ∧ k + n < UInt64.size ∧ c' = .ofBytes bs (b + k) ∧ c = ⟨rest, k + n, b⟩ := by
  obtain ⟨start, _, ⟨⟩, h⟩ := Outcome.bind_ok h
  obtain ⟨bs, _, hbs, ⟨⟩⟩ := Outcome.bind_ok h
  obtain ⟨rest, rfl, hlen, hpos, rfl⟩ := bytes_ok hbs
  exact ⟨bs, rest, rfl, hlen, hpos, rfl, rfl⟩

theorem ofNat_of_ofByte? {x : UInt8} {id : SectionId} (h : SectionId.ofByte? x = some id) :
    UInt8.ofNat id.toNat = x := by
  have hall : ∀ n < 13, SectionId.all[n]?.map SectionId.toNat = some n := by decide
  have hlt : x.toNat < 13 := (List.getElem?_eq_some_iff.mp h).1
  have hid := hall x.toNat hlt
  rw [show SectionId.all[x.toNat]? = some id from h] at hid
  rw [show id.toNat = x.toNat from Option.some.inj hid, UInt8.ofNat_toNat]

theorem place_ok_iff {h : SectionHeader} {order : Nat} : d.place h = .ok order ↔
    (h.id = .custom ∨ d.order < h.id.order) ∧
      (if h.id = .custom then d.order else h.id.order) = order := by
  unfold Draft.place
  by_cases hc : h.id = .custom
  · simp [hc]
  · rw [if_neg hc, if_neg hc]
    by_cases hlt : d.order < h.id.order
    · rw [if_neg (by omega), if_neg (by omega)]
      simp [hlt]
    · have herr : ∀ e e' : DecodeError, (if h.id.order = d.order then .error e
          else if h.id.order < d.order then .error e' else .ok h.id.order) ≠
          (.ok order : Except DecodeError Nat) := by
        intro e e'
        split
        · nofun
        · rw [if_pos (by omega)]
          nofun
      exact iff_of_false (herr _ _) (by tauto)

theorem sectionHeader_ok {h : SectionHeader} (hh : sectionHeader ⟨u, k, b⟩ = .ok h c) :
    ∃ size rest, u = UInt8.ofNat h.id.toNat :: (size ++ rest) ∧
      Leb128.Spells 32 size h.size.toNat ∧ c = ⟨rest, k + 1 + size.length, b⟩ := by
  obtain ⟨start, _, ⟨⟩, hh⟩ := Outcome.bind_ok hh
  obtain ⟨x, _, hx, hh⟩ := Outcome.bind_ok hh
  obtain ⟨rest, rfl, rfl⟩ := byte_ok hx
  cases hid : SectionId.ofByte? x with
  | none =>
    rw [hid] at hh
    cases hh
  | some id =>
    rw [hid] at hh
    obtain ⟨size, _, hsize, hh⟩ := Outcome.bind_ok hh
    obtain ⟨bs, rest, hspells, rfl, rfl⟩ := u32_ok hsize
    cases hh
    exact ⟨bs, rest, by rw [ofNat_of_ofByte? hid], hspells, rfl⟩

theorem section_ok (h : section_ d ⟨u, k, b⟩ = .ok d' c) : ∃ (s : RawSection) (rest : List UInt8),
    s.Sized ∧ u = s.bytes ++ rest ∧ k + s.bytes.length < UInt64.size ∧ d.load? s = some d' ∧
      c = ⟨rest, k + s.bytes.length, b⟩ := by
  obtain ⟨header, _, hheader, hrest⟩ := Outcome.bind_ok h
  obtain ⟨size, rest, rfl, hspells, rfl⟩ := sectionHeader_ok hheader
  obtain ⟨window, _, hsub, hload⟩ := Outcome.bind_ok hrest
  obtain ⟨bs, rest, rfl, hlen, hpos, rfl, rfl⟩ := sub_ok hsub
  rw [← hlen] at hspells hpos
  let s : RawSection := ⟨header.id, size, bs⟩
  have hbytes : UInt8.ofNat header.id.toNat :: (size ++ (bs ++ rest)) = s.bytes ++ rest := by
    simp [s, RawSection.bytes]
  have hlength : s.bytes.length = 1 + size.length + bs.length := s.length_bytes
  refine ⟨s, rest, hspells, hbytes, by omega, ?_⟩
  cases hp : d.place header with
  | error e =>
    rw [hp] at hload
    cases hload
  | ok order =>
    rw [hp] at hload
    obtain ⟨order, _, ⟨⟩, hread⟩ := Outcome.bind_ok hload
    obtain ⟨⟨x, c'⟩, _, hin, hdone⟩ := Outcome.bind_ok hread
    obtain ⟨hx, rfl⟩ := inside_ok_iff.mp hin
    dsimp only at hdone
    split at hdone
    · rename_i hend
      cases hdone
      obtain ⟨hplace, rfl⟩ := place_ok_iff.mp hp
      have hparse := (parse?_eq_some (shifts_payload _ _) _).mpr ⟨c', hx, hend⟩
      refine ⟨Draft.load?_eq_some.mpr ⟨hplace, x, hparse, ?_⟩, ?_⟩
      · rw [Draft.after, id_of_parse? hparse]
      · rw [hlength, ← hlen, Nat.add_assoc, Nat.add_assoc, Nat.add_assoc]
    · cases hdone

theorem sectionHeader_sized {s : RawSection} (hs : s.Sized) (rest : List UInt8)
    (hpos : k + 1 + s.size.length < UInt64.size) :
    sectionHeader ⟨UInt8.ofNat s.id.toNat :: (s.size ++ rest), k, b⟩ =
      .ok ⟨s.id, UInt32.ofNat s.payload.length, b + (k + 1 + s.size.length)⟩
        ⟨rest, k + 1 + s.size.length, b⟩ := by
  have hid : SectionId.ofByte? (UInt8.ofNat s.id.toNat) = some s.id := by
    cases s.id <;> rfl
  have hsize := reads_spelled hs (hs.length_le.trans_lt (by decide)) rest (k + 1) b hpos
  have hbyte : byte ⟨UInt8.ofNat s.id.toNat :: (s.size ++ rest), k, b⟩ =
      .ok (UInt8.ofNat s.id.toNat) ⟨s.size ++ rest, k + 1, b⟩ := rfl
  have hoffset (c : Cursor) : offset c = .ok c.offset c := rfl
  simp only [sectionHeader, Outcome.bind_apply, hoffset, hbyte, hid, hsize, Outcome.pure_apply]
  rfl

theorem section_load {s : RawSection} (hs : s.Sized) (h : d.load? s = some d') (rest : List UInt8)
    (hpos : k + s.bytes.length < UInt64.size) :
    section_ d ⟨s.bytes ++ rest, k, b⟩ = .ok d' ⟨rest, k + s.bytes.length, b⟩ := by
  obtain ⟨hplace, x, hparse, rfl⟩ := Draft.load?_eq_some.mp h
  rw [s.length_bytes] at hpos ⊢
  have hlt : s.payload.length < UInt32.size := hs.lt
  let start := b + (k + 1 + s.size.length)
  have hheader := @sectionHeader_sized k b s hs (s.payload ++ rest) (by omega)
  have hsub : sub s.payload.length ⟨s.payload ++ rest, k + 1 + s.size.length, b⟩ =
      .ok (.ofBytes s.payload start) ⟨rest, k + 1 + s.size.length + s.payload.length, b⟩ :=
    sub_append s.payload rest (by omega)
  have horder : d.place ⟨s.id, UInt32.ofNat s.payload.length, start⟩ =
      .ok (if s.id = .custom then d.order else s.id.order) := place_ok_iff.mpr ⟨hplace, rfl⟩
  obtain ⟨c, hread, hend⟩ := (parse?_eq_some (shifts_payload _ _) start).mp hparse
  have hin (outer : Cursor) : inside (.ofBytes s.payload start) (payload d.mod.types s.id) outer =
      .ok (x, c) outer := inside_ok_iff.mpr ⟨hread, rfl⟩
  rw [RawSection.bytes, List.cons_append, List.append_assoc, section_, Outcome.bind_apply, hheader]
  dsimp only
  rw [Outcome.bind_apply, UInt32.toNat_ofNat_of_lt' hlt, hsub]
  dsimp only
  rw [horder]
  simp only [Outcome.bind_apply, MonadExcept.ofExcept, Outcome.pure_apply, hin, hend, if_true]
  rw [Draft.after, id_of_parse? hparse]
  congr 2
  omega

theorem sections_ok (hn : u.length < n) (hk : k < UInt64.size)
    (h : sections n d ⟨u, k, b⟩ = .ok d' c) : ∃ ss : List RawSection, (∀ s ∈ ss, s.Sized) ∧
      u = ss.flatMap RawSection.bytes ∧ k + u.length < UInt64.size ∧
      ss.foldlM Draft.load? d = some d' := by
  induction n generalizing u k d with
  | zero => exact absurd hn (Nat.not_lt_zero _)
  | succ n ih =>
    obtain ⟨_, _, ⟨⟩, h⟩ := Outcome.bind_ok h
    cases u with
    | nil =>
      cases h
      exact ⟨[], nofun, rfl, hk, rfl⟩
    | cons x u =>
      obtain ⟨d₁, _, hsec, hmore⟩ := Outcome.bind_ok h
      obtain ⟨s, rest, hs, hu, hpos, hload, rfl⟩ := section_ok hsec
      rw [hu, List.length_append] at hn ⊢
      have hlen := s.length_bytes
      obtain ⟨ss, hss, rfl, hend, hfold⟩ := ih (by omega) hpos hmore
      refine ⟨s :: ss, List.forall_mem_cons.mpr ⟨hs, hss⟩, rfl, by omega, ?_⟩
      rw [List.foldlM_cons, hload]
      exact hfold

theorem sections_load {ss : List RawSection} (hss : ∀ s ∈ ss, s.Sized)
    (hfold : ss.foldlM Draft.load? d = some d') (hn : (ss.flatMap RawSection.bytes).length < n)
    (hpos : k + (ss.flatMap RawSection.bytes).length < UInt64.size) :
    sections n d ⟨ss.flatMap RawSection.bytes, k, b⟩ =
      .ok d' ⟨[], k + (ss.flatMap RawSection.bytes).length, b⟩ := by
  induction ss generalizing d k n with
  | nil =>
    cases hfold
    cases n with
    | zero => cases hn
    | succ n => rfl
  | cons s ss ih =>
    obtain ⟨hs, hss⟩ := List.forall_mem_cons.mp hss
    rw [List.foldlM_cons, Option.bind_eq_bind, Option.bind_eq_some_iff] at hfold
    obtain ⟨d₁, hload, hfold⟩ := hfold
    rw [List.flatMap_cons, List.length_append] at hn hpos ⊢
    obtain ⟨n, rfl⟩ := Nat.exists_eq_succ_of_ne_zero (Nat.ne_zero_of_lt hn)
    have hlen := s.length_bytes
    have hsec := @section_load _ _ k b s hs hload (ss.flatMap RawSection.bytes) (by omega)
    have hmore : Cursor.atEnd ⟨s.bytes ++ ss.flatMap RawSection.bytes, k, b⟩ = false := rfl
    rw [sections, Outcome.bind_apply, Outcome.get_apply]
    dsimp only
    rw [hmore]
    simp only [Outcome.bind_apply, hsec, Bool.false_eq_true, if_false]
    rw [ih hss hfold (by omega) (by omega), Nat.add_assoc]

end Reader

namespace Module

def preamble : List UInt8 := [0x00, 0x61, 0x73, 0x6D, 0x01, 0x00, 0x00, 0x00]

theorem header_ok {u : List UInt8} {c : Cursor} (h : Reader.header ⟨u, 0, 0⟩ = .ok () c) :
    ∃ rest, u = preamble ++ rest ∧ c = ⟨rest, 8, 0⟩ := by
  have hfour {n k : Nat} {u : List UInt8} {c : Cursor}
      (h : Reader.littleEndian 4 ⟨u, k, 0⟩ = .ok n c) :
      ∃ rest, u = LittleEndian.encode 4 n ++ rest ∧ c = ⟨rest, k + 4, 0⟩ := by
    unfold Reader.littleEndian at h
    rw [map_eq_pure_bind] at h
    obtain ⟨bs, _, hbs, ⟨⟩⟩ := Outcome.bind_ok h
    obtain ⟨rest, rfl, hlen, -, rfl⟩ := Reader.bytes_ok hbs
    exact ⟨rest, by rw [← hlen, LittleEndian.encode_decode], rfl⟩
  obtain ⟨found, _, hfound, hmore⟩ := Outcome.bind_ok h
  obtain ⟨rest, rfl, rfl⟩ := hfour hfound
  dsimp only at hmore
  split at hmore
  · cases hmore
  · rename_i hmagic
    obtain rfl := not_not.mp hmagic
    obtain ⟨found, _, hversion, hlast⟩ := Outcome.bind_ok hmore
    obtain ⟨rest, rfl, rfl⟩ := hfour hversion
    split at hlast
    · cases hlast
    · rename_i heq
      obtain rfl := not_not.mp heq
      cases hlast
      exact ⟨rest, rfl, rfl⟩

theorem Comprises.finish {d : Draft} {m : Module} {bs : List Body} {ss : List RawSection}
    (h : m.Comprises bs ss) (hd : Loads ss d) : d.finish = .ok m := by
  obtain ⟨rfl, hmod⟩ := h.toGathers.unique hd.gathers
  have hfuncTypes : m.funcTypes = d.mod.funcTypes := by rw [hmod]
  have hcount : d.mod.dataCount.any (·.toNat ≠ d.mod.data.length) = false := by
    have hdata : m.data = d.mod.data := by rw [hmod]
    cases hn : d.mod.dataCount with
    | none => rfl
    | some n => simp [← hdata, h.dataCount_eq n (by rw [hmod, hn])]
  rw [Draft.finish]
  dsimp only
  rw [hcount, ← hfuncTypes, if_neg (not_not.mpr h.bodyCount.symm), ← h.functions]
  rw [hfuncTypes]
  exact congrArg Except.ok hmod.symm

theorem comprises_of_finish {d : Draft} {m : Module} {ss : List RawSection} (hd : Loads ss d)
    (h : d.finish = .ok m) : m.Comprises d.bodies ss := by
  obtain ⟨hlen, hcount, rfl⟩ := finish_ok h
  have hg := hd.gathers
  exact ⟨⟨hg.types, hg.imports, hg.imported, hg.funcTypes, hg.tables, hg.memories, hg.globals,
    hg.exports, hg.start, hg.elements, hg.dataCount, hg.code, hg.data, hg.customs⟩,
    hlen.symm, rfl, hcount⟩

/-- A byte sequence is a module exactly if it is the preamble followed by sections in order, each
of the size that it tells, whose payloads can be read on their own and agree with each other. The
parts of the module are what the payloads stand for. -/
theorem decode_eq_ok_iff (bytes : List UInt8) (m : Module) :
    decode bytes = .ok m ↔ bytes.length < UInt64.size ∧ ∃ (ss : List RawSection) (bs : List Body),
      bytes = preamble ++ ss.flatMap RawSection.bytes ∧ (∀ s ∈ ss, s.Sized) ∧
      RawSection.Ordered ss ∧ m.Comprises bs ss := by
  constructor
  · intro h
    unfold decode at h
    split at h
    case h_2 => cases h
    rename_i m' c hm
    cases h
    obtain ⟨_, _, hheader, hmore⟩ := Outcome.bind_ok hm
    obtain ⟨rest, rfl, rfl⟩ := header_ok hheader
    obtain ⟨_, _, ⟨⟩, hmore⟩ := Outcome.bind_ok hmore
    obtain ⟨d, _, hsections, hfinish⟩ := Outcome.bind_ok hmore
    obtain ⟨ss, hsized, rfl, hpos, hload⟩ :=
      Reader.sections_ok (Nat.lt_succ_self _) (by decide) hsections
    have hd : Loads ss d := hload
    cases hf : d.finish with
    | error e =>
      rw [hf] at hfinish
      cases hfinish
    | ok m =>
      rw [hf] at hfinish
      cases hfinish
      refine ⟨?_, ss, d.bodies, rfl, hsized, hd.ordered, comprises_of_finish hd hf⟩
      rw [List.length_append]
      exact hpos
  · rintro ⟨hlen, ss, bs, rfl, hsized, hord, hm⟩
    obtain ⟨d, hd⟩ := RawSection.exists_loads hord hm.types fun s hs ↦ hm.parses hord hs
    rw [List.length_append] at hlen
    let rest := ss.flatMap RawSection.bytes
    have hheader : Reader.header ⟨preamble ++ rest, 0, 0⟩ = .ok () ⟨rest, 8, 0⟩ := rfl
    have hsections : Reader.sections (Cursor.remaining ⟨rest, 8, 0⟩ + 1) {} ⟨rest, 8, 0⟩ =
        .ok d ⟨[], 8 + rest.length, 0⟩ :=
      Reader.sections_load hsized hd (Nat.lt_succ_self _) hlen
    have hmodule : Reader.module_ (.ofBytes (preamble ++ rest)) =
        .ok m ⟨[], 8 + rest.length, 0⟩ := by
      simp only [Reader.module_, Outcome.bind_apply, Cursor.ofBytes, hheader, Outcome.get_apply,
        hsections]
      rw [hm.finish hd]
      rfl
    rw [decode, hmodule]

end Module

end Wasm
