import Wasm.Proofs.Decode.Framing

namespace Wasm

namespace Leb128

variable {bs bs' u u' : List UInt8}

/-- No number is the beginning of another one. -/
theorem Terminated.append_inj (h : Terminated bs) (h' : Terminated bs')
    (heq : bs ++ u = bs' ++ u') : bs = bs' ∧ u = u' := by
  induction h generalizing bs' with
  | last hx =>
    cases h' with
    | last _ =>
      cases heq
      exact ⟨rfl, rfl⟩
    | more hx' _ =>
      cases heq
      exact absurd hx hx'
  | more hx _ ih =>
    cases h' with
    | last hx' =>
      cases heq
      exact absurd hx' hx
    | more _ h' =>
      obtain ⟨rfl, htail⟩ := List.cons.inj heq
      obtain ⟨rfl, rfl⟩ := ih h' htail
      exact ⟨rfl, rfl⟩

end Leb128

theorem SectionId.ofNat_toNat_inj {id id' : SectionId}
    (h : UInt8.ofNat id.toNat = UInt8.ofNat id'.toNat) : id = id' := by
  have hread (id : SectionId) : SectionId.ofByte? (UInt8.ofNat id.toNat) = some id := by
    cases id <;> rfl
  exact Option.some.inj ((hread id).symm.trans (h ▸ hread id'))

namespace RawSection

open Leb128

variable {ss ss' : List RawSection} {u : List UInt8}

/-- Bytes that begin with something of a given size and are made of sections begin with a section
of that size. -/
theorem split_flatMap_bytes {id : UInt8} {size payload : List UInt8}
    (h : Spells 32 size payload.length) (hss : ∀ s ∈ ss, s.Sized)
    (heq : id :: (size ++ payload) ++ u = ss.flatMap bytes) : ∃ s ss', ss = s :: ss' ∧
      UInt8.ofNat s.id.toNat = id ∧ s.size = size ∧ s.payload = payload ∧
      u = ss'.flatMap bytes := by
  cases ss with
  | nil => cases heq
  | cons s ss =>
    have hs : Spells 32 s.size s.payload.length := hss s (List.mem_cons_self ..)
    rw [List.flatMap_cons, bytes, List.cons_append, List.cons_append, List.append_assoc,
      List.append_assoc] at heq
    obtain ⟨hid, htail⟩ := List.cons.inj heq
    obtain ⟨rfl, hrest⟩ := h.terminated.append_inj hs.terminated htail
    obtain ⟨rfl, rfl⟩ := List.append_inj hrest (h.value_eq.symm.trans hs.value_eq)
    exact ⟨s, ss, rfl, hid.symm, rfl, rfl, rfl⟩

/-- Bytes are divided into sections in one way at most. -/
theorem split_append (hss : ∀ s ∈ ss, s.Sized) (hss' : ∀ s ∈ ss', s.Sized)
    (heq : ss.flatMap bytes ++ u = ss'.flatMap bytes) :
    ∃ rest, ss' = ss ++ rest ∧ u = rest.flatMap bytes := by
  induction ss generalizing ss' with
  | nil => exact ⟨ss', rfl, heq⟩
  | cons s ss ih =>
    obtain ⟨hs, hss⟩ := List.forall_mem_cons.mp hss
    rw [List.flatMap_cons, List.append_assoc] at heq
    obtain ⟨t, ss', rfl, hid, hsize, hpayload, heq⟩ := split_flatMap_bytes hs hss' heq
    have ht : t = s := by
      cases t
      cases s
      cases SectionId.ofNat_toNat_inj hid
      cases hsize
      cases hpayload
      rfl
    obtain ⟨rest, rfl, rfl⟩ := ih hss (List.forall_mem_cons.mp hss').2 heq
    exact ⟨rest, by rw [ht, List.cons_append], rfl⟩

end RawSection

namespace Module

variable {ss : List RawSection} {bytes : List UInt8} {m : Module}

theorem decode_preamble (rest : List UInt8) : decode (preamble ++ rest) =
    match Reader.sections (rest.length + 1) {} ⟨rest, 8, 0⟩ with
    | .ok d _ => d.finish
    | .error e _ => .error e := by
  have hheader : Reader.header ⟨preamble ++ rest, 0, 0⟩ = .ok () ⟨rest, 8, 0⟩ := rfl
  simp only [decode, Reader.module_, Outcome.bind_apply, Cursor.ofBytes, hheader,
    Outcome.get_apply, Cursor.remaining]
  cases Reader.sections (rest.length + 1) {} ⟨rest, 8, 0⟩ with
  | error e c => rfl
  | ok d c =>
    dsimp only
    cases d.finish <;> rfl

theorem preamble_of_decode (h : decode bytes = .ok m) : ∃ rest, bytes = preamble ++ rest := by
  unfold decode at h
  split at h
  · rename_i hm
    obtain ⟨_, _, hheader, -⟩ := Outcome.bind_ok hm
    obtain ⟨rest, rfl, -⟩ := header_ok hheader
    exact ⟨rest, rfl⟩
  · cases h

theorem sections_of_decode (h : decode bytes = .ok m) :
    ∃ ss : List RawSection, (∀ s ∈ ss, s.Sized) ∧
      bytes = preamble ++ ss.flatMap RawSection.bytes := by
  obtain ⟨rest, rfl⟩ := preamble_of_decode h
  rw [decode_preamble] at h
  split at h
  · rename_i hsections
    obtain ⟨ss, hss, rfl, -⟩ := Reader.sections_ok (Nat.lt_succ_self _) (by decide) hsections
    exact ⟨ss, hss, rfl⟩
  · cases h

/-- Decoding is loading the sections and finishing the draft. -/
theorem decode_sections (hss : ∀ s ∈ ss, s.Sized) :
    decode (preamble ++ ss.flatMap RawSection.bytes) = .ok m ↔
      8 + (ss.flatMap RawSection.bytes).length < UInt64.size ∧
        ∃ d, Loads ss d ∧ d.finish = .ok m := by
  rw [decode_preamble]
  constructor
  · intro h
    split at h
    · rename_i d c hsections
      obtain ⟨ss', hss', heq, hpos, hload⟩ :=
        Reader.sections_ok (Nat.lt_succ_self _) (by decide) hsections
      rw [← List.append_nil (ss.flatMap RawSection.bytes)] at heq
      obtain ⟨rest, rfl, hrest⟩ := RawSection.split_append hss hss' heq
      have hnil : rest = [] := by
        cases rest with
        | nil => rfl
        | cons s rest => cases hrest
      subst hnil
      rw [List.append_nil] at hload
      exact ⟨hpos, d, hload, h⟩
    · cases h
  · rintro ⟨hlen, d, hd, hf⟩
    rw [Reader.sections_load hss hd (Nat.lt_succ_self _) hlen]
    exact hf

end Module

def Remains {α : Type} (empty a a' : α) : Prop := a ≠ empty → a' = a

/-- The second module has more custom sections than the first one, and whatever was empty in the
first may have been filled in. -/
structure Module.GrowsInto (m m' : Module) : Prop where
  types : Remains [] m.types m'.types
  imports : Remains [] m.imports m'.imports
  importedFuncs : Remains 0 m.imported.funcs m'.imported.funcs
  importedTables : Remains 0 m.imported.tables m'.imported.tables
  importedMemories : Remains 0 m.imported.memories m'.imported.memories
  importedGlobals : Remains 0 m.imported.globals m'.imported.globals
  funcTypes : Remains [] m.funcTypes m'.funcTypes
  tables : Remains [] m.tables m'.tables
  memories : Remains [] m.memories m'.memories
  globals : Remains [] m.globals m'.globals
  exports : Remains [] m.exports m'.exports
  start : Remains none m.start m'.start
  elements : Remains [] m.elements m'.elements
  functions : Remains [] m.functions m'.functions
  dataCount : Remains none m.dataCount m'.dataCount
  data : Remains [] m.data m'.data
  customs : m.customs <+: m'.customs

namespace Draft

variable {α : Type} {ss ss' : List RawSection} {d d' : Draft}

theorem order_le_after (d : Draft) {x : Section} (h : x.id = .custom ∨ d.order < x.id.order) :
    d.order ≤ (d.after x).order := by
  unfold after
  dsimp only
  split
  · exact le_rfl
  · rename_i hc
    exact (h.resolve_left hc).le

/-- Sections behind the place of a part do not change it. -/
theorem Part.get_foldlM (p : Part α) (horder : p.id.order ≤ d.order)
    (hfold : ss.foldlM load? d = some d') : p.get d' = p.get d := by
  induction ss generalizing d with
  | nil =>
    cases hfold
    rfl
  | cons s ss ih =>
    rw [List.foldlM_cons, Option.bind_eq_bind, Option.bind_eq_some_iff] at hfold
    obtain ⟨d₁, hs, hfold⟩ := hfold
    obtain ⟨hplace, x, hx, rfl⟩ := load?_eq_some.mp hs
    rw [← Reader.id_of_parse? hx] at hplace
    have hother : x.id ≠ p.id := by
      intro hid
      rw [hid] at hplace
      exact absurd (hplace.resolve_left p.ne_custom) (Nat.not_lt.mpr horder)
    rw [ih (horder.trans (order_le_after d hplace)) hfold, p.get_other d x hother]

/-- A part that is not empty has been read. -/
theorem Part.order_le (p : Part α) (h : Loads ss d) (hne : p.get d ≠ p.get {}) :
    p.id.order ≤ d.order := by
  by_contra hlt
  have hget := p.contents_eq h
  unfold RawSection.contents at hget
  rw [h.find?_eq_none (Nat.not_le.mp hlt)] at hget
  exact hne (Option.some.inj hget).symm

theorem Part.remains (p : Part α) (h : Loads ss d) (h' : Loads (ss ++ ss') d') :
    Remains (p.get {}) (p.get d) (p.get d') := by
  intro hne
  unfold Loads at h h'
  rw [List.foldlM_append, h] at h'
  exact p.get_foldlM (p.order_le h hne) h'

end Draft

namespace Loads

variable {ss ss' : List RawSection} {d d' : Draft}

theorem customs_prefix (h : Loads ss d) (h' : Loads (ss ++ ss') d') :
    d.mod.customs <+: d'.mod.customs := by
  have hall := h'.customs
  rw [List.filter_append, List.mapM_append, h.customs] at hall
  obtain ⟨_, ⟨⟩, hall⟩ := Option.bind_eq_some_iff.mp hall
  obtain ⟨cs, -, hcs⟩ := Option.bind_eq_some_iff.mp hall
  exact ⟨cs, Option.some.inj hcs⟩

theorem imported_remains (h : Loads ss d) (h' : Loads (ss ++ ss') d') (count : ImportCounts → Nat)
    (hempty : count (.ofImports []) = 0) :
    Remains 0 (count d.mod.imported) (count d'.mod.imported) := by
  intro hne
  have himports : d.mod.imports ≠ [] := by
    intro hnil
    rw [h.imported, hnil] at hne
    exact hne hempty
  have himports' : d'.mod.imports = d.mod.imports := Draft.importsPart.remains h h' himports
  rw [h'.imported, h.imported, himports']

/-- Functions are bodies with their types, and neither change behind their sections. -/
theorem functions_remain (h : Loads ss d) (h' : Loads (ss ++ ss') d') {β : Type}
    (f : Idx → Body → β) : Remains [] (d.mod.funcTypes.zipWith f d.bodies)
      (d'.mod.funcTypes.zipWith f d'.bodies) := by
  intro hne
  have htypes : d.mod.funcTypes ≠ [] := by
    intro hnil
    rw [hnil] at hne
    exact hne rfl
  have hbodies : d.bodies ≠ [] := by
    intro hnil
    rw [hnil, List.zipWith_nil_right] at hne
    exact hne rfl
  have htypes' : d'.mod.funcTypes = d.mod.funcTypes := Draft.funcTypesPart.remains h h' htypes
  have hbodies' : d'.bodies = d.bodies := Draft.bodiesPart.remains h h' hbodies
  rw [htypes', hbodies']

theorem growsInto (h : Loads ss d) (h' : Loads (ss ++ ss') d') {m m' : Module}
    (hm : d.finish = .ok m) (hm' : d'.finish = .ok m') : m.GrowsInto m' := by
  obtain ⟨-, -, rfl⟩ := Module.finish_ok hm
  obtain ⟨-, -, rfl⟩ := Module.finish_ok hm'
  exact {
    types := Draft.typesPart.remains h h'
    imports := Draft.importsPart.remains h h'
    importedFuncs := imported_remains h h' (·.funcs) rfl
    importedTables := imported_remains h h' (·.tables) rfl
    importedMemories := imported_remains h h' (·.memories) rfl
    importedGlobals := imported_remains h h' (·.globals) rfl
    funcTypes := Draft.funcTypesPart.remains h h'
    tables := Draft.tablesPart.remains h h'
    memories := Draft.memoriesPart.remains h h'
    globals := Draft.globalsPart.remains h h'
    exports := Draft.exportsPart.remains h h'
    start := Draft.startPart.remains h h'
    elements := Draft.elementsPart.remains h h'
    functions := functions_remain h h' _
    dataCount := Draft.dataCountPart.remains h h'
    data := Draft.dataPart.remains h h'
    customs := customs_prefix h h' }

end Loads

namespace Module

/-- When a module is followed by more bytes and both together are a module, these bytes are whole
sections, and nothing that the first module has is different in the second. -/
theorem decode_append (b t : List UInt8) (m m' : Module) (h : decode b = .ok m)
    (h' : decode (b ++ t) = .ok m') :
    (∃ ss ss' : List RawSection, (∀ s ∈ ss ++ ss', s.Sized) ∧
      b = preamble ++ ss.flatMap RawSection.bytes ∧ t = ss'.flatMap RawSection.bytes) ∧
    m.GrowsInto m' := by
  obtain ⟨ss, hss, rfl⟩ := sections_of_decode h
  obtain ⟨all, hall, heq⟩ := sections_of_decode h'
  rw [List.append_assoc] at heq
  obtain ⟨ss', rfl, rfl⟩ := RawSection.split_append hss hall (List.append_cancel_left heq)
  refine ⟨⟨ss, ss', hall, rfl, rfl⟩, ?_⟩
  rw [List.append_assoc, ← List.flatMap_append] at h'
  obtain ⟨-, d, hd, hm⟩ := (decode_sections hss).mp h
  obtain ⟨-, d', hd', hm'⟩ := (decode_sections hall).mp h'
  exact hd.growsInto hd' hm hm'

/-- A type and a custom section, behind which a memory and another custom section follow. -/
theorem decode_append_memory :
    let b := preamble ++ [1, 4, 1, 0x60, 0, 0, 0, 3, 1, 0x61, 7]
    let t := [5, 3, 1, 0, 2, 0, 2, 1, 0x62]
    let m : Module := { types := [⟨[], []⟩], customs := [⟨"a", [7]⟩] }
    let m' : Module := { m with memories := [⟨⟨2, none⟩⟩], customs := [⟨"a", [7]⟩, ⟨"b", []⟩] }
    decode b = .ok m ∧ decode (b ++ t) = .ok m' ∧
    (∃ ss ss' : List RawSection, (∀ s ∈ ss ++ ss', s.Sized) ∧
      b = preamble ++ ss.flatMap RawSection.bytes ∧ t = ss'.flatMap RawSection.bytes) ∧
    m.GrowsInto m' := by
  intro b t m m'
  have hb : decode b = .ok m := by decide +kernel
  have ht : decode (b ++ t) = .ok m' := by decide +kernel
  exact ⟨hb, ht, decode_append b t m m' hb ht⟩

end Module

end Wasm
