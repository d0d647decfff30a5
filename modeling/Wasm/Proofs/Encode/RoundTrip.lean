import Wasm.Proofs.Encode.Instr

namespace Wasm

structure Code.Readable (types : List FuncType) (code : Code) : Prop where
  nested : code.WellNested
  inTypes : ∀ i ∈ code, i.InTypes types

theorem Code.Readable.encode_ne_nil {types : List FuncType} {code : Code}
    (h : code.Readable types) : code.encode ≠ [] := by
  have hpos := Array.size_pos_iff.mpr h.nested.nonempty
  have hlen := Reader.length_le_flatMap Instr.encode_ne_nil code.toList
  apply List.ne_nil_of_length_pos
  rw [Array.length_toList] at hlen
  exact hpos.trans_le hlen

theorem Limits.encode_ne_nil (l : Limits) : l.encode ≠ [] := by
  unfold Limits.encode
  split <;> exact List.cons_ne_nil _ _

theorem ElemSegment.encode_ne_nil (wide : Bool) (e : ElemSegment) : e.encode wide ≠ [] := by
  have hflags (n : UInt32) (bs : List UInt8) : Leb128.u32 n ++ bs ≠ [] :=
    List.append_ne_nil_of_left_ne_nil (Leb128.encode_ne_nil _) _
  unfold ElemSegment.encode
  split
  case h_1 | h_4 => split <;> exact hflags _ _
  all_goals exact hflags _ _

theorem DataSegment.encode_ne_nil (wide : Bool) (d : DataSegment) : d.encode wide ≠ [] := by
  have hflags (n : UInt32) (bs : List UInt8) : Leb128.u32 n ++ bs ≠ [] :=
    List.append_ne_nil_of_left_ne_nil (Leb128.encode_ne_nil _) _
  unfold DataSegment.encode
  split
  · exact hflags _ _
  · split <;> exact hflags _ _

theorem flatMap_runs (ts : List ValType) :
    ((runs ts).flatMap fun g ↦ List.replicate g.1 g.2) = ts := by
  induction ts with
  | nil => rfl
  | cons t ts ih =>
    rw [runs]
    split
    · rename_i h
      rw [h] at ih
      rw [← ih]
      rfl
    · rename_i n t' gs h
      rw [h] at ih
      split
      · rename_i ht
        rw [← ih, ht, List.flatMap_cons, List.flatMap_cons, List.replicate_succ]
        rfl
      · rw [← ih]
        rfl

theorem le_of_mem_runs {ts : List ValType} {g : Nat × ValType} (h : g ∈ runs ts) :
    g.1 ≤ ts.length := by
  have hlen := congrArg List.length (flatMap_runs ts)
  rw [List.length_flatMap] at hlen
  rw [← hlen]
  have hmem : g.1 ∈ (runs ts).map fun g ↦ (List.replicate g.1 g.2).length :=
    List.mem_map.mpr ⟨g, h, List.length_replicate⟩
  exact List.le_sum_of_mem hmem

namespace Reader

open Leb128

variable {types : List FuncType}

theorem reads_limits {l : Limits} (h : l.Ordered) : Reads limits l.encode l := by
  obtain ⟨min, max⟩ := l
  refine .anywhere fun start ↦ ?_
  cases max with
  | none => exact .byte ((reads_u32 min).give rfl)
  | some max =>
    refine .byte ((reads_u32 min).bind ((reads_u32 max).give ?_))
    rw [if_neg (UInt32.not_lt.mpr (h max rfl))]

theorem reads_funcType (t : FuncType) : Reads funcType t.encode t :=
  .anywhere fun _ ↦ .byte ((reads_valTypes _).bind ((reads_valTypes _).give rfl))

theorem reads_tableType {t : TableType} (h : t.limits.Ordered) : Reads tableType t.encode t :=
  (reads_refType _).bind ((reads_limits h).give rfl)

theorem reads_memoryType {t : MemoryType} (h : t.limits.Ordered) : Reads memoryType t.encode t :=
  (reads_limits h).give rfl

theorem reads_globalType (t : GlobalType) : Reads globalType t.encode t := by
  obtain ⟨value, mutable⟩ := t
  refine (reads_valType value).bind (.anywhere fun start ↦ ?_)
  cases mutable with
  | false => exact (reads_byte _).give rfl
  | true => exact (reads_byte _).give rfl

theorem reads_import {i : Import} (h : ∀ l ∈ i.desc.limits, l.Ordered) :
    Reads import_ i.encode i := by
  obtain ⟨source, name, desc⟩ := i
  refine (reads_name source).bind ((reads_name name).bind ?_)
  have hdesc : Reads importDesc desc.encode desc := by
    refine .anywhere fun start ↦ ?_
    cases desc with
    | func t => exact .byte ((reads_u32 t).give rfl)
    | table t => exact .byte ((reads_tableType (h _ (List.mem_singleton_self _))).give rfl)
    | memory t => exact .byte ((reads_memoryType (h _ (List.mem_singleton_self _))).give rfl)
    | global t => exact .byte ((reads_globalType t).give rfl)
  exact hdesc.give rfl

theorem reads_export (e : Export) : Reads export_ e.encode e := by
  obtain ⟨name, kind, index⟩ := e
  have hkind : Reads exportKind [kind.byte] kind := by
    refine .anywhere fun start ↦ ?_
    cases kind <;> exact (reads_byte _).give rfl
  exact (reads_name name).bind (hkind.bind ((reads_u32 index).give rfl))

theorem reads_code {code : Code} (h : code.Readable types) : Reads (expr types) code.encode code :=
  reads_expr h.nested h.inTypes

theorem reads_globalDef {g : GlobalDef} (h : g.init.Readable types) :
    Reads (globalDef types) g.encode g :=
  (reads_globalType _).bind ((reads_code h).give rfl)

theorem reads_funcItems (is : List Idx) : Reads funcItems (ElemItems.funcs is).encode (.funcs is) :=
  (reads_indices is).map _

theorem reads_exprItems {es : List Code} (h : ∀ code ∈ es, code.Readable types) :
    Reads (exprItems types) (ElemItems.exprs es).encode (.exprs es) :=
  (reads_vector_map (fun code hc ↦ reads_code (h code hc)) fun code hc ↦
    (h code hc).encode_ne_nil).map _

theorem reads_elemKind : Reads elemKind [0x00] .funcref :=
  .anywhere fun _ ↦ (reads_byte _).give rfl

theorem reads_elemSegment {e : ElemSegment} (wide : Bool)
    (h : ∀ code ∈ e.exprs, code.Readable types) (hkind : e.Kinded) :
    Reads (elemSegment types) (e.encode wide) e := by
  obtain ⟨type, items, mode⟩ := e
  refine .anywhere fun start ↦ ?_
  cases items with
  | funcs is =>
    obtain rfl : type = .funcref := hkind is rfl
    cases mode with
    | passive => exact (reads_u32 1).bind (reads_elemKind.bind ((reads_funcItems is).give rfl))
    | declarative => exact (reads_u32 3).bind (reads_elemKind.bind ((reads_funcItems is).give rfl))
    | active table offset =>
      have hoffset := reads_code (h offset (List.mem_cons_self ..))
      simp only [ElemSegment.encode]
      split
      · rename_i ht
        obtain ⟨rfl, -⟩ := ht
        exact (reads_u32 0).bind (hoffset.bind ((reads_funcItems is).give rfl))
      · exact (reads_u32 2).bind ((reads_u32 table).bind (hoffset.bind (reads_elemKind.bind
          ((reads_funcItems is).give rfl))))
  | exprs es =>
    have hes : ∀ code ∈ es, code.Readable types :=
      fun code hc ↦ h code (List.mem_append_right _ hc)
    cases mode with
    | passive =>
      exact (reads_u32 5).bind ((reads_refType type).bind ((reads_exprItems hes).give rfl))
    | declarative =>
      exact (reads_u32 7).bind ((reads_refType type).bind ((reads_exprItems hes).give rfl))
    | active table offset =>
      have hoffset := reads_code (h offset (List.mem_cons_self ..))
      simp only [ElemSegment.encode]
      split
      · rename_i ht
        obtain ⟨rfl, rfl, -⟩ := ht
        exact (reads_u32 4).bind (hoffset.bind ((reads_exprItems hes).give rfl))
      · exact (reads_u32 6).bind ((reads_u32 table).bind (hoffset.bind ((reads_refType type).bind
          ((reads_exprItems hes).give rfl))))

theorem reads_dataSegment {d : DataSegment} (wide : Bool)
    (h : ∀ code ∈ d.exprs, code.Readable types) : Reads (dataSegment types) (d.encode wide) d := by
  obtain ⟨mode, init⟩ := d
  have hinit {bs : List UInt8} (hmode : Reads (dataMode types) bs mode) :
      Reads (dataSegment types) (bs ++ byteVectorOf init) ⟨mode, init⟩ :=
    hmode.bind ((reads_byteVector init).give rfl)
  cases mode with
  | passive => exact hinit (.anywhere fun _ ↦ (reads_u32 1).give rfl)
  | active memory offset =>
    have hoffset := reads_code (h offset (List.mem_singleton_self _))
    simp only [DataSegment.encode, ← List.append_assoc]
    split
    · rename_i hm
      obtain ⟨rfl, -⟩ := hm
      exact hinit (.anywhere fun _ ↦ (reads_u32 0).bind (hoffset.give rfl))
    · rw [List.append_assoc (Leb128.u32 2)]
      exact hinit (.anywhere fun _ ↦ (reads_u32 2).bind ((reads_u32 memory).bind
        (hoffset.give rfl)))

theorem reads_locals {ts : List ValType} (h : ts.length ≤ maxLocals) :
    Reads locals (vectorOf ((runs ts).map fun g ↦ encode g.1 ++ [g.2.byte])) ts := by
  have hgroup : ∀ g ∈ runs ts, Reads localGroup (encode g.1 ++ [g.2.byte]) g := by
    intro g hg
    have hlt : g.1 < UInt32.size := (le_of_mem_runs hg).trans_lt (h.trans_lt (by decide))
    refine (reads_length hlt).bind ((reads_valType g.2).give ?_)
    rw [UInt32.toNat_ofNat_of_lt' hlt]
  have hgroups := reads_vector_map hgroup fun g _ ↦ List.append_ne_nil_of_right_ne_nil _ (by simp)
  refine .anywhere fun start ↦ hgroups.give ?_
  rw [count_groups, flatMap_runs, Nat.zero_add, if_neg (Nat.not_lt.mpr h)]

theorem fills_bodyContents {b : Body} (hcode : b.code.Readable types)
    (hlocals : b.locals.length ≤ maxLocals) : Fills (bodyContents types) b.contents b := by
  intro hsize base
  have hread : Reads (do return (← locals, ← expr types)) b.contents (b.locals, b.code) :=
    (reads_locals hlocals).bind ((reads_code hcode).give rfl)
  have hcheck : bodyContents types = (do
      let x ← (do return (← locals, ← expr types))
      let c ← get
      if c.atEnd then
        return ⟨x.1, x.2⟩
      fail .bodySize c.offset) := by
    simp only [bodyContents, bind_assoc, pure_bind]
  rw [hcheck, Outcome.bind_apply, hread.fills hsize]
  rfl

theorem reads_body {b : Body} (hcode : b.code.Readable types)
    (hlocals : b.locals.length ≤ maxLocals) : Reads (body types) b.encode b := by
  intro hsize rest consumed base hpos
  rw [Body.encode, byteVectorOf, List.length_append] at hsize hpos
  have hlen : b.contents.length < UInt32.size := by omega
  rw [Body.encode, byteVectorOf, List.append_assoc, List.length_append, body, Outcome.bind_apply,
    reads_length hlen (by omega) _ _ _ (by omega)]
  dsimp only
  rw [Outcome.bind_apply, UInt32.toNat_ofNat_of_lt' hlen, sub_append _ _ (by omega)]
  dsimp only
  rw [Outcome.bind_apply, inside_fills (fills_bodyContents hcode hlocals) hlen, Nat.add_assoc]
  rfl

theorem fills_custom_of {c : CustomSection} {bs : List UInt8} (h : Reads name bs c.name) :
    Fills custom (bs ++ c.payload) c := by
  intro hsize base
  rw [List.length_append] at hsize ⊢
  have hwords : UInt32.size < UInt64.size := by decide
  have hname := h (by omega) c.payload 0 base (by omega)
  have hpayload : bytes c.payload.length ⟨c.payload ++ [], 0 + bs.length, base⟩ = _ :=
    bytes_append c.payload [] (by omega)
  rw [List.append_nil] at hpayload
  simp only [custom, Outcome.bind_apply, hname, Outcome.get_apply, Cursor.remaining, hpayload]
  rw [Nat.zero_add]
  rfl

theorem fills_custom (c : CustomSection) : Fills custom (nameOf c.name ++ c.payload) c :=
  fills_custom_of (reads_name c.name)

theorem byteVectorOf_ne_nil (bs : List UInt8) : byteVectorOf bs ≠ [] :=
  List.append_ne_nil_of_left_ne_nil (encode_ne_nil _) _

theorem fills_payload (l : Layout) {types : List FuncType} {s : Section}
    (h : s.Admitted (Code.Readable types)) : Fills (payload types s.id) (s.payload l) s := by
  obtain ⟨hexprs, hlimits, hkinded, hlocals⟩ := h
  cases s with
  | custom c => exact (fills_custom c).map _
  | types ts => exact ((reads_vector_map (fun t _ ↦ reads_funcType t)
      fun _ _ ↦ List.cons_ne_nil _ _).map _).fills
  | imports is =>
    have his : ∀ i ∈ is, Reads import_ i.encode i := fun i hi ↦
      reads_import fun l hl ↦ hlimits l (List.mem_flatMap.mpr ⟨i, hi, hl⟩)
    exact ((reads_vector_map his fun _ _ ↦
      List.append_ne_nil_of_left_ne_nil (byteVectorOf_ne_nil _) _).map _).fills
  | funcTypes is => exact ((reads_indices is).map _).fills
  | tables ts =>
    have hts : ∀ t ∈ ts, Reads tableType t.encode t := fun t ht ↦
      reads_tableType (hlimits _ (List.mem_map_of_mem ht))
    exact ((reads_vector_map hts fun _ _ ↦ List.cons_ne_nil _ _).map _).fills
  | memories ts =>
    have hts : ∀ t ∈ ts, Reads memoryType t.encode t := fun t ht ↦
      reads_memoryType (hlimits _ (List.mem_map_of_mem ht))
    exact ((reads_vector_map hts fun t _ ↦ t.limits.encode_ne_nil).map _).fills
  | globals gs =>
    have hgs : ∀ g ∈ gs, Reads (globalDef types) g.encode g := fun g hg ↦
      reads_globalDef (hexprs _ (List.mem_map_of_mem hg))
    exact ((reads_vector_map hgs fun _ _ ↦ List.cons_ne_nil _ _).map _).fills
  | exports es => exact ((reads_vector_map (fun e _ ↦ reads_export e) fun _ _ ↦
      List.append_ne_nil_of_left_ne_nil (byteVectorOf_ne_nil _) _).map _).fills
  | start f => exact ((reads_u32 f).map _).fills
  | elements es =>
    have hes : ∀ e ∈ es, ∀ i, Reads (elemSegment types) (e.encode (l.wideElem i)) e := fun e he i ↦
      reads_elemSegment _ (fun code hc ↦ hexprs code (List.mem_flatMap.mpr ⟨e, he, hc⟩))
        (hkinded e he)
    exact ((reads_vector_mapIdx hes fun i e ↦ e.encode_ne_nil _).map _).fills
  | bodies bs =>
    have hbs : ∀ b ∈ bs, Reads (body types) b.encode b := fun b hb ↦
      reads_body (hexprs _ (List.mem_map_of_mem hb)) (hlocals b hb)
    exact ((reads_vector_map hbs fun _ _ ↦ byteVectorOf_ne_nil _).map _).fills
  | data ds =>
    have hds : ∀ d ∈ ds, ∀ i, Reads (dataSegment types) (d.encode (l.wideData i)) d := fun d hd i ↦
      reads_dataSegment _ fun code hc ↦ hexprs code (List.mem_flatMap.mpr ⟨d, hd, hc⟩)
    exact ((reads_vector_mapIdx hds fun i d ↦ d.encode_ne_nil _).map _).fills
  | dataCount n => exact ((reads_u32 n).map _).fills

end Reader

def Draft.after (d : Draft) (s : Section) : Draft :=
  { d.add s with order := if s.id = .custom then d.order else s.id.order }

namespace Reader

open Leb128

variable {l : Layout} {d : Draft} {s : Section}

theorem sectionHeader_append (id : SectionId) {n consumed : Nat} (hn : n < UInt32.size)
    (rest : List UInt8) (hpos : consumed + 1 + (encode n).length < UInt64.size) :
    sectionHeader ⟨UInt8.ofNat id.toNat :: (encode n ++ rest), consumed, 0⟩ =
      .ok ⟨id, UInt32.ofNat n, 0 + (consumed + 1 + (encode n).length)⟩
        ⟨rest, consumed + 1 + (encode n).length, 0⟩ := by
  have hid : SectionId.ofByte? (UInt8.ofNat id.toNat) = some id := by cases id <;> rfl
  have hlen : (encode n).length ≤ 4 + 1 := length_encode_le (hn.trans_le (by decide))
  have hsize := reads_length hn (hlen.trans_lt (by decide)) rest (consumed + 1) 0 hpos
  have hbyte : byte ⟨UInt8.ofNat id.toNat :: (encode n ++ rest), consumed, 0⟩ =
      .ok (UInt8.ofNat id.toNat) ⟨encode n ++ rest, consumed + 1, 0⟩ := rfl
  have hoffset (c : Cursor) : offset c = .ok c.offset c := rfl
  simp only [sectionHeader, Outcome.bind_apply, hoffset, hbyte, hid, hsize, Outcome.pure_apply]
  rfl

theorem place_after {h : SectionHeader} (hid : h.id = s.id)
    (hplace : s.id = .custom ∨ d.order < s.id.order) :
    d.place h = .ok (if s.id = .custom then d.order else s.id.order) := by
  unfold Draft.place
  rw [hid]
  by_cases hc : s.id = .custom
  · rw [if_pos hc, if_pos hc]
  · have hlt := hplace.resolve_left hc
    rw [if_neg hc, if_neg hc, if_neg (by omega), if_neg (by omega)]

theorem section_append (hread : Fills (payload d.mod.types s.id) (s.payload l) s)
    (hsize : (s.payload l).length < UInt32.size) (hplace : s.id = .custom ∨ d.order < s.id.order)
    (rest : List UInt8) {consumed : Nat} (hpos : consumed + (s.encode l).length < UInt64.size) :
    section_ d ⟨s.encode l ++ rest, consumed, 0⟩ =
      .ok (d.after s) ⟨rest, consumed + (s.encode l).length, 0⟩ := by
  have hlen : (s.encode l).length = 1 + (encode (s.payload l).length).length +
      (s.payload l).length := by
    rw [Section.encode, byteVectorOf, List.length_cons, List.length_append]
    omega
  rw [hlen] at hpos ⊢
  have hheader := sectionHeader_append s.id hsize (s.payload l ++ rest)
    (show consumed + 1 + _ < _ by omega)
  have hsub : sub (s.payload l).length ⟨s.payload l ++ rest, _, 0⟩ = _ :=
    sub_append (s.payload l) rest
      (show consumed + 1 + (encode (s.payload l).length).length + _ < _ by omega)
  rw [Section.encode, byteVectorOf, List.cons_append, List.append_assoc, section_,
    Outcome.bind_apply, hheader]
  dsimp only
  rw [Outcome.bind_apply, UInt32.toNat_ofNat_of_lt' hsize, hsub]
  dsimp only
  rw [place_after rfl hplace]
  simp only [Outcome.bind_apply, MonadExcept.ofExcept, Outcome.pure_apply,
    inside_fills hread hsize, Nat.add_assoc]
  rfl

def Readable (l : Layout) : Draft → List Section → Prop
  | _, [] => True
  | d, s :: ss => (s.id = .custom ∨ d.order < s.id.order) ∧
    s.Admitted (Code.Readable d.mod.types) ∧ (s.payload l).length < UInt32.size ∧
    Readable l (d.after s) ss

theorem sections_append {ss : List Section} (h : Readable l d ss) {n consumed : Nat}
    (hn : ss.length ≤ n)
    (hpos : consumed + (ss.flatMap (Section.encode l)).length < UInt64.size) :
    sections n d ⟨ss.flatMap (Section.encode l), consumed, 0⟩ = .ok (ss.foldl Draft.after d)
      ⟨[], consumed + (ss.flatMap (Section.encode l)).length, 0⟩ := by
  induction ss generalizing d n consumed with
  | nil => cases n <;> rfl
  | cons s ss ih =>
    obtain ⟨hplace, hs, hsize, hss⟩ := h
    obtain ⟨n, rfl⟩ := Nat.exists_eq_succ_of_ne_zero (Nat.ne_zero_of_lt hn)
    rw [List.flatMap_cons, List.length_append] at hpos
    rw [List.flatMap_cons, List.length_append, sections, Outcome.bind_apply, Outcome.get_apply]
    have hread := section_append (fills_payload l hs) hsize hplace
      (ss.flatMap (Section.encode l)) (show consumed + _ < _ by omega)
    have hmore : Cursor.atEnd ⟨s.encode l ++ ss.flatMap (Section.encode l), consumed, 0⟩ = false :=
      rfl
    dsimp only
    rw [hmore]
    simp only [Outcome.bind_apply, hread, Bool.false_eq_true, if_false]
    rw [ih hss (Nat.le_of_succ_le_succ hn) (by omega), List.foldl_cons, Nat.add_assoc]

end Reader

namespace Module

variable (m : Module) (l : Layout)

def draftOf (done : List SectionId) (cs : List CustomSection) (order : Nat) : Draft where
  mod := {
    types := if .type ∈ done then m.types else []
    imports := if .import_ ∈ done then m.imports else []
    imported := if .import_ ∈ done then m.imported else {}
    funcTypes := if .function ∈ done then m.funcTypes else []
    tables := if .table ∈ done then m.tables else []
    memories := if .memory ∈ done then m.memories else []
    globals := if .global ∈ done then m.globals else []
    exports := if .export_ ∈ done then m.exports else []
    start := if .start ∈ done then m.start else none
    elements := if .element ∈ done then m.elements else []
    dataCount := if .dataCount ∈ done then m.dataCount else none
    data := if .data ∈ done then m.data else []
    customs := cs }
  bodies := if .code ∈ done then m.functions.map fun f ↦ ⟨f.locals, f.body⟩ else []
  order := order

variable {m l} {done : List SectionId} {cs : List CustomSection} {order : Nat} {id : SectionId}
  {s : Section}

theorem listed_some {α : Type} {xs : List α} {f : List α → Section}
    (h : section?.listed l id xs f = some s) : s = f xs := by
  unfold section?.listed at h
  split at h
  · cases h
  · exact (Option.some.inj h).symm

theorem listed_none {α : Type} {xs : List α} {f : List α → Section}
    (h : section?.listed l id xs f = none) : xs = [] := by
  unfold section?.listed at h
  split at h
  · rename_i hx
    simp only [Bool.and_eq_true, List.isEmpty_iff] at hx
    exact hx.1
  · cases h

theorem id_of_section (h : m.section? l id = some s) : s.id = id ∧ id ≠ .custom := by
  cases id with
  | custom => cases h
  | start | dataCount =>
    obtain ⟨x, -, rfl⟩ := Option.map_eq_some_iff.mp h
    exact ⟨rfl, nofun⟩
  | _ =>
    obtain rfl := listed_some h
    exact ⟨rfl, nofun⟩

theorem after_section (hm : m.imported = .ofImports m.imports) (h : m.section? l id = some s) :
    (m.draftOf done cs order).after s = m.draftOf (done ++ [id]) cs id.order := by
  cases id with
  | custom => cases h
  | start | dataCount =>
    obtain ⟨x, hx, rfl⟩ := Option.map_eq_some_iff.mp h
    simp [draftOf, Draft.after, Draft.add, Section.id, hx]
  | _ =>
    obtain rfl := listed_some h
    simp [draftOf, Draft.after, Draft.add, Section.id, hm]

/-- A section that is left out is empty. -/
theorem draftOf_skip (hm : m.imported = .ofImports m.imports) (h : m.section? l id = none) :
    m.draftOf (done ++ [id]) cs order = m.draftOf done cs order := by
  cases id with
  | custom => simp [draftOf]
  | start | dataCount =>
    have hx := Option.map_eq_none_iff.mp h
    simp [draftOf, hx]
  | _ =>
    have hx := listed_none h
    simp_all [draftOf, ImportCounts.ofImports]

theorem exprs_section (h : m.section? l id = some s) {code : Code} (hc : code ∈ s.exprs) :
    code ∈ m.exprs := by
  cases id with
  | custom => cases h
  | start | dataCount =>
    obtain ⟨x, -, rfl⟩ := Option.map_eq_some_iff.mp h
    cases hc
  | code =>
    obtain rfl := listed_some h
    rw [Section.exprs, List.map_map] at hc
    exact List.mem_append_left _ (List.mem_append_left _ (List.mem_append_left _ hc))
  | global =>
    obtain rfl := listed_some h
    exact List.mem_append_left _ (List.mem_append_left _ (List.mem_append_right _ hc))
  | element =>
    obtain rfl := listed_some h
    exact List.mem_append_left _ (List.mem_append_right _ hc)
  | data =>
    obtain rfl := listed_some h
    exact List.mem_append_right _ hc
  | _ =>
    obtain rfl := listed_some h
    cases hc

theorem limits_section (h : m.section? l id = some s) {x : Limits} (hx : x ∈ s.limits) :
    x ∈ m.limits := by
  cases id with
  | custom => cases h
  | start | dataCount =>
    obtain ⟨x, -, rfl⟩ := Option.map_eq_some_iff.mp h
    cases hx
  | table =>
    obtain rfl := listed_some h
    exact List.mem_append_left _ (List.mem_append_left _ hx)
  | memory =>
    obtain rfl := listed_some h
    exact List.mem_append_left _ (List.mem_append_right _ hx)
  | import_ =>
    obtain rfl := listed_some h
    exact List.mem_append_right _ hx
  | _ =>
    obtain rfl := listed_some h
    cases hx

theorem admitted_section (hm : m.WellFormed) (h : m.section? l id = some s) :
    s.Admitted (Code.Readable m.types) where
  exprs code hc := ⟨hm.nested code (exprs_section h hc), hm.inTypes code (exprs_section h hc)⟩
  limits x hx := hm.limits x (limits_section h hx)
  kinded := by
    cases id with
    | custom => cases h
    | start | dataCount =>
      obtain ⟨x, -, rfl⟩ := Option.map_eq_some_iff.mp h
      exact nofun
    | element =>
      obtain rfl := listed_some h
      exact hm.kinded
    | _ =>
      obtain rfl := listed_some h
      exact nofun
  locals := by
    cases id with
    | custom => cases h
    | start | dataCount =>
      obtain ⟨x, -, rfl⟩ := Option.map_eq_some_iff.mp h
      exact nofun
    | code =>
      obtain rfl := listed_some h
      exact List.forall_mem_map.mpr hm.locals
    | _ =>
      obtain rfl := listed_some h
      exact nofun

/-- Custom sections may stand before other sections. -/
theorem readable_customs {ks : List CustomSection} {ss : List Section}
    (hsize : ∀ s ∈ ks.map Section.custom, (s.payload l).length < UInt32.size)
    (h : Reader.Readable l (m.draftOf done (cs ++ ks) order) ss) :
    Reader.Readable l (m.draftOf done cs order) (ks.map Section.custom ++ ss) ∧
    (ks.map Section.custom ++ ss).foldl Draft.after (m.draftOf done cs order) =
      ss.foldl Draft.after (m.draftOf done (cs ++ ks) order) := by
  induction ks generalizing cs with
  | nil =>
    rw [List.append_nil] at h ⊢
    exact ⟨h, rfl⟩
  | cons k ks ih =>
    have hcs : cs ++ k :: ks = cs ++ [k] ++ ks := by rw [List.append_assoc, List.singleton_append]
    rw [hcs] at h
    obtain ⟨hread, hfold⟩ := ih (fun s hs ↦ hsize s (List.mem_cons_of_mem _ hs)) h
    rw [hcs]
    exact ⟨⟨.inl rfl, ⟨nofun, nofun, nofun, nofun⟩, hsize _ (List.mem_cons_self ..), hread⟩, hfold⟩

/-- A section may stand before later ones, and an empty one may be left out. -/
theorem readable_section (hm : m.WellFormed) (htypes : .type ∈ done ∨ id = .type)
    (hlow : order < id.order)
    (hsize : ∀ s ∈ (m.section? l id).toList, (s.payload l).length < UInt32.size)
    (cs : List CustomSection) : ∃ order', (order' = order ∨ order' = id.order) ∧ ∀ ss,
      Reader.Readable l (m.draftOf (done ++ [id]) cs order') ss →
        Reader.Readable l (m.draftOf done cs order) ((m.section? l id).toList ++ ss) ∧
        ((m.section? l id).toList ++ ss).foldl Draft.after (m.draftOf done cs order) =
          ss.foldl Draft.after (m.draftOf (done ++ [id]) cs order') := by
  cases hs : m.section? l id with
  | none =>
    refine ⟨order, .inl rfl, fun ss hss ↦ ?_⟩
    rw [draftOf_skip hm.imported hs] at hss ⊢
    exact ⟨hss, rfl⟩
  | some s =>
    refine ⟨id.order, .inr rfl, fun ss hss ↦ ?_⟩
    have hadm := admitted_section hm hs
    have hid := (id_of_section hs).1
    have hafter : (m.draftOf done cs order).after s = m.draftOf (done ++ [id]) cs id.order :=
      after_section hm.imported hs
    have hread : s.Admitted (Code.Readable (m.draftOf done cs order).mod.types) := by
      obtain ht | ht := htypes
      · have htypes : (m.draftOf done cs order).mod.types = m.types := if_pos ht
        rw [htypes]
        exact hadm
      · have hnone : s.exprs = [] := by
          rw [ht] at hid
          cases s <;> first | rfl | cases hid
        refine ⟨?_, hadm.limits, hadm.kinded, hadm.locals⟩
        rw [hnone]
        exact nofun
    rw [hs] at hsize
    rw [← hafter] at hss ⊢
    exact ⟨⟨.inr (hid ▸ hlow), hread, hsize s (List.mem_singleton_self s), hss⟩, rfl⟩

/-- The sections can be read, and what is read then is the module. -/
theorem readable_sectionsFrom (hm : m.WellFormed) {ids : List SectionId} {rest : List CustomSection}
    (hsize : ∀ s ∈ m.sectionsFrom l ids rest, (s.payload l).length < UInt32.size)
    (hsorted : ids.Pairwise (·.order < ·.order)) (hlow : ∀ id ∈ ids, order < id.order)
    (htypes : .type ∈ done ∨ ∀ id ∈ ids.head?, id = .type) :
    Reader.Readable l (m.draftOf done cs order) (m.sectionsFrom l ids rest) ∧
    ∃ order', (m.sectionsFrom l ids rest).foldl Draft.after (m.draftOf done cs order) =
      m.draftOf (done ++ ids) (cs ++ rest) order' := by
  induction ids generalizing done cs order rest with
  | nil =>
    have hnil : Reader.Readable l (m.draftOf done (cs ++ rest) order) [] := trivial
    have h := readable_customs hsize hnil
    rw [List.append_nil] at h
    rw [List.append_nil]
    exact ⟨h.1, order, h.2⟩
  | cons id ids ih =>
    obtain ⟨hfirst, hsorted⟩ := List.pairwise_cons.mp hsorted
    have htype : .type ∈ done ∨ id = .type := htypes.imp_right fun h ↦ h id rfl
    have htype' : .type ∈ done ++ [id] := by
      obtain h | h := htype
      · exact List.mem_append_left _ h
      · exact List.mem_append_right _ (List.mem_singleton.mpr h.symm)
    rw [sectionsFrom, List.forall_mem_append, List.forall_mem_append] at hsize
    obtain ⟨hcustoms, hsection, hlater⟩ := hsize
    obtain ⟨order', horder, hstep⟩ := readable_section hm htype (hlow id (List.mem_cons_self ..))
      hsection (cs ++ rest.take (l.customs id))
    have hlow' : ∀ id' ∈ ids, order' < id'.order := by
      intro id' hid'
      obtain rfl | rfl := horder
      · exact hlow id' (List.mem_cons_of_mem _ hid')
      · exact hfirst id' hid'
    obtain ⟨hread, last, hfold⟩ := @ih (done ++ [id]) (cs ++ rest.take (l.customs id)) order'
      (rest.drop (l.customs id)) hlater hsorted hlow' (.inl htype')
    obtain ⟨hread, hfold'⟩ := hstep _ hread
    obtain ⟨hread, hfold''⟩ := readable_customs hcustoms hread
    refine ⟨hread, last, ?_⟩
    rw [sectionsFrom, hfold'', hfold', hfold, List.append_assoc, List.append_assoc,
      List.take_append_drop, List.singleton_append]

theorem finish_draftOf (hm : m.WellFormed) (order : Nat) :
    (m.draftOf SectionId.inOrder m.customs order).finish = .ok m := by
  have hlen : m.funcTypes.length = m.functions.length := by rw [← hm.functions, List.length_map]
  have hcount : m.dataCount.any (·.toNat ≠ m.data.length) = false := by
    cases hd : m.dataCount with
    | none => rfl
    | some n => simp [hm.dataCount n hd]
  have hfunctions : List.zipWith (fun type (b : Body) ↦ (⟨type, b.locals, b.code⟩ : FuncDef))
      m.funcTypes (m.functions.map fun f ↦ ⟨f.locals, f.body⟩) = m.functions := by
    rw [← hm.functions, List.zipWith_map, List.zipWith_self]
    exact List.map_id _
  have hdraft : m.draftOf SectionId.inOrder m.customs order =
      ⟨{ m with functions := [] }, m.functions.map fun f ↦ ⟨f.locals, f.body⟩, order⟩ := rfl
  rw [hdraft, Draft.finish]
  dsimp only
  rw [List.length_map, if_neg (not_not.mpr hlen), hcount, hfunctions]
  rfl

/-- Decoding the canonical form of a well-formed module gives the module, for every layout. -/
theorem decode_canonical (m : Module) (l : Layout) (hm : m.WellFormed)
    (hsize : ∀ s ∈ m.sections l, (s.payload l).length < UInt32.size)
    (hlen : (m.encode l).length < UInt64.size) : decode (m.encode l) = .ok m := by
  let bytes := (m.sections l).flatMap (Section.encode l)
  have hbytes : (m.encode l).length = 8 + bytes.length := by
    simp only [encode, List.length_append, List.length_cons, List.length_nil, bytes]
    omega
  have hheader : Reader.header ⟨m.encode l, 0, 0⟩ = .ok () ⟨bytes, 8, 0⟩ := rfl
  have hempty : ({} : Draft) = m.draftOf [] [] 0 := by simp [draftOf]
  have hsorted : SectionId.inOrder.Pairwise (·.order < ·.order) := by decide
  have hlow : ∀ id ∈ SectionId.inOrder, 0 < id.order := by decide
  have htypes : .type ∈ ([] : List SectionId) ∨ ∀ id ∈ SectionId.inOrder.head?, id = .type :=
    .inr fun id hid ↦ (Option.some.inj hid).symm
  obtain ⟨hread, order, hfold⟩ :=
    @readable_sectionsFrom m l [] [] 0 hm _ _ hsize hsorted hlow htypes
  have hcount : (m.sections l).length ≤ Cursor.remaining ⟨bytes, 8, 0⟩ + 1 :=
    Nat.le_succ_of_le (Reader.length_le_flatMap (fun s ↦ List.cons_ne_nil _ _) _)
  have hsections := Reader.sections_append hread hcount (show 8 + bytes.length < _ by omega)
  rw [hfold, ← hempty] at hsections
  have hmodule : Reader.module_ ⟨m.encode l, 0, 0⟩ = .ok m ⟨[], 8 + bytes.length, 0⟩ := by
    simp only [Reader.module_, Outcome.bind_apply, hheader, Outcome.get_apply]
    rw [show Reader.sections (Cursor.remaining ⟨bytes, 8, 0⟩ + 1) {} ⟨bytes, 8, 0⟩ = _ from
      hsections]
    dsimp only
    rw [List.nil_append, List.nil_append, finish_draftOf hm]
    rfl
  have hstart : Cursor.ofBytes (m.encode l) = ⟨m.encode l, 0, 0⟩ := rfl
  rw [decode, hstart, hmodule]

def mixedSegments : Module where
  types := [⟨[], []⟩]
  funcTypes := [0]
  elements := [⟨.funcref, .funcs [0], .active 0 #[.i32Const (-1), .end_]⟩,
    ⟨.externref, .exprs [#[.refNull .externref, .end_]], .passive⟩]
  functions := [⟨0, [.i32, .i32, .i64], #[.block (.func 0), .end_, .end_]⟩]
  dataCount := some 1
  data := [⟨.active 0 #[.i32Const 64, .end_], [1, 2]⟩]
  customs := [⟨"before", [3]⟩, ⟨"after", []⟩]

/-- The first segments name their table and memory, an empty section is written, and a custom
section stands before the code. -/
def mixedLayout : Layout where
  wideElem i := i == 0
  wideData i := i == 0
  keeps id := id == .export_
  customs id := if id = .code then 1 else 0

theorem wellFormed_mixedSegments : mixedSegments.WellFormed where
  functions := rfl
  locals := by decide
  nested := by
    have hconst (i : Instr) (hi : i.plain = true) : Code.WellBracketed #[i, .end_] :=
      ⟨[i], rfl, .plain hi (fun _ ↦ rfl) .nil⟩
    have hblock : Code.WellBracketed #[.block (.func 0), .end_, .end_] :=
      ⟨_, rfl, .construct rfl .nil .nil⟩
    have hexprs : mixedSegments.exprs = [#[.block (.func 0), .end_, .end_],
      #[.i32Const (-1), .end_], #[.refNull .externref, .end_], #[.i32Const 64, .end_]] := rfl
    rw [hexprs]
    simp only [List.forall_mem_cons]
    exact ⟨hblock.wellNested, (hconst _ rfl).wellNested, (hconst _ rfl).wellNested,
      (hconst _ rfl).wellNested, nofun⟩
  inTypes := by
    have hsignature : ∀ code ∈ mixedSegments.exprs, ∀ i ∈ code,
        i.signature? = some (.func 0) ∨ i.signature? = none := by decide
    intro code hc i hi t ht
    obtain h | h := hsignature code hc i hi
    · cases h.symm.trans ht
      decide
    · cases h.symm.trans ht
  limits := nofun
  imported := rfl
  kinded := by
    intro e he is his
    obtain rfl | rfl : e = _ ∨ e = _ := by simpa [mixedSegments] using he
    · rfl
    · cases his
  dataCount := by
    rintro n ⟨⟩
    rfl

theorem decode_mixedSegments : mixedSegments.WellFormed ∧
    decode (mixedSegments.encode mixedLayout) = .ok mixedSegments := by
  have hsize : ∀ s ∈ mixedSegments.sections mixedLayout,
      (s.payload mixedLayout).length < UInt32.size := by
    decide +kernel
  have hlen : (mixedSegments.encode mixedLayout).length < UInt64.size := by
    decide +kernel
  exact ⟨wellFormed_mixedSegments,
    decode_canonical mixedSegments mixedLayout wellFormed_mixedSegments hsize hlen⟩

end Module

end Wasm
