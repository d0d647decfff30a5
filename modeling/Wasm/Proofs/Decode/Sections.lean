import Wasm.Proofs.Decode.Relocation
import Wasm.Proofs.Encode.RoundTrip

namespace Wasm

namespace Leb128

/-- The bytes of the number `n` of `bits` bits, padded or not. -/
structure Spells (bits : Nat) (bs : List UInt8) (n : Nat) : Prop where
  terminated : Terminated bs
  length_le : bs.length ≤ limit bits
  value_eq : value bs = n
  lt : n < 2 ^ bits

end Leb128

namespace Reader

variable {α β : Type}

def parse? (r : Reader α) (bs : List UInt8) : Option α :=
  match r (.ofBytes bs) with
  | .ok a c => if c.atEnd then some a else none
  | .error _ _ => none

theorem parse?_eq_some {r : Reader α} (h : Shifts r r) {bs : List UInt8} (base : Nat) {a : α} :
    r.parse? bs = some a ↔ ∃ c, r (.ofBytes bs base) = .ok a c ∧ c.atEnd = true := by
  unfold parse?
  constructor
  · intro ha
    split at ha
    · rename_i a' c hr
      split at ha
      · rename_i hend
        cases ha
        exact ⟨_, h.ofBytes base hr, hend⟩
      · cases ha
    · cases ha
  · rintro ⟨c, hr, hend⟩
    have hr0 := h.ofBytes 0 hr
    rw [hr0]
    exact if_pos hend

theorem parse?_map (f : α → β) (r : Reader α) (bs : List UInt8) :
    (f <$> r).parse? bs = (r.parse? bs).map f := by
  unfold parse?
  rw [Outcome.map_apply]
  cases r (.ofBytes bs) with
  | error e c => rfl
  | ok a c =>
    dsimp only
    split <;> rfl

theorem id_of_parse? {types : List FuncType} {id : SectionId} {bs : List UInt8} {x : Section}
    (h : (payload types id).parse? bs = some x) : x.id = id := by
  obtain ⟨c, hr, -⟩ := (parse?_eq_some (shifts_payload types id) 0).mp h
  exact (yields_payload types id _ _ _ hr).1

end Reader

/-- A section as it stands in a binary, with the bytes of the number that tells its size. -/
structure RawSection where
  id : SectionId
  size : List UInt8
  payload : List UInt8

namespace RawSection

def bytes (s : RawSection) : List UInt8 := UInt8.ofNat s.id.toNat :: (s.size ++ s.payload)

theorem length_bytes (s : RawSection) :
    s.bytes.length = 1 + s.size.length + s.payload.length := by
  rw [bytes, List.length_cons, List.length_append]
  omega

def Sized (s : RawSection) : Prop := Leb128.Spells 32 s.size s.payload.length

def Ordered (ss : List RawSection) : Prop :=
  (ss.filter (·.id ≠ .custom)).Pairwise (·.id.order < ·.id.order)

def contents {α : Type} (ss : List RawSection) (id : SectionId) (r : Reader α) (absent : α) :
    Option α :=
  match ss.find? (·.id = id) with
  | some s => r.parse? s.payload
  | none => some absent

theorem contents_append {α : Type} {ss ss' : List RawSection} {id : SectionId}
    (h : ∀ s ∈ ss', s.id ≠ id) (r : Reader α) (absent : α) :
    contents (ss ++ ss') id r absent = contents ss id r absent := by
  have hnone : ss'.find? (·.id = id) = none :=
    List.find?_eq_none.mpr fun s hs hid ↦ h s hs (of_decide_eq_true hid)
  unfold contents
  rw [List.find?_append, hnone, Option.or_none]

end RawSection

open Reader RawSection in
/-- Every part of a module is what the payload of its section alone stands for. -/
structure Module.Gathers (m : Module) (bs : List Body) (ss : List RawSection) : Prop where
  types : contents ss .type (vector funcType) [] = some m.types
  imports : contents ss .import_ (vector import_) [] = some m.imports
  imported : m.imported = .ofImports m.imports
  funcTypes : contents ss .function (vector u32) [] = some m.funcTypes
  tables : contents ss .table (vector tableType) [] = some m.tables
  memories : contents ss .memory (vector memoryType) [] = some m.memories
  globals : contents ss .global (vector (globalDef m.types)) [] = some m.globals
  exports : contents ss .export_ (vector export_) [] = some m.exports
  start : contents ss .start (some <$> u32) none = some m.start
  elements : contents ss .element (vector (elemSegment m.types)) [] = some m.elements
  dataCount : contents ss .dataCount (some <$> u32) none = some m.dataCount
  code : contents ss .code (vector (body m.types)) [] = some bs
  data : contents ss .data (vector (dataSegment m.types)) [] = some m.data
  customs : (ss.filter (·.id = .custom)).mapM (custom.parse? ·.payload) = some m.customs

/-- The sections agree with each other, and functions are bodies with their types. -/
structure Module.Comprises (m : Module) (bs : List Body) (ss : List RawSection) : Prop
    extends Module.Gathers m bs ss where
  bodyCount : bs.length = m.funcTypes.length
  functions : m.functions = m.funcTypes.zipWith (fun type b ↦ ⟨type, b.locals, b.code⟩) bs
  dataCount_eq : ∀ n, m.dataCount = some n → n.toNat = m.data.length

def Draft.load? (d : Draft) (s : RawSection) : Option Draft :=
  if s.id = .custom ∨ d.order < s.id.order then
    ((Reader.payload d.mod.types s.id).parse? s.payload).map d.after
  else none

theorem Draft.load?_eq_some {d d' : Draft} {s : RawSection} : d.load? s = some d' ↔
    (s.id = .custom ∨ d.order < s.id.order) ∧
      ∃ x, (Reader.payload d.mod.types s.id).parse? s.payload = some x ∧ d.after x = d' := by
  rw [load?, Option.ite_none_right_eq_some, Option.map_eq_some_iff]

/-- The draft after the sections, read from the first on. -/
def Loads (ss : List RawSection) (d : Draft) : Prop := ss.foldlM Draft.load? {} = some d

namespace Loads

variable {ss : List RawSection} {s : RawSection} {d d' : Draft} {α : Type}

theorem nil_iff : Loads [] d ↔ {} = d := Option.some_inj

theorem concat_iff : Loads (ss ++ [s]) d' ↔ ∃ d, Loads ss d ∧ d.load? s = some d' := by
  unfold Loads
  rw [List.foldlM_append, Option.bind_eq_bind, Option.bind_eq_some_iff]
  simp only [List.foldlM_cons, List.foldlM_nil, bind_pure]

theorem order_lt_iff (h : Loads ss d) (n : Nat) :
    d.order < n ↔ 0 < n ∧ ∀ s ∈ ss, s.id.order < n := by
  induction ss using List.reverseRecOn generalizing d n with
  | nil =>
    obtain rfl := nil_iff.mp h
    simp
  | append_singleton ss s ih =>
    obtain ⟨d, hd, hs⟩ := concat_iff.mp h
    obtain ⟨hplace, x, hx, rfl⟩ := Draft.load?_eq_some.mp hs
    have hid := Reader.id_of_parse? hx
    rw [List.forall_mem_append, List.forall_mem_singleton, ← and_assoc, ← ih hd]
    by_cases hc : s.id = .custom
    · have horder : (d.after x).order = d.order := if_pos (hid.trans hc)
      have hzero : s.id.order = 0 := by rw [hc]; rfl
      omega
    · have horder : (d.after x).order = s.id.order :=
        (if_neg (hid ▸ hc)).trans (congrArg _ hid)
      have := hplace.resolve_left hc
      omega

theorem ordered (h : Loads ss d) : RawSection.Ordered ss := by
  induction ss using List.reverseRecOn generalizing d with
  | nil => exact .nil
  | append_singleton ss s ih =>
    obtain ⟨d, hd, hs⟩ := concat_iff.mp h
    obtain ⟨hplace, -⟩ := Draft.load?_eq_some.mp hs
    unfold RawSection.Ordered
    rw [List.filter_append, List.pairwise_append]
    refine ⟨ih hd, ?_, ?_⟩
    · exact List.Pairwise.filter _ (List.pairwise_singleton _ _)
    · intro t ht s' hs'
      obtain ⟨hmem, hc⟩ := List.mem_filter.mp hs'
      obtain rfl := List.mem_singleton.mp hmem
      have hlt := hplace.resolve_left (of_decide_eq_true hc)
      exact ((hd.order_lt_iff _).mp hlt).2 t (List.mem_of_mem_filter ht)

end Loads

/-- Before its place there is no section with an id. -/
theorem Loads.find?_eq_none {ss : List RawSection} {d : Draft} (h : Loads ss d) {id : SectionId}
    (hid : d.order < id.order) : ss.find? (·.id = id) = none := by
  rw [List.find?_eq_none]
  intro s hs
  have hlt := ((h.order_lt_iff _).mp hid).2 s hs
  rw [decide_eq_true_eq]
  rintro rfl
  exact lt_irrefl _ hlt

structure Draft.Part (α : Type) where
  id : SectionId
  get : Draft → α
  read : List FuncType → Reader α
  placed : 0 < id.order := by decide
  read_eq : ∀ ts, read ts = (fun x ↦ get (Draft.add {} x)) <$> Reader.payload ts id
  get_same : ∀ (d : Draft) x, x.id = id → get (d.after x) = get (Draft.add {} x) := by
    intro d x h
    cases x <;> first | rfl | cases h
  get_other : ∀ (d : Draft) x, x.id ≠ id → get (d.after x) = get d := by
    intro d x h
    cases x <;> first | rfl | exact absurd rfl h
  typeless : id = .type → ∀ ts ts', read ts = read ts' := by nofun

namespace Draft.Part

open RawSection

variable {ss : List RawSection} {s : RawSection} {d : Draft} {α : Type}

theorem ne_custom (p : Part α) : p.id ≠ .custom := by
  intro hc
  have := p.placed
  rw [hc] at this
  exact lt_irrefl _ this

/-- The types that a part was read with are still there at the end. -/
theorem contents_after (p : Part α) (h : Loads ss d) {x : Section}
    (hx : x.id = .custom ∨ d.order < x.id.order) (absent : α) :
    contents ss p.id (p.read (d.after x).mod.types) absent =
      contents ss p.id (p.read d.mod.types) absent := by
  by_cases ht : x.id = .type
  · -- Only custom sections stand before the types.
    have hlow : d.order < p.id.order := by
      rw [ht] at hx
      have hlt : d.order < 1 := hx.resolve_left nofun
      exact hlt.trans_le p.placed
    unfold contents
    rw [h.find?_eq_none hlow]
  · rw [show (d.after x).mod.types = d.mod.types from types_add ht]

theorem contents_eq (p : Part α) (h : Loads ss d) :
    contents ss p.id (p.read d.mod.types) (p.get {}) = some (p.get d) := by
  induction ss using List.reverseRecOn generalizing d with
  | nil =>
    obtain rfl := Loads.nil_iff.mp h
    rfl
  | append_singleton ss s ih =>
    obtain ⟨d, hd, hs⟩ := Loads.concat_iff.mp h
    obtain ⟨hplace, x, hx, rfl⟩ := load?_eq_some.mp hs
    have hid := Reader.id_of_parse? hx
    by_cases hp : s.id = p.id
    · have hnone := hd.find?_eq_none (hp ▸ hplace.resolve_left (hp ▸ p.ne_custom))
      have hread : p.read (d.after x).mod.types = p.read d.mod.types := by
        by_cases ht : p.id = .type
        · exact p.typeless ht _ _
        · exact congrArg p.read (types_add (hid ▸ hp ▸ ht))
      unfold contents
      rw [List.find?_append, hnone, Option.none_or, List.find?_singleton,
        if_pos (decide_eq_true hp)]
      dsimp only
      rw [hread, p.read_eq, ← hp, Reader.parse?_map, hx, p.get_same d x (hid.trans hp)]
      rfl
    · rw [contents_append (List.forall_mem_singleton.mpr hp), p.contents_after hd (hid ▸ hplace),
        p.get_other d x (hid ▸ hp)]
      exact ih hd

end Draft.Part

namespace Draft

open Reader

theorem map_put {α β : Type} {g : β → Section} {view : Section → α} {f : β → α} (r : Reader β)
    (h : ∀ b, f b = view (g b)) : f <$> r = view <$> g <$> r := by
  rw [Functor.map_map]
  exact congrArg (· <$> r) (funext h)

theorem read_put {α : Type} {g : α → Section} {view : Section → α} (r : Reader α)
    (h : ∀ a, a = view (g a)) : r = view <$> g <$> r :=
  (id_map r).symm.trans (map_put r h)

def typesPart : Part (List FuncType) where
  id := .type
  get d := d.mod.types
  read _ := vector funcType
  read_eq _ := read_put (g := .types) _ fun _ ↦ rfl
  typeless _ _ _ := rfl

def importsPart : Part (List Import) where
  id := .import_
  get d := d.mod.imports
  read _ := vector import_
  read_eq _ := read_put (g := .imports) _ fun _ ↦ rfl

def funcTypesPart : Part (List Idx) where
  id := .function
  get d := d.mod.funcTypes
  read _ := vector u32
  read_eq _ := read_put (g := .funcTypes) _ fun _ ↦ rfl

def tablesPart : Part (List TableType) where
  id := .table
  get d := d.mod.tables
  read _ := vector tableType
  read_eq _ := read_put (g := .tables) _ fun _ ↦ rfl

def memoriesPart : Part (List MemoryType) where
  id := .memory
  get d := d.mod.memories
  read _ := vector memoryType
  read_eq _ := read_put (g := .memories) _ fun _ ↦ rfl

def globalsPart : Part (List GlobalDef) where
  id := .global
  get d := d.mod.globals
  read ts := vector (globalDef ts)
  read_eq _ := read_put (g := .globals) _ fun _ ↦ rfl

def exportsPart : Part (List Export) where
  id := .export_
  get d := d.mod.exports
  read _ := vector export_
  read_eq _ := read_put (g := .exports) _ fun _ ↦ rfl

def startPart : Part (Option Idx) where
  id := .start
  get d := d.mod.start
  read _ := some <$> u32
  read_eq _ := map_put (g := .start) _ fun _ ↦ rfl

def elementsPart : Part (List ElemSegment) where
  id := .element
  get d := d.mod.elements
  read ts := vector (elemSegment ts)
  read_eq _ := read_put (g := .elements) _ fun _ ↦ rfl

def dataCountPart : Part (Option UInt32) where
  id := .dataCount
  get d := d.mod.dataCount
  read _ := some <$> u32
  read_eq _ := map_put (g := .dataCount) _ fun _ ↦ rfl

def bodiesPart : Part (List Body) where
  id := .code
  get d := d.bodies
  read ts := vector (body ts)
  read_eq _ := read_put (g := .bodies) _ fun _ ↦ rfl

def dataPart : Part (List DataSegment) where
  id := .data
  get d := d.mod.data
  read ts := vector (dataSegment ts)
  read_eq _ := read_put (g := .data) _ fun _ ↦ rfl

end Draft

namespace Loads

open Draft RawSection

variable {ss : List RawSection} {s : RawSection} {d : Draft}

theorem imported (h : Loads ss d) : d.mod.imported = .ofImports d.mod.imports := by
  induction ss using List.reverseRecOn generalizing d with
  | nil =>
    obtain rfl := nil_iff.mp h
    rfl
  | append_singleton ss s ih =>
    obtain ⟨d, hd, hs⟩ := concat_iff.mp h
    obtain ⟨-, x, -, rfl⟩ := load?_eq_some.mp hs
    have hprev := ih hd
    cases x <;> first | rfl | exact hprev

theorem customs (h : Loads ss d) :
    (ss.filter (·.id = .custom)).mapM (Reader.custom.parse? ·.payload) = some d.mod.customs := by
  induction ss using List.reverseRecOn generalizing d with
  | nil =>
    obtain rfl := nil_iff.mp h
    rfl
  | append_singleton ss s ih =>
    obtain ⟨d, hd, hs⟩ := concat_iff.mp h
    obtain ⟨-, x, hx, rfl⟩ := load?_eq_some.mp hs
    have hid := Reader.id_of_parse? hx
    rw [List.filter_append, List.mapM_append, ih hd]
    by_cases hc : s.id = .custom
    · rw [hc] at hx
      rw [Reader.payload, Reader.parse?_map, Option.map_eq_some_iff] at hx
      obtain ⟨c, hc', rfl⟩ := hx
      simp [hc, hc', Draft.after, Draft.add]
    · have hsame : (d.after x).mod.customs = d.mod.customs := by
        cases x <;> first | rfl | exact absurd hid.symm hc
      simp [hc, hsame]

theorem gathers (h : Loads ss d) : d.mod.Gathers d.bodies ss where
  types := typesPart.contents_eq h
  imports := importsPart.contents_eq h
  imported := h.imported
  funcTypes := funcTypesPart.contents_eq h
  tables := tablesPart.contents_eq h
  memories := memoriesPart.contents_eq h
  globals := globalsPart.contents_eq h
  exports := exportsPart.contents_eq h
  start := startPart.contents_eq h
  elements := elementsPart.contents_eq h
  dataCount := dataCountPart.contents_eq h
  code := bodiesPart.contents_eq h
  data := dataPart.contents_eq h
  customs := h.customs

end Loads

namespace RawSection

open Draft Reader

variable {α : Type} {ss ss' : List RawSection} {s t : RawSection}

theorem Ordered.lt (h : Ordered (ss ++ ss')) (hs : s ∈ ss) (ht : t ∈ ss') (hsc : s.id ≠ .custom)
    (htc : t.id ≠ .custom) : s.id.order < t.id.order := by
  unfold Ordered at h
  rw [List.filter_append, List.pairwise_append] at h
  apply h.2.2
  · exact List.mem_filter.mpr ⟨hs, decide_eq_true hsc⟩
  · exact List.mem_filter.mpr ⟨ht, decide_eq_true htc⟩

theorem Ordered.find? (h : Ordered ss) (hs : s ∈ ss) (hc : s.id ≠ .custom) :
    ss.find? (·.id = s.id) = some s := by
  obtain ⟨before, after, rfl⟩ := List.append_of_mem hs
  have hnone : before.find? (·.id = s.id) = none := by
    rw [List.find?_eq_none]
    intro t ht hid
    have heq : t.id = s.id := of_decide_eq_true hid
    have hlt := h.lt ht (List.mem_cons_self ..) (heq ▸ hc) hc
    rw [heq] at hlt
    exact lt_irrefl _ hlt
  rw [List.find?_append, hnone, Option.none_or, List.find?_cons, decide_eq_true rfl]

theorem order_pos {id : SectionId} (h : id ≠ .custom) : 0 < id.order := by
  cases id <;> first | exact absurd rfl h | decide

theorem payload_eq_of_typeless {id : SectionId} (h : id.order ≤ 1) (ts ts' : List FuncType) :
    Reader.payload ts id = Reader.payload ts' id := by
  cases id <;> first | exact absurd h (by decide) | rfl

/-- Sections in order can be read one after the other if each can be read with the types that are
known at the end. -/
theorem exists_loads {types : List FuncType} (hord : Ordered ss)
    (htypes : contents ss .type (vector funcType) [] = some types)
    (hread : ∀ s ∈ ss, ∃ x, (Reader.payload types s.id).parse? s.payload = some x) :
    ∃ d, Loads ss d := by
  suffices hinit : ∀ before after, ss = before ++ after → ∃ d, Loads before d from
    hinit ss [] (List.append_nil ss).symm
  intro before
  induction before using List.reverseRecOn with
  | nil => exact fun _ _ ↦ ⟨{}, rfl⟩
  | append_singleton before s ih =>
    rintro after rfl
    obtain ⟨d, hd⟩ := ih _ (List.append_assoc ..)
    have hs : s ∈ before ++ [s] := List.mem_append_right _ (List.mem_singleton_self s)
    have hplace : s.id = .custom ∨ d.order < s.id.order := by
      refine or_iff_not_imp_left.mpr fun hc ↦ (hd.order_lt_iff _).mpr ⟨order_pos hc, ?_⟩
      intro t ht
      by_cases htc : t.id = .custom
      · rw [htc]
        exact order_pos hc
      · rw [List.append_assoc] at hord
        exact hord.lt ht (List.mem_cons_self ..) htc hc
    have hpayload : Reader.payload d.mod.types s.id = Reader.payload types s.id := by
      by_cases hlow : s.id.order ≤ 1
      · exact payload_eq_of_typeless hlow _ _
      · -- The types are known when any other section is read.
        have hlater : ∀ t ∈ [s] ++ after, t.id ≠ .type := by
          intro t ht heq
          have hone : t.id.order = 1 := by rw [heq]; rfl
          obtain rfl | ht := List.mem_cons.mp ht
          · omega
          · have hsc : s.id ≠ .custom := by
              rintro hc
              rw [hc] at hlow
              exact hlow (Nat.zero_le 1)
            have := hord.lt hs ht hsc (heq ▸ nofun)
            omega
        rw [List.append_assoc, contents_append hlater] at htypes
        rw [Option.some.inj (hd.gathers.types.symm.trans htypes)]
    obtain ⟨x, hx⟩ := hread s (List.mem_append_left _ hs)
    exact ⟨d.after x, Loads.concat_iff.mpr
      ⟨d, hd, load?_eq_some.mpr ⟨hplace, x, hpayload ▸ hx, rfl⟩⟩⟩

/-- The payload of a part's section can be read if the part can. -/
theorem parses_part (p : Draft.Part α) (hord : Ordered ss) {types : List FuncType} {absent a : α}
    (h : contents ss p.id (p.read types) absent = some a) (hs : s ∈ ss) (hid : s.id = p.id) :
    ∃ x, (Reader.payload types s.id).parse? s.payload = some x := by
  unfold contents at h
  rw [← hid, hord.find? hs (hid ▸ p.ne_custom)] at h
  dsimp only at h
  rw [p.read_eq, parse?_map, Option.map_eq_some_iff, ← hid] at h
  obtain ⟨x, hx, -⟩ := h
  exact ⟨x, hx⟩

theorem parse?_of_mapM {ss : List RawSection} {r : Reader α} {as : List α}
    (h : ss.mapM (r.parse? ·.payload) = some as) (hs : s ∈ ss) :
    ∃ a, r.parse? s.payload = some a := by
  induction ss generalizing as with
  | nil => cases hs
  | cons t ss ih =>
    simp only [List.mapM_cons, Option.bind_eq_bind, Option.bind_eq_some_iff] at h
    obtain ⟨a, ha, as, has, -⟩ := h
    obtain rfl | hs := List.mem_cons.mp hs
    · exact ⟨a, ha⟩
    · exact ih has hs

end RawSection

namespace Module.Gathers

open Draft RawSection

variable {m m' : Module} {bs bs' : List Body} {ss : List RawSection} {s : RawSection}

theorem parses (h : m.Gathers bs ss) (hord : Ordered ss) (hs : s ∈ ss) :
    ∃ x, (Reader.payload m.types s.id).parse? s.payload = some x := by
  cases hid : s.id with
  | custom =>
    obtain ⟨c, hc⟩ := parse?_of_mapM h.customs (List.mem_filter.mpr ⟨hs, decide_eq_true hid⟩)
    exact ⟨.custom c, by rw [Reader.payload, Reader.parse?_map, hc]; rfl⟩
  | type => exact hid ▸ parses_part typesPart hord h.types hs hid
  | import_ => exact hid ▸ parses_part importsPart hord h.imports hs hid
  | function => exact hid ▸ parses_part funcTypesPart hord h.funcTypes hs hid
  | table => exact hid ▸ parses_part tablesPart hord h.tables hs hid
  | memory => exact hid ▸ parses_part memoriesPart hord h.memories hs hid
  | global => exact hid ▸ parses_part globalsPart hord h.globals hs hid
  | export_ => exact hid ▸ parses_part exportsPart hord h.exports hs hid
  | start => exact hid ▸ parses_part startPart hord h.start hs hid
  | element => exact hid ▸ parses_part elementsPart hord h.elements hs hid
  | dataCount => exact hid ▸ parses_part dataCountPart hord h.dataCount hs hid
  | code => exact hid ▸ parses_part bodiesPart hord h.code hs hid
  | data => exact hid ▸ parses_part dataPart hord h.data hs hid

theorem unique (h : m.Gathers bs ss) (h' : m'.Gathers bs' ss) :
    bs = bs' ∧ m = { m' with functions := m.functions } := by
  have htypes : m.types = m'.types := Option.some.inj (h.types.symm.trans h'.types)
  have himports : m.imports = m'.imports := Option.some.inj (h.imports.symm.trans h'.imports)
  obtain ⟨_, _, _, _, _, _, _, _, _, _, _, _, _, _⟩ := m
  obtain ⟨_, _, _, _, _, _, _, _, _, _, _, _, _, _⟩ := m'
  cases htypes
  cases himports
  refine ⟨Option.some.inj (h.code.symm.trans h'.code), ?_⟩
  rw [Module.mk.injEq]
  exact ⟨rfl, rfl, Option.some.inj (h.funcTypes.symm.trans h'.funcTypes),
    Option.some.inj (h.tables.symm.trans h'.tables),
    Option.some.inj (h.memories.symm.trans h'.memories),
    Option.some.inj (h.globals.symm.trans h'.globals),
    Option.some.inj (h.exports.symm.trans h'.exports),
    Option.some.inj (h.start.symm.trans h'.start),
    Option.some.inj (h.elements.symm.trans h'.elements), rfl,
    Option.some.inj (h.dataCount.symm.trans h'.dataCount),
    Option.some.inj (h.data.symm.trans h'.data),
    Option.some.inj (h.customs.symm.trans h'.customs), h.imported.trans h'.imported.symm⟩

end Module.Gathers

end Wasm
