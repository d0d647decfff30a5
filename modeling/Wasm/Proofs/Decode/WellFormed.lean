import Wasm.Proofs.Decode.Bracketing

namespace Wasm

def Instr.InTypes (types : List FuncType) (i : Instr) : Prop :=
  ∀ t, i.signature? = some (.func t) → t.toNat < types.length

def Limits.Ordered (l : Limits) : Prop := ∀ max, l.max = some max → l.min ≤ max

def ImportDesc.limits : ImportDesc → List Limits
  | table t => [t.limits]
  | memory t => [t.limits]
  | _ => []

def Module.limits (m : Module) : List Limits :=
  m.tables.map (·.limits) ++ m.memories.map (·.limits) ++ m.imports.flatMap (·.desc.limits)

def ElemSegment.Kinded (e : ElemSegment) : Prop := ∀ is, e.items = .funcs is → e.type = .funcref

/-- How many constructs are open after some instructions: those opened less those closed. -/
def depth (is : List Instr) : Int := is.countP Instr.opens - is.count .end_

/-- Code whose depth is never negative before its last instruction, which is the only `end_` at
depth 0. -/
structure Code.WellNested (code : Code) : Prop where
  nonempty : code ≠ #[]
  depth_nonneg : ∀ n < code.size, 0 ≤ depth (code.toList.take n)
  closed_iff : ∀ n, code[n]? = some .end_ ∧ depth (code.toList.take n) = 0 ↔ n + 1 = code.size

structure Module.WellFormed (m : Module) : Prop where
  functions : m.functions.map (·.type) = m.funcTypes
  locals : ∀ f ∈ m.functions, f.locals.length ≤ maxLocals
  nested : ∀ code ∈ m.exprs, code.WellNested
  inTypes : ∀ code ∈ m.exprs, ∀ i ∈ code, i.InTypes m.types
  limits : ∀ l ∈ m.limits, l.Ordered
  imported : m.imported = .ofImports m.imports
  kinded : ∀ e ∈ m.elements, e.Kinded
  dataCount : ∀ n, m.dataCount = some n → n.toNat = m.data.length

section Depth

variable {i : Instr} {is is' : List Instr}

@[simp] theorem depth_nil : depth [] = 0 := rfl

theorem depth_append : depth (is ++ is') = depth is + depth is' := by
  simp only [depth, List.countP_append, List.count_append]
  omega

theorem depth_opens (h : i.opens = true) : depth (i :: is) = depth is + 1 := by
  simp only [depth, List.countP_cons_of_pos h, List.count_cons_of_ne (Instr.opens_ne_end h)]
  omega

theorem depth_end : depth (.end_ :: is) = depth is - 1 := by
  have hopen : ¬ Instr.opens .end_ = true := by decide
  simp only [depth, List.countP_cons_of_neg hopen, List.count_cons_self]
  omega

theorem depth_plain (h : i.plain = true) : depth (i :: is) = depth is := by
  obtain ⟨hopen, hend⟩ := Instr.plain_iff.mp h
  simp [depth, hopen, List.count_cons_of_ne hend]

theorem Balanced.depth_eq {x : Bool} (h : Balanced x is) : depth is = 0 := by
  induction h with
  | nil => rfl
  | plain hi _ _ ih => rw [depth_plain hi, ih]
  | construct hi _ _ ihb ih =>
    rw [depth_opens hi, depth_append, depth_end, ihb, ih]
    rfl

theorem Balanced.depth_take {x : Bool} (h : Balanced x is) (n : Nat) : 0 ≤ depth (is.take n) := by
  induction h generalizing n with
  | nil => simp
  | plain hi _ _ ih =>
    cases n with
    | zero => exact le_rfl
    | succ n =>
      rw [List.take_succ_cons, depth_plain hi]
      exact ih n
  | @construct x i body rest hi hb _ ihb ih =>
    cases n with
    | zero => exact le_rfl
    | succ n =>
      have hbody := ihb n
      rw [List.take_succ_cons, depth_opens hi, List.take_append, depth_append]
      -- The prefix ends within the construct, or after it.
      cases hn : n - body.length with
      | zero =>
        rw [List.take_zero, depth_nil]
        omega
      | succ k =>
        have hk := ih k
        rw [List.take_succ_cons, depth_end, List.take_of_length_le (by omega), hb.depth_eq]
        omega

/-- An `end_` within balanced code closes a construct. -/
theorem Balanced.depth_pos {x : Bool} (h : Balanced x is) {n : Nat} (hn : is[n]? = some .end_) :
    0 < depth (is.take n) := by
  have hlt : n < is.length := (List.getElem?_eq_some_iff.mp hn).1
  have hnext := h.depth_take (n + 1)
  rw [List.take_add_one, hn, depth_append, Option.toList_some, depth_end, depth_nil] at hnext
  omega

theorem Code.WellBracketed.wellNested {code : Code} (h : code.WellBracketed) :
    code.WellNested := by
  obtain ⟨body, hcode, hbody⟩ := h
  have hsize : code.size = body.length + 1 := by
    rw [← Array.length_toList, hcode, List.length_append, List.length_singleton]
  have htake : ∀ n ≤ body.length, code.toList.take n = body.take n := by
    intro n hn
    rw [hcode, List.take_append_of_le_length hn]
  refine ⟨?_, ?_, ?_⟩
  · rintro rfl
    exact absurd hsize (by simp)
  · intro n hn
    rw [htake n (by omega)]
    exact hbody.depth_take n
  · intro n
    rw [← Array.getElem?_toList, hsize, hcode]
    constructor
    · rintro ⟨hend, hdepth⟩
      have hlt := (List.getElem?_eq_some_iff.mp hend).1
      rw [List.length_append, List.length_singleton] at hlt
      by_contra hne
      have hn : n < body.length := by omega
      rw [List.getElem?_append_left hn] at hend
      rw [List.take_append_of_le_length hn.le] at hdepth
      have := hbody.depth_pos hend
      omega
    · intro hn
      obtain rfl : n = body.length := by omega
      simp [hbody.depth_eq]

end Depth

structure Code.Admitted (types : List FuncType) (code : Code) : Prop where
  bracketed : code.WellBracketed
  inTypes : ∀ i ∈ code, i.InTypes types

namespace Section

def id : Section → SectionId
  | custom _ => .custom
  | types _ => .type
  | imports _ => .import_
  | funcTypes _ => .function
  | tables _ => .table
  | memories _ => .memory
  | globals _ => .global
  | exports _ => .export_
  | start _ => .start
  | elements _ => .element
  | bodies _ => .code
  | data _ => .data
  | dataCount _ => .dataCount

def exprs : Section → List Code
  | globals gs => gs.map (·.init)
  | elements es => es.flatMap (·.exprs)
  | bodies bs => bs.map (·.code)
  | data ds => ds.flatMap (·.exprs)
  | _ => []

def limits : Section → List Limits
  | imports is => is.flatMap (·.desc.limits)
  | tables ts => ts.map (·.limits)
  | memories ts => ts.map (·.limits)
  | _ => []

def segments : Section → List ElemSegment
  | elements es => es
  | _ => []

def functions : Section → List Body
  | bodies bs => bs
  | _ => []

structure Admitted (P : Code → Prop) (s : Section) : Prop where
  exprs : ∀ code ∈ s.exprs, P code
  limits : ∀ l ∈ s.limits, l.Ordered
  kinded : ∀ e ∈ s.segments, e.Kinded
  locals : ∀ b ∈ s.functions, b.locals.length ≤ maxLocals

end Section

namespace Reader

variable {α : Type} {P Q : α → Prop} {r : Reader α}

theorem Yields.and (hP : Yields P r) (hQ : Yields Q r) : Yields (fun a ↦ P a ∧ Q a) r :=
  fun c a c' h ↦ ⟨hP c a c' h, hQ c a c' h⟩

theorem Yields.imp (hP : Yields P r) (h : ∀ a, P a → Q a) : Yields Q r :=
  fun c a c' ha ↦ h a (hP c a c' ha)

theorem yields_blockType (types : List FuncType) :
    Yields (fun b ↦ ∀ t, b = .func t → t.toNat < types.length) (blockType types) := by
  refine .then fun start ↦ .then fun b ↦ ?_
  split
  · exact .then fun _ ↦ .pure nofun
  · split
    · exact .then fun _ ↦ .pure nofun
    · refine .then fun i ↦ ?_
      split
      · exact .throw _
      · split
        · exact .throw _
        · refine .pure ?_
          rintro t ⟨⟩
          rw [UInt32.toNat_ofNat']
          exact (Nat.mod_le _ _).trans_lt (by omega)

theorem yields_prefixed (types : List FuncType) (start : Nat) :
    Yields (Instr.InTypes types) (prefixed start) := by
  refine .then fun sub ↦ ?_
  split
  case h_11 =>
    split
    · exact .pure nofun
    · exact .throw _
  all_goals
    repeat refine .then fun _ ↦ ?_
    exact .pure nofun

theorem yields_regular (types : List FuncType) (start : Nat) (opcode : UInt8) :
    Yields (Instr.InTypes types) (regular start opcode) := by
  unfold regular
  split
  · exact .then fun _ ↦ .pure nofun
  · split
    · exact .then fun _ ↦ .pure nofun
    · split
      · exact .pure nofun
      · exact .throw _

theorem yields_instr (types : List FuncType) : Yields (Instr.InTypes types) (instr types) := by
  have hopens {i : BlockType → Instr} (hi : ∀ b, (i b).signature? = some b) :
      Yields (Instr.InTypes types) (i <$> blockType types) :=
    (yields_blockType types).map fun b hb t ht ↦ hb t (Option.some.inj ((hi b).symm.trans ht))
  refine .then fun start ↦ .then fun opcode ↦ ?_
  split
  case h_3 => exact hopens (i := .block) fun _ ↦ rfl
  case h_4 => exact hopens (i := .loop) fun _ ↦ rfl
  case h_5 => exact hopens (i := .if_) fun _ ↦ rfl
  case h_33 => exact yields_prefixed types start
  case h_34 => exact yields_regular types start opcode
  all_goals
    repeat refine .then fun _ ↦ ?_
    exact .pure nofun

theorem yields_admitted (types : List FuncType) : Yields (Code.Admitted types) (expr types) := by
  have hfrom (n d : Nat) : Yields (fun is ↦ ∀ i ∈ is, i.InTypes types) (exprFrom types n d) := by
    induction n generalizing d with
    | zero => exact .then fun _ ↦ .throw _
    | succ n ih =>
      rw [exprFrom_succ]
      refine (yields_instr types).bind fun i hi ↦ ?_
      have hrest : Yields (fun is ↦ ∀ i ∈ is, i.InTypes types) (exprRest types n d i) := by
        unfold exprRest
        split
        · cases d with
          | zero => exact .pure nofun
          | succ d => exact ih d
        · exact ih _
      exact hrest.bind fun is his ↦ .pure (List.forall_mem_cons.mpr ⟨hi, his⟩)
  have hexpr : Yields (fun code : Code ↦ ∀ i ∈ code, i.InTypes types) (expr types) :=
    .then fun c ↦ (hfrom _ 0).bind fun is his ↦ .pure (by simpa using his)
  exact ((yields_expr types).and hexpr).imp fun code h ↦ ⟨h.1, h.2⟩

theorem yields_limits : Yields Limits.Ordered limits := by
  refine .then fun start ↦ .then fun flag ↦ ?_
  split
  · exact .then fun min ↦ .pure nofun
  · refine .then fun min ↦ .then fun max ↦ ?_
    split
    · exact .throw _
    · rename_i hle
      refine .pure ?_
      rintro _ ⟨⟩
      exact UInt32.not_lt.mp hle
  · exact .throw _

theorem yields_tableType : Yields (fun t ↦ t.limits.Ordered) tableType :=
  .then fun _ ↦ yields_limits.bind fun _ hl ↦ .pure hl

theorem yields_memoryType : Yields (fun t ↦ t.limits.Ordered) memoryType :=
  yields_limits.bind fun _ hl ↦ .pure hl

theorem yields_import : Yields (fun i ↦ ∀ l ∈ i.desc.limits, l.Ordered) import_ := by
  have hdesc : Yields (fun d ↦ ∀ l ∈ d.limits, l.Ordered) importDesc := by
    refine .then fun start ↦ .then fun kind ↦ ?_
    split
    · exact .then fun type ↦ .pure nofun
    · exact yields_tableType.bind fun t ht ↦ .pure (List.forall_mem_singleton.mpr ht)
    · exact yields_memoryType.bind fun t ht ↦ .pure (List.forall_mem_singleton.mpr ht)
    · exact .then fun type ↦ .pure nofun
    · exact .throw _
  exact .then fun source ↦ .then fun name ↦ hdesc.bind fun d hd ↦ .pure hd

theorem yields_elemKind : Yields (· = .funcref) elemKind := by
  refine .then fun start ↦ .then fun b ↦ ?_
  split
  · exact .throw _
  · exact .pure rfl

def ItemsFit (types : List FuncType) (type : RefType) (items : ElemItems) : Prop :=
  (∀ code ∈ ElemSegment.exprs ⟨type, items, .passive⟩, code.Admitted types) ∧
    ∀ is, items = .funcs is → type = .funcref

theorem yields_funcItems (types : List FuncType) {type : RefType} (h : type = .funcref) :
    Yields (ItemsFit types type) funcItems :=
  (Yields.any _).map fun _ _ ↦ ⟨nofun, fun _ _ ↦ h⟩

theorem yields_exprItems (types : List FuncType) (type : RefType) :
    Yields (ItemsFit types type) (exprItems types) :=
  (yields_admitted types).vector.map fun _ hes ↦ ⟨hes, nofun⟩

theorem yields_elemSegment (types : List FuncType) :
    Yields (fun e ↦ (∀ code ∈ e.exprs, code.Admitted types) ∧ e.Kinded) (elemSegment types) := by
  have hactive {type : RefType} {items : ElemItems} {offset : Code} (table : Idx)
      (ho : offset.Admitted types) (hi : ItemsFit types type items) :
      (∀ code ∈ ElemSegment.exprs ⟨type, items, .active table offset⟩, code.Admitted types) ∧
        ElemSegment.Kinded ⟨type, items, .active table offset⟩ :=
    ⟨List.forall_mem_cons.mpr ⟨ho, hi.1⟩, hi.2⟩
  refine .then fun start ↦ .then fun flags ↦ ?_
  split
  · exact (yields_admitted types).bind fun _ ho ↦ (yields_funcItems types rfl).bind fun _ hi ↦
      .pure (hactive 0 ho hi)
  · exact yields_elemKind.bind fun _ ht ↦ (yields_funcItems types ht).bind fun _ hi ↦ .pure hi
  · exact .then fun table ↦ (yields_admitted types).bind fun _ ho ↦ yields_elemKind.bind fun _ ht ↦
      (yields_funcItems types ht).bind fun _ hi ↦ .pure (hactive table ho hi)
  · exact yields_elemKind.bind fun _ ht ↦ (yields_funcItems types ht).bind fun _ hi ↦ .pure hi
  · exact (yields_admitted types).bind fun _ ho ↦ (yields_exprItems types _).bind fun _ hi ↦
      .pure (hactive 0 ho hi)
  · exact .then fun type ↦ (yields_exprItems types type).bind fun _ hi ↦ .pure hi
  · exact .then fun table ↦ (yields_admitted types).bind fun _ ho ↦ .then fun type ↦
      (yields_exprItems types type).bind fun _ hi ↦ .pure (hactive table ho hi)
  · exact .then fun type ↦ (yields_exprItems types type).bind fun _ hi ↦ .pure hi
  · exact .throw _

theorem yields_dataSegment (types : List FuncType) :
    Yields (fun d ↦ ∀ code ∈ d.exprs, code.Admitted types) (dataSegment types) := by
  have hmode : Yields (fun mode ↦ ∀ init, ∀ code ∈ DataSegment.exprs ⟨mode, init⟩,
      code.Admitted types) (dataMode types) := by
    refine .then fun start ↦ .then fun flags ↦ ?_
    split
    · exact (yields_admitted types).bind fun _ ho ↦ .pure fun _ ↦ List.forall_mem_singleton.mpr ho
    · exact .pure fun _ ↦ nofun
    · exact .then fun _ ↦ (yields_admitted types).bind fun _ ho ↦
        .pure fun _ ↦ List.forall_mem_singleton.mpr ho
    · exact .throw _
  exact hmode.bind fun _ hm ↦ .then fun init ↦ .pure (hm init)

theorem count_groups (groups : List (Nat × ValType)) (n : Nat) :
    groups.foldl (fun n g ↦ n + g.1) n =
      n + (groups.flatMap fun g ↦ List.replicate g.1 g.2).length := by
  induction groups generalizing n with
  | nil => rfl
  | cons g gs ih =>
    rw [List.foldl_cons, ih, List.flatMap_cons, List.length_append, List.length_replicate,
      Nat.add_assoc]

theorem yields_locals : Yields (fun ts ↦ ts.length ≤ maxLocals) locals := by
  refine .then fun start ↦ .then fun groups ↦ ?_
  split
  · exact .throw _
  · rename_i hle
    rw [count_groups, Nat.zero_add] at hle
    exact .pure (Nat.not_lt.mp hle)

theorem yields_body (types : List FuncType) :
    Yields (fun b ↦ b.code.Admitted types ∧ b.locals.length ≤ maxLocals) (body types) := by
  have hcontents : Yields (fun b ↦ b.code.Admitted types ∧ b.locals.length ≤ maxLocals)
      (bodyContents types) := by
    refine yields_locals.bind fun ls hls ↦ (yields_admitted types).bind fun code hc ↦
      .then fun c ↦ ?_
    split
    · exact .pure ⟨hc, hls⟩
    · exact .throw _
  exact .then fun _ ↦ .then fun c ↦ (hcontents.inside c).bind fun _ hx ↦ .pure hx

theorem yields_payload (types : List FuncType) (id : SectionId) :
    Yields (fun s ↦ s.id = id ∧ s.Admitted (Code.Admitted types)) (payload types id) := by
  cases id with
  | import_ => exact yields_import.vector.map fun is his ↦
      ⟨rfl, nofun, List.forall_mem_flatMap.mpr his, nofun, nofun⟩
  | table => exact yields_tableType.vector.map fun ts hts ↦
      ⟨rfl, nofun, List.forall_mem_map.mpr hts, nofun, nofun⟩
  | memory => exact yields_memoryType.vector.map fun ts hts ↦
      ⟨rfl, nofun, List.forall_mem_map.mpr hts, nofun, nofun⟩
  | global =>
    have hdef : Yields (fun g ↦ g.init.Admitted types) (globalDef types) :=
      .then fun _ ↦ (yields_admitted types).bind fun _ hinit ↦ .pure hinit
    exact hdef.vector.map fun gs hgs ↦ ⟨rfl, List.forall_mem_map.mpr hgs, nofun, nofun, nofun⟩
  | element => exact (yields_elemSegment types).vector.map fun es hes ↦
      ⟨rfl, List.forall_mem_flatMap.mpr fun e he ↦ (hes e he).1, nofun,
        fun e he ↦ (hes e he).2, nofun⟩
  | code => exact (yields_body types).vector.map fun bs hbs ↦
      ⟨rfl, List.forall_mem_map.mpr fun b hb ↦ (hbs b hb).1, nofun, nofun,
        fun b hb ↦ (hbs b hb).2⟩
  | data => exact (yields_dataSegment types).vector.map fun ds hds ↦
      ⟨rfl, List.forall_mem_flatMap.mpr hds, nofun, nofun, nofun⟩
  | _ => exact (Yields.any _).map fun _ _ ↦ ⟨rfl, nofun, nofun, nofun, nofun⟩

end Reader

namespace Draft

def exprs (d : Draft) : List Code := d.mod.exprs ++ d.bodies.map (·.code)

/-- What holds of a module under construction. Before the first section that is not custom there
is no code, so that the types are complete when code is read. -/
structure Admitted (d : Draft) : Prop where
  exprs : ∀ code ∈ d.exprs, code.Admitted d.mod.types
  early : d.order = 0 → d.exprs = []
  limits : ∀ l ∈ d.mod.limits, l.Ordered
  kinded : ∀ e ∈ d.mod.elements, e.Kinded
  locals : ∀ b ∈ d.bodies, b.locals.length ≤ maxLocals
  imported : d.mod.imported = .ofImports d.mod.imports

variable {d : Draft} {s : Section}

theorem exprs_add {code : Code} (h : code ∈ (d.add s).exprs) : code ∈ d.exprs ∨ code ∈ s.exprs := by
  cases s <;> simp only [add, exprs, Module.exprs, Section.exprs, List.mem_append] at h ⊢ <;> tauto

theorem limits_add {l : Limits} (h : l ∈ (d.add s).mod.limits) :
    l ∈ d.mod.limits ∨ l ∈ s.limits := by
  cases s <;> simp only [add, Module.limits, Section.limits, List.mem_append] at h ⊢ <;> tauto

theorem elements_add {e : ElemSegment} (h : e ∈ (d.add s).mod.elements) :
    e ∈ d.mod.elements ∨ e ∈ s.segments := by
  cases s <;> simp only [add, Section.segments] at h ⊢ <;> tauto

theorem bodies_add {b : Body} (h : b ∈ (d.add s).bodies) : b ∈ d.bodies ∨ b ∈ s.functions := by
  cases s <;> simp only [add, Section.functions] at h ⊢ <;> tauto

theorem types_add (h : s.id ≠ .type) : (d.add s).mod.types = d.mod.types := by
  cases s <;> first | rfl | exact absurd rfl h

theorem Admitted.add (hd : d.Admitted) (hs : s.Admitted (Code.Admitted d.mod.types)) {order : Nat}
    (hcustom : s.id = .custom → order = d.order) (hnext : s.id ≠ .custom → d.order < order)
    (htype : s.id = .type → d.order = 0) : { d.add s with order }.Admitted where
  exprs := by
    intro code hc
    by_cases ht : s.id = .type
    · have hnone : s.exprs = [] := by
        cases s <;> first | rfl | cases ht
      obtain h | h := exprs_add hc
      · rw [hd.early (htype ht)] at h
        cases h
      · rw [hnone] at h
        cases h
    · have htypes : ({ d.add s with order } : Draft).mod.types = d.mod.types := types_add ht
      rw [htypes]
      exact (exprs_add hc).elim (hd.exprs code) (hs.exprs code)
  early := by
    intro h0
    by_cases hc : s.id = .custom
    · have hempty := hd.early ((hcustom hc).symm.trans h0)
      cases s <;> first | exact hempty | cases hc
    · have := hnext hc
      change order = 0 at h0
      omega
  limits l hl := (limits_add hl).elim (hd.limits l) (hs.limits l)
  kinded e he := (elements_add he).elim (hd.kinded e) (hs.kinded e)
  locals b hb := (bodies_add hb).elim (hd.locals b) (hs.locals b)
  imported := by
    cases s <;> first | rfl | exact hd.imported

theorem place_ok {h : SectionHeader} {order : Nat} (hp : d.place h = .ok order) :
    (h.id = .custom → order = d.order) ∧ (h.id ≠ .custom → d.order < order) ∧
      (h.id = .type → d.order = 0) := by
  unfold place at hp
  split at hp
  · rename_i hid
    cases hp
    exact ⟨fun _ ↦ rfl, fun h ↦ absurd hid h, fun h ↦ by rw [hid] at h; cases h⟩
  · rename_i hid
    split at hp
    · cases hp
    · split at hp
      · cases hp
      · cases hp
        refine ⟨fun h ↦ absurd h hid, fun _ ↦ by omega, fun ht ↦ ?_⟩
        have : h.id.order = 1 := by rw [ht]; rfl
        omega

end Draft

namespace Reader

theorem yields_section {d : Draft} (hd : d.Admitted) : Yields Draft.Admitted (section_ d) := by
  refine .then fun h ↦ .then fun c ↦ ?_
  cases hp : d.place h with
  | error e => exact .bind (.throw e) (P := fun _ ↦ False) fun _ h ↦ h.elim
  | ok order =>
    refine .bind (.pure rfl) (P := (· = order)) fun order' ho ↦ ?_
    subst ho
    refine ((yields_payload _ _).inside c).bind fun x hx ↦ ?_
    obtain ⟨s, c'⟩ := x
    obtain ⟨hid, hs⟩ : s.id = h.id ∧ s.Admitted (Code.Admitted d.mod.types) := hx
    obtain ⟨hcustom, hnext, htype⟩ := Draft.place_ok hp
    dsimp only
    split
    · exact .pure (hd.add hs (hid ▸ hcustom) (hid ▸ hnext) (hid ▸ htype))
    · exact .throw _

theorem yields_sections (n : Nat) {d : Draft} (hd : d.Admitted) :
    Yields Draft.Admitted (sections n d) := by
  induction n generalizing d with
  | zero => exact .pure hd
  | succ n ih =>
    refine .then fun c ↦ ?_
    split
    · exact .pure hd
    · exact (yields_section hd).bind fun d' hd' ↦ ih hd'

end Reader

namespace Module

variable {bytes : List UInt8} {m : Module}

theorem decode_ok (h : decode bytes = .ok m) : ∃ d : Draft, d.Admitted ∧ d.finish = .ok m := by
  have hempty : Draft.Admitted {} := ⟨nofun, fun _ ↦ rfl, nofun, nofun, nofun, rfl⟩
  have hmod : Reader.Yields (fun m ↦ ∃ d : Draft, d.Admitted ∧ d.finish = .ok m)
      Reader.module_ := by
    refine .then fun _ ↦ .then fun c ↦ (Reader.yields_sections _ hempty).bind fun d hd ↦ ?_
    cases hf : d.finish with
    | error e => exact .throw e
    | ok m => exact .pure ⟨d, hd, hf⟩
  unfold decode at h
  split at h
  · rename_i m' c hm
    cases h
    exact hmod _ _ _ hm
  · cases h

theorem finish_ok {d : Draft} (h : d.finish = .ok m) :
    d.mod.funcTypes.length = d.bodies.length ∧
    (∀ n, d.mod.dataCount = some n → n.toNat = d.mod.data.length) ∧
    m = { d.mod with functions :=
      d.mod.funcTypes.zipWith (fun type b ↦ ⟨type, b.locals, b.code⟩) d.bodies } := by
  unfold Draft.finish at h
  dsimp only at h
  split at h
  · cases h
  · rename_i hlen
    split at h
    · cases h
    · rename_i hcount
      refine ⟨by simpa using hlen, ?_, (Except.ok.inj h).symm⟩
      intro n hn
      simpa [hn] using hcount

/-- The functions of a finished module are the bodies with their types. -/
theorem mem_functions {d : Draft} (h : d.finish = .ok m) {f : FuncDef} (hf : f ∈ m.functions) :
    ⟨f.locals, f.body⟩ ∈ d.bodies := by
  obtain ⟨-, -, rfl⟩ := finish_ok h
  rw [← List.map_uncurry_zip_eq_zipWith, List.mem_map] at hf
  obtain ⟨⟨type, b⟩, hb, rfl⟩ := hf
  exact (List.of_mem_zip hb).2

theorem exprs_finish {d : Draft} (h : d.finish = .ok m) {code : Code} (hc : code ∈ m.exprs) :
    code ∈ d.exprs := by
  simp only [exprs, List.mem_append, List.mem_map] at hc
  simp only [Draft.exprs, exprs, List.mem_append, List.mem_map]
  obtain ((⟨f, hf, rfl⟩ | hc) | hc) | hc := hc
  · exact .inr ⟨_, mem_functions h hf, rfl⟩
  all_goals obtain ⟨-, -, rfl⟩ := finish_ok h
  · exact .inl (.inl (.inl (.inr hc)))
  · exact .inl (.inl (.inr hc))
  · exact .inl (.inr hc)

/-- Every expression of a decoded module is well bracketed. -/
theorem bracketed_decode (h : decode bytes = .ok m) : m.Bracketed := by
  obtain ⟨d, hd, hm⟩ := decode_ok h
  exact fun code hc ↦ (hd.exprs code (exprs_finish hm hc)).bracketed

/-- The imports of a decoded module have been counted. -/
theorem imported_decode (h : decode bytes = .ok m) : m.imported = .ofImports m.imports := by
  obtain ⟨d, hd, hm⟩ := decode_ok h
  obtain ⟨-, -, rfl⟩ := finish_ok hm
  exact hd.imported

/-- Decoded modules are well formed. -/
theorem wellFormed_decode (bytes : List UInt8) (m : Module) (h : decode bytes = .ok m) :
    m.WellFormed := by
  obtain ⟨d, hd, hm⟩ := decode_ok h
  have hexpr : ∀ code ∈ m.exprs, code.Admitted d.mod.types :=
    fun code hc ↦ hd.exprs code (exprs_finish hm hc)
  have hlocals : ∀ f ∈ m.functions, f.locals.length ≤ maxLocals :=
    fun f hf ↦ hd.locals _ (mem_functions hm hf)
  obtain ⟨hlen, hcount, hfields⟩ := finish_ok hm
  refine ⟨?_, hlocals, fun code hc ↦ (hexpr code hc).bracketed.wellNested, ?_, ?_, ?_, ?_, ?_⟩
  · subst hfields
    rw [← List.map_uncurry_zip_eq_zipWith, List.map_map]
    exact List.map_fst_zip hlen.le
  all_goals subst hfields
  · exact fun code hc ↦ (hexpr code hc).inTypes
  · exact hd.limits
  · exact hd.imported
  · exact hd.kinded
  · exact hcount

def typedBlock : Module where
  types := [⟨[], []⟩, ⟨[.i32], [.i32]⟩]
  imports := [⟨"m", "t", .table ⟨.funcref, ⟨1, some 2⟩⟩⟩]
  funcTypes := [0]
  memories := [⟨⟨1, some 2⟩⟩]
  elements := [⟨.funcref, .funcs [0], .active 0 #[.i32Const 0, .end_]⟩]
  functions := [⟨0, [.i32, .i32], #[.i32Const 5, .block (.func 1), .end_, .drop, .end_]⟩]
  dataCount := some 1
  data := [⟨.active 0 #[.i32Const 0, .end_], [0x61, 0x62]⟩]
  imported := { tables := 1 }

def typedBlockBytes : List UInt8 :=
  [0x00, 0x61, 0x73, 0x6D, 1, 0, 0, 0,
    1, 9, 2, 0x60, 0, 0, 0x60, 1, 0x7F, 1, 0x7F,
    2, 10, 1, 1, 0x6D, 1, 0x74, 1, 0x70, 1, 1, 2,
    3, 2, 1, 0,
    5, 4, 1, 1, 1, 2,
    9, 7, 1, 0, 0x41, 0, 0x0B, 1, 0,
    12, 1, 1,
    10, 12, 1, 10, 1, 2, 0x7F, 0x41, 5, 2, 1, 0x0B, 0x1A, 0x0B,
    11, 8, 1, 0, 0x41, 0, 0x0B, 2, 0x61, 0x62]

theorem wellFormed_typedBlock :
    decode typedBlockBytes = .ok typedBlock ∧ typedBlock.WellFormed := by
  have hdecode : decode typedBlockBytes = .ok typedBlock := by decide +kernel
  exact ⟨hdecode, wellFormed_decode _ _ hdecode⟩

end Module

end Wasm
