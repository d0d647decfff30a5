import Wasm.Proofs.Decode.Windows

namespace Wasm

namespace Reader

variable {α β : Type} {limit : Nat}

/-- What is read in a window that is split off reaches no further than the window around it. -/
theorem Stays.inside {r : Reader α} {g : α × Cursor → Reader β} (h : ∀ stop ≤ limit, Stays stop r)
    (size : Nat) (hg : ∀ a c, c.consumed + c.remaining = size → Stays limit (g (a, c))) :
    Stays limit (sub size >>= fun c ↦ Reader.inside c r >>= g) := by
  refine (stays_sub size).bindOk fun c window c' hc hsub ↦ ?_
  obtain ⟨hsize, rfl, -⟩ := sub_at hsub
  have hlen : (c.unread.take size).length = size := List.length_take_of_le hsize
  -- The window has a limit of its own, which is not beyond that of the bytes around it.
  let window : Cursor := .ofBytes (c.unread.take size) c.offset
  have hstop : window.stop ≤ limit := by
    rw [← hc]
    exact Nat.add_le_add_left (hlen.trans_le hsize) c.offset
  obtain ⟨hreach, herror⟩ := h window.stop hstop window rfl
  have hin : Stays limit (Reader.inside window r) := by
    intro outer _
    unfold Reader.inside
    cases hr : r window with
    | ok a c₁ => exact ⟨.refl outer, nofun⟩
    | error e c₁ =>
      refine ⟨.refl outer, ?_⟩
      rintro _ _ ⟨⟩
      exact (herror e c₁ hr).mono hstop
  refine hin.bindOk ?_
  rintro outer ⟨a, c₁⟩ _ _ ha
  obtain ⟨hr, -⟩ := inside_ok_iff.mp ha
  rw [hr] at hreach
  exact hg a c₁ (hreach.size_eq.trans ((Nat.zero_add _).trans hlen))

theorem stays_times {item : Reader α} (h : Stays limit item) (n : Nat) :
    Stays limit (times item n) := by
  induction n with
  | zero => exact .pure []
  | succ n ih => exact h.bind fun x ↦ ih.bind fun xs ↦ .pure (x :: xs)

theorem stays_vector {item : Reader α} (h : Stays limit item) : Stays limit (vector item) :=
  stays_u32.bind fun _ ↦ stays_times h _

theorem stays_name : Stays limit name := by
  refine .anywhere fun start hstart ↦ stays_byteVector.bind fun bs ↦ ?_
  split
  · exact .pure _
  · exact .throw hstart

theorem stays_valType : Stays limit valType := by
  refine .anywhere fun start hstart ↦ stays_byte.bind fun b ↦ ?_
  split
  · exact .pure _
  · exact .fail hstart

theorem stays_refType : Stays limit refType := by
  refine .anywhere fun start hstart ↦ stays_byte.bind fun b ↦ ?_
  cases ValType.ofByte? b with
  | none => exact .fail hstart
  | some t => cases t <;> first | exact .pure _ | exact .fail hstart

theorem stays_blockType (types : List FuncType) : Stays limit (blockType types) := by
  refine .anywhere fun start hstart ↦ stays_peek.bind fun b ↦
    .ite ((stays_skip 1).bind fun _ ↦ .pure _) ?_
  cases ValType.ofByte? b with
  | some t => exact (stays_skip 1).bind fun _ ↦ .pure _
  | none =>
    exact (stays_signed 33).bind fun i ↦ .ite (.fail hstart) (.ite (.fail hstart) (.pure _))

theorem stays_word (w : Nat) : Stays limit (word w) := (stays_signed w).map _

theorem stays_memArg : Stays limit memArg :=
  stays_u32.bind fun _ ↦ stays_u32.bind fun _ ↦ .pure _

theorem stays_zeroByte : Stays limit zeroByte :=
  .anywhere fun _ hstart ↦ stays_byte.bind fun _ ↦ .ite (.fail hstart) (.pure ())

theorem stays_prefixed {start : Nat} (hstart : start ≤ limit) : Stays limit (prefixed start) := by
  refine stays_u32.bind fun sub ↦ ?_
  split
  case h_11 =>
    split
    · exact .pure _
    · exact .throw hstart
  case h_1 => exact stays_u32.bind fun _ ↦ stays_zeroByte.bind fun _ ↦ .pure _
  case h_3 => exact stays_zeroByte.bind fun _ ↦ stays_zeroByte.bind fun _ ↦ .pure _
  case h_4 => exact stays_zeroByte.bind fun _ ↦ .pure _
  case h_5 | h_7 => exact stays_u32.bind fun _ ↦ stays_u32.bind fun _ ↦ .pure _
  all_goals exact stays_u32.bind fun _ ↦ .pure _

theorem stays_regular {start : Nat} (hstart : start ≤ limit) (opcode : UInt8) :
    Stays limit (regular start opcode) := by
  unfold regular
  split
  · exact stays_memArg.bind fun _ ↦ .pure _
  · split
    · exact stays_memArg.bind fun _ ↦ .pure _
    · split
      · exact .pure _
      · exact .throw hstart

theorem stays_instr (types : List FuncType) : Stays limit (instr types) := by
  refine .anywhere fun start hstart ↦ stays_byte.bind fun opcode ↦ ?_
  split
  case h_33 => exact stays_prefixed hstart
  case h_34 => exact stays_regular hstart opcode
  case h_3 | h_4 | h_5 => exact (stays_blockType types).bind fun _ ↦ .pure _
  case h_10 => exact (stays_vector stays_u32).bind fun _ ↦ stays_u32.bind fun _ ↦ .pure _
  case h_13 => exact stays_u32.bind fun _ ↦ stays_u32.bind fun _ ↦ .pure _
  case h_16 => exact (stays_vector stays_valType).bind fun _ ↦ .pure _
  case h_24 | h_25 => exact stays_zeroByte.bind fun _ ↦ .pure _
  case h_26 | h_27 => exact (stays_word _).bind fun _ ↦ .pure _
  case h_28 | h_29 => exact (stays_littleEndian _).bind fun _ ↦ .pure _
  case h_30 => exact stays_refType.bind fun _ ↦ .pure _
  all_goals first | exact .pure _ | exact stays_u32.bind fun _ ↦ .pure _

theorem stays_exprFrom (types : List FuncType) (n depth : Nat) :
    Stays limit (exprFrom types n depth) := by
  induction n generalizing depth with
  | zero => exact .anywhere fun _ hstart ↦ .throw hstart
  | succ n ih =>
    rw [exprFrom_succ]
    refine (stays_instr types).bind fun i ↦ .bind ?_ fun is ↦ .pure (i :: is)
    refine .ite ?_ (ih _)
    cases depth with
    | zero => exact .pure []
    | succ d => exact ih d

theorem stays_expr (types : List FuncType) : Stays limit (expr types) :=
  .get fun _ _ ↦ (stays_exprFrom types _ 0).bind fun is ↦ .pure is.toArray

theorem stays_limits : Stays limit limits := by
  refine .anywhere fun start hstart ↦ stays_byte.bind fun flag ↦ ?_
  split
  · exact stays_u32.bind fun _ ↦ .pure _
  · exact stays_u32.bind fun _ ↦ stays_u32.bind fun _ ↦ .ite (.fail hstart) (.pure _)
  · exact .fail hstart

theorem stays_funcType : Stays limit funcType := by
  have htypes : Stays limit (vector valType) := stays_vector stays_valType
  exact .anywhere fun _ hstart ↦ stays_byte.bind fun _ ↦
    .ite (.fail hstart) (htypes.bind fun _ ↦ htypes.bind fun _ ↦ .pure _)

theorem stays_tableType : Stays limit tableType :=
  stays_refType.bind fun _ ↦ stays_limits.bind fun _ ↦ .pure _

theorem stays_memoryType : Stays limit memoryType :=
  stays_limits.bind fun _ ↦ .pure _

theorem stays_globalType : Stays limit globalType := by
  refine stays_valType.bind fun _ ↦ .anywhere fun _ hstart ↦ stays_byte.bind fun flag ↦ ?_
  split
  · exact .pure _
  · exact .pure _
  · exact .fail hstart

theorem stays_import : Stays limit import_ := by
  have hdesc : Stays limit importDesc := by
    refine .anywhere fun _ hstart ↦ stays_byte.bind fun kind ↦ ?_
    split
    · exact stays_u32.bind fun _ ↦ .pure _
    · exact stays_tableType.bind fun _ ↦ .pure _
    · exact stays_memoryType.bind fun _ ↦ .pure _
    · exact stays_globalType.bind fun _ ↦ .pure _
    · exact .fail hstart
  exact stays_name.bind fun _ ↦ stays_name.bind fun _ ↦ hdesc.bind fun _ ↦ .pure _

theorem stays_export : Stays limit export_ := by
  have hkind : Stays limit exportKind := by
    refine .anywhere fun _ hstart ↦ stays_byte.bind fun kind ↦ ?_
    split
    case h_5 => exact .fail hstart
    all_goals exact .pure _
  exact stays_name.bind fun _ ↦ hkind.bind fun _ ↦ stays_u32.bind fun _ ↦ .pure _

theorem stays_globalDef (types : List FuncType) : Stays limit (globalDef types) :=
  stays_globalType.bind fun _ ↦ (stays_expr types).bind fun _ ↦ .pure _

theorem stays_elemSegment (types : List FuncType) : Stays limit (elemSegment types) := by
  have hkind : Stays limit elemKind :=
    .anywhere fun _ hstart ↦ stays_byte.bind fun _ ↦ .ite (.fail hstart) (.pure _)
  have hfuncs : Stays limit funcItems := (stays_vector stays_u32).map _
  have hexprs : Stays limit (exprItems types) := (stays_vector (stays_expr types)).map _
  refine .anywhere fun _ hstart ↦ stays_u32.bind fun flags ↦ ?_
  split
  · exact (stays_expr types).bind fun _ ↦ hfuncs.bind fun _ ↦ .pure _
  · exact hkind.bind fun _ ↦ hfuncs.bind fun _ ↦ .pure _
  · exact stays_u32.bind fun _ ↦ (stays_expr types).bind fun _ ↦ hkind.bind fun _ ↦
      hfuncs.bind fun _ ↦ .pure _
  · exact hkind.bind fun _ ↦ hfuncs.bind fun _ ↦ .pure _
  · exact (stays_expr types).bind fun _ ↦ hexprs.bind fun _ ↦ .pure _
  · exact stays_refType.bind fun _ ↦ hexprs.bind fun _ ↦ .pure _
  · exact stays_u32.bind fun _ ↦ (stays_expr types).bind fun _ ↦ stays_refType.bind fun _ ↦
      hexprs.bind fun _ ↦ .pure _
  · exact stays_refType.bind fun _ ↦ hexprs.bind fun _ ↦ .pure _
  · exact .fail hstart

theorem stays_dataSegment (types : List FuncType) : Stays limit (dataSegment types) := by
  have hmode : Stays limit (dataMode types) := by
    refine .anywhere fun _ hstart ↦ stays_u32.bind fun flags ↦ ?_
    split
    · exact (stays_expr types).bind fun _ ↦ .pure _
    · exact .pure _
    · exact stays_u32.bind fun _ ↦ (stays_expr types).bind fun _ ↦ .pure _
    · exact .fail hstart
  exact hmode.bind fun _ ↦ stays_byteVector.bind fun _ ↦ .pure _

theorem stays_body (types : List FuncType) : Stays limit (body types) := by
  have hgroup (stop : Nat) : Stays stop localGroup :=
    stays_u32.bind fun _ ↦ stays_valType.bind fun _ ↦ .pure _
  have hlocals (stop : Nat) : Stays stop locals :=
    .anywhere fun _ hstart ↦ (stays_vector (hgroup stop)).bind fun _ ↦ .ite (.fail hstart) (.pure _)
  have hcontents (stop : Nat) : Stays stop (bodyContents types) :=
    (hlocals stop).bind fun _ ↦ (stays_expr types).bind fun _ ↦
      .get fun c hc ↦ .ite (.pure _) (.fail (hc ▸ c.offset_le_stop))
  exact stays_u32.bind fun size ↦
    .inside (fun stop _ ↦ hcontents stop) size.toNat fun _ _ _ ↦ .pure _

theorem stays_custom : Stays limit custom :=
  stays_name.bind fun _ ↦ .get fun _ _ ↦ (stays_bytes _).bind fun _ ↦ .pure _

theorem stays_payload (types : List FuncType) (id : SectionId) :
    Stays limit (payload types id) := by
  cases id with
  | custom => exact stays_custom.map _
  | type => exact (stays_vector stays_funcType).map _
  | import_ => exact (stays_vector stays_import).map _
  | function => exact (stays_vector stays_u32).map _
  | table => exact (stays_vector stays_tableType).map _
  | memory => exact (stays_vector stays_memoryType).map _
  | global => exact (stays_vector (stays_globalDef types)).map _
  | export_ => exact (stays_vector stays_export).map _
  | start => exact stays_u32.map _
  | element => exact (stays_vector (stays_elemSegment types)).map _
  | code => exact (stays_vector (stays_body types)).map _
  | data => exact (stays_vector (stays_dataSegment types)).map _
  | dataCount => exact stays_u32.map _

theorem stays_sectionHeader : Stays limit sectionHeader := by
  refine .anywhere fun _ hstart ↦ stays_byte.bind fun b ↦ ?_
  split
  · exact .throw hstart
  · exact stays_u32.bind fun _ ↦ .anywhere fun _ _ ↦ .pure _

/-- A header tells where the payload begins. -/
theorem offset_of_sectionHeader {c c' : Cursor} {h : SectionHeader}
    (hh : sectionHeader c = .ok h c') : h.offset = c'.offset := by
  obtain ⟨start, _, ⟨⟩, hh⟩ := Outcome.bind_ok hh
  obtain ⟨b, c₁, -, hh⟩ := Outcome.bind_ok hh
  cases hid : SectionId.ofByte? b with
  | none =>
    rw [hid] at hh
    cases hh
  | some id =>
    rw [hid] at hh
    obtain ⟨size, c₂, -, hh⟩ := Outcome.bind_ok hh
    cases hh
    rfl

theorem within_of_place {d : Draft} {h : SectionHeader} {e : DecodeError} (hh : h.offset ≤ limit)
    (he : d.place h = .error e) : e.Within limit := by
  unfold Draft.place at he
  split at he
  · cases he
  · split at he
    · cases he
      exact hh
    · split at he
      · cases he
        exact hh
      · cases he

theorem within_of_finish {d : Draft} {e : DecodeError} (he : d.finish = .error e) :
    e.Within limit := by
  unfold Draft.finish at he
  dsimp only at he
  split at he
  · cases he
    trivial
  · split at he
    · cases he
      trivial
    · cases he

theorem stays_section (d : Draft) : Stays limit (section_ d) := by
  refine stays_sectionHeader.bindOk fun c h c' hc hh ↦ ?_
  have hoffset : h.offset ≤ limit := by
    rw [offset_of_sectionHeader hh, ← hc, ← (stays_sectionHeader.reaches hc hh).stop_eq]
    exact c'.offset_le_stop
  have hplace (e : DecodeError) (he : d.place h = .error e) := within_of_place hoffset he
  cases hp : d.place h with
  | error e => exact (stays_sub _).bind fun _ ↦ .throw (hplace e hp)
  | ok order =>
    refine .inside (fun stop _ ↦ stays_payload d.mod.types h.id) h.size.toNat fun s c hsize ↦ ?_
    dsimp only
    split
    · exact .pure _
    · rename_i hend
      refine .throw ?_
      -- What is left is what `consumed` is short of the size.
      change c.consumed < h.size.toNat
      have hleft : 0 < c.remaining :=
        List.length_pos_iff.mpr fun hnil ↦ hend (List.isEmpty_iff.mpr hnil)
      omega

theorem stays_sections (n : Nat) (d : Draft) : Stays limit (sections n d) := by
  induction n generalizing d with
  | zero => exact .pure d
  | succ n ih => exact .get fun _ _ ↦ .ite (.pure d) ((stays_section d).bind ih)

theorem stays_header : Stays limit header :=
  (stays_littleEndian 4).bind fun _ ↦ .ite (.throw trivial)
    ((stays_littleEndian 4).bind fun _ ↦ .ite (.throw trivial) (.pure ()))

theorem stays_module : Stays limit module_ :=
  stays_header.bind fun _ ↦ .get fun _ _ ↦ (stays_sections _ {}).bind fun _ ↦
    .ofExcept fun _ ↦ within_of_finish

end Reader

/-- Cursors show the input as it is. For any input whose offsets are machine words, and whatever has
been done with its cursors, an operation gives the bytes that the input has at the offset of the
cursor, within the range that the cursor was split off with, and fails if they are not there. So the
errors of the decoder tell of places in its input, and the error of a section whose payload was not
read to its end tells of fewer bytes than were declared. -/
theorem Cursor.windows_faithful :
    (∀ (input : List UInt8) (base : Nat) (ws : List Window), base + input.length < UInt64.size →
      Opened input base ws → Laid input base ws ∧ ∀ w ∈ ws,
        w.start ≤ w.cursor.offset ∧ w.cursor.offset ≤ w.stop ∧ w.stop < UInt64.size ∧
        ∀ {α : Type} (o : Cursor.Op α), o.Serves input base w) ∧
    ∀ bytes e, Module.decode bytes = .error e → e.Within bytes.length := by
  constructor
  · intro input base ws hbase hws
    refine ⟨hws.laid, fun w hw ↦ ?_⟩
    have hfaithful := hws.laid.faithful w hw
    have hhigh := hfaithful.high
    refine ⟨?_, ?_, by omega, hfaithful.serves hbase⟩
    · exact hfaithful.offset_eq ▸ Nat.le_add_right ..
    · exact hfaithful.stop_eq ▸ w.cursor.offset_le_stop
  · intro bytes e he
    unfold Module.decode at he
    have hstop : (Cursor.ofBytes bytes).stop = bytes.length := by
      rw [Cursor.stop]
      exact Nat.zero_add _
    have hstays := (Reader.stays_module _ hstop).2
    cases hm : Reader.module_ (.ofBytes bytes) with
    | ok m c =>
      rw [hm] at he
      cases he
    | error e' c =>
      rw [hm] at he
      cases he
      exact hstays e c hm

/-- Two bytes are skipped of six at the far end of the offsets, three are split off, and one of
these is read. A slice of the greatest length is refused where the cursor stands. A start section
has a byte more than its index takes. -/
theorem Cursor.windows_faithful_farEnd :
    let input : List UInt8 := [0, 1, 2, 3, 4, 5]
    let base := UInt64.size - 7
    let outer : Window := ⟨base, 6, ⟨[5], 5, base⟩⟩
    let inner : Window := ⟨base + 2, 3, ⟨[3, 4], 1, base + 2⟩⟩
    let refusal : DecodeError := .positionOverflow (base + 3)
    let bytes := Module.preamble ++ [8, 2, 0, 0]
    Opened input base [inner, outer] ∧ Laid input base [inner, outer] ∧
    (Op.slice (UInt64.size - 1)).run inner.cursor = .error refusal inner.cursor ∧
    refusal.Within inner.stop ∧
    Module.decode bytes = .error (.sectionSize 8 2 1) ∧
    DecodeError.Within bytes.length (.sectionSize 8 2 1) := by
  intro input base outer inner refusal bytes
  have hwhole : Opened input base [.whole input base] := .whole
  have hskip : Opened input base [⟨base, 6, ⟨[2, 3, 4, 5], 2, base⟩⟩] := hwhole.use (.skip 2)
  have hsub : Reader.sub 3 ⟨[2, 3, 4, 5], 2, base⟩ =
      .ok ⟨[2, 3, 4], 0, base + 2⟩ ⟨[5], 5, base⟩ := rfl
  have hopened : Opened input base [inner, outer] := (hskip.enter hsub).use .byte
  have hbase : base + input.length < UInt64.size := by decide
  have hfar : UInt64.size ≤ 1 + (UInt64.size - 1) := by decide
  have hrefusal : (Op.slice (UInt64.size - 1)).run inner.cursor = .error refusal inner.cursor :=
    (Reader.slice_apply _ _).trans (if_pos hfar)
  have hdecode : Module.decode bytes = .error (.sectionSize 8 2 1) := by decide +kernel
  obtain ⟨hlaid, hwindows⟩ := windows_faithful.1 input base _ hbase hopened
  obtain ⟨-, -, -, hserves⟩ := hwindows inner List.mem_cons_self
  exact ⟨hopened, hlaid, hrefusal, (hserves _).error _ _ hrefusal, hdecode,
    windows_faithful.2 bytes _ hdecode⟩

end Wasm
