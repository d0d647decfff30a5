import Wasm.Proofs.Decode.Bracketing
import Wasm.Proofs.Leb128

namespace Wasm.Reader

variable {α β : Type}

/-- Whatever `r` reads at a cursor, `r'` reads from the same bytes at any other offset. -/
def Shifts (r r' : Reader α) : Prop :=
  ∀ c a d base, r c = .ok a d → r' { c with base } = .ok a { d with base }

namespace Shifts

theorem pure (a : α) : Shifts (pure a) (pure a) := by
  rintro c _ _ base ⟨⟩
  rfl

theorem throw (e e' : DecodeError) : Shifts (throw e : Reader α) (throw e') := nofun

theorem bind {r r' : Reader α} {k k' : α → Reader β} (h : Shifts r r')
    (hk : ∀ a, Shifts (k a) (k' a)) : Shifts (r >>= k) (r' >>= k') := by
  intro c b d base hb
  obtain ⟨a, c₁, ha, hb⟩ := Outcome.bind_ok hb
  rw [Outcome.bind_apply, h c a c₁ base ha]
  exact hk a c₁ b d base hb

theorem map {r r' : Reader α} (h : Shifts r r') (f : α → β) : Shifts (f <$> r) (f <$> r') := by
  rw [map_eq_pure_bind, map_eq_pure_bind]
  exact h.bind fun a ↦ pure (f a)

/-- Readers that look at the cursor may differ in the offset they find there. -/
theorem get {k k' : Cursor → Reader α} (h : ∀ c base, Shifts (k c) (k' { c with base })) :
    Shifts (get >>= k) (get >>= k') :=
  fun c a d base ha ↦ h c base c a d base ha

theorem offset {k k' : Nat → Reader α} (h : ∀ i j, Shifts (k i) (k' j)) :
    Shifts (offset >>= k) (offset >>= k') :=
  fun c a d base ha ↦ h _ _ c a d base ha

theorem ite {p : Prop} [Decidable p] {r r' s s' : Reader α} (h : Shifts r r') (hs : Shifts s s') :
    Shifts (if p then r else s) (if p then r' else s') := by
  split
  · exact h
  · exact hs

theorem ofBytes {r r' : Reader α} (h : Shifts r r') {bs : List UInt8} {i : Nat} {a : α} {d : Cursor}
    (j : Nat) (hr : r (.ofBytes bs i) = .ok a d) :
    r' (.ofBytes bs j) = .ok a { d with base := j } :=
  h _ a d j hr

end Shifts

theorem shifts_peek : Shifts peek peek := by
  refine .get fun c base ↦ ?_
  dsimp only
  split
  · exact .throw _ _
  · exact .pure _

theorem shifts_advance (n : Nat) :
    Shifts (modify (·.advance n) : Reader Unit) (modify (·.advance n)) := by
  rintro c _ _ base ⟨⟩
  rfl

theorem shifts_byte : Shifts byte byte :=
  shifts_peek.bind fun b ↦ (shifts_advance 1).bind fun _ ↦ .pure b

theorem shifts_slice (n : Nat) : Shifts (slice n) (slice n) := by
  refine .get fun c base ↦ ?_
  dsimp only
  exact .ite (.bind (.throw _ _) fun _ ↦ .ite (.bind (.throw _ _) fun _ ↦ .pure _) (.pure _))
    (.ite (.bind (.throw _ _) fun _ ↦ .pure _) (.pure _))

theorem shifts_bytes (n : Nat) : Shifts (bytes n) (bytes n) :=
  (shifts_slice n).bind fun bs ↦ (shifts_advance n).bind fun _ ↦ .pure bs

theorem shifts_groups (e e' : DecodeError) (n : Nat) :
    Shifts (Leb128.groups e n) (Leb128.groups e' n) := by
  induction n with
  | zero => exact .throw _ _
  | succ n ih =>
    exact shifts_byte.bind fun b ↦ .ite (.pure _) (ih.bind fun bs ↦ .pure _)

theorem shifts_leb128 (s : Sign) (bits : Nat) : Shifts (leb128 s bits) (leb128 s bits) := by
  rw [leb128_eq]
  refine .map (.offset fun i j ↦ ?_) _
  exact (shifts_groups _ _ _).bind fun _ ↦ .ite (.pure _) (.throw _ _)

theorem shifts_unsigned (bits : Nat) : Shifts (unsigned bits) (unsigned bits) :=
  (shifts_leb128 .unsigned bits).map _

theorem shifts_signed (bits : Nat) : Shifts (signed bits) (signed bits) :=
  (shifts_leb128 .signed bits).map _

theorem shifts_u32 : Shifts u32 u32 := (shifts_unsigned 32).map _

theorem shifts_word (w : Nat) : Shifts (word w) (word w) := (shifts_signed w).map _

theorem shifts_littleEndian (n : Nat) : Shifts (littleEndian n) (littleEndian n) :=
  (shifts_bytes n).map _

theorem shifts_times {item : Reader α} (h : Shifts item item) (n : Nat) :
    Shifts (times item n) (times item n) := by
  induction n with
  | zero => exact .pure []
  | succ n ih => exact h.bind fun x ↦ ih.bind fun xs ↦ .pure (x :: xs)

theorem shifts_vector {item : Reader α} (h : Shifts item item) :
    Shifts (vector item) (vector item) :=
  shifts_u32.bind fun _ ↦ shifts_times h _

theorem shifts_byteVector : Shifts byteVector byteVector :=
  shifts_u32.bind fun _ ↦ shifts_bytes _

theorem shifts_name : Shifts name name := by
  refine .offset fun _ _ ↦ shifts_byteVector.bind fun bs ↦ ?_
  split
  · exact .pure _
  · exact .throw _ _

theorem shifts_valType : Shifts valType valType := by
  refine .offset fun _ _ ↦ shifts_byte.bind fun b ↦ ?_
  split
  · exact .pure _
  · exact .throw _ _

theorem shifts_refType : Shifts refType refType := by
  refine .offset fun _ _ ↦ shifts_byte.bind fun b ↦ ?_
  cases ValType.ofByte? b with
  | none => exact .throw _ _
  | some t => cases t <;> first | exact .pure _ | exact .throw _ _

theorem shifts_blockType (types : List FuncType) : Shifts (blockType types) (blockType types) := by
  have hskip : Shifts (skip 1) (skip 1) := (shifts_bytes 1).bind fun _ ↦ .pure ()
  refine .offset fun _ _ ↦ shifts_peek.bind fun b ↦ .ite (hskip.bind fun _ ↦ .pure _) ?_
  cases ValType.ofByte? b with
  | some t => exact hskip.bind fun _ ↦ .pure _
  | none =>
    exact (shifts_signed 33).bind fun i ↦ .ite (.throw _ _) (.ite (.throw _ _) (.pure _))

theorem shifts_memArg : Shifts memArg memArg :=
  shifts_u32.bind fun _ ↦ shifts_u32.bind fun _ ↦ .pure _

theorem shifts_zeroByte : Shifts zeroByte zeroByte :=
  .offset fun _ _ ↦ shifts_byte.bind fun _ ↦ .ite (.throw _ _) (.pure ())

theorem shifts_prefixed (i j : Nat) : Shifts (prefixed i) (prefixed j) := by
  refine shifts_u32.bind fun sub ↦ ?_
  split
  case h_11 =>
    split
    · exact .pure _
    · exact .throw _ _
  case h_1 => exact shifts_u32.bind fun _ ↦ shifts_zeroByte.bind fun _ ↦ .pure _
  case h_3 => exact shifts_zeroByte.bind fun _ ↦ shifts_zeroByte.bind fun _ ↦ .pure _
  case h_4 => exact shifts_zeroByte.bind fun _ ↦ .pure _
  case h_5 | h_7 => exact shifts_u32.bind fun _ ↦ shifts_u32.bind fun _ ↦ .pure _
  all_goals exact shifts_u32.bind fun _ ↦ .pure _

theorem shifts_regular (i j : Nat) (opcode : UInt8) :
    Shifts (regular i opcode) (regular j opcode) := by
  unfold regular
  split
  · exact shifts_memArg.bind fun _ ↦ .pure _
  · split
    · exact shifts_memArg.bind fun _ ↦ .pure _
    · split
      · exact .pure _
      · exact .throw _ _

theorem shifts_instr (types : List FuncType) : Shifts (instr types) (instr types) := by
  refine .offset fun i j ↦ shifts_byte.bind fun opcode ↦ ?_
  split
  case h_33 => exact shifts_prefixed i j
  case h_34 => exact shifts_regular i j opcode
  case h_3 | h_4 | h_5 => exact (shifts_blockType types).bind fun _ ↦ .pure _
  case h_10 => exact (shifts_vector shifts_u32).bind fun _ ↦ shifts_u32.bind fun _ ↦ .pure _
  case h_13 => exact shifts_u32.bind fun _ ↦ shifts_u32.bind fun _ ↦ .pure _
  case h_16 => exact (shifts_vector shifts_valType).bind fun _ ↦ .pure _
  case h_24 | h_25 => exact shifts_zeroByte.bind fun _ ↦ .pure _
  case h_26 | h_27 => exact (shifts_word _).bind fun _ ↦ .pure _
  case h_28 | h_29 => exact (shifts_littleEndian _).bind fun _ ↦ .pure _
  case h_30 => exact shifts_refType.bind fun _ ↦ .pure _
  all_goals first | exact .pure _ | exact shifts_u32.bind fun _ ↦ .pure _

theorem shifts_exprFrom (types : List FuncType) (n depth : Nat) :
    Shifts (exprFrom types n depth) (exprFrom types n depth) := by
  induction n generalizing depth with
  | zero => exact .offset fun _ _ ↦ .throw _ _
  | succ n ih =>
    rw [exprFrom_succ]
    refine (shifts_instr types).bind fun i ↦ .bind ?_ fun is ↦ .pure (i :: is)
    refine .ite ?_ (ih _)
    cases depth with
    | zero => exact .pure []
    | succ d => exact ih d

theorem shifts_expr (types : List FuncType) : Shifts (expr types) (expr types) :=
  .get fun _ _ ↦ (shifts_exprFrom types _ 0).bind fun is ↦ .pure is.toArray

theorem shifts_limits : Shifts limits limits := by
  refine .offset fun _ _ ↦ shifts_byte.bind fun flag ↦ ?_
  split
  · exact shifts_u32.bind fun _ ↦ .pure _
  · exact shifts_u32.bind fun _ ↦ shifts_u32.bind fun _ ↦ .ite (.throw _ _) (.pure _)
  · exact .throw _ _

theorem shifts_funcType : Shifts funcType funcType := by
  have htypes := shifts_vector shifts_valType
  exact .offset fun _ _ ↦ shifts_byte.bind fun _ ↦
    .ite (.throw _ _) (htypes.bind fun _ ↦ htypes.bind fun _ ↦ .pure _)

theorem shifts_tableType : Shifts tableType tableType :=
  shifts_refType.bind fun _ ↦ shifts_limits.bind fun _ ↦ .pure _

theorem shifts_memoryType : Shifts memoryType memoryType :=
  shifts_limits.bind fun _ ↦ .pure _

theorem shifts_globalType : Shifts globalType globalType := by
  refine shifts_valType.bind fun _ ↦ .offset fun _ _ ↦ shifts_byte.bind fun flag ↦ ?_
  split
  · exact .pure _
  · exact .pure _
  · exact .throw _ _

theorem shifts_import : Shifts import_ import_ := by
  have hdesc : Shifts importDesc importDesc := by
    refine .offset fun _ _ ↦ shifts_byte.bind fun kind ↦ ?_
    split
    · exact shifts_u32.bind fun _ ↦ .pure _
    · exact shifts_tableType.bind fun _ ↦ .pure _
    · exact shifts_memoryType.bind fun _ ↦ .pure _
    · exact shifts_globalType.bind fun _ ↦ .pure _
    · exact .throw _ _
  exact shifts_name.bind fun _ ↦ shifts_name.bind fun _ ↦ hdesc.bind fun _ ↦ .pure _

theorem shifts_export : Shifts export_ export_ := by
  have hkind : Shifts exportKind exportKind := by
    refine .offset fun _ _ ↦ shifts_byte.bind fun kind ↦ ?_
    split
    case h_5 => exact .throw _ _
    all_goals exact .pure _
  exact shifts_name.bind fun _ ↦ hkind.bind fun _ ↦ shifts_u32.bind fun _ ↦ .pure _

theorem shifts_globalDef (types : List FuncType) : Shifts (globalDef types) (globalDef types) :=
  shifts_globalType.bind fun _ ↦ (shifts_expr types).bind fun _ ↦ .pure _

theorem shifts_elemSegment (types : List FuncType) :
    Shifts (elemSegment types) (elemSegment types) := by
  have hkind : Shifts elemKind elemKind :=
    .offset fun _ _ ↦ shifts_byte.bind fun _ ↦ .ite (.throw _ _) (.pure _)
  have hfuncs : Shifts funcItems funcItems := (shifts_vector shifts_u32).map _
  have hexprs : Shifts (exprItems types) (exprItems types) :=
    (shifts_vector (shifts_expr types)).map _
  refine .offset fun _ _ ↦ shifts_u32.bind fun flags ↦ ?_
  split
  · exact (shifts_expr types).bind fun _ ↦ hfuncs.bind fun _ ↦ .pure _
  · exact hkind.bind fun _ ↦ hfuncs.bind fun _ ↦ .pure _
  · exact shifts_u32.bind fun _ ↦ (shifts_expr types).bind fun _ ↦ hkind.bind fun _ ↦
      hfuncs.bind fun _ ↦ .pure _
  · exact hkind.bind fun _ ↦ hfuncs.bind fun _ ↦ .pure _
  · exact (shifts_expr types).bind fun _ ↦ hexprs.bind fun _ ↦ .pure _
  · exact shifts_refType.bind fun _ ↦ hexprs.bind fun _ ↦ .pure _
  · exact shifts_u32.bind fun _ ↦ (shifts_expr types).bind fun _ ↦ shifts_refType.bind fun _ ↦
      hexprs.bind fun _ ↦ .pure _
  · exact shifts_refType.bind fun _ ↦ hexprs.bind fun _ ↦ .pure _
  · exact .throw _ _

theorem shifts_dataSegment (types : List FuncType) :
    Shifts (dataSegment types) (dataSegment types) := by
  have hmode : Shifts (dataMode types) (dataMode types) := by
    refine .offset fun _ _ ↦ shifts_u32.bind fun flags ↦ ?_
    split
    · exact (shifts_expr types).bind fun _ ↦ .pure _
    · exact .pure _
    · exact shifts_u32.bind fun _ ↦ (shifts_expr types).bind fun _ ↦ .pure _
    · exact .throw _ _
  exact hmode.bind fun _ ↦ shifts_byteVector.bind fun _ ↦ .pure _

theorem shifts_bodyContents (types : List FuncType) :
    Shifts (bodyContents types) (bodyContents types) := by
  have hgroup : Shifts localGroup localGroup :=
    shifts_u32.bind fun _ ↦ shifts_valType.bind fun _ ↦ .pure _
  have hlocals : Shifts locals locals :=
    .offset fun _ _ ↦ (shifts_vector hgroup).bind fun _ ↦ .ite (.throw _ _) (.pure _)
  exact hlocals.bind fun _ ↦ (shifts_expr types).bind fun _ ↦
    .get fun _ _ ↦ .ite (.pure _) (.throw _ _)

theorem inside_ok_iff {r : Reader α} {c outer c' outer' : Cursor} {a : α} :
    inside c r outer = .ok (a, c') outer' ↔ r c = .ok a c' ∧ outer' = outer := by
  unfold inside
  cases r c with
  | error e c₁ => simp
  | ok b c₁ => simp [eq_comm]

theorem shifts_body (types : List FuncType) : Shifts (body types) (body types) := by
  refine shifts_u32.bind fun size ↦ ?_
  unfold sub
  rw [bind_assoc]
  refine .offset fun i j ↦ ?_
  rw [bind_assoc, bind_assoc]
  refine (shifts_bytes _).bind fun bs ↦ ?_
  rw [pure_bind, pure_bind]
  -- The two windows hold the same bytes, and the cursor around them is left as it is.
  intro c b d base hb
  obtain ⟨⟨b, c₁⟩, _, hin, ⟨⟩⟩ := Outcome.bind_ok hb
  obtain ⟨hread, rfl⟩ := inside_ok_iff.mp hin
  rw [Outcome.bind_apply, inside_ok_iff.mpr ⟨(shifts_bodyContents types).ofBytes j hread, rfl⟩]
  rfl

theorem shifts_custom : Shifts custom custom :=
  shifts_name.bind fun _ ↦ .get fun _ _ ↦ (shifts_bytes _).bind fun _ ↦ .pure _

/-- What the payload of a section holds does not depend on where the section stands. -/
theorem shifts_payload (types : List FuncType) (id : SectionId) :
    Shifts (payload types id) (payload types id) := by
  cases id with
  | custom => exact shifts_custom.map _
  | type => exact (shifts_vector shifts_funcType).map _
  | import_ => exact (shifts_vector shifts_import).map _
  | function => exact (shifts_vector shifts_u32).map _
  | table => exact (shifts_vector shifts_tableType).map _
  | memory => exact (shifts_vector shifts_memoryType).map _
  | global => exact (shifts_vector (shifts_globalDef types)).map _
  | export_ => exact (shifts_vector shifts_export).map _
  | start => exact shifts_u32.map _
  | element => exact (shifts_vector (shifts_elemSegment types)).map _
  | code => exact (shifts_vector (shifts_body types)).map _
  | data => exact (shifts_vector (shifts_dataSegment types)).map _
  | dataCount => exact shifts_u32.map _

end Wasm.Reader
