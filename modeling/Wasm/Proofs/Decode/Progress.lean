import Wasm.Proofs.Decode.Expressions

namespace Wasm.Reader

open Leb128

variable {α β : Type} {r : Reader α} {k : α → Reader β} {G : α → Language UInt8} {m n : Nat}

/-- When `r` succeeds it has taken `n` bytes or more. -/
def Spends (n : Nat) (r : Reader α) : Prop :=
  ∀ c a c', r c = .ok a c' → n + c'.remaining ≤ c.remaining

namespace Spends

theorem pure (a : α) : Spends 0 (pure a) := by
  rintro c _ _ ⟨⟩
  exact (Nat.zero_add _).le

theorem throw (e : DecodeError) (n : Nat) : Spends n (throw e : Reader α) := nofun

theorem mono (h : Spends n r) (hm : m ≤ n) : Spends m r := by
  intro c a c' ha
  have hn := h c a c' ha
  omega

theorem one (h : Spends (n + 1) r) : Spends 1 r := h.mono (Nat.le_add_left 1 n)

/-- What the first reader takes need not be taken by the second. -/
theorem bind (h : Spends m r) (hk : ∀ a, Spends (n - m) (k a)) : Spends n (r >>= k) := by
  intro c b c' hb
  obtain ⟨a, c₁, ha, hb⟩ := Outcome.bind_ok hb
  have hfirst := h c a c₁ ha
  have hsecond := hk a c₁ b c' hb
  omega

theorem get {k : Cursor → Reader α} (h : ∀ c, Spends n (k c)) : Spends n (get >>= k) :=
  fun c a c' ha ↦ h c c a c' ha

theorem anywhere {k : Nat → Reader α} (h : ∀ start, Spends n (k start)) :
    Spends n (offset >>= k) :=
  fun c a c' ha ↦ h c.offset c a c' ha

theorem ite {p : Prop} [Decidable p] {s : Reader α} (h : Spends n r) (hs : Spends n s) :
    Spends n (if p then r else s) := by
  split
  · exact h
  · exact hs

theorem map (h : Spends n r) (f : α → β) : Spends n (f <$> r) := by
  rw [map_eq_pure_bind]
  exact h.bind fun a ↦ (pure (f a)).mono (Nat.sub_self n).le

/-- What a reader reads in a window is taken from the bytes around it. -/
theorem inside {g : α × Cursor → Reader β} (h : Spends n r) (size : Nat)
    (hg : ∀ x, Spends 0 (g x)) :
    Spends n (sub size >>= fun c ↦ Reader.inside c r >>= g) := by
  rintro ⟨u, consumed, base⟩ b c' hb
  obtain ⟨window, c₁, hsub, hb⟩ := Outcome.bind_ok hb
  obtain ⟨bs, rest, rfl, -, -, rfl, rfl⟩ := sub_ok hsub
  obtain ⟨⟨a, c₂⟩, c₃, hin, hb⟩ := Outcome.bind_ok hb
  obtain ⟨hr, rfl⟩ := inside_ok_iff.mp hin
  have hspent := h _ _ _ hr
  have hrest := hg _ _ _ _ hb
  simp only [Cursor.remaining, Cursor.ofBytes, List.length_append] at hspent hrest ⊢
  omega

end Spends

theorem Finds.spends (h : Finds 1 r G) (hn : ∀ a, ∀ q ∈ G a, n ≤ q.length) : Spends n r := by
  rintro ⟨u, consumed, base⟩ a c' ha
  obtain ⟨q, rest, rfl, rfl, hq⟩ := h _ _ _ _ _ ha
  have hlen := hn a q (hq [] Language.nil_mem_one)
  simp only [Cursor.remaining, List.length_append]
  omega

theorem spends_byte : Spends 1 byte := by
  refine accepts_byte.finds.spends ?_
  rintro x _ rfl
  exact le_rfl

theorem spends_bytes (n : Nat) : Spends n (bytes n) := by
  rintro ⟨u, consumed, base⟩ bs c' hbs
  obtain ⟨rest, rfl, rfl, -, rfl⟩ := bytes_ok hbs
  simp [Cursor.remaining]

theorem spends_sub (n : Nat) : Spends 0 (sub n) :=
  .anywhere fun _ ↦ ((spends_bytes n).mono (Nat.zero_le n)).bind fun _ ↦ .pure _

theorem spends_u32 : Spends 1 u32 :=
  accepts_u32.finds.spends fun _ _ hq ↦ List.length_pos_iff.mpr (mem_forms.mp hq).terminated.ne_nil

section Vectors

variable {item : Reader α} {xs : List α} {c c' : Cursor}

theorem times_spent (h : Spends n item) {count : Nat} (hxs : times item count c = .ok xs c') :
    n * xs.length + c'.remaining ≤ c.remaining := by
  induction count generalizing xs c with
  | zero =>
    cases hxs
    exact (Nat.zero_add _).le
  | succ count ih =>
    obtain ⟨x, c₁, hx, hxs⟩ := Outcome.bind_ok hxs
    obtain ⟨xs, _, hxs, ⟨⟩⟩ := Outcome.bind_ok hxs
    have hitem := h _ _ _ hx
    have hitems := ih hxs
    rw [List.length_cons, Nat.mul_succ]
    omega

/-- Behind its length, a vector takes what its items take. -/
theorem vector_spent (h : Spends n item) (hxs : vector item c = .ok xs c') :
    1 + n * xs.length + c'.remaining ≤ c.remaining := by
  obtain ⟨count, c₁, hcount, hxs⟩ := Outcome.bind_ok hxs
  have hlength := spends_u32 _ _ _ hcount
  have hitems := times_spent h hxs
  omega

theorem length_lt_of_parse? (h : Spends n item) {bs : List UInt8}
    (hxs : (vector item).parse? bs = some xs) : n * xs.length < bs.length := by
  unfold parse? at hxs
  split at hxs
  · rename_i a c' hread
    split at hxs
    · cases hxs
      have hspent := vector_spent h hread
      change _ ≤ bs.length at hspent
      omega
    · cases hxs
  · cases hxs

theorem spends_vector (h : Spends n item) : Spends 1 (vector item) := by
  intro c xs c' hxs
  have hspent := vector_spent h hxs
  omega

end Vectors

theorem spends_byteVector : Spends 1 byteVector :=
  spends_u32.bind fun _ ↦ (spends_bytes _).mono (Nat.zero_le _)

theorem spends_name : Spends 1 name := by
  refine .anywhere fun _ ↦ spends_byteVector.bind fun bs ↦ ?_
  split
  · exact .pure _
  · exact .throw _ _

theorem spends_valType : Spends 1 valType := by
  refine accepts_valType.finds.spends ?_
  rintro t _ rfl
  exact le_rfl

theorem spends_refType : Spends 1 refType := by
  refine accepts_refType.finds.spends ?_
  rintro t _ rfl
  exact le_rfl

/-- An expression has an instruction at least, which has a byte. -/
theorem spends_expr (types : List FuncType) : Spends 1 (expr types) := by
  refine (accepts_expr types).finds.spends ?_
  rintro code q ⟨hq, body, hbody, -⟩
  have hlen := length_le_of_mem_prod hq
  rw [hbody, List.length_append, List.length_singleton] at hlen
  omega

theorem spends_limits : Spends 2 limits := by
  refine .anywhere fun _ ↦ spends_byte.bind fun flag ↦ ?_
  split
  · exact spends_u32.bind fun _ ↦ .pure _
  · exact spends_u32.bind fun _ ↦ spends_u32.bind fun _ ↦ .ite (.throw _ _) (.pure _)
  · exact .throw _ _

theorem spends_tableType : Spends 3 tableType :=
  spends_refType.bind fun _ ↦ spends_limits.bind fun _ ↦ .pure _

theorem spends_memoryType : Spends 2 memoryType :=
  spends_limits.bind fun _ ↦ .pure _

theorem spends_globalType : Spends 2 globalType := by
  refine spends_valType.bind fun _ ↦ .anywhere fun _ ↦ spends_byte.bind fun flag ↦ ?_
  split
  · exact .pure _
  · exact .pure _
  · exact .throw _ _

theorem spends_import : Spends 4 import_ := by
  have hdesc : Spends 2 importDesc := by
    refine .anywhere fun _ ↦ spends_byte.bind fun kind ↦ ?_
    split
    · exact spends_u32.bind fun _ ↦ .pure _
    · exact spends_tableType.bind fun _ ↦ .pure _
    · exact spends_memoryType.bind fun _ ↦ .pure _
    · exact spends_globalType.bind fun _ ↦ .pure _
    · exact .throw _ _
  exact spends_name.bind fun _ ↦ spends_name.bind fun _ ↦ hdesc.bind fun _ ↦ .pure _

theorem spends_globalDef (types : List FuncType) : Spends 3 (globalDef types) :=
  spends_globalType.bind fun _ ↦ (spends_expr types).bind fun _ ↦ .pure _

theorem spends_localGroup : Spends 2 localGroup :=
  spends_u32.bind fun _ ↦ spends_valType.bind fun _ ↦ .pure _

theorem spends_locals : Spends 1 locals :=
  .anywhere fun _ ↦ (spends_vector spends_localGroup).bind fun _ ↦ .ite (.throw _ _) (.pure _)

/-- The size of a body, the number of its groups of locals and its last instruction. -/
theorem spends_body (types : List FuncType) : Spends 3 (body types) := by
  have hcontents : Spends 2 (bodyContents types) :=
    spends_locals.bind fun _ ↦ (spends_expr types).bind fun _ ↦
      .get fun _ ↦ .ite (.pure _) (.throw _ _)
  exact spends_u32.bind fun size ↦ hcontents.inside size.toNat fun _ ↦ .pure _

theorem spends_funcType : Spends 3 funcType :=
  .anywhere fun _ ↦ spends_byte.bind fun _ ↦ .ite (.throw _ _)
    ((spends_vector spends_valType).bind fun _ ↦ (spends_vector spends_valType).bind fun _ ↦
      .pure _)

theorem spends_export : Spends 3 export_ := by
  have hkind : Spends 1 exportKind := by
    refine .anywhere fun _ ↦ spends_byte.bind fun kind ↦ ?_
    split
    case h_5 => exact .throw _ _
    all_goals exact .pure _
  exact spends_name.bind fun _ ↦ hkind.bind fun _ ↦ spends_u32.bind fun _ ↦ .pure _

theorem spends_instr (types : List FuncType) : Spends 1 (instr types) :=
  (accepts_instr types).finds.spends fun _ _ hq ↦ List.length_pos_iff.mpr (ne_nil_of_mem_forms hq)

theorem spends_elemKind : Spends 1 elemKind :=
  .anywhere fun _ ↦ spends_byte.bind fun _ ↦ .ite (.throw _ _) (.pure _)

/-- The flags, the kind of the items or the offset, and the number of the items. -/
theorem spends_elemSegment (types : List FuncType) : Spends 3 (elemSegment types) := by
  have hkind := spends_elemKind
  have hfuncs : Spends 1 funcItems := (spends_vector spends_u32).map _
  have hexprs : Spends 1 (exprItems types) := (spends_vector (spends_expr types)).map _
  refine .anywhere fun _ ↦ spends_u32.bind fun flags ↦ ?_
  split
  · exact (spends_expr types).bind fun _ ↦ hfuncs.bind fun _ ↦ .pure _
  · exact hkind.bind fun _ ↦ hfuncs.bind fun _ ↦ .pure _
  · exact spends_u32.bind fun _ ↦ (spends_expr types).bind fun _ ↦ (hkind.mono (Nat.zero_le 1)).bind
      fun _ ↦ hfuncs.bind fun _ ↦ .pure _
  · exact hkind.bind fun _ ↦ hfuncs.bind fun _ ↦ .pure _
  · exact (spends_expr types).bind fun _ ↦ hexprs.bind fun _ ↦ .pure _
  · exact spends_refType.bind fun _ ↦ hexprs.bind fun _ ↦ .pure _
  · exact spends_u32.bind fun _ ↦ (spends_expr types).bind fun _ ↦ spends_refType.bind fun _ ↦
      hexprs.bind fun _ ↦ .pure _
  · exact spends_refType.bind fun _ ↦ hexprs.bind fun _ ↦ .pure _
  · exact .throw _ _

theorem spends_dataSegment (types : List FuncType) : Spends 2 (dataSegment types) := by
  have hmode : Spends 1 (dataMode types) := by
    refine .anywhere fun _ ↦ spends_u32.bind fun flags ↦ ?_
    split
    · exact ((spends_expr types).mono (Nat.zero_le 1)).bind fun _ ↦ .pure _
    · exact .pure _
    · exact (spends_u32.mono (Nat.zero_le 1)).bind fun _ ↦
        ((spends_expr types).mono (Nat.zero_le 1)).bind fun _ ↦ .pure _
    · exact .throw _ _
  exact hmode.bind fun _ ↦ spends_byteVector.bind fun _ ↦ .pure _

theorem spends_custom : Spends 1 custom :=
  spends_name.bind fun _ ↦ .get fun _ ↦ ((spends_bytes _).mono (Nat.zero_le _)).bind fun _ ↦ .pure _

theorem spends_header : Spends 8 header := by
  have hfour : Spends 4 (littleEndian 4) := (spends_bytes 4).map _
  have hversion : Spends 4 (littleEndian 4 >>= fun found ↦
      if found ≠ version then throw (.unsupportedVersion found) else pure ()) :=
    hfour.bind fun _ ↦ .ite (.throw _ _) (.pure _)
  exact hfour.bind fun _ ↦ .ite (.throw _ _) hversion

theorem spends_sectionHeader : Spends 2 sectionHeader := by
  refine .anywhere fun _ ↦ spends_byte.bind fun b ↦ ?_
  split
  · exact .throw _ _
  · exact spends_u32.bind fun _ ↦ .anywhere fun _ ↦ .pure _

/-- A section takes its id and its size, whatever its payload is. -/
theorem spends_section (d : Draft) : Spends 2 (section_ d) := by
  rintro ⟨u, k, b⟩ d' c' h
  obtain ⟨s, rest, hs, rfl, -, -, rfl⟩ := section_ok h
  have hsize := List.length_pos_iff.mpr hs.terminated.ne_nil
  have hlen := s.length_bytes
  simp only [Cursor.remaining, List.length_append]
  omega

end Wasm.Reader
