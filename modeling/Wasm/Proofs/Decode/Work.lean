import Wasm.Proofs.Decode.Metered
import Wasm.Proofs.Decode.Totals

namespace Wasm

open Reader

variable {α β : Type} {limit k k' n : Nat}

/-- From `m` to `m'` bytes have been taken, and the work has cost at most `k` for each of them. -/
structure Meter.Pays (k : Nat) (m m' : Meter) : Prop where
  taken : m'.cursor.remaining ≤ m.cursor.remaining
  paid : m'.work + k * m'.cursor.remaining ≤ m.work + k * m.cursor.remaining

namespace Meter.Pays

variable {m m' m'' : Meter}

theorem refl (m : Meter) : m.Pays k m := ⟨le_rfl, le_rfl⟩

theorem trans (h : m.Pays k m') (h' : m'.Pays k m'') : m.Pays k m'' :=
  ⟨h'.taken.trans h.taken, h'.paid.trans h.paid⟩

theorem mono (h : m.Pays k m') (hk : k ≤ k') : m.Pays k' m' := by
  obtain ⟨j, rfl⟩ := Nat.exists_eq_add_of_le hk
  have hpaid := h.paid
  have hmore := Nat.mul_le_mul_left j h.taken
  refine ⟨h.taken, ?_⟩
  rw [Nat.add_mul, Nat.add_mul]
  omega

/-- Work that comes before is paid for if each unit of it has a byte of its own. -/
theorem before (h : { m with work := m.work + n }.Pays k m')
    (hn : n + m'.cursor.remaining ≤ m.cursor.remaining) : m.Pays (k + 1) m' := by
  have hpaid := h.paid
  refine ⟨h.taken, ?_⟩
  dsimp only at hpaid ⊢
  rw [Nat.succ_mul, Nat.succ_mul]
  omega

/-- And so is work that comes after. -/
theorem after (h : m.Pays k m') (hn : n + m'.cursor.remaining ≤ m.cursor.remaining) :
    m.Pays (k + 1) { m' with work := m'.work + n } := by
  have hpaid := h.paid
  refine ⟨h.taken, ?_⟩
  dsimp only at hpaid ⊢
  rw [Nat.succ_mul, Nat.succ_mul]
  omega

end Meter.Pays

def Metered.plain : EStateM.Result DecodeError Meter α → EStateM.Result DecodeError Cursor α
  | .ok a m => .ok a m.cursor
  | .error e m => .error e m.cursor

/-- A metered run from `m` ends as the plain run does. If it succeeds, it has cost at most `k` for
each byte that it took; if it fails, at most `k` for each byte that was there and one more. -/
inductive Tallies (k : Nat) (m : Meter) :
    EStateM.Result DecodeError Meter α → EStateM.Result DecodeError Cursor α → Prop
  | ok {a : α} {m' : Meter} : m.Pays k m' → Tallies k m (.ok a m') (.ok a m'.cursor)
  | error {e : DecodeError} {m' : Meter} : m'.work ≤ m.work + k * (m.cursor.remaining + 1) →
    Tallies k m (.error e m') (.error e m'.cursor)

namespace Tallies

variable {m m' : Meter} {p : EStateM.Result DecodeError Meter α}
  {q : EStateM.Result DecodeError Cursor α}

theorem mono (h : Tallies k m p q) (hk : k ≤ k') : Tallies k' m p q := by
  cases h with
  | ok hpays => exact .ok (hpays.mono hk)
  | error hwork => exact .error (hwork.trans (Nat.add_le_add_left (Nat.mul_le_mul_right _ hk) _))

theorem trans (h : m.Pays k m') (h' : Tallies k m' p q) : Tallies k m p q := by
  cases h' with
  | ok hpays => exact .ok (h.trans hpays)
  | error hwork =>
    have hpaid := h.paid
    refine .error ?_
    rw [Nat.mul_succ] at hwork ⊢
    omega

theorem plain_eq (h : Tallies k m p q) : Metered.plain p = q := by
  cases h <;> rfl

theorem work_le (h : Tallies k m p q) :
    (Outcome.final p).work ≤ m.work + k * (m.cursor.remaining + 1) := by
  cases h with
  | ok hpays =>
    have hpaid := hpays.paid
    rw [Outcome.final, Nat.mul_succ]
    omega
  | error hwork => exact hwork

end Tallies

/-- Where fewer than `limit` bytes are left, `x` does what `r` does, at a cost of at most `k` for
each byte. -/
def Costs (limit k : Nat) (x : Metered α) (r : Reader α) : Prop :=
  ∀ m, m.cursor.remaining < limit → Tallies k m (x m) (r m.cursor)

namespace Costs

variable {x : Metered α} {r : Reader α} {f : α → Metered β} {g : α → Reader β}

theorem mono (h : Costs limit k x r) (hk : k ≤ k') : Costs limit k' x r :=
  fun m hm ↦ (h m hm).mono hk

theorem pure (a : α) : Costs limit k (pure a) (pure a) := fun m _ ↦ .ok (.refl m)

theorem throw (e : DecodeError) : Costs limit k (throw e : Metered α) (throw e) :=
  fun _ _ ↦ .error (Nat.le_add_right ..)

theorem charge {cost : Nat → Nat} (h : Spends n r)
    (hcost : ∀ taken, n ≤ taken → cost taken ≤ k * taken)
    (hfail : ∀ taken, cost taken ≤ k * (taken + 1)) : Costs limit k (Metered.charge cost r) r := by
  intro m _
  unfold Metered.charge
  cases hr : r m.cursor with
  | error e c =>
    let after : Meter := ⟨c, m.work + cost (m.cursor.remaining - c.remaining)⟩
    have htaken : k * (m.cursor.remaining - c.remaining + 1) ≤ k * (m.cursor.remaining + 1) :=
      Nat.mul_le_mul_left k (Nat.succ_le_succ (Nat.sub_le ..))
    have hwork : after.work ≤ m.work + k * (m.cursor.remaining + 1) :=
      Nat.add_le_add_left ((hfail _).trans htaken) _
    exact .error hwork
  | ok a c =>
    have hspent := h _ _ _ hr
    have hrem : c.remaining ≤ m.cursor.remaining := by omega
    have hpaid := hcost (m.cursor.remaining - c.remaining) (by omega)
    rw [Nat.mul_sub] at hpaid
    have hmul := Nat.mul_le_mul_left k hrem
    have hpays : m.Pays k ⟨c, m.work + cost (m.cursor.remaining - c.remaining)⟩ :=
      ⟨hrem, by dsimp only; omega⟩
    exact .ok hpays

theorem free (h : Spends 0 r) : Costs limit k (Metered.free r) r :=
  .charge h (fun _ _ ↦ Nat.zero_le _) fun _ ↦ Nat.zero_le _

theorem read (h : Spends 1 r) : Costs limit (k + 2) (Metered.read r) r := by
  have htwo : Costs limit 2 (Metered.read r) r :=
    .charge h (fun _ _ ↦ by omega) fun _ ↦ by omega
  exact htwo.mono (Nat.le_add_left 2 k)

theorem fail (fault : Fault) (offset : Nat) :
    Costs limit k (Metered.free (Reader.fail fault offset) : Metered α)
      (Reader.fail fault offset) :=
  .free (Spends.throw _ 0)

theorem bind (h : Costs limit k x r) (hf : ∀ a, Costs limit k (f a) (g a)) :
    Costs limit k (x >>= f) (r >>= g) := by
  intro m hm
  rw [Outcome.bind_apply, Outcome.bind_apply]
  have hfirst := h m hm
  generalize x m = p, r m.cursor = q at hfirst
  cases hfirst with
  | error hwork => exact .error hwork
  | @ok a m₁ hpays => exact .trans hpays (hf a m₁ (hpays.taken.trans_lt hm))

theorem map (h : Costs limit k x r) (f : α → β) : Costs limit k (f <$> x) (f <$> r) := by
  rw [map_eq_pure_bind, map_eq_pure_bind]
  exact h.bind fun a ↦ .pure (f a)

theorem ite {p : Prop} [Decidable p] {y : Metered α} {s : Reader α} (h : Costs limit k x r)
    (hs : Costs limit k y s) : Costs limit k (if p then x else y) (if p then r else s) := by
  split
  · exact h
  · exact hs

theorem offset {f : Nat → Metered β} {g : Nat → Reader β} (hf : ∀ i, Costs limit k (f i) (g i)) :
    Costs limit k (Metered.free Reader.offset >>= f) (Reader.offset >>= g) :=
  fun m hm ↦ hf m.cursor.offset m hm

theorem get {f : Meter → Metered β} {g : Cursor → Reader β}
    (hf : ∀ m, Costs limit k (f m) (g m.cursor)) : Costs limit k (get >>= f) (get >>= g) :=
  fun m hm ↦ hf m m hm

/-- A round costs one, and takes a byte that pays for it. -/
theorem round (h : Costs limit k x r) (hr : Spends 1 r)
    (hf : ∀ a, Costs limit (k + 1) (f a) (g a)) :
    Costs limit (k + 1) (Metered.spend 1 >>= fun _ ↦ x >>= f) (r >>= g) := by
  intro m hm
  let m₁ : Meter := { m with work := m.work + 1 }
  change Tallies (k + 1) m ((x >>= f) m₁) ((r >>= g) m₁.cursor)
  rw [Outcome.bind_apply, Outcome.bind_apply]
  have hfirst := h m₁ hm
  have hspent := hr m₁.cursor
  generalize x m₁ = p, r m₁.cursor = q at hfirst hspent
  cases hfirst with
  | error hwork =>
    refine .error ?_
    rw [Nat.succ_mul]
    simp only [m₁] at hwork
    omega
  | @ok a m₂ hpays =>
    exact .trans (hpays.before (hspent a m₂.cursor rfl)) (hf a m₂ (hpays.taken.trans_lt hm))

/-- What has been read is gone over once more, where each part of it has taken a byte. -/
theorem again {size : α → Nat} (h : Costs limit k x r)
    (hr : ∀ c a c', r c = .ok a c' → size a + c'.remaining ≤ c.remaining)
    (hf : ∀ a, Costs limit (k + 1) (f a) (g a)) :
    Costs limit (k + 1) (x >>= fun a ↦ Metered.spend (size a) >>= fun _ ↦ f a) (r >>= g) := by
  intro m hm
  rw [Outcome.bind_apply, Outcome.bind_apply]
  have hfirst := h m hm
  have hspent := hr m.cursor
  generalize x m = p, r m.cursor = q at hfirst hspent
  cases hfirst with
  | error hwork => exact Tallies.mono (.error hwork) (Nat.le_succ k)
  | @ok a m₁ hpays =>
    exact .trans (hpays.after (hspent a m₁.cursor rfl)) (hf a _ (hpays.taken.trans_lt hm))

/-- The bytes around a window pay for the work in it. -/
theorem inside {f : α × Cursor → Metered β} {g : α × Cursor → Reader β} (h : Costs limit k x r)
    (size : Nat) (hf : ∀ y, Costs limit k (f y) (g y)) :
    Costs limit k (Metered.free (sub size) >>= fun c ↦ Metered.inside c x >>= f)
      (sub size >>= fun c ↦ Reader.inside c r >>= g) := by
  rintro ⟨⟨u, consumed, base⟩, work⟩ hm
  rw [Outcome.bind_apply, Outcome.bind_apply]
  unfold Metered.free Metered.charge
  dsimp only
  cases hsub : sub size ⟨u, consumed, base⟩ with
  | error e c =>
    have hwork : (Meter.mk c work).work ≤ work + k * (u.length + 1) := Nat.le_add_right ..
    exact .error hwork
  | ok window c =>
    obtain ⟨bs, rest, rfl, rfl, -, rfl, rfl⟩ := sub_ok hsub
    let outer : Cursor := ⟨rest, consumed + bs.length, base⟩
    let window : Cursor := .ofBytes bs (base + consumed)
    have hlen : (bs ++ rest).length = bs.length + rest.length := List.length_append
    have hsize : bs.length ≤ (bs ++ rest).length := hlen ▸ Nat.le_add_right ..
    have hrest : rest.length ≤ (bs ++ rest).length := hlen ▸ Nat.le_add_left ..
    have hin := h ⟨window, work⟩ (hsize.trans_lt hm)
    change Tallies k _ ((Metered.inside window x >>= f) ⟨outer, work⟩)
      ((Reader.inside window r >>= g) outer)
    rw [Outcome.bind_apply, Outcome.bind_apply]
    unfold Metered.inside Reader.inside
    dsimp only at hin ⊢
    generalize x ⟨window, work⟩ = p, r window = q at hin
    cases hin with
    | @error e m' hwork =>
      have hwork : (Meter.mk outer m'.work).work ≤ work + k * ((bs ++ rest).length + 1) :=
        hwork.trans (Nat.add_le_add_left (Nat.mul_le_mul_left k (Nat.succ_le_succ hsize)) work)
      exact .error hwork
    | @ok a m' hpays =>
      have hpays : Meter.Pays k ⟨⟨bs ++ rest, consumed, base⟩, work⟩ ⟨outer, m'.work⟩ := by
        have hpaid : m'.work + k * m'.cursor.remaining ≤ work + k * bs.length := hpays.paid
        refine ⟨hrest, ?_⟩
        change m'.work + k * rest.length ≤ work + k * (bs ++ rest).length
        rw [hlen, Nat.mul_add]
        omega
      exact .trans hpays (hf _ _ (hpays.taken.trans_lt hm))

end Costs

section Loops

variable {item : Metered α} {r : Reader α} {next : Metered Instr} {types : List FuncType}

theorem costs_times (h : Costs limit k item r) (hr : Spends 1 r) (n : Nat) :
    Costs limit (k + 1) (Metered.times item n) (Reader.times r n) := by
  induction n with
  | zero => exact .pure []
  | succ n ih => exact h.round hr fun x ↦ ih.bind fun xs ↦ .pure (x :: xs)

theorem costs_vector (h : Costs limit (k + 1) item r) (hr : Spends 1 r) :
    Costs limit (k + 2) (Metered.vector item) (Reader.vector r) :=
  (Costs.read spends_u32).bind fun _ ↦ costs_times h hr _

/-- A vector of items without vectors or code. -/
theorem costs_vector_read (hr : Spends 1 r) :
    Costs limit (k + 3) (Metered.vector (.read r)) (Reader.vector r) :=
  costs_vector (.read hr) hr

theorem costs_exprFrom (h : Costs limit k next (Reader.instr types)) (steps depth : Nat) :
    Costs limit (k + 1) (Metered.exprFrom next steps depth)
      (Reader.exprFrom types steps depth) := by
  induction steps generalizing depth with
  | zero => exact .offset fun _ ↦ .throw _
  | succ n ih =>
    rw [exprFrom_succ]
    refine h.round (spends_instr types) fun i ↦ ?_
    unfold exprRest
    split
    · cases depth with
      | zero => exact .pure [i]
      | succ d => exact (ih d).bind fun is ↦ .pure (i :: is)
    · exact (ih _).bind fun is ↦ .pure (i :: is)

/-- Every instruction takes a byte, so that more steps than there are bytes change nothing. -/
theorem Reader.exprFrom_steps {m n : Nat} (types : List FuncType) (depth : Nat) {c : Cursor}
    (hm : c.remaining < m) (hn : c.remaining < n) :
    Reader.exprFrom types m depth c = Reader.exprFrom types n depth c := by
  induction m generalizing n depth c with
  | zero => exact absurd hm (Nat.not_lt_zero _)
  | succ m ih =>
    obtain ⟨n, rfl⟩ := Nat.exists_eq_succ_of_ne_zero (Nat.ne_zero_of_lt hn)
    rw [exprFrom_succ, exprFrom_succ, Outcome.bind_apply, Outcome.bind_apply]
    cases hi : Reader.instr types c with
    | error e c' => rfl
    | ok i c' =>
      have hspent := spends_instr types c i c' hi
      have hrest : exprRest types m depth i c' = exprRest types n depth i c' := by
        unfold exprRest
        split
        · cases depth with
          | zero => rfl
          | succ d => exact ih d (by omega) (by omega)
        · exact ih _ (by omega) (by omega)
      dsimp only
      rw [Outcome.bind_apply, Outcome.bind_apply, hrest]

theorem costs_expr (h : Costs limit k next (Reader.instr types)) :
    Costs limit (k + 1) (Metered.expr limit next) (Reader.expr types) := by
  intro m hm
  have heq : Reader.expr types m.cursor =
      (Reader.exprFrom types limit 0 >>= fun is ↦ pure is.toArray) m.cursor := by
    rw [Reader.expr, Outcome.bind_apply, Outcome.get_apply]
    dsimp only
    rw [Outcome.bind_apply, Outcome.bind_apply,
      Reader.exprFrom_steps types 0 (Nat.lt_succ_self _) hm]
  rw [heq]
  exact (costs_exprFrom h limit 0).bind (fun is ↦ .pure is.toArray) m hm

theorem costs_sections {next : Draft → Metered Draft}
    (h : ∀ d, Costs limit k (next d) (Reader.section_ d)) (steps : Nat) (d : Draft) :
    Costs limit (k + 1) (Metered.sections next steps d) (Reader.sections steps d) := by
  induction steps generalizing d with
  | zero => exact .pure d
  | succ n ih =>
    intro m hm
    rw [Metered.sections, Reader.sections, Outcome.bind_apply, Outcome.bind_apply]
    dsimp only [Outcome.get_apply]
    split
    · exact .ok (.refl m)
    · exact (h d).round ((spends_section d).mono (Nat.le_succ 1)) ih m hm

/-- Every section takes two, so that the same holds of sections. -/
theorem Reader.sections_steps {m n : Nat} (d : Draft) {c : Cursor} (hm : c.remaining < m)
    (hn : c.remaining < n) : Reader.sections m d c = Reader.sections n d c := by
  induction m generalizing n d c with
  | zero => exact absurd hm (Nat.not_lt_zero _)
  | succ m ih =>
    obtain ⟨n, rfl⟩ := Nat.exists_eq_succ_of_ne_zero (Nat.ne_zero_of_lt hn)
    rw [Reader.sections, Reader.sections, Outcome.bind_apply, Outcome.bind_apply]
    dsimp only [Outcome.get_apply]
    split
    · rfl
    · rw [Outcome.bind_apply, Outcome.bind_apply]
      cases hd : Reader.section_ d c with
      | error e c' => rfl
      | ok d' c' =>
        have hspent := spends_section d c d' c' hd
        exact ih d' (by omega) (by omega)

end Loops

section Readers

variable (types : List FuncType)

theorem instr_brTable {c : Cursor} (h : c.unread.head? = some 0x0E) : Reader.instr types c =
    (Reader.byte >>= fun _ ↦ Reader.vector Reader.u32 >>= fun targets ↦
      Reader.u32 >>= fun fallback ↦ pure (.brTable targets fallback)) c := by
  obtain ⟨u, consumed, base⟩ := c
  obtain ⟨rest, rfl⟩ := List.head?_eq_some_iff.mp h
  rfl

theorem instr_selectTyped {c : Cursor} (h : c.unread.head? = some 0x1C) : Reader.instr types c =
    (Reader.byte >>= fun _ ↦ Reader.vector Reader.valType >>= fun ts ↦
      pure (.selectTyped ts)) c := by
  obtain ⟨u, consumed, base⟩ := c
  obtain ⟨rest, rfl⟩ := List.head?_eq_some_iff.mp h
  rfl

theorem costs_instr : Costs limit (k + 3) (Metered.instr types) (Reader.instr types) := by
  intro m hm
  unfold Metered.instr
  rw [Outcome.bind_apply]
  dsimp only [Outcome.get_apply]
  split
  · rename_i hop
    rw [instr_brTable types hop]
    exact (Costs.read spends_byte).bind (fun _ ↦ (costs_vector_read spends_u32).bind fun _ ↦
      (Costs.read spends_u32).bind fun _ ↦ .pure _) m hm
  · split
    · rename_i hop
      rw [instr_selectTyped types hop]
      exact (Costs.read spends_byte).bind (fun _ ↦ (costs_vector_read spends_valType).bind fun _ ↦
        .pure _) m hm
    · exact Costs.read (spends_instr types) m hm

theorem costs_code :
    Costs limit (k + 4) (Metered.expr limit (Metered.instr types)) (Reader.expr types) :=
  costs_expr (costs_instr types)

theorem costs_funcType : Costs limit (k + 3) Metered.funcType Reader.funcType :=
  .offset fun start ↦ (Costs.read spends_byte).bind fun _ ↦ .ite (.fail _ start) <|
    (costs_vector_read spends_valType).bind fun _ ↦ (costs_vector_read spends_valType).bind fun _ ↦
      .pure _

theorem costs_globalDef :
    Costs limit (k + 4) (Metered.globalDef limit types) (Reader.globalDef types) :=
  (Costs.read spends_globalType.one).bind fun _ ↦ (costs_code types).bind fun _ ↦ .pure _

theorem costs_elemSegment :
    Costs limit (k + 5) (Metered.elemSegment limit types) (Reader.elemSegment types) := by
  have hu32 : Costs limit (k + 5) (Metered.read Reader.u32) Reader.u32 := .read spends_u32
  have hkind : Costs limit (k + 5) (Metered.read Reader.elemKind) Reader.elemKind :=
    .read spends_elemKind
  have htype : Costs limit (k + 5) (Metered.read Reader.refType) Reader.refType :=
    .read spends_refType
  have hoffset :
      Costs limit (k + 5) (Metered.expr limit (Metered.instr types)) (Reader.expr types) :=
    costs_code types
  have hfuncs : Costs limit (k + 5) Metered.funcItems Reader.funcItems :=
    (costs_vector_read spends_u32).map _
  have hexprs : Costs limit (k + 5) (Metered.exprItems limit types) (Reader.exprItems types) :=
    (costs_vector (costs_code types) (spends_expr types)).map _
  refine .offset fun start ↦ hu32.bind fun flags ↦ ?_
  match flags.toNat with
  | 0 => exact hoffset.bind fun _ ↦ hfuncs.bind fun _ ↦ .pure _
  | 1 | 3 => exact hkind.bind fun _ ↦ hfuncs.bind fun _ ↦ .pure _
  | 2 =>
    exact hu32.bind fun _ ↦ hoffset.bind fun _ ↦ hkind.bind fun _ ↦ hfuncs.bind fun _ ↦ .pure _
  | 4 => exact hoffset.bind fun _ ↦ hexprs.bind fun _ ↦ .pure _
  | 5 | 7 => exact htype.bind fun _ ↦ hexprs.bind fun _ ↦ .pure _
  | 6 =>
    exact hu32.bind fun _ ↦ hoffset.bind fun _ ↦ htype.bind fun _ ↦ hexprs.bind fun _ ↦ .pure _
  | _ + 8 => exact .fail _ start

theorem costs_dataSegment :
    Costs limit (k + 4) (Metered.dataSegment limit types) (Reader.dataSegment types) := by
  have hmode : Costs limit (k + 4) (Metered.dataMode limit types) (Reader.dataMode types) := by
    refine .offset fun start ↦ (Costs.read spends_u32).bind fun flags ↦ ?_
    match flags.toNat with
    | 0 => exact (costs_code types).bind fun _ ↦ .pure _
    | 1 => exact .pure _
    | 2 => exact (Costs.read spends_u32).bind fun _ ↦ (costs_code types).bind fun _ ↦ .pure _
    | _ + 3 => exact .fail _ start
  exact hmode.bind fun _ ↦ (Costs.read spends_byteVector).bind fun _ ↦ .pure _

theorem vector_length_spent {item : Reader α} (h : Spends 1 item) {c c' : Cursor} {xs : List α}
    (hxs : Reader.vector item c = .ok xs c') : xs.length + c'.remaining ≤ c.remaining := by
  have hspent := vector_spent h hxs
  omega

theorem costs_locals : Costs limit (k + 4) Metered.locals Reader.locals :=
  .offset fun start ↦ (costs_vector_read spends_localGroup.one).again
    (fun _ _ _ ↦ vector_length_spent spends_localGroup.one) fun _ ↦ .ite (.fail _ start) (.pure _)

theorem costs_body : Costs limit (k + 4) (Metered.body limit types) (Reader.body types) := by
  have hcontents :
      Costs limit (k + 4) (Metered.bodyContents limit types) (Reader.bodyContents types) :=
    costs_locals.bind fun _ ↦ (costs_code types).bind fun _ ↦ .get fun m ↦
      .ite (.pure _) (.fail _ m.cursor.offset)
  exact (Costs.read spends_u32).bind fun size ↦ hcontents.inside size.toNat fun _ ↦ .pure _

theorem costs_imports :
    Costs limit (k + 4) (Metered.payload limit types .import_) (Reader.payload types .import_) := by
  change Costs limit (k + 4) _ (Section.imports <$> Reader.vector Reader.import_)
  rw [map_eq_pure_bind]
  exact (costs_vector_read spends_import.one).again
    (fun _ _ _ ↦ vector_length_spent spends_import.one) fun _ ↦ .pure _

theorem costs_payload (id : SectionId) :
    Costs limit (k + 6) (Metered.payload limit types id) (Reader.payload types id) := by
  cases id with
  | custom => exact (Costs.read spends_custom).map _
  | type => exact (costs_vector costs_funcType spends_funcType.one).map _
  | import_ => exact costs_imports types
  | function => exact (costs_vector_read spends_u32).map _
  | table => exact (costs_vector_read spends_tableType.one).map _
  | memory => exact (costs_vector_read spends_memoryType.one).map _
  | global => exact (costs_vector (costs_globalDef types) (spends_globalDef types).one).map _
  | export_ => exact (costs_vector_read spends_export.one).map _
  | start => exact (Costs.read spends_u32).map _
  | element => exact (costs_vector (costs_elemSegment types) (spends_elemSegment types).one).map _
  | code => exact (costs_vector (costs_body types) (spends_body types).one).map _
  | data => exact (costs_vector (costs_dataSegment types) (spends_dataSegment types).one).map _
  | dataCount => exact (Costs.read spends_u32).map _

theorem costs_section (d : Draft) :
    Costs limit (k + 6) (Metered.section_ limit d) (Reader.section_ d) := by
  refine (Costs.read spends_sectionHeader.one).bind fun h ↦ ?_
  have hpayload := @costs_payload limit k d.mod.types h.id
  cases d.place h with
  | error e => exact (Costs.free (spends_sub _)).bind fun _ ↦ .throw e
  | ok order =>
    exact hpayload.inside h.size.toNat fun _ ↦ .ite (.pure _) (.throw _)

/-- A type index of a function has taken a byte. -/
theorem funcTypes_section {d d' : Draft} {c c' : Cursor} (h : Reader.section_ d c = .ok d' c') :
    d'.mod.funcTypes.length + c'.remaining ≤ d.mod.funcTypes.length + c.remaining := by
  obtain ⟨u, consumed, base⟩ := c
  obtain ⟨s, rest, -, rfl, -, hload, rfl⟩ := section_ok h
  obtain ⟨-, x, hx, rfl⟩ := Draft.load?_eq_some.mp hload
  have hlen := s.length_bytes
  have hid := id_of_parse? hx
  simp only [Cursor.remaining, List.length_append]
  by_cases hf : s.id = .function
  · rw [hf, Reader.payload, parse?_map, Option.map_eq_some_iff] at hx
    obtain ⟨is, his, rfl⟩ := hx
    have hcount := length_lt_of_parse? spends_u32 his
    change is.length + _ ≤ _
    omega
  · have hsame : (d.after x).mod.funcTypes = d.mod.funcTypes :=
      Draft.funcTypesPart.get_other d x (hid ▸ hf)
    rw [hsame]
    omega

theorem funcTypes_sections {steps : Nat} {d d' : Draft} {c c' : Cursor}
    (h : Reader.sections steps d c = .ok d' c') :
    d'.mod.funcTypes.length + c'.remaining ≤ d.mod.funcTypes.length + c.remaining := by
  induction steps generalizing d c with
  | zero =>
    cases h
    exact le_rfl
  | succ n ih =>
    obtain ⟨_, _, ⟨⟩, h⟩ := Outcome.bind_ok h
    split at h
    · cases h
      exact le_rfl
    · obtain ⟨d₁, c₁, hd, h⟩ := Outcome.bind_ok h
      exact (ih h).trans (funcTypes_section hd)

theorem costs_module : Costs limit 8 (Metered.module_ limit) Reader.module_ := by
  refine (Costs.read spends_header.one).bind fun _ ↦ ?_
  intro m hm
  -- The reader takes as many steps as there are bytes and one, which is as good as any other limit.
  have heq : (get >>= fun c ↦ Reader.sections (c.remaining + 1) {} >>= fun d ↦
      MonadExcept.ofExcept d.finish) m.cursor =
      (Reader.sections limit {} >>= fun d ↦ MonadExcept.ofExcept d.finish) m.cursor := by
    rw [Outcome.bind_apply, Outcome.get_apply]
    dsimp only
    rw [Outcome.bind_apply, Outcome.bind_apply, Reader.sections_steps {} (Nat.lt_succ_self _) hm]
  rw [heq]
  -- At the end the functions are gone over, each of which has a type index that took a byte.
  refine Costs.again (costs_sections costs_section limit {}) (fun c d c' hd ↦ ?_) (fun d ↦ ?_) m hm
  · exact (funcTypes_sections hd).trans_eq (Nat.zero_add _)
  · cases d.finish with
    | error e => exact .throw e
    | ok m => exact .pure m

end Readers

inductive VectorItem : Type → Type
  | valType : VectorItem ValType
  | index : VectorItem Idx
  | funcType : VectorItem FuncType
  | import_ : VectorItem Import
  | export_ : VectorItem Export
  | tableType : VectorItem TableType
  | memoryType : VectorItem MemoryType
  | globalType : VectorItem GlobalType
  | globalDef : VectorItem GlobalDef
  | elemSegment : VectorItem ElemSegment
  | expr : VectorItem Code
  | localGroup : VectorItem (Nat × ValType)
  | body : VectorItem Body
  | dataSegment : VectorItem DataSegment

def VectorItem.reader (types : List FuncType) : VectorItem α → Reader α
  | valType => Reader.valType
  | index => Reader.u32
  | funcType => Reader.funcType
  | import_ => Reader.import_
  | export_ => Reader.export_
  | tableType => Reader.tableType
  | memoryType => Reader.memoryType
  | globalType => Reader.globalType
  | globalDef => Reader.globalDef types
  | elemSegment => Reader.elemSegment types
  | expr => Reader.expr types
  | localGroup => Reader.localGroup
  | body => Reader.body types
  | dataSegment => Reader.dataSegment types

theorem VectorItem.spends (types : List FuncType) (i : VectorItem α) :
    Spends 1 (i.reader types) := by
  cases i with
  | valType => exact spends_valType
  | index => exact spends_u32
  | funcType => exact spends_funcType.one
  | import_ => exact spends_import.one
  | export_ => exact spends_export.one
  | tableType => exact spends_tableType.one
  | memoryType => exact spends_memoryType.one
  | globalType => exact spends_globalType.one
  | globalDef => exact (spends_globalDef types).one
  | elemSegment => exact (spends_elemSegment types).one
  | expr => exact spends_expr types
  | localGroup => exact spends_localGroup.one
  | body => exact (spends_body types).one
  | dataSegment => exact (spends_dataSegment types).one

/-- From `c` on, `x` does what `r` does, and comes to its end with at most `bound` of work, be it a
success or a failure. -/
def Metered.Within (bound : Nat) (x : Metered α) (r : Reader α) (c : Cursor) : Prop :=
  plain (x ⟨c, 0⟩) = r c ∧ (Outcome.final (x ⟨c, 0⟩)).work ≤ bound

theorem Costs.within {x : Metered α} {r : Reader α} (h : Costs limit k x r) {c : Cursor}
    (hc : c.remaining < limit) : x.Within (k * (c.remaining + 1)) r c := by
  have htally := h ⟨c, 0⟩ hc
  exact ⟨htally.plain_eq, htally.work_le.trans_eq (Nat.zero_add _)⟩

/-- What a byte sequence stands for, and how much work it was to find out. -/
def Metered.decode (limit : Nat) (bytes : List UInt8) : Except DecodeError Module × Nat :=
  match module_ limit ⟨.ofBytes bytes, 0⟩ with
  | .ok m meter => (.ok m, meter.work)
  | .error e meter => (.error e, meter.work)

theorem Metered.decode_of_within {bound : Nat} {bytes : List UInt8}
    (h : (module_ limit).Within bound Reader.module_ (.ofBytes bytes)) :
    (decode limit bytes).1 = Module.decode bytes ∧ (decode limit bytes).2 ≤ bound := by
  obtain ⟨hplain, hwork⟩ := h
  unfold decode Module.decode
  rw [← hplain]
  cases hrun : module_ limit ⟨.ofBytes bytes, 0⟩ with
  | ok m meter =>
    rw [hrun] at hwork
    exact ⟨rfl, hwork⟩
  | error e meter =>
    rw [hrun] at hwork
    exact ⟨rfl, hwork⟩

/-- Reading moves forward. Every instruction and every item of a vector takes a byte at least, and
every section two. So a vector takes as many bytes behind its length as it has items, and no more
rounds are gone than there are bytes and one, whatever its length says; the same holds of the
instructions of an expression. All the work of the decoder is linear in the length of the input, but
for the copies of the types of locals, and does not depend on any limit on its loops. -/
theorem Module.decode_progress :
    (∀ types, Spends 1 (Reader.instr types) ∧
      ∀ {α : Type} (i : VectorItem α), Spends 1 (i.reader types)) ∧
    (∀ types {α : Type} (i : VectorItem α) c n c₁ xs c', Reader.u32 c = .ok n c₁ →
      Reader.vector (i.reader types) c = .ok xs c' →
      xs.length = n.toNat ∧ xs.length + c'.remaining ≤ c₁.remaining) ∧
    (∀ types {α : Type} (i : VectorItem α) n c, (Metered.times (.free (i.reader types)) n).Within
      (c.remaining + 1) (Reader.times (i.reader types) n) c) ∧
    (∀ types c limit, c.remaining < limit → (Metered.expr limit (.free (Reader.instr types))).Within
      (c.remaining + 1) (Reader.expr types) c) ∧
    (∀ d, Spends 2 (Reader.section_ d)) ∧
    ∀ bytes limit, bytes.length < limit → (Metered.decode limit bytes).1 = decode bytes ∧
      (Metered.decode limit bytes).2 ≤ 8 * (bytes.length + 1) := by
  refine ⟨fun types ↦ ⟨spends_instr types, VectorItem.spends types⟩, ?_, ?_, ?_,
    spends_section, ?_⟩
  · intro types α i c n c₁ xs c' hn hxs
    rw [Reader.vector, Outcome.bind_apply, hn] at hxs
    have hspent := times_spent (i.spends types) hxs
    rw [Nat.one_mul] at hspent
    exact ⟨yields_times_length _ _ _ _ _ hxs, hspent⟩
  · intro types α i n c
    have hfree : Costs (c.remaining + 1) 0 (.free (i.reader types)) (i.reader types) :=
      .free ((i.spends types).mono (Nat.zero_le 1))
    have hwithin := (costs_times hfree (i.spends types) n).within (Nat.lt_succ_self _)
    rwa [Nat.one_mul] at hwithin
  · intro types c limit hc
    have hfree : Costs limit 0 (.free (Reader.instr types)) (Reader.instr types) :=
      .free ((spends_instr types).mono (Nat.zero_le 1))
    have hwithin := (costs_expr hfree).within hc
    rwa [Nat.one_mul] at hwithin
  · intro bytes limit hlimit
    exact Metered.decode_of_within (costs_module.within hlimit)

/-- A vector of two indices, and a section that claims to hold the most types that can be claimed,
and holds none. -/
theorem Module.decode_progress_overclaiming :
    let c : Cursor := .ofBytes [2, 7, 0x80, 1, 9]
    let bytes := preamble ++ [1, 5, 0xFF, 0xFF, 0xFF, 0xFF, 0x0F]
    Reader.u32 c = .ok 2 (c.advance 1) ∧ Reader.vector Reader.u32 c = .ok [7, 128] (c.advance 4) ∧
    2 + (c.advance 4).remaining ≤ (c.advance 1).remaining ∧
    (Metered.expr 6 (.free (Reader.instr []))).Within 6 (Reader.expr []) c ∧
    decode bytes = .error (.unexpectedEnd 15) ∧
    (Metered.decode UInt64.size bytes).1 = decode bytes ∧
    (Metered.decode UInt64.size bytes).2 ≤ 128 := by
  intro c bytes
  obtain ⟨-, hvector, -, hexpr, -, hdecode⟩ := decode_progress
  have hcount : Reader.u32 c = .ok 2 (c.advance 1) := by cbv
  have hindices : Reader.vector Reader.u32 c = .ok [7, 128] (c.advance 4) := by cbv
  have hrefused : decode bytes = .error (.unexpectedEnd 15) := by decide +kernel
  have hlimit : bytes.length < UInt64.size := by decide
  exact ⟨hcount, hindices, (hvector [] .index c 2 _ _ _ hcount hindices).2,
    hexpr [] c 6 (Nat.lt_succ_self 5), hrefused, hdecode bytes UInt64.size hlimit⟩

end Wasm
