import Wasm.Proofs.Machine.Traps

namespace Wasm

open Outcome Stack Machine

namespace Stack

variable {s : Stack} {vs : List Value} {k n : Nat}

structure Spared (s : Stack) (k : Nat) (s' : Stack) : Prop where
  frames : s'.frames = s.frames
  limit : s'.limit = s.limit
  entries : ∀ i < s.entries.size - k, s'.entries[i]? = s.entries[i]?

@[simp] theorem stacked_entries :
    (s.stacked vs).entries = s.entries ++ (vs.map Entry.value).toArray := by
  induction vs generalizing s with
  | nil => simp [stacked]
  | cons v vs ih =>
    have hstacked : s.stacked (v :: vs) = (s.pushed v).stacked vs := rfl
    simp [hstacked, ih, pushed]

theorem stacked_frames : (s.stacked vs).frames = s.frames := by
  induction vs generalizing s with
  | nil => rfl
  | cons v vs ih => exact @ih (s.pushed v)

theorem stacked_limit : (s.stacked vs).limit = s.limit := by
  induction vs generalizing s with
  | nil => rfl
  | cons v vs ih => exact @ih (s.pushed v)

theorem size_stacked : (s.stacked vs).entries.size = s.entries.size + vs.length := by simp

theorem spared_base (h : vs.length = k) : (s.stacked vs).Spared k s := by
  refine ⟨stacked_frames.symm, stacked_limit.symm, fun i hi ↦ ?_⟩
  rw [size_stacked] at hi
  rw [stacked_entries, Array.getElem?_append_left (by omega)]

theorem spared_pushed (h : vs.length = k) (v : Value) : (s.stacked vs).Spared k (s.pushed v) := by
  have hbase := @spared_base s vs k h
  refine ⟨hbase.frames, hbase.limit, fun i hi ↦ ?_⟩
  rw [← hbase.entries i hi]
  rw [size_stacked] at hi
  exact Array.getElem?_push.trans (if_neg (by omega))

theorem spared_without (h : n < k) : s.Spared k (s.without n) := by
  refine ⟨rfl, rfl, fun i hi ↦ ?_⟩
  rw [without, Array.getElem?_extract, if_pos (by omega), Nat.zero_add]

end Stack

inductive NumOp.Performs (op : NumOp) : Stack → EStateM.Result Trap Stack Bool → Prop
  | value {base : Stack} {vs : List Value} {v : Value} : vs.map Value.type = op.params →
    v.type = op.result → Performs op (base.stacked vs) (.ok true (base.pushed v))
  | failed {base : Stack} {vs : List Value} {e : Trap} : vs.map Value.type = op.params →
    e.arithmetic = true → Performs op (base.stacked vs) (.error e base)
  | missing {s : Stack} {e : Trap} {n : Nat} : ¬ s.Offers op.params → e.operandMissing = true →
    n < op.params.length → Performs op s (.error e (s.without n))

namespace NumOp

variable {op : NumOp} {s : Stack}

theorem length_params (op : NumOp) : op.params.length = 1 ∨ op.params.length = 2 := by
  cases op <;> simp [params]

theorem performs_execNumeric (op : NumOp) (hs : s.entries.size ≤ s.limit) :
    op.Performs s (Instr.execNumeric (.numeric op) s) := by
  have hexec : Instr.execNumeric (.numeric op) s = (op.exec >>= fun _ ↦ pure true) s := rfl
  rw [hexec, bind_apply]
  by_cases hoffers : s.Offers op.params
  · obtain ⟨base, vs, rfl, hvs⟩ := hoffers
    -- The operands make room for the result.
    have hroom : base.entries.size < base.limit := by
      have hlen := congrArg List.length hvs
      have hparams := op.length_params
      rw [size_stacked, stacked_limit] at hs
      rw [List.length_map] at hlen
      omega
    rcases op.obeys.typed base vs hvs with ⟨v, hv, hop⟩ | ⟨e, he, hop⟩
    · rw [hop, pushValue_room hroom]
      exact .value hvs hv
    · rw [hop]
      exact .failed hvs he
  · obtain ⟨e, n, he, hn, hop⟩ := op.obeys.untyped s hoffers
    rw [hop]
    exact .missing hoffers he hn

theorem Performs.spared {r : EStateM.Result Trap Stack Bool} (h : op.Performs s r) :
    s.Spared op.params.length (final r) := by
  cases h with
  | value hvs hv => exact spared_pushed (by rw [← hvs, List.length_map]) _
  | failed hvs he => exact spared_base (by rw [← hvs, List.length_map])
  | missing hoffers he hn => exact spared_without hn

end NumOp

namespace Instr

def asNumeric (i : Instr) : Exec Unit := do
  unless ← onStack i.execNumeric do
    throw .unimplemented

def HandedOn (i : Instr) : Prop :=
  ∀ length, exec length i = (do
    i.asNumeric
    return .next)

theorem handedOn_numeric (op : NumOp) : HandedOn (.numeric op) := fun _ ↦ rfl

/-- Those that are not numeric have a meaning of their own, since they have one. -/
theorem not_handedOn {i : Instr} (hi : i.execNumeric = pure false) : ¬ i.HandedOn := by
  intro h
  apply Implemented.exec 0 i default default
  rw [h 0, asNumeric, hi]
  rfl

theorem execNumeric_cases (i : Instr) : i.execNumeric = pure false ∨ ∃ op, i = .numeric op := by
  cases i with
  | numeric op => exact .inr ⟨op, rfl⟩
  | _ => exact .inl rfl

/-- No instruction is unimplemented. The numeric executor refuses those that are executed by
themselves, and only those, and leaves the stack alone. Any other one, if values of its types are on
top, takes them and gives one value of its result type or fails for an arithmetic reason. If they
are not, it fails at the first that is missing. It never fails because the stack is full, and no
entry below its operands changes. -/
theorem numeric_dispatch (i : Instr) {s : Stack} (hs : s.entries.size ≤ s.limit) :
    (∀ m m', step m ≠ .error .unimplemented m') ∧
    (i.execNumeric s = .ok false s ↔ ¬ i.HandedOn) ∧
    (i.HandedOn → ∃ op, i = .numeric op ∧ op.Performs s (i.execNumeric s) ∧
      (op.params.length = 1 ∨ op.params.length = 2) ∧
      s.Spared op.params.length (final (i.execNumeric s))) := by
  refine ⟨Implemented.step, ?_⟩
  rcases i.execNumeric_cases with hi | ⟨op, rfl⟩
  · rw [hi]
    have hnot := not_handedOn hi
    exact ⟨⟨fun _ ↦ hnot, fun _ ↦ rfl⟩, fun h ↦ absurd h hnot⟩
  · have hperforms := op.performs_execNumeric hs
    refine ⟨⟨fun h ↦ ?_, fun h ↦ absurd (handedOn_numeric op) h⟩, fun _ ↦
      ⟨op, rfl, hperforms, op.length_params, hperforms.spared⟩⟩
    rw [h] at hperforms
    cases hperforms

def mixedOperands : Stack where
  entries := #[.value (.i64 5), .value (.f32 1), .value (.i32 2)]
  limit := 3

theorem numeric_dispatch_mixedOperands :
    (NumOp.ibin .w32 .add).Performs mixedOperands
      (Instr.execNumeric (.numeric (.ibin .w32 .add)) mixedOperands) ∧
    Instr.execNumeric (.numeric (.ibin .w32 .add)) mixedOperands =
      .error (.typeMismatch .i32 .f32) (mixedOperands.without 1) := by
  obtain ⟨-, -, hhanded⟩ := numeric_dispatch (.numeric (.ibin .w32 .add))
    (s := mixedOperands) (by decide)
  obtain ⟨op, hop, hperforms, -⟩ := hhanded (handedOn_numeric _)
  cases hop
  exact ⟨hperforms, rfl⟩

end Instr

end Wasm
