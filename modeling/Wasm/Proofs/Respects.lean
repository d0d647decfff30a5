import Wasm.Proofs.Outcome
import Wasm.Machine.Run

namespace Wasm

theorem setIfInBounds_of_getElem? {α : Type} {xs : Array α} {a : Nat} {x : α}
    (h : xs[a]? = some x) : xs.setIfInBounds a x = xs := by
  obtain ⟨hlt, rfl⟩ := Array.getElem?_eq_some_iff.mp h
  simp [Array.setIfInBounds, hlt]

namespace Outcome

variable {ε σ α β : Type}

def Respects (r : σ → σ → Prop) (op : EStateM ε σ α) : Prop := ∀ s, r s (final (op s))

theorem Respects.mono {r q : σ → σ → Prop} {op : EStateM ε σ α} (h : Respects r op)
    (hrq : ∀ s s', r s s' → q s s') : Respects q op :=
  fun s ↦ hrq s _ (h s)

theorem Respects.ok {r : σ → σ → Prop} {op : EStateM ε σ α} (h : Respects r op) {s s' : σ} {a : α}
    (hs : op s = .ok a s') : r s s' := by
  have hop := h s
  rwa [hs] at hop

variable {r : σ → σ → Prop} [IsPreorder σ r]

@[simp] theorem Respects.pure (a : α) : Respects r (pure a : EStateM ε σ α) := refl_of r

@[simp] theorem Respects.throw (e : ε) : Respects r (throw e : EStateM ε σ α) := refl_of r

@[simp] theorem Respects.get : Respects r (get : EStateM ε σ σ) := refl_of r

@[simp] theorem Respects.bind {op : EStateM ε σ α} {k : α → EStateM ε σ β} (h : Respects r op)
    (hk : ∀ a, Respects r (k a)) : Respects r (op >>= k) := by
  intro s
  have hop := h s
  rw [bind_apply]
  generalize op s = x at hop
  cases x with
  | error e s' => exact hop
  | ok a s' => exact trans_of r hop (hk a s')

@[simp] theorem Respects.map {op : EStateM ε σ α} (h : Respects r op) (f : α → β) :
    Respects r (f <$> op) := by
  rw [map_eq_pure_bind]
  exact h.bind fun a ↦ .pure (f a)

omit [IsPreorder σ r] in
@[simp] theorem Respects.ite {c : Prop} [Decidable c] {x y : EStateM ε σ α} (hx : Respects r x)
    (hy : Respects r y) : Respects r (if c then x else y) := by
  split
  · exact hx
  · exact hy

theorem Respects.forM {f : α → EStateM ε σ Unit} (hf : ∀ a, Respects r (f a)) (xs : List α) :
    Respects r (xs.forM f) := by
  induction xs with
  | nil => exact .pure _
  | cons x xs ih => exact (hf x).bind fun _ ↦ ih

theorem Respects.foldlM {f : β → α → EStateM ε σ β} (hf : ∀ b a, Respects r (f b a)) (xs : List α)
    (b : β) : Respects r (xs.foldlM f b) := by
  induction xs generalizing b with
  | nil => exact .pure b
  | cons x xs ih =>
    rw [List.foldlM_cons]
    exact (hf b x).bind ih

theorem Respects.mapM {f : α → EStateM ε σ β} (hf : ∀ a, Respects r (f a)) (xs : List α) :
    Respects r (xs.mapM f) := by
  induction xs with
  | nil => exact .pure []
  | cons x xs ih =>
    rw [List.mapM_cons]
    exact (hf x).bind fun _ ↦ ih.bind fun _ ↦ .pure _

theorem Respects.check (x : Except ε α) : Respects r (Stop.check x : EStateM (Stop ε) σ α) := by
  cases x with
  | ok a => exact .pure a
  | error e => exact .throw _

omit [IsPreorder σ r] in
theorem Respects.mapError {δ : Type} {op : EStateM (Stop ε) σ α} (h : Respects r op) (f : ε → δ) :
    Respects r (Stop.mapError f op) := by
  intro s
  have hop := h s
  unfold Stop.mapError
  generalize op s = x at hop
  cases x with
  | ok a s' => exact hop
  | error e s' => cases e <;> exact hop

omit [IsPreorder σ r] in
theorem Respects.modify {f : σ → σ} (hf : ∀ s, r s (f s)) :
    Respects r (modify f : EStateM ε σ Unit) := hf

omit [IsPreorder σ r] in
/-- An operation that never runs out of steps. -/
theorem Respects.lift {op : EStateM ε σ α} (h : Respects r op) : Respects r (Stop.lift op) := by
  intro s
  have hop := h s
  simp only [Stop.lift]
  generalize op s = x at hop
  cases x <;> exact hop

end Outcome

end Wasm
