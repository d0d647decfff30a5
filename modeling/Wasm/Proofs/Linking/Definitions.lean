import Wasm.Proofs.Respects
import Wasm.Link.Instantiate

namespace Wasm

namespace Outcome

variable {ε σ α β : Type}

theorem bind_error {x : EStateM ε σ α} {f : α → EStateM ε σ β} {s s' : σ} {e : ε}
    (h : (x >>= f) s = .error e s') :
    x s = .error e s' ∨ ∃ a s₁, x s = .ok a s₁ ∧ f a s₁ = .error e s' := by
  rw [bind_apply] at h
  cases hx : x s with
  | error e' s₁ =>
    rw [hx] at h
    cases h
    exact .inl rfl
  | ok a s₁ =>
    rw [hx] at h
    exact .inr ⟨a, s₁, rfl, h⟩

structure Adheres (r : σ → σ → Prop) (E : ε → Prop) (op : EStateM ε σ α) : Prop where
  respects : Respects r op
  fails : ∀ s e s', op s = .error e s' → E e

namespace Adheres

variable {r : σ → σ → Prop} {E : ε → Prop}

theorem error {op : EStateM ε σ α} (h : Adheres r E op) {s s' : σ} {e : ε}
    (hs : op s = .error e s') : E e ∧ r s s' := by
  have hop := h.respects s
  rw [hs] at hop
  exact ⟨h.fails s e s' hs, hop⟩

variable [IsPreorder σ r]

theorem pure (a : α) : Adheres r E (pure a : EStateM ε σ α) := ⟨.pure a, nofun⟩

theorem get : Adheres r E (get : EStateM ε σ σ) := ⟨.get, nofun⟩

theorem throw {e : ε} (he : E e) : Adheres r E (throw e : EStateM ε σ α) := by
  refine ⟨.throw e, ?_⟩
  rintro s _ _ ⟨⟩
  exact he

theorem bind {op : EStateM ε σ α} {k : α → EStateM ε σ β} (h : Adheres r E op)
    (hk : ∀ a, Adheres r E (k a)) : Adheres r E (op >>= k) := by
  refine ⟨h.respects.bind fun a ↦ (hk a).respects, fun s e s' hs ↦ ?_⟩
  rcases bind_error hs with hop | ⟨a, s₁, -, hrest⟩
  · exact h.fails _ _ _ hop
  · exact (hk a).fails _ _ _ hrest

theorem forM {f : α → EStateM ε σ Unit} (hf : ∀ a, Adheres r E (f a)) (xs : List α) :
    Adheres r E (xs.forM f) := by
  induction xs with
  | nil => exact pure _
  | cons x xs ih => exact (hf x).bind fun _ ↦ ih

theorem foldlM {f : β → α → EStateM ε σ β} (hf : ∀ b a, Adheres r E (f b a)) (xs : List α)
    (b : β) : Adheres r E (xs.foldlM f b) := by
  induction xs generalizing b with
  | nil => exact pure b
  | cons x xs ih =>
    rw [List.foldlM_cons]
    exact (hf b x).bind ih

theorem mapM {f : α → EStateM ε σ β} (hf : ∀ a, Adheres r E (f a)) (xs : List α) :
    Adheres r E (xs.mapM f) := by
  induction xs with
  | nil => exact pure []
  | cons x xs ih =>
    rw [List.mapM_cons]
    exact (hf x).bind fun _ ↦ ih.bind fun _ ↦ pure _

end Adheres

end Outcome

open Outcome

/-- The failures that imports and definitions have: an import that is not supplied or does not fit,
a type that the module does not have, a table or memory that is too large. -/
def LinkError.early : LinkError → Bool
  | unresolvedImport _ _ | resourceLimit _ _ _ => true
  | typeMismatch site _ _ =>
    site ∈ [.funcImport, .tableImport, .tableImportLimits, .memoryImportLimits, .globalImport]
  | indexOutOfBounds site _ => site ∈ [.importType, .funcType]
  | _ => false

def Stop.Early (x : Stop LinkError) : Prop := ∃ e, x = .failed e ∧ e.early = true

theorem LinkError.stop_early {e : LinkError} (he : e.early = true) : Stop.Early (.failed e) :=
  ⟨e, rfl, he⟩

namespace Link

variable {α : Type} {R : Store → Store → Prop} [IsPreorder Store R] {E : Stop LinkError → Prop}

theorem adheres_require {e : LinkError} (he : E (.failed e)) (x : Option α) :
    Adheres R E (require e x) := by
  cases x with
  | some a => exact .pure a
  | none => exact .throw he

theorem adheres_unless {c : Prop} [Decidable c] {e : LinkError} {k : PUnit → Link α}
    (he : E (.failed e)) (hk : Adheres R E (k ⟨⟩)) :
    Adheres R E (if c then fail e >>= k else k ⟨⟩) := by
  split
  · exact (Adheres.throw he).bind fun _ ↦ hk
  · exact hk

omit [IsPreorder Store R] in
theorem adheres_alloc {op : Store → Nat × Store} (h : ∀ s, R s (op s).2) :
    Adheres R E (alloc op) := by
  refine ⟨h, fun s e s' hs ↦ ?_⟩
  cases hs

variable (hfunc : ∀ (s : Store) f, R s (s.allocFunc f).2)
  (htable : ∀ (s : Store) t, R s (s.allocTable t).2)
  (hmemory : ∀ (s : Store) mem, R s (s.allocMemory mem).2)
  (hglobal : ∀ (s : Store) g, R s (s.allocGlobal g).2)

include hfunc hglobal in
theorem adheres_bindImport (m : Module) (r : Host.Resolver) (inst : Instance) (i : Import) :
    Adheres R Stop.Early (bindImport m r inst i) := by
  unfold bindImport
  dsimp only
  cases i.desc with
  | func t =>
    apply (adheres_require (LinkError.stop_early rfl) _).bind
    intro type
    apply (adheres_require (LinkError.stop_early rfl) _).bind
    intro f
    apply adheres_unless (LinkError.stop_early rfl)
    exact (adheres_alloc fun s ↦ hfunc s _).bind fun _ ↦ .pure _
  | table type =>
    apply (adheres_require (LinkError.stop_early rfl) _).bind
    intro addr
    apply Adheres.get.bind
    intro s
    apply (adheres_require (LinkError.stop_early rfl) _).bind
    intro t
    apply adheres_unless (LinkError.stop_early rfl)
    apply adheres_unless (LinkError.stop_early rfl)
    exact .pure _
  | memory type =>
    apply (adheres_require (LinkError.stop_early rfl) _).bind
    intro addr
    apply Adheres.get.bind
    intro s
    apply (adheres_require (LinkError.stop_early rfl) _).bind
    intro mem
    apply adheres_unless (LinkError.stop_early rfl)
    exact .pure _
  | global type =>
    apply (adheres_require (LinkError.stop_early rfl) _).bind
    intro v
    apply adheres_unless (LinkError.stop_early rfl)
    exact (adheres_alloc fun s ↦ hglobal s _).bind fun _ ↦ .pure _

include hfunc in
theorem adheres_defineFunc (m : Module) (handle : Nat) (inst : Instance) (f : Idx × Nat) :
    Adheres R Stop.Early (defineFunc m handle inst f) := by
  apply (adheres_require (LinkError.stop_early rfl) _).bind
  intro type
  exact (adheres_alloc fun s ↦ hfunc s _).bind fun _ ↦ .pure _

include htable in
theorem adheres_defineTable (inst : Instance) (type : TableType) :
    Adheres R Stop.Early (defineTable inst type) := by
  apply Adheres.get.bind
  intro s
  apply adheres_unless (LinkError.stop_early rfl)
  apply (adheres_require (LinkError.stop_early rfl) _).bind
  intro t
  exact (adheres_alloc fun s ↦ htable s _).bind fun _ ↦ .pure _

include hmemory in
theorem adheres_defineMemory (inst : Instance) (type : MemoryType) :
    Adheres R Stop.Early (defineMemory inst type) := by
  apply Adheres.get.bind
  intro s
  apply adheres_unless (LinkError.stop_early rfl)
  apply (adheres_require (LinkError.stop_early rfl) _).bind
  intro mem
  exact (adheres_alloc fun s ↦ hmemory s _).bind fun _ ↦ .pure _

include hfunc htable hmemory hglobal in
theorem adheres_define (m : Module) (r : Host.Resolver) (handle : Nat) :
    Adheres R Stop.Early (define m r handle) := by
  apply (Adheres.foldlM (adheres_bindImport hfunc hglobal m r) _ _).bind
  intro inst
  apply (Adheres.foldlM (adheres_defineFunc hfunc m handle) _ _).bind
  intro inst
  apply (Adheres.foldlM (adheres_defineTable htable) _ _).bind
  intro inst
  exact .foldlM (adheres_defineMemory hmemory) _ _

end Link

end Wasm
