import Wasm.Proofs.Stack.Effects
import Wasm.Proofs.Store

namespace Wasm

def ControlFault.bracketing : ControlFault → Bool
  | pastEnd | noFrame | frameIndex | strayEnd | unterminatedBlock => true
  | labelDepth | blockType | typedSelect => false

def Trap.bracketing : Trap → Bool
  | malformedControl fault => fault.bracketing
  | _ => false

structure Scope where
  store : Store
  locals : Array Value
  /-- The operands of the innermost construct, the top one first. -/
  operands : List Value

/-- A machine without its scope. The locals of the frame do not count. -/
structure Context where
  limit : Nat
  bottom : List Value
  callers : List Activation
  frame : Frame
  outer : List (Label × List Value)
  ends : BlockEnds
  pc : Nat

namespace Context

def activation (c : Context) (s : Scope) : Activation where
  frame := { c.frame with locals := s.locals }
  outer := c.outer
  operands := s.operands

def fill (c : Context) (s : Scope) : Machine where
  store := s.store
  stack := Stack.of c.limit c.bottom (c.activation s :: c.callers)
  ends := c.ends
  pc := c.pc

def base (c : Context) : Nat :=
  (Stack.beneath c.bottom c.callers c.frame c.outer).length

def Fits (c : Context) (s : Scope) : Prop :=
  c.base + s.operands.length ≤ c.limit

def Full (c : Context) (s : Scope) : Prop :=
  c.base + s.operands.length = c.limit

structure Roomier (c b : Context) : Prop where
  inst : b.frame.inst = c.frame.inst
  limit : c.limit ≤ b.limit
  base : b.base ≤ c.base

@[simp] theorem store_fill (c : Context) (s : Scope) : (c.fill s).store = s.store := rfl

@[simp] theorem ends_fill (c : Context) (s : Scope) : (c.fill s).ends = c.ends := rfl

@[simp] theorem pc_fill (c : Context) (s : Scope) : (c.fill s).pc = c.pc := rfl

theorem Roomier.refl (c : Context) : Roomier c c := ⟨rfl, le_rfl, le_rfl⟩

theorem height_activation (c : Context) (s : Scope) :
    Stack.height c.bottom (c.activation s :: c.callers) = c.base + s.operands.length := by
  rw [activation, Stack.height_cons, base, Stack.length_beneath]

end Context

inductive Agrees {α : Type} (c b : Context) (s₀ : Scope) :
    EStateM.Result Trap Machine α → EStateM.Result Trap Machine α → Prop
  | ok (a : α) (s : Scope) (h : c.Fits s) (hs : s.store.frozen = s₀.store.frozen) :
    Agrees c b s₀ (.ok a (c.fill s)) (.ok a (b.fill s))
  | error (t : Trap) (s : Scope) (h : c.Fits s) (hs : s.store.frozen = s₀.store.frozen)
    (ht : t.bracketing = false) : Agrees c b s₀ (.error t (c.fill s)) (.error t (b.fill s))
  | overflow (s : Scope) (h : c.Full s) (hs : s.store.frozen = s₀.store.frozen)
    (y : EStateM.Result Trap Machine α) : Agrees c b s₀ (.error .stackOverflow (c.fill s)) y

def Local {α : Type} (op : Exec α) : Prop :=
  ∀ c b : Context, c.Roomier b → ∀ s : Scope, c.Fits s →
    Agrees c b s (op (c.fill s)) (op (b.fill s))

def Ordinary {σ α : Type} (op : EStateM Trap σ α) : Prop :=
  ∀ s t s', op s = .error t s' → t.bracketing = false

section Local

variable {α β : Type}

theorem Local.pure (a : α) : Local (pure a : Exec α) := by
  intro c b _ s hs
  exact .ok a s hs rfl

theorem Local.throw {t : Trap} (ht : t.bracketing = false) : Local (throw t : Exec α) := by
  intro c b _ s hs
  exact .error t s hs rfl ht

theorem Local.bind {op : Exec α} {k : α → Exec β} (h : Local op) (hk : ∀ a, Local (k a)) :
    Local (op >>= k) := by
  intro c b hcb s hs
  have hop := h c b hcb s hs
  rw [Outcome.bind_apply, Outcome.bind_apply]
  generalize op (c.fill s) = x, op (b.fill s) = y at hop
  cases hop with
  | ok a s' hs' hsame =>
    have hrest := hk a c b hcb s' hs'
    simp only
    generalize k a (c.fill s') = x, k a (b.fill s') = y at hrest
    cases hrest with
    | ok a s'' hs'' hsame' => exact .ok a s'' hs'' (hsame'.trans hsame)
    | error t s'' hs'' hsame' ht => exact .error t s'' hs'' (hsame'.trans hsame) ht
    | overflow s'' hs'' hsame' y => exact .overflow s'' hs'' (hsame'.trans hsame) y
  | error t s' hs' hsame ht => exact .error t s' hs' hsame ht
  | overflow s' hs' hsame y => exact .overflow s' hs' hsame _

/-- Of the machine as a whole only the store may be looked at. -/
theorem Local.get {k : Machine → Exec α} (hs : ∀ m m', m.store = m'.store → k m = k m')
    (hk : ∀ m, Local (k m)) : Local (get >>= k) := by
  intro c b hcb s hfit
  have h := hk (c.fill s) c b hcb s hfit
  have hb : k (b.fill s) = k (c.fill s) := hs _ _ rfl
  rw [Outcome.bind_apply, Outcome.bind_apply, Outcome.get_apply, Outcome.get_apply]
  simpa only [hb] using h

theorem Local.check {r : Except Trap α} (hr : ∀ t, r = .error t → t.bracketing = false) :
    Local (Machine.check r) := by
  cases r with
  | ok a => exact .pure a
  | error t => exact .throw (hr t rfl)

theorem Local.onHeap {op : HeapM α} (h : Ordinary op) : Local (Machine.onHeap op) := by
  intro c b _ s hs
  rw [Machine.onHeap_apply, Machine.onHeap_apply]
  simp only [Context.fill]
  cases hop : op s.store.heap with
  | ok a heap => exact .ok a { s with store.heap := heap } hs rfl
  | error t heap => exact .error t { s with store.heap := heap } hs rfl (h _ _ _ hop)

/-- The module instance is that of the frame. -/
theorem Local.instance_ : Local Machine.instance_ := by
  intro c b hcb s hs
  have happly (d : Context) : Machine.instance_ (d.fill s) =
      Machine.check (s.store.instance_ d.frame.inst) (d.fill s) := by
    change EStateM.bind (Machine.onStack Stack.currentFrame) _ _ = _
    simp only [EStateM.bind, Machine.onStack, Context.fill, Context.activation,
      Stack.currentFrame_of]
    rfl
  have hr : ∀ t, s.store.instance_ c.frame.inst = .error t → t.bracketing = false := by
    intro t ht
    simp only [Store.instance_] at ht
    split at ht
    · cases ht
    · cases ht
      rfl
  rw [happly c, happly b, hcb.inst]
  exact Local.check hr c b hcb s hs

end Local

section onStack

variable {α β : Type}

theorem onStack_bind (op : StackM α) (k : α → StackM β) :
    Machine.onStack (op >>= k) = Machine.onStack op >>= fun a ↦ Machine.onStack (k a) := by
  funext m
  simp only [Machine.onStack, Outcome.bind_apply]
  cases op m.stack <;> rfl

def StackLocal (op : StackM α) : Prop := Local (Machine.onStack op)

theorem StackLocal.pure (a : α) : StackLocal (pure a) := Local.pure a

theorem StackLocal.throw {t : Trap} (ht : t.bracketing = false) :
    StackLocal (throw t : StackM α) := Local.throw ht

theorem StackLocal.bind {op : StackM α} {k : α → StackM β} (h : StackLocal op)
    (hk : ∀ a, StackLocal (k a)) : StackLocal (op >>= k) := by
  rw [StackLocal, onStack_bind]
  exact Local.bind h hk

theorem StackLocal.map {op : StackM α} (h : StackLocal op) (f : α → β) : StackLocal (f <$> op) := by
  rw [map_eq_pure_bind]
  exact h.bind fun a ↦ .pure (f a)

theorem peekValue_fill (c : Context) (s : Scope) :
    Machine.onStack Stack.peekValue (c.fill s) = match s.operands with
      | v :: _ => .ok v (c.fill s)
      | [] => .error .stackUnderflow (c.fill s) := by
  simp only [Machine.onStack, Context.fill, Context.activation, Stack.peekValue_of]
  cases s.operands <;> rfl

theorem pushValue_fill (c : Context) (s : Scope) (v : Value) :
    Machine.onStack (Stack.pushValue v) (c.fill s) =
      if c.base + s.operands.length < c.limit then
        .ok () (c.fill { s with operands := v :: s.operands })
      else .error .stackOverflow (c.fill s) := by
  have hh := c.height_activation s
  simp only [Context.activation] at hh
  simp only [Machine.onStack, Context.fill, Context.activation, Stack.pushValue_of, hh]
  by_cases h : c.base + s.operands.length < c.limit <;> simp only [h, if_true, if_false]

theorem StackLocal.peekValue : StackLocal Stack.peekValue := by
  intro c b _ s hs
  rw [peekValue_fill, peekValue_fill]
  cases s.operands with
  | nil => exact .error _ s hs rfl rfl
  | cons v vs => exact .ok v s hs rfl

theorem StackLocal.pushValue (v : Value) : StackLocal (Stack.pushValue v) := by
  intro c b hcb s hs
  rw [pushValue_fill, pushValue_fill]
  by_cases h : c.base + s.operands.length < c.limit
  · have hb : b.base + s.operands.length < b.limit := by
      have := hcb.base
      have := hcb.limit
      omega
    rw [if_pos h, if_pos hb]
    exact .ok () { s with operands := v :: s.operands } h rfl
  · rw [if_neg h]
    exact .overflow s (Nat.le_antisymm hs (Nat.not_lt.mp h)) rfl _

/-- Looking at the top operand and dropping it. -/
theorem StackLocal.peekDrop {k : Value → StackM α} {take : Value → Bool}
    (hk : ∀ v, take v = false → StackLocal (k v))
    (hd : ∀ v, take v = true → ∃ a, k v = Stack.dropTop >>= fun _ ↦ Pure.pure a) :
    StackLocal (Stack.peekValue >>= k) := by
  intro c b hcb s hs
  rw [onStack_bind, Outcome.bind_apply, Outcome.bind_apply, peekValue_fill, peekValue_fill]
  cases hv : s.operands with
  | nil => exact .error _ s hs rfl rfl
  | cons v vs =>
    simp only
    cases ht : take v with
    | false => exact hk v ht c b hcb s hs
    | true =>
      obtain ⟨a, ha⟩ := hd v ht
      have hdrop (d : Context) :
          Machine.onStack (Stack.dropTop >>= fun _ ↦ Pure.pure a) (d.fill s) =
          .ok a (d.fill { s with operands := vs }) := by
        simp only [Machine.onStack, Outcome.bind_apply, Context.fill, Context.activation, hv,
          Stack.dropTop_of, Outcome.pure_apply]
      rw [ha, hdrop, hdrop]
      refine .ok a { s with operands := vs } ?_ rfl
      simp only [Context.Fits, hv, List.length_cons] at hs ⊢
      omega

theorem StackLocal.popValue : StackLocal Stack.popValue :=
  @peekDrop Value _ (fun _ ↦ true) (by simp) fun v _ ↦ ⟨v, rfl⟩

theorem StackLocal.popAs (t : ValType) (view : Value → Option α) :
    StackLocal (Stack.popAs t view) := by
  refine @peekDrop α _ (fun v ↦ (view v).isSome) ?_ ?_
  · intro v hv
    rw [Option.isSome_eq_false_iff, Option.isNone_iff_eq_none] at hv
    simp only [hv]
    exact StackLocal.throw rfl
  · intro v hv
    obtain ⟨a, ha⟩ := Option.isSome_iff_exists.mp hv
    exact ⟨a, by simp only [ha]⟩

theorem StackLocal.popI32 : StackLocal Stack.popI32 := .popAs _ _

theorem StackLocal.popI64 : StackLocal Stack.popI64 := .popAs _ _

theorem StackLocal.popF32 : StackLocal Stack.popF32 := .popAs _ _

theorem StackLocal.popF64 : StackLocal Stack.popF64 := .popAs _ _

theorem StackLocal.popInt (w : Width) : StackLocal (Stack.popInt w) := by
  cases w with
  | w32 => exact .popI32
  | w64 => exact .popI64

theorem StackLocal.popFloat (w : Width) : StackLocal (Stack.popFloat w) := by
  cases w with
  | w32 => exact .popF32
  | w64 => exact .popF64

theorem StackLocal.popNat : StackLocal Stack.popNat := StackLocal.popI32.map _

theorem StackLocal.popRef : StackLocal Stack.popRef := .popAs _ _

theorem StackLocal.popTyped (t : ValType) : StackLocal (Stack.popTyped t) := .popAs _ _

end onStack

end Wasm
