import Wasm.Proofs.Outcome
import Wasm.Proofs.Store
import Wasm.Proofs.Nesting
import Wasm.Machine.Run

namespace Wasm

def LinkError.trap? : LinkError → Option Trap
  | initTrap _ t | startTrap t => some t
  | _ => none

/-- A host function brings in none but modules of the kind `M`, adds none but such host functions,
and reports none but traps of the kind `T`, as long as it is told none but these. -/
inductive Host.Act.Within (M : Module → Prop) (T : Trap → Prop) : Host.Act → Prop
  | result (vs : List Value) : Within M T (.finish (.ok vs))
  | report {t : Trap} : T t → Within M T (.finish (.error t))
  | log {vs : List Value} {next : Host.Act} : Within M T next → Within M T (.log vs next)
  | readLog {k : Array Value → Host.Act} : (∀ vs, Within M T (k vs)) → Within M T (.readLog k)
  | get {k : Heap → Host.Act} : (∀ h, Within M T (k h)) → Within M T (.get k)
  | put {heap : Heap} {next : Host.Act} : Within M T next → Within M T (.put heap next)
  | alloc {e : Host.Fresh Host.Func} {k : Option Nat → Host.Act} :
    (∀ f, e = .func f → ∀ args, Within M T (f.run args)) →
    (∀ inst, e = .instance_ inst → M inst.mod) → (∀ a, Within M T (k a)) → Within M T (.alloc e k)
  | call {func : Nat} {args : List Value} {k : Except Trap (List Value) → Host.Act} :
    (∀ r, (∀ t, r = .error t → T t) → Within M T (k r)) → Within M T (.call func args k)
  | invoke {inst : Nat} {name : String} {args : List Value}
    {k : Except Trap (List Value) → Host.Act} :
    (∀ r, (∀ t, r = .error t → T t) → Within M T (k r)) → Within M T (.invoke inst name args k)
  | instantiate {m : Module} {r : Host.Resolver} {k : Except LinkError Nat → Host.Act} : M m →
    (∀ source name type f, r.func source name type = some f → ∀ args, Within M T (f.run args)) →
    (∀ x, (∀ e t, x = .error e → e.trap? = some t → T t) → Within M T (k x)) →
    Within M T (.instantiate m r k)

structure Store.Sound (M : Module → Prop) (T : Trap → Prop) (s : Store) : Prop where
  mods : ∀ (i : Nat) (inst : Instance), s.instances[i]? = some inst → M inst.mod
  hosts : ∀ (i : Nat) (f : Host.Func), s.funcs[i]? = some (.host f) →
    ∀ args, (f.run args).Within M T

theorem Store.Sound.congr {M : Module → Prop} {T : Trap → Prop} {s s' : Store} (h : s.Sound M T)
    (hf : s'.funcs = s.funcs) (hi : s'.instances = s.instances) : s'.Sound M T := by
  refine ⟨fun i inst hinst ↦ ?_, fun i f hfunc ↦ ?_⟩
  · rw [hi] at hinst
    exact h.mods i inst hinst
  · rw [hf] at hfunc
    exact h.hosts i f hfunc

def ElemSegment.exprs (e : ElemSegment) : List Code :=
  (match e.mode with
    | .active _ offset => [offset]
    | _ => []) ++
  (match e.items with
    | .exprs es => es
    | .funcs _ => [])

def DataSegment.exprs (d : DataSegment) : List Code :=
  match d.mode with
  | .active _ offset => [offset]
  | .passive => []

/-- The expressions of a module: bodies, initializers, offsets and items of segments. -/
def Module.exprs (m : Module) : List Code :=
  m.functions.map (·.body) ++ m.globals.map (·.init) ++ m.elements.flatMap (·.exprs) ++
    m.data.flatMap (·.exprs)

def Module.Bracketed (m : Module) : Prop := ∀ code ∈ m.exprs, code.WellBracketed

namespace Module.Bracketed

variable {m : Module} (h : m.Bracketed)

include h

theorem global {g : GlobalDef} (hg : g ∈ m.globals) : g.init.WellBracketed := by
  refine h _ ?_
  simp only [exprs, List.mem_append, List.mem_map]
  exact .inl (.inl (.inr ⟨g, hg, rfl⟩))

theorem item {e : ElemSegment} (he : e ∈ m.elements) {es : List Code} (hes : e.items = .exprs es)
    {code : Code} (hc : code ∈ es) : code.WellBracketed := by
  refine h _ ?_
  simp only [exprs, List.mem_append, List.mem_flatMap]
  refine .inl (.inr ⟨e, he, List.mem_append_right _ ?_⟩)
  rw [hes]
  exact hc

theorem elemOffset {e : ElemSegment} (he : e ∈ m.elements) {table : Idx} {offset : Code}
    (hmode : e.mode = .active table offset) : offset.WellBracketed := by
  refine h _ ?_
  simp only [exprs, List.mem_append, List.mem_flatMap]
  refine .inl (.inr ⟨e, he, List.mem_append_left _ ?_⟩)
  rw [hmode]
  exact List.mem_singleton_self _

theorem dataOffset {d : DataSegment} (hd : d ∈ m.data) {memory : Idx} {offset : Code}
    (hmode : d.mode = .active memory offset) : offset.WellBracketed := by
  refine h _ ?_
  simp only [exprs, List.mem_append, List.mem_flatMap]
  refine .inr ⟨d, hd, ?_⟩
  rw [DataSegment.exprs, hmode]
  exact List.mem_singleton_self _

theorem body {f : FuncDef} (hf : f ∈ m.functions) : f.body.WellBracketed := by
  refine h _ ?_
  simp only [exprs, List.mem_append, List.mem_map]
  exact .inl (.inl (.inl ⟨f, hf, rfl⟩))

end Module.Bracketed

theorem Store.Sound.bracketed {M : Module → Prop} {T : Trap → Prop} {s : Store} (h : s.Sound M T)
    (hM : ∀ m, M m → m.Bracketed) {addr : Nat} {body : Code} (hb : s.bodyOf addr = some body) :
    body.WellBracketed := by
  unfold Store.bodyOf at hb
  split at hb
  · simp only [Option.bind_eq_bind, Option.bind_eq_some_iff] at hb
    obtain ⟨owner, ho, f, hf, hbody⟩ := hb
    cases hbody
    exact (hM _ (h.mods _ owner ho)).body (List.mem_of_getElem? hf)
  · cases hb

structure Store.Kept (M : Module → Prop) (T : Trap → Prop) (s s' : Store) : Prop where
  sound : s'.Sound M T
  grows : s.Grows s'

theorem Store.Sound.same {M : Module → Prop} {T : Trap → Prop} {s s' : Store} (h : s.Sound M T)
    (hf : s'.funcs = s.funcs) (hi : s'.instances = s.instances) : Store.Kept M T s s' :=
  ⟨h.congr hf hi, .congr hf hi⟩

theorem Store.Sound.kept {M : Module → Prop} {T : Trap → Prop} {s s' : Store} (h : s.Sound M T)
    (hs : s'.frozen = s.frozen) : Store.Kept M T s s' := by
  have hfuncs : s'.frozen.funcs = s.frozen.funcs := by rw [hs]
  have hinsts : s'.frozen.instances = s.frozen.instances := by rw [hs]
  exact h.same hfuncs hinsts

theorem Store.Kept.trans {M : Module → Prop} {T : Trap → Prop} {s s' s'' : Store}
    (h : Store.Kept M T s s') (h' : Store.Kept M T s' s'') : Store.Kept M T s s'' :=
  ⟨h'.sound, h.grows.trans h'.grows⟩

inductive Settles {ε α : Type} (M : Module → Prop) (T : Trap → Prop) (E : ε → Prop) (s : Store) :
    EStateM.Result (Stop ε) Store α → Prop
  | ok {a : α} {s' : Store} : Store.Kept M T s s' → Settles M T E s (.ok a s')
  | failed {e : ε} {s' : Store} :
    Store.Kept M T s s' → E e → Settles M T E s (.error (.failed e) s')
  | outOfFuel {s' : Store} : Store.Kept M T s s' → Settles M T E s (.error .outOfFuel s')

theorem Settles.after {ε α : Type} {M : Module → Prop} {T : Trap → Prop} {E : ε → Prop}
    {s s' : Store} {r : EStateM.Result (Stop ε) Store α} (h : Settles M T E s' r)
    (hs : Store.Kept M T s s') : Settles M T E s r := by
  cases h with
  | ok hkept => exact .ok (hs.trans hkept)
  | failed hkept he => exact .failed (hs.trans hkept) he
  | outOfFuel hkept => exact .outOfFuel (hs.trans hkept)

def Action.Keeps {ε α : Type} (M : Module → Prop) (T : Trap → Prop) (E : ε → Prop)
    (op : Action ε α) : Prop :=
  ∀ s, s.Sound M T → Settles M T E s (op s)

section Keeps

variable {ε δ α β : Type} {M : Module → Prop} {T : Trap → Prop} {E : ε → Prop}

namespace Action.Keeps

theorem pure (a : α) : Keeps M T E (pure a : Action ε α) := by
  intro s hs
  exact .ok (hs.same rfl rfl)

theorem fail {e : ε} (he : E e) : Keeps M T E (throw (.failed e) : Action ε α) := by
  intro s hs
  exact .failed (hs.same rfl rfl) he

theorem get : Keeps M T E (get : Action ε Store) := by
  intro s hs
  exact .ok (hs.same rfl rfl)

theorem modifyGet {f : Store → α × Store} (hf : ∀ s, s.Sound M T → Store.Kept M T s (f s).2) :
    Keeps M T E (modifyGet f : Action ε α) := by
  intro s hs
  exact .ok (hf s hs)

theorem bind {op : Action ε α} {k : α → Action ε β} (h : op.Keeps M T E)
    (hk : ∀ a, (k a).Keeps M T E) : Keeps M T E (op >>= k) := by
  intro s hs
  have hop := h s hs
  rw [Outcome.bind_apply]
  generalize op s = r at hop
  cases hop with
  | failed hkept he => exact .failed hkept he
  | outOfFuel hkept => exact .outOfFuel hkept
  | @ok a s' hkept =>
    exact (hk a s' hkept.sound).after hkept

theorem check {r : Except ε α} (hr : ∀ e, r = .error e → E e) :
    Keeps M T E (Stop.check r : Action ε α) := by
  cases r with
  | ok a => exact .pure a
  | error e => exact .fail (hr e rfl)

theorem mapError {f : δ → ε} {D : δ → Prop} {op : Action δ α} (h : op.Keeps M T D)
    (hf : ∀ d, D d → E (f d)) : Keeps M T E (Stop.mapError f op) := by
  intro s hs
  have hop := h s hs
  unfold Stop.mapError
  generalize op s = r at hop
  cases hop with
  | ok hkept => exact .ok hkept
  | failed hkept he => exact .failed hkept (hf _ he)
  | outOfFuel hkept => exact .outOfFuel hkept

theorem forM {f : α → Action ε Unit} {xs : List α} (h : ∀ x ∈ xs, (f x).Keeps M T E) :
    Keeps M T E (xs.forM f) := by
  induction xs with
  | nil => exact .pure ()
  | cons x xs ih =>
    change Keeps M T E (f x >>= fun _ ↦ xs.forM f)
    exact (h x (List.mem_cons_self ..)).bind fun _ ↦ ih fun y hy ↦ h y (List.mem_cons_of_mem _ hy)

theorem mapM {f : α → Action ε β} {xs : List α} (h : ∀ x ∈ xs, (f x).Keeps M T E) :
    Keeps M T E (xs.mapM f) := by
  induction xs with
  | nil => exact .pure []
  | cons x xs ih =>
    rw [List.mapM_cons]
    have hxs := ih fun y hy ↦ h y (List.mem_cons_of_mem _ hy)
    exact (h x (List.mem_cons_self ..)).bind fun _ ↦ hxs.bind fun _ ↦ .pure _

theorem foldlM {f : β → α → Action ε β} {xs : List α} (h : ∀ x ∈ xs, ∀ b, (f b x).Keeps M T E)
    (b : β) : Keeps M T E (xs.foldlM f b) := by
  induction xs generalizing b with
  | nil => exact .pure b
  | cons x xs ih =>
    rw [List.foldlM_cons]
    exact (h x (List.mem_cons_self ..) b).bind (ih fun y hy ↦ h y (List.mem_cons_of_mem _ hy))

theorem failure {op : Action ε α} (h : op.Keeps M T E) {s s' : Store} (hs : s.Sound M T) {e : ε}
    (he : op s = .error (.failed e) s') : E e := by
  have hop := h s hs
  rw [he] at hop
  cases hop with
  | failed _ he => exact he

end Action.Keeps

end Keeps

def HostCall.Honest (M : Module → Prop) (T : Trap → Prop) (callHost : HostCall) : Prop :=
  ∀ f : Host.Func, (∀ args, (f.run args).Within M T) → ∀ args, (callHost f args).Keeps M T T

end Wasm
