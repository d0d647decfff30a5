import Wasm.Proofs.Instantiate
import Wasm.Engine

namespace Wasm.Engine

open Wasm.Action

variable {ε α β : Type} {M : Module → Prop} {T : Trap → Prop} {E : ε → Prop} {callHost : HostCall}

theorem keeps_attempt {op : Action ε α} {k : Except ε α → Action Trap β} (h : op.Keeps M T E)
    (hk : ∀ r, (∀ e, r = .error e → E e) → (k r).Keeps M T T) :
    Keeps M T T (attempt op >>= k) := by
  intro s hs
  have hop := h s hs
  rw [Outcome.bind_apply]
  unfold attempt
  generalize op s = r at hop
  cases hop with
  | ok hkept =>
    refine (hk _ ?_ _ hkept.sound).after hkept
    rintro e ⟨⟩
  | failed hkept he =>
    refine (hk _ ?_ _ hkept.sound).after hkept
    rintro e ⟨⟩
    exact he
  | outOfFuel hkept => exact .outOfFuel hkept

theorem kept_alloc {s : Store} (hs : s.Sound M T) {e : Host.Fresh Host.Func}
    (he : ∀ f, e = .func f → ∀ args, (f.run args).Within M T)
    (hm : ∀ inst, e = .instance_ inst → M inst.mod) : Store.Kept M T s (s.alloc e).2 := by
  cases e with
  | func f =>
    refine hs.allocFunc ?_
    rintro g ⟨⟩
    exact he f rfl
  | code type inst index => exact hs.allocFunc nofun
  | instance_ inst => exact hs.allocInstance (hm inst rfl)
  | table type slots =>
    obtain h | h := s.alloc_table type slots <;> rw [h] <;> exact hs.same rfl rfl
  | memory type bytes =>
    obtain h | ⟨m, -, h⟩ := s.alloc_memory type bytes <;> rw [h] <;> exact hs.same rfl rfl
  | global type init => exact hs.same rfl rfl
  | elem refs => exact hs.same rfl rfl
  | data bytes => exact hs.same rfl rfl

variable (hM : ∀ m, M m → m.Bracketed) (hT : ∀ t, t.bracketing = false → T t)

include hM hT

theorem keeps_perform (hh : callHost.Honest M T) (fuel : Nat) {act : Host.Act}
    (ha : act.Within M T) : Keeps M T T (perform callHost fuel act) := by
  induction ha with
  | result vs => exact .pure vs
  | report ht => exact .fail ht
  | log _ ih =>
    refine Keeps.bind (.modifyGet ?_) fun _ ↦ ih
    intro s hs
    exact hs.same rfl rfl
  | readLog _ ih => exact Keeps.get.bind fun s ↦ ih s.log
  | get _ ih => exact Keeps.get.bind fun s ↦ ih s.heap
  | put _ ih =>
    refine Keeps.bind (.modifyGet ?_) fun _ ↦ ih
    intro s hs
    exact hs.same rfl rfl
  | alloc hf hi _ _ ih =>
    exact Keeps.bind (.modifyGet fun s hs ↦ kept_alloc hs hf hi) fun addr ↦ ih addr
  | call _ ih => exact keeps_attempt (keeps_call hM hT hh _ _ _) ih
  | invoke _ ih => exact keeps_attempt (keeps_invoke hM hT hh _ _ _ _) ih
  | instantiate hm hr _ _ ih =>
    refine keeps_attempt (Link.keeps_instantiate hM hT hh hm hr) ?_
    intro r hr'
    exact ih r fun e t he ht ↦ hr' e he t ht

/-- Calls of host functions that may call back are within what the host functions are within. -/
theorem honest_hostCall (fuel depth : Nat) : (hostCall fuel depth).Honest M T := by
  induction depth with
  | zero =>
    intro f _ args s hs
    exact .outOfFuel (hs.same rfl rfl)
  | succ n ih =>
    intro f hf args
    exact keeps_perform hM hT ih fuel (hf args)

end Wasm.Engine
