import Wasm.Proofs.Machine.Seeking
import Wasm.Proofs.Growth

namespace Wasm

open Outcome Stack

namespace Runner

def seeking (look : Exec BlockEnd) (callHost : HostCall) (fuel : Nat) : Runner where
  eval := Machine.Seeking.evalConst look callHost fuel
  call := Machine.Seeking.call look callHost fuel

/-- Machines that remember nothing run as the others do. -/
theorem seeking_afresh {callHost : HostCall}
    (hhost : ∀ f args s, Store.Grows s (final (callHost f args s))) (fuel : Nat) :
    seeking Machine.blockEndAfresh callHost fuel = machine callHost fuel := by
  rw [seeking, Machine.Seeking.call_afresh fuel hhost, Machine.Seeking.evalConst_afresh fuel hhost]

end Runner

namespace Machine

/-- The states in which an instruction, executed in the state `m`, looks for the end of a
construct. -/
inductive LooksUp (m : Machine) : Instr → Machine → Prop
  | block {t : BlockType} {a : Nat × Nat} {m₁ : Machine} : blockArity t m = .ok a m₁ →
    LooksUp m (.block t) m₁
  | loop {t : BlockType} {a : Nat × Nat} {m₁ : Machine} : blockArity t m = .ok a m₁ →
    LooksUp m (.loop t) m₁
  | holds {t : BlockType} {x : BitVec 32} {a : Nat × Nat} {m₁ m₂ : Machine} :
    onStack popI32 m = .ok x m₁ → x ≠ 0 → blockArity t m₁ = .ok a m₂ → LooksUp m (.if_ t) m₂
  | fails {t : BlockType} {m₁ : Machine} : onStack popI32 m = .ok 0 m₁ → LooksUp m (.if_ t) m₁
  | otherwise {t : BlockType} {e : BlockEnd} {pc : Nat} {a : Nat × Nat} {m₁ m₂ m₃ : Machine} :
    onStack popI32 m = .ok 0 m₁ → blockEnd m₁ = .ok e m₂ → e.elsePc = some pc →
    blockArity t m₂ = .ok a m₃ → LooksUp m (.if_ t) m₃

theorem LooksUp.evolves {m m' : Machine} {i : Instr} (h : m.LooksUp i m') : m.Evolves m' := by
  have harity (t : BlockType) := (Program.blockArity (H := fun _ _ ↦ True) t).evolves
  have hpop : Respects Evolves (onStack popI32) := evolves_onStack (evolves_popAs _ _)
  cases h with
  | block ha => exact (harity _).ok ha
  | loop ha => exact (harity _).ok ha
  | holds hx _ ha => exact (hpop.ok hx).trans ((harity _).ok ha)
  | fails hx => exact hpop.ok hx
  | otherwise hx he _ ha =>
    exact (hpop.ok hx).trans ((evolves_blockEnd.ok he).trans ((harity _).ok ha))

section Lookups

variable {look : Exec BlockEnd} {m : Machine} {t : BlockType}

theorem Seeking.enterBlock_congr (isLoop : Bool)
    (h : ∀ a m₁, blockArity t m = .ok a m₁ → look m₁ = blockEnd m₁) :
    Seeking.enterBlock look t isLoop m = Machine.enterBlock t isLoop m := by
  change (blockArity t >>= _) m = (blockArity t >>= _) m
  simp only [bind_apply]
  cases ha : blockArity t m with
  | error e m₁ => rfl
  | ok a m₁ =>
    simp only [h a m₁ ha]

theorem Seeking.enterIf_congr (h : ∀ m', m.LooksUp (.if_ t) m' → look m' = blockEnd m') :
    Seeking.enterIf look t m = Machine.enterIf t m := by
  change (onStack popI32 >>= _) m = (onStack popI32 >>= _) m
  simp only [bind_apply]
  cases hx : onStack popI32 m with
  | error e m₁ => rfl
  | ok x m₁ =>
    by_cases hzero : x = 0
    · subst hzero
      simp only [ne_eq, not_true_eq_false, if_false, bind_apply, h m₁ (.fails hx)]
      cases he : blockEnd m₁ with
      | error e m₂ => rfl
      | ok e m₂ =>
        simp only
        cases hpc : e.elsePc with
        | none => rfl
        | some pc =>
          have henter := enterBlock_congr false fun _ m₃ ha ↦ h m₃ (.otherwise hx he hpc ha)
          simp only [bind_apply, henter]
    · have henter := enterBlock_congr false fun _ m₂ ha ↦ h m₂ (.holds hx hzero ha)
      simp only [ne_eq, hzero, not_false_eq_true, if_true, bind_apply, henter]

/-- These are all the states in which an instruction looks: it does the same in whatever other way
it looks, if that way comes to the same in these states. -/
theorem LooksUp.complete {i : Instr} (h : ∀ m', m.LooksUp i m' → look m' = blockEnd m')
    (length : Nat) : Seeking.exec look length i m = exec length i m := by
  cases i with
  | block t =>
    have henter := Seeking.enterBlock_congr false fun _ m₁ ha ↦ h m₁ (.block ha)
    change (Seeking.enterBlock look t false >>= fun _ ↦ pure Flow.next) m = _
    rw [bind_apply, henter]
    rfl
  | loop t =>
    have henter := Seeking.enterBlock_congr true fun _ m₁ ha ↦ h m₁ (.loop ha)
    change (Seeking.enterBlock look t true >>= fun _ ↦ pure Flow.next) m = _
    rw [bind_apply, henter]
    rfl
  | if_ t => exact Seeking.enterIf_congr h
  | _ => rfl

end Lookups

end Machine

def BlockEnds.answer : EStateM.Result Trap BlockEnds BlockEnd → Except Trap BlockEnd
  | .ok e _ => .ok e
  | .error t _ => .error t

namespace Engine

def hostCallAfresh (fuel : Nat) : (depth : Nat) → HostCall
  | 0 => fun _ _ ↦ throw .outOfFuel
  | n + 1 => fun f args ↦
    (Runner.seeking Machine.blockEndAfresh (hostCallAfresh fuel n) fuel).perform (f.run args)

def afresh (fuel depth : Nat) : Runner :=
  .seeking Machine.blockEndAfresh (hostCallAfresh fuel depth) fuel

theorem grows_hostCall (fuel n : Nat) (f : Host.Func) (args : List Value) (s : Store) :
    s.Grows (final (hostCall fuel n f args s)) :=
  (extends_hostCall fuel n f args s).toGrows

theorem hostCallAfresh_eq (fuel n : Nat) : hostCallAfresh fuel n = hostCall fuel n := by
  -- Machines compare only over one and the same host, so that the hosts are compared first, from
  -- the innermost calls outwards.
  induction n with
  | zero => rfl
  | succ n ih =>
    funext f args
    rw [hostCallAfresh, hostCall, ih, Runner.seeking_afresh (grows_hostCall fuel n)]
    rfl

theorem afresh_eq (fuel n : Nat) : afresh fuel n = .machine (hostCall fuel n) fuel := by
  rw [afresh, hostCallAfresh_eq, Runner.seeking_afresh (grows_hostCall fuel n)]

/-- Whenever a run looks for the end of a construct, it comes to the end that it would find afresh.
So an engine that remembers nothing gives the same results, traps and stores, whatever it is asked
for. -/
theorem cache_transparent :
    (∀ fuel n s m i m' f, Machine.Occurs (hostCall fuel n) s m → m.LooksUp i m' →
      currentFrame m'.stack = .ok f m'.stack →
      BlockEnds.answer (BlockEnds.find f.func f.body m'.pc m'.ends) = f.body.blockEnd m'.pc) ∧
    ∀ fuel n,
      (afresh fuel n).call = Action.call (hostCall fuel n) fuel ∧
      (afresh fuel n).eval = Action.evalConst (hostCall fuel n) fuel ∧
      (afresh fuel n).invoke = Action.invoke (hostCall fuel n) fuel ∧
      (afresh fuel n).instantiate = Link.instantiate (hostCall fuel n) fuel ∧
      (afresh fuel n).perform = perform (hostCall fuel n) fuel := by
  refine ⟨fun fuel n s m i m' f hm hlook hf ↦ ?_, fun fuel n ↦ ?_⟩
  · have hhost := grows_hostCall fuel n
    obtain ⟨const, hremembers⟩ := hm.remembers hhost
    -- An instruction looks after it has taken its operands, not in the state that the run is in.
    have hm' := ((Machine.law_recalls hhost const).evolves hlook.evolves).remembers hremembers
    have hfind := hm'.ends.find m'.pc (hm'.frames f (currentFrame_ok hf).2)
    generalize BlockEnds.find f.func f.body m'.pc m'.ends = x at hfind
    cases x with
    | ok e ends => exact hfind.1.symm
    | error t ends => exact hfind.1.symm
  · rw [afresh_eq]
    exact ⟨rfl, rfl, rfl, rfl, rfl⟩

def chooser : FuncDef :=
  ⟨0, [], #[.i32Const 0, .if_ .empty, .nop, .else_, .nop, .end_, .end_]⟩

def choosing : Store where
  funcs := #[.code ⟨[], []⟩ 0 0]
  instances := #[{
    funcs := #[0]
    mod := { types := [⟨[], []⟩], funcTypes := [0], functions := [chooser] } }]

def choice (operands : Array Entry) : Machine where
  store := choosing
  stack :=
    { entries := #[.frame (Machine.called 0 0 ⟨[], []⟩ chooser [])] ++ operands
      frames := #[0], limit := choosing.config.maxStackEntries }
  pc := 1

/-- The end that was found for the condition is there when the alternative is entered. -/
theorem cache_transparent_choosing :
    ∃ m' f, Machine.Occurs (hostCall 0 0) choosing (choice #[.value (.i32 0)]) ∧
      (choice #[.value (.i32 0)]).LooksUp (.if_ .empty) m' ∧
      currentFrame m'.stack = .ok f m'.stack ∧
      m'.ends.found[(f.func, m'.pc)]? = some ⟨some 3, 5⟩ ∧
      BlockEnds.answer (BlockEnds.find f.func f.body m'.pc m'.ends) = f.body.blockEnd m'.pc := by
  have hoccurs : Machine.Occurs (hostCall 0 0) choosing (choice #[.value (.i32 0)]) :=
    .func 1 0 [] 0
  have hfind : BlockEnds.find (some 0) chooser.body 1 {} = .ok ⟨some 3, 5⟩
      ⟨({} : BlockEnds).found.insert (some 0, 1) ⟨some 3, 5⟩⟩ := by
    simp only [BlockEnds.find, Std.HashMap.getElem?_empty]
    rfl
  have hend : Machine.blockEnd (choice #[]) = .ok ⟨some 3, 5⟩
      { choice #[] with ends := ⟨({} : BlockEnds).found.insert (some 0, 1) ⟨some 3, 5⟩⟩ } := by
    have hframe : currentFrame (choice #[]).stack =
      .ok (Machine.called 0 0 ⟨[], []⟩ chooser []) (choice #[]).stack := rfl
    rw [Machine.blockEnd_apply, hframe]
    simp only [Machine.called, choice, hfind]
  have hlook : (choice #[.value (.i32 0)]).LooksUp (.if_ .empty) _ :=
    .otherwise (t := .empty) rfl hend rfl rfl
  exact ⟨_, _, hoccurs, hlook, rfl, Std.HashMap.getElem?_insert_self,
    cache_transparent.1 0 0 choosing _ (.if_ .empty) _ _ hoccurs hlook rfl⟩

end Engine

end Wasm
