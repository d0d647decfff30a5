import Wasm.Numeric
import Wasm.Proofs.Machine.Operands

namespace Wasm

open Outcome Stack

def Trap.arithmetic : Trap → Bool
  | divisionByZero | integerOverflow | invalidConversion => true
  | _ => false

theorem IBin.eval_arithmetic {w : Nat} {x y : BitVec w} {op : IBin} {e : Trap}
    (h : op.eval x y = .error e) : e.arithmetic = true := by
  cases op with
  | div s => cases s <;> grind [IBin.eval, Trap.arithmetic]
  | rem s => cases s <;> grind [IBin.eval, Trap.arithmetic]
  | shr s => cases s <;> cases h
  | _ => cases h

theorem Fp.toInt_arithmetic {w dst : Width} {s : Sign} {x : Fp.Bits w} {e : Trap}
    (h : Fp.toInt dst s x = .error e) : e.arithmetic = true := by
  grind [Fp.toInt, Trap.arithmetic]

def Trap.operandMissing : Trap → Bool
  | stackUnderflow | typeMismatch _ _ => true
  | _ => false

namespace NumOp

def params : NumOp → List ValType
  | eqz w | iun w _ | convert _ w _ | floatOfBits w => [.int w]
  | irel w _ | ibin w _ => [.int w, .int w]
  | funary w _ | trunc _ w _ | truncSat _ w _ | bitsOfFloat w => [.float w]
  | frel w _ | fbin w _ => [.float w, .float w]
  | wrap => [.i64]
  | extend _ => [.i32]
  | demote => [.f64]
  | promote => [.f32]
  | signExtend n => [.int n.width]

def result : NumOp → ValType
  | eqz _ | irel _ _ | frel _ _ | wrap => .i32
  | iun w _ | ibin w _ | trunc w _ _ | truncSat w _ _ | bitsOfFloat w => .int w
  | funary w _ | fbin w _ | convert w _ _ | floatOfBits w => .float w
  | extend _ => .i64
  | demote => .f32
  | promote => .f64
  | signExtend n => .int n.width

end NumOp

namespace Stack

variable {α : Type} {s : Stack} {v : Value} {vs : List Value} {n : Nat}

def stacked (s : Stack) (vs : List Value) : Stack := vs.foldl pushed s

@[simp] theorem stacked_append_singleton : s.stacked (vs ++ [v]) = (s.stacked vs).pushed v := by
  rw [stacked, List.foldl_append]
  rfl

def without (s : Stack) (n : Nat) : Stack :=
  { s with entries := s.entries.extract 0 (s.entries.size - n) }

@[simp] theorem without_zero : s.without 0 = s := by simp [without]

@[simp] theorem without_pushed : (s.pushed v).without (n + 1) = s.without n := by
  have hsize : (s.entries.push (.value v)).size - (n + 1) = s.entries.size - n := by
    rw [Array.size_push]
    omega
  simp only [without, pushed, hsize]
  rw [Array.extract_push_of_le]
  omega

def Offers (s : Stack) (ts : List ValType) : Prop :=
  ∃ (base : Stack) (vs : List Value), s = base.stacked vs ∧ vs.map Value.type = ts

theorem offers_append_singleton {ts : List ValType} {t : ValType} : s.Offers (ts ++ [t]) ↔
    ∃ (base : Stack) (v : Value), s = pushed base v ∧ v.type = t ∧ base.Offers ts := by
  constructor
  · rintro ⟨base, vs, rfl, hvs⟩
    obtain ⟨us, vs', rfl, hus, hlast⟩ := List.map_eq_append_iff.mp hvs
    obtain ⟨v, rfl, rfl⟩ := List.map_eq_singleton_iff.mp hlast
    exact ⟨base.stacked us, v, stacked_append_singleton, rfl, base, us, rfl, hus⟩
  · rintro ⟨_, v, rfl, rfl, base, vs, rfl, rfl⟩
    exact ⟨base, vs ++ [v], stacked_append_singleton.symm, by simp⟩

/-- An operand is taken, or else the stack does not change. -/
theorem popAs_cases (t : ValType) (view : Value → Option α) (s : Stack) :
    (∃ base v a, s = pushed base v ∧ view v = some a ∧ popAs t view s = .ok a base) ∨
    (∀ base v, s = pushed base v → view v = none) ∧
      ∃ e, e.operandMissing = true ∧ popAs t view s = .error e s := by
  by_cases h : ∃ (base : Stack) (v : Value), s = base.pushed v
  · obtain ⟨base, v, rfl⟩ := h
    cases hv : view v with
    | some a => exact .inl ⟨base, v, a, rfl, hv, popAs_pushed hv⟩
    | none =>
      refine .inr ⟨fun base' v' hs ↦ ?_, .typeMismatch t v.type, rfl, ?_⟩
      · cases pushed_inj hs
        exact hv
      · simp [popAs, peekValue, pushed, hv]
  · refine .inr ⟨fun base v hs ↦ absurd ⟨base, v, hs⟩ h, .stackUnderflow, rfl, ?_⟩
    have hpeek : peekValue s = .error .stackUnderflow s := by
      unfold peekValue
      split
      · rename_i v hback
        obtain ⟨entries, hentries⟩ := Array.back?_eq_some_iff.mp hback
        apply absurd _ h
        refine ⟨{ s with entries }, v, ?_⟩
        rw [pushed, ← hentries]
      · rfl
    rw [popAs, bind_apply, hpeek]

end Stack

structure Obeys (ts : List ValType) (t : ValType) (op : StackM Unit) : Prop where
  typed : ∀ s vs, vs.map Value.type = ts →
    (∃ v, v.type = t ∧ op (s.stacked vs) = pushValue v s) ∨
    ∃ e, e.arithmetic = true ∧ op (s.stacked vs) = .error e s
  untyped : ∀ s, ¬ s.Offers ts → ∃ e n, e.operandMissing = true ∧ n < ts.length ∧
    op s = .error e (s.without n)

namespace Obeys

variable {α : Type} {ts : List ValType} {t : ValType} {w : Width}

theorem result {r : Except Trap Value} (hok : ∀ v, r = .ok v → v.type = t)
    (herror : ∀ e, r = .error e → e.arithmetic = true) : Obeys [] t (pushResult r) := by
  constructor
  · intro s vs hvs
    cases List.map_eq_nil_iff.mp hvs
    cases r with
    | ok v => exact .inl ⟨v, hok v rfl, rfl⟩
    | error e => exact .inr ⟨e, herror e rfl, rfl⟩
  · intro s hs
    exact absurd ⟨s, [], rfl, rfl⟩ hs

theorem result_map {r : Except Trap α} {f : α → Value} (hf : ∀ a, (f a).type = t)
    (herror : ∀ e, r = .error e → e.arithmetic = true) : Obeys [] t (pushResult (r.map f)) := by
  cases r with
  | ok a =>
    refine result ?_ nofun
    rintro _ ⟨⟩
    exact hf a
  | error e =>
    refine result nofun ?_
    rintro _ ⟨⟩
    exact herror e rfl

theorem value {v : Value} (hv : v.type = t) : Obeys [] t (pushValue v) := by
  refine result (r := .ok v) ?_ nofun
  rintro _ ⟨⟩
  exact hv

theorem popAs {t' : ValType} {view : Value → Option α} {k : α → StackM Unit}
    (hview : ∀ v, v.type = t' ↔ ∃ a, view v = some a) (hk : ∀ a, Obeys ts t (k a)) :
    Obeys (ts ++ [t']) t (popAs t' view >>= k) := by
  constructor
  · intro s vs hvs
    obtain ⟨us, vs', rfl, hus, hlast⟩ := List.map_eq_append_iff.mp hvs
    obtain ⟨v, rfl, hv⟩ := List.map_eq_singleton_iff.mp hlast
    obtain ⟨a, ha⟩ := (hview v).mp hv
    rw [stacked_append_singleton, bind_apply, popAs_pushed ha]
    exact (hk a).typed s us hus
  · intro s hs
    rcases popAs_cases t' view s with ⟨base, v, a, rfl, ha, hpop⟩ | ⟨hnone, e, he, hpop⟩
    · have hbase : ¬ base.Offers ts := fun h ↦
        hs (offers_append_singleton.mpr ⟨base, v, rfl, (hview v).mpr ⟨a, ha⟩, h⟩)
      obtain ⟨e, n, he, hn, hop⟩ := (hk a).untyped base hbase
      refine ⟨e, n + 1, he, by simpa using hn, ?_⟩
      rw [bind_apply, hpop, without_pushed]
      exact hop
    · refine ⟨e, 0, he, by simp, ?_⟩
      rw [bind_apply, hpop, without_zero]

theorem popI32 {k : BitVec 32 → StackM Unit} (hk : ∀ a, Obeys ts t (k a)) :
    Obeys (ts ++ [.i32]) t (popI32 >>= k) :=
  popAs (fun v ↦ by cases v <;> simp [Value.type, Value.i32?]) hk

theorem popI64 {k : BitVec 64 → StackM Unit} (hk : ∀ a, Obeys ts t (k a)) :
    Obeys (ts ++ [.i64]) t (popI64 >>= k) :=
  popAs (fun v ↦ by cases v <;> simp [Value.type, Value.i64?]) hk

theorem popF32 {k : BitVec 32 → StackM Unit} (hk : ∀ a, Obeys ts t (k a)) :
    Obeys (ts ++ [.f32]) t (popF32 >>= k) :=
  popAs (fun v ↦ by cases v <;> simp [Value.type, Value.f32?]) hk

theorem popF64 {k : BitVec 64 → StackM Unit} (hk : ∀ a, Obeys ts t (k a)) :
    Obeys (ts ++ [.f64]) t (popF64 >>= k) :=
  popAs (fun v ↦ by cases v <;> simp [Value.type, Value.f64?]) hk

theorem popInt {k : BitVec w.bits → StackM Unit} (hk : ∀ a, Obeys ts t (k a)) :
    Obeys (ts ++ [.int w]) t (popInt w >>= k) := by
  cases w with
  | w32 => exact popI32 hk
  | w64 => exact popI64 hk

theorem popFloat {k : BitVec w.bits → StackM Unit} (hk : ∀ a, Obeys ts t (k a)) :
    Obeys (ts ++ [.float w]) t (popFloat w >>= k) := by
  cases w with
  | w32 => exact popF32 hk
  | w64 => exact popF64 hk

theorem popInts {k : BitVec w.bits → BitVec w.bits → StackM Unit}
    (hk : ∀ y x, Obeys [] t (k y x)) :
    Obeys [.int w, .int w] t (Stack.popInt w >>= fun y ↦ Stack.popInt w >>= k y) :=
  @popInt [.int w] _ _ _ fun y ↦ popInt (hk y)

theorem popFloats {k : BitVec w.bits → BitVec w.bits → StackM Unit}
    (hk : ∀ y x, Obeys [] t (k y x)) :
    Obeys [.float w, .float w] t (Stack.popFloat w >>= fun y ↦ Stack.popFloat w >>= k y) :=
  @popFloat [.float w] _ _ _ fun y ↦ popFloat (hk y)

end Obeys

namespace NumOp

theorem obeys (op : NumOp) : Obeys op.params op.result op.exec := by
  cases op with
  | eqz w => exact .popInt fun x ↦ .value (by rfl)
  | irel w op => exact .popInts fun y x ↦ .value (by rfl)
  | frel w op => exact .popFloats fun y x ↦ .value (by rfl)
  | iun w op => exact .popInt fun x ↦ .value (Value.type_int ..)
  | ibin w op =>
    exact .popInts fun y x ↦ .result_map (fun _ ↦ Value.type_int ..) fun _ ↦ IBin.eval_arithmetic
  | funary w op => exact .popFloat fun x ↦ .value (Value.type_float ..)
  | fbin w op => exact .popFloats fun y x ↦ .value (Value.type_float ..)
  | wrap => exact .popI64 fun x ↦ .value (by rfl)
  | extend s => exact .popI32 fun x ↦ .value (by rfl)
  | trunc dst src s =>
    exact .popFloat fun x ↦ .result_map (fun _ ↦ Value.type_int ..) fun _ ↦ Fp.toInt_arithmetic
  | truncSat dst src s => exact .popFloat fun x ↦ .value (Value.type_int ..)
  | convert dst src s => exact .popInt fun x ↦ .value (Value.type_float ..)
  | demote => exact .popF64 fun x ↦ .value (by rfl)
  | promote => exact .popF32 fun x ↦ .value (by rfl)
  | bitsOfFloat w => exact .popFloat fun x ↦ .value (Value.type_int ..)
  | floatOfBits w => exact .popInt fun x ↦ .value (Value.type_float ..)
  | signExtend n => exact .popInt fun x ↦ .value (Value.type_int ..)

end NumOp

end Wasm
