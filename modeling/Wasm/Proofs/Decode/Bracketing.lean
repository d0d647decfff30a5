import Wasm.Decode.Module
import Wasm.Proofs.Outcome
import Wasm.Proofs.Host

namespace Wasm

namespace Reader

variable {α β : Type} {P : α → Prop} {Q : β → Prop}

def Yields (P : α → Prop) (r : Reader α) : Prop := ∀ c a c', r c = .ok a c' → P a

theorem Yields.any (r : Reader α) : Yields (fun _ ↦ True) r := fun _ _ _ _ ↦ trivial

theorem Yields.pure {a : α} (h : P a) : Yields P (pure a) := by
  intro c b c' hb
  cases hb
  exact h

theorem Yields.throw (e : DecodeError) : Yields P (throw e) := by
  intro c b c' hb
  cases hb

theorem Yields.bind {r : Reader α} {k : α → Reader β} (h : Yields P r)
    (hk : ∀ a, P a → Yields Q (k a)) : Yields Q (r >>= k) := by
  intro c b c' hb
  rw [Outcome.bind_apply] at hb
  cases hr : r c with
  | error e c₁ =>
    rw [hr] at hb
    cases hb
  | ok a c₁ =>
    rw [hr] at hb
    exact hk a (h c a c₁ hr) c₁ b c' hb

theorem Yields.then {r : Reader α} {k : α → Reader β} (hk : ∀ a, Yields Q (k a)) :
    Yields Q (r >>= k) :=
  (Yields.any r).bind fun a _ ↦ hk a

theorem Yields.map {r : Reader α} {f : α → β} (h : Yields P r) (hf : ∀ a, P a → Q (f a)) :
    Yields Q (f <$> r) := by
  rw [map_eq_pure_bind]
  exact h.bind fun a ha ↦ .pure (hf a ha)

theorem Yields.times {item : Reader α} (h : Yields P item) (n : Nat) :
    Yields (fun xs ↦ ∀ x ∈ xs, P x) (times item n) := by
  induction n with
  | zero => exact .pure nofun
  | succ n ih =>
    refine h.bind fun x hx ↦ ih.bind fun xs hxs ↦ .pure ?_
    intro y hy
    obtain rfl | hy := List.mem_cons.mp hy
    · exact hx
    · exact hxs y hy

theorem Yields.vector {item : Reader α} (h : Yields P item) :
    Yields (fun xs ↦ ∀ x ∈ xs, P x) (vector item) :=
  .then fun _ ↦ h.times _

theorem Yields.inside {r : Reader α} (h : Yields P r) (c : Cursor) :
    Yields (fun x ↦ P x.1) (inside c r) := by
  intro outer x c' hx
  unfold Reader.inside at hx
  split at hx
  · rename_i a c₁ hr
    cases hx
    exact h c a c₁ hr
  · cases hx

end Reader

inductive Closing : (depth : Nat) → List Instr → Prop
  | last {body : List Instr} : Balanced true body → Closing 0 (body ++ [.end_])
  | close {body rest : List Instr} {d : Nat} : Balanced true body → Closing d rest →
    Closing (d + 1) (body ++ .end_ :: rest)

namespace Closing

variable {d : Nat} {i : Instr} {is : List Instr}

theorem plain (h : Closing d is) (hi : i.plain = true) : Closing d (i :: is) := by
  cases h with
  | last hb => exact last (.plain hi (fun _ ↦ rfl) hb)
  | close hb hr => exact close (.plain hi (fun _ ↦ rfl) hb) hr

theorem opens (h : Closing (d + 1) is) (hi : i.opens = true) : Closing d (i :: is) := by
  cases h with
  | @close body _ _ hb hr =>
    cases hr with
    | @last body' hb' =>
      have happ : i :: (body ++ .end_ :: (body' ++ [.end_])) =
          i :: (body ++ .end_ :: body') ++ [.end_] := by simp
      rw [happ]
      exact last (.construct hi hb hb')
    | @close body' rest _ hb' hr' =>
      have happ : i :: (body ++ .end_ :: (body' ++ .end_ :: rest)) =
          i :: (body ++ .end_ :: body') ++ .end_ :: rest := by simp
      rw [happ]
      exact close (.construct hi hb hb') hr'

end Closing

namespace Reader

def exprRest (types : List FuncType) (n depth : Nat) (i : Instr) : Reader (List Instr) :=
  if i = .end_ then
    match depth with
    | 0 => pure []
    | d + 1 => exprFrom types n d
  else exprFrom types n (if i.opens then depth + 1 else depth)

theorem exprFrom_succ (types : List FuncType) (n d : Nat) : exprFrom types (n + 1) d = do
    let i ← instr types
    return i :: (← exprRest types n d i) := by
  rw [exprFrom]
  refine bind_congr fun i ↦ ?_
  cases i with
  | end_ => cases d <;> rfl
  | _ => rfl

theorem yields_exprFrom (types : List FuncType) (n d : Nat) :
    Yields (Closing d) (exprFrom types n d) := by
  induction n generalizing d with
  | zero => exact .then fun _ ↦ .throw _
  | succ n ih =>
    rw [exprFrom_succ]
    refine .then fun i ↦ ?_
    unfold exprRest
    by_cases hend : i = .end_
    · subst hend
      cases d with
      | zero => exact .pure (.last .nil)
      | succ d => exact (ih d).bind fun is his ↦ .pure (.close .nil his)
    · rw [if_neg hend]
      by_cases hopen : i.opens = true
      · rw [if_pos hopen]
        exact (ih (d + 1)).bind fun is his ↦ .pure (his.opens hopen)
      · rw [if_neg hopen]
        have hplain : i.plain = true := Instr.plain_iff.mpr ⟨by simpa using hopen, hend⟩
        exact (ih d).bind fun is his ↦ .pure (his.plain hplain)

theorem yields_expr (types : List FuncType) : Yields Code.WellBracketed (expr types) := by
  refine .then fun c ↦ (yields_exprFrom types _ 0).bind fun is his ↦ .pure ?_
  cases his with
  | last hb => exact ⟨_, List.toList_toArray, hb⟩

end Reader

end Wasm
