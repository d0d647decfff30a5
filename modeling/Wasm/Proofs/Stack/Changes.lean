import Wasm.Proofs.Respects
import Wasm.Proofs.Stack.Contents

namespace Wasm

open Outcome

/-- What may become of a frame while it is on the stack. -/
structure Frame.Evolves (f f' : Frame) : Prop where
  inst : f'.inst = f.inst
  func : f'.func = f.func
  arity : f'.arity = f.arity
  body : f'.body = f.body
  types : f'.locals.map Value.type = f.locals.map Value.type

theorem Frame.Evolves.refl (f : Frame) : f.Evolves f := ⟨rfl, rfl, rfl, rfl, rfl⟩

theorem Frame.Evolves.trans {f f' f'' : Frame} (h : f.Evolves f') (h' : f'.Evolves f'') :
    f.Evolves f'' :=
  ⟨h'.inst.trans h.inst, h'.func.trans h.func, h'.arity.trans h.arity, h'.body.trans h.body,
    h'.types.trans h.types⟩

theorem Frame.Evolves.moved (f : Frame) (pc : Nat) : f.Evolves { f with pc } :=
  ⟨rfl, rfl, rfl, rfl, rfl⟩

/-- Setting a local keeps its type, and leaves the other locals alone. -/
theorem Frame.evolves_setLocal (i : Nat) (v : Value) :
    Respects Frame.Evolves (Frame.setLocal i v) := by
  intro f
  unfold Frame.setLocal
  cases hold : f.locals[i]? with
  | none => exact .refl f
  | some old =>
    simp only
    split
    · rename_i htype
      refine ⟨rfl, rfl, rfl, rfl, ?_⟩
      have hold' : (f.locals.map Value.type)[i]? = some v.type := by simp [hold, htype]
      exact (Array.map_setIfInBounds ..).trans (setIfInBounds_of_getElem? hold')
    · exact .refl f

namespace Stack

def Fits (s : Stack) : Prop := s.entries.size ≤ s.limit

/-- What may become of a stack while no function is entered or left. -/
structure Evolves (s s' : Stack) : Prop where
  limit : s'.limit = s.limit
  frames : s'.frames = s.frames
  fits : s.Fits → s'.Fits
  frame : ∀ f', .frame f' ∈ s'.entries → ∃ f, .frame f ∈ s.entries ∧ f.Evolves f'

theorem Evolves.refl (s : Stack) : s.Evolves s := ⟨rfl, rfl, id, fun f hf ↦ ⟨f, hf, .refl f⟩⟩

theorem Evolves.trans {s s' s'' : Stack} (h : s.Evolves s') (h' : s'.Evolves s'') :
    s.Evolves s'' := by
  refine ⟨h'.limit.trans h.limit, h'.frames.trans h.frames, h'.fits ∘ h.fits, fun f'' hf'' ↦ ?_⟩
  obtain ⟨f', hf', hev'⟩ := h'.frame f'' hf''
  obtain ⟨f, hf, hev⟩ := h.frame f' hf'
  exact ⟨f, hf, hev.trans hev'⟩

instance : IsPreorder Stack Evolves where
  refl := .refl
  trans _ _ _ := .trans

variable {α : Type}

/-- Some of the entries are kept, and no other ones are there. -/
theorem Evolves.fewer {s : Stack} {entries : Array Entry} (hsize : entries.size ≤ s.entries.size)
    (hmem : ∀ e ∈ entries, e ∈ s.entries) : s.Evolves { s with entries } :=
  ⟨rfl, rfl, fun h ↦ le_trans hsize h, fun f hf ↦ ⟨f, hmem _ hf, .refl f⟩⟩

theorem Evolves.shrink (s : Stack) (n : Nat) :
    s.Evolves { s with entries := s.entries.shrink n } := by
  rw [Array.shrink_eq_take]
  exact .fewer (by simp) fun e he ↦ mem_of_mem_extract he

/-- Entries that are pushed one by one, but for frames. -/
theorem evolves_push {e : Entry} (he : ∀ f, e ≠ .frame f) : Respects Evolves (push e) := by
  intro s
  unfold push
  split
  · rename_i hroom
    refine ⟨rfl, rfl, fun _ ↦ ?_, fun f hf ↦ ?_⟩
    · simpa [final, Fits] using hroom
    · obtain hf | hf := Array.mem_push.mp hf
      · exact ⟨f, hf, .refl f⟩
      · exact absurd hf.symm (he f)
  · exact .refl s

theorem evolves_pushValue (v : Value) : Respects Evolves (pushValue v) := evolves_push nofun

theorem evolves_pushValues (vs : List Value) : Respects Evolves (pushValues vs) :=
  .forM evolves_pushValue vs

theorem evolves_peekValue : Respects Evolves peekValue := by
  intro s
  unfold peekValue
  split <;> exact .refl s

theorem evolves_dropTop : Respects Evolves dropTop := by
  intro s
  refine .fewer (by simp) fun e he ↦ ?_
  rw [← Array.mem_toList_iff, Array.toList_pop] at he
  exact Array.mem_toList_iff.mp (List.mem_of_mem_dropLast he)

theorem evolves_popValue : Respects Evolves popValue :=
  evolves_peekValue.bind fun v ↦ evolves_dropTop.bind fun _ ↦ .pure v

theorem evolves_popAs (t : ValType) (view : Value → Option α) :
    Respects Evolves (popAs t view) := by
  refine evolves_peekValue.bind fun v ↦ ?_
  cases view v with
  | none => exact .throw _
  | some a => exact evolves_dropTop.bind fun _ ↦ .pure a

theorem evolves_popNat : Respects Evolves popNat := (evolves_popAs .i32 Value.i32?).map _

theorem evolves_popInt (w : Width) : Respects Evolves (popInt w) := by
  cases w <;> exact evolves_popAs _ _

theorem evolves_popFloat (w : Width) : Respects Evolves (popFloat w) := by
  cases w <;> exact evolves_popAs _ _

theorem evolves_popValues (n : Nat) : Respects Evolves (popValues n) := by
  intro s
  unfold popValues
  split
  · exact .refl s
  · simp only
    split
    · exact .shrink s _
    · exact .refl s

theorem evolves_popValuesTyped (ts : List ValType) : Respects Evolves (popValuesTyped ts) := by
  intro s
  simp only [popValuesTyped, bind_apply, get_apply]
  by_cases hn : s.entries.size < ts.length
  · simp only [hn, if_true]
    exact .refl s
  · simp only [hn, if_false]
    cases Entry.typeFault? (s.entries.extract (s.entries.size - ts.length)).toList ts with
    | some t => exact .refl s
    | none => exact evolves_popValues ts.length s

theorem evolves_pushLabel (l : Label) : Respects Evolves (pushLabel l) :=
  (evolves_popValues l.params).bind fun vs ↦ (evolves_push (e := .label l) nofun).bind
    fun _ ↦ evolves_pushValues vs

theorem reads_frameIndex : Respects Eq frameIndex := by
  intro s
  unfold frameIndex
  split <;> rfl

theorem reads_currentFrame : Respects Eq currentFrame := by
  refine reads_frameIndex.bind fun i ↦ Respects.get.bind fun s ↦ ?_
  split
  · exact .pure _
  · exact .throw _

theorem Evolves.of_eq {s s' : Stack} (h : s = s') : s.Evolves s' := h ▸ .refl s

theorem evolves_frameIndex : Respects Evolves frameIndex := reads_frameIndex.mono fun _ _ ↦ .of_eq

theorem evolves_currentFrame : Respects Evolves currentFrame :=
  reads_currentFrame.mono fun _ _ ↦ .of_eq

theorem currentFrame_ok {s s' : Stack} {f : Frame} (h : currentFrame s = .ok f s') :
    s' = s ∧ .frame f ∈ s.entries := by
  have hread := reads_currentFrame s
  have hframe := Keeps.currentFrame (P := (· ∈ s.entries)) s fun _ he ↦ he
  rw [h] at hread hframe
  exact ⟨hread.symm, hframe.2⟩

/-- An operation on the current frame. -/
theorem evolves_onFrame {op : EStateM Trap Frame α} (hop : Respects Frame.Evolves op) :
    Respects Evolves (onFrame op) := by
  refine evolves_frameIndex.bind fun i ↦ ?_
  intro s
  by_cases hi : i < s.entries.size
  · simp only [hi, dite_true, onSlot_eq]
    cases hentry : s.entries[i] with
    | value v =>
      simp only [onEntry, ← hentry, Array.set_getElem_self]
      exact .refl s
    | label l =>
      simp only [onEntry, ← hentry, Array.set_getElem_self]
      exact .refl s
    | frame f =>
      have hf := hop f
      have hkept (f' : Frame) (hev : f.Evolves f') :
          s.Evolves { s with entries := s.entries.set i (.frame f') } := by
        refine ⟨rfl, rfl, fun h ↦ by simpa [Fits] using h, fun g hg ↦ ?_⟩
        obtain hmem | heq := Array.mem_or_eq_of_mem_set (w := hi) hg
        · exact ⟨g, hmem, .refl g⟩
        · cases heq
          exact ⟨f, hentry ▸ Array.getElem_mem hi, hev⟩
      simp only [onEntry]
      generalize op f = x at hf
      cases x with
      | ok a f' => exact hkept f' hf
      | error t f' => exact hkept f' hf
  · simp only [hi, dite_false]
    exact .refl s

theorem evolves_findLabel? (depth : Nat) : Respects Evolves (findLabel? depth) :=
  evolves_frameIndex.bind fun _ ↦ Respects.get.bind fun _ ↦ .pure _

theorem evolves_currentLabel (depth : Nat) : Respects Evolves (currentLabel depth) := by
  refine (evolves_findLabel? depth).bind fun x ↦ ?_
  cases x with
  | none => exact .throw _
  | some x => exact .pure _

theorem evolves_unwind (place n : Nat) : Respects Evolves (unwind place n) :=
  (evolves_popValues n).bind fun vs ↦
    (Respects.modify fun s ↦ .shrink s place).bind fun _ ↦ evolves_pushValues vs

theorem evolves_popLabel : Respects Evolves popLabel := by
  refine (evolves_findLabel? 0).bind fun x ↦ ?_
  cases x with
  | none => exact .throw _
  | some x => exact (evolves_unwind x.1 x.2.arity).bind fun _ ↦ .pure _

theorem evolves_branch (depth : Nat) : Respects Evolves (branch depth) := by
  refine (evolves_findLabel? depth).bind fun x ↦ ?_
  cases x with
  | none => exact .pure _
  | some x => exact (evolves_unwind x.1 x.2.branchArity).bind fun _ ↦ .pure _

theorem evolves_pushResult (r : Except Trap Value) : Respects Evolves (pushResult r) := by
  cases r with
  | ok v => exact evolves_pushValue v
  | error t => exact .throw t

theorem evolves_storeOperand (op : StoreOp) : Respects Evolves op.popOperand := by
  cases op with
  | full t => cases t <;> exact (evolves_popAs _ _).map _
  | narrow n => exact (evolves_popInt n.width).map _

theorem evolves_numeric (op : NumOp) : Respects Evolves op.exec := by
  cases op with
  | eqz w => exact (evolves_popInt w).bind fun _ ↦ evolves_pushValue _
  | irel w op =>
    exact (evolves_popInt w).bind fun _ ↦ (evolves_popInt w).bind fun _ ↦ evolves_pushValue _
  | frel w op =>
    exact (evolves_popFloat w).bind fun _ ↦ (evolves_popFloat w).bind fun _ ↦ evolves_pushValue _
  | iun w op => exact (evolves_popInt w).bind fun _ ↦ evolves_pushValue _
  | ibin w op =>
    exact (evolves_popInt w).bind fun _ ↦ (evolves_popInt w).bind fun _ ↦ evolves_pushResult _
  | funary w op => exact (evolves_popFloat w).bind fun _ ↦ evolves_pushValue _
  | fbin w op =>
    exact (evolves_popFloat w).bind fun _ ↦ (evolves_popFloat w).bind fun _ ↦ evolves_pushValue _
  | wrap => exact (evolves_popAs _ _).bind fun _ ↦ evolves_pushValue _
  | extend s => exact (evolves_popAs _ _).bind fun _ ↦ evolves_pushValue _
  | trunc dst src s => exact (evolves_popFloat src).bind fun _ ↦ evolves_pushResult _
  | truncSat dst src s => exact (evolves_popFloat src).bind fun _ ↦ evolves_pushValue _
  | convert dst src s => exact (evolves_popInt src).bind fun _ ↦ evolves_pushValue _
  | demote => exact (evolves_popAs _ _).bind fun _ ↦ evolves_pushValue _
  | promote => exact (evolves_popAs _ _).bind fun _ ↦ evolves_pushValue _
  | bitsOfFloat w => exact (evolves_popFloat w).bind fun _ ↦ evolves_pushValue _
  | floatOfBits w => exact (evolves_popInt w).bind fun _ ↦ evolves_pushValue _
  | signExtend n => exact (evolves_popInt n.width).bind fun _ ↦ evolves_pushValue _

theorem evolves_execNumeric (i : Instr) : Respects Evolves i.execNumeric := by
  cases i with
  | numeric op => exact (evolves_numeric op).bind fun _ ↦ .pure _
  | _ => exact .pure _

end Stack

end Wasm
