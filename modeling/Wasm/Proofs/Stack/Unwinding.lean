import Wasm.Proofs.Stack.Coherence

namespace Wasm.Stack

open Outcome

variable {α : Type} {s s' : Stack} {limit d f i n : Nat} {fr : Frame} {l : Label}
  {vs ws : List Value}

theorem Tops.unique (h : s.Tops vs) (h' : s.Tops ws) (hlen : vs.length = ws.length) : vs = ws := by
  have hmap : vs.map Entry.value = ws.map Entry.value := by
    rw [← h.drop, ← h'.drop, hlen]
  exact List.map_injective_iff.mpr (fun _ _ ↦ Entry.value.inj) hmap

/-- What follows an unwinding goes on with the values that are asked for, and not without them. -/
theorem unwind_bind_ok {k : Unit → StackM α} {a : α} {e : Entry}
    (hfits : s.entries.size ≤ s.limit) (he : s.entries[i]? = some e) (hv : e.value? = none) :
    (unwind i n >>= k) s = .ok a s' ↔
      ∃ vs, vs.length = n ∧ s.Tops vs ∧ k () (s.cut i vs) = .ok a s' := by
  rw [bind_apply]
  rcases unwind_cases hfits he hv n with ⟨vs, hlen, htop, hok⟩ | ⟨hnone, hshort⟩
  · rw [hok]
    constructor
    · intro h
      exact ⟨vs, hlen, htop, h⟩
    · intro h
      obtain ⟨ws, hlen', htop', hws⟩ := h
      rwa [htop.unique htop' (hlen.trans hlen'.symm)]
  · rw [hshort]
    constructor
    · intro h
      cases h
    · intro h
      obtain ⟨ws, hlen, htop, -⟩ := h
      exact absurd htop (hnone ws hlen)

/-- An unwinding to a label, which has a result of its own. -/
theorem unwind_pure_ok {a b : α} (hs : Coherent limit s) (hl : s.entries[i]? = some (.label l)) :
    (unwind i n >>= fun _ ↦ pure a) s = .ok b s' ↔
      ∃ vs, vs.length = n ∧ s.Tops vs ∧ b = a ∧ s' = s.cut i vs := by
  rw [unwind_bind_ok (hs.fits.trans hs.bound.ge) hl rfl]
  simp only [pure_apply, EStateM.Result.ok.injEq, eq_comm]

theorem branch_label (hback : s.frames.back? = some f) (hl : (s.labelsAbove f)[d]? = some (i, l)) :
    branch d s = (unwind i l.branchArity >>= fun _ ↦ pure (.jump l.target)) s := by
  simp only [branch, bind_apply, findLabel?_apply, hback, hl]

theorem branch_leave (hback : s.frames.back? = some f) (hd : (s.labelsAbove f).length ≤ d) :
    branch d s = .ok .leave s := by
  simp only [branch, bind_apply, findLabel?_apply, hback, List.getElem?_eq_none hd, pure_apply]

theorem branch_ok (hs : Coherent limit s) (hback : s.frames.back? = some f)
    (hl : (s.labelsAbove f)[d]? = some (i, l)) {t : Target} :
    branch d s = .ok t s' ↔
      ∃ vs, vs.length = l.branchArity ∧ s.Tops vs ∧ t = .jump l.target ∧ s' = s.cut i vs := by
  rw [branch_label hback hl, unwind_pure_ok hs (mem_labelsAbove (List.mem_of_getElem? hl)).2]

theorem popLabel_ok (hs : Coherent limit s) (hback : s.frames.back? = some f) :
    popLabel s = .ok l s' ↔ ∃ i vs, (s.labelsAbove f).head? = some (i, l) ∧
      vs.length = l.arity ∧ s.Tops vs ∧ s' = s.cut i vs := by
  rw [List.head?_eq_getElem?]
  simp only [popLabel, bind_apply, findLabel?_apply, hback]
  cases hl : (s.labelsAbove f)[0]? with
  | none => simp
  | some x =>
    obtain ⟨j, k⟩ := x
    have hget := (mem_labelsAbove (List.mem_of_getElem? hl)).2
    have hpop := @unwind_pure_ok Label s s' limit j k.arity k k l hs hget
    rw [bind_apply] at hpop
    refine hpop.trans ⟨fun h ↦ ?_, fun h ↦ ?_⟩
    · obtain ⟨vs, hlen, htop, rfl, hcut⟩ := h
      exact ⟨j, vs, rfl, hlen, htop, hcut⟩
    · obtain ⟨i, vs, hx, hlen, htop, hcut⟩ := h
      cases hx
      exact ⟨vs, hlen, htop, rfl, hcut⟩

theorem popFrame_ok {g : Frame} (hs : Coherent limit s) (hf : s.CurrentAt f fr) :
    popFrame s = .ok g s' ↔ ∃ vs, vs.length = fr.arity ∧ s.Tops vs ∧ g = fr ∧
      s' = { s.cut f vs with frames := s.frames.pop } := by
  obtain ⟨hindex, hcurrent⟩ := hs.current hf
  have hpop := @unwind_bind_ok Frame s s' f fr.arity
    (fun _ ↦ do modify fun s ↦ { s with frames := s.frames.pop }; return fr) g (.frame fr)
    (hs.fits.trans hs.bound.ge) hf.1 rfl
  simp only [popFrame, bind_apply, hindex, hcurrent] at hpop ⊢
  rw [hpop]
  simp only [modify_apply, pure_apply, EStateM.Result.ok.injEq, eq_comm]
  rfl

theorem pushLabel_ok (h : pushLabel l s = .ok () s') :
    ∃ vs, vs.length = l.params ∧ s.Tops vs ∧ s' = { s with
      entries := (s.entries.toList.take (s.entries.size - l.params) ++ [Entry.label l] ++
        vs.map Entry.value).toArray } := by
  obtain ⟨vs, s₁, hpop, hrest⟩ := bind_ok h
  obtain ⟨_, s₂, hpush, hvalues⟩ := bind_ok hrest
  rcases popValues_cases l.params s with ⟨ws, hlen, htop, hok⟩ | ⟨-, hshort⟩
  · cases hok.symm.trans hpop
    refine ⟨vs, hlen, htop, ?_⟩
    have hev := (evolves_pushValues vs).ok hvalues
    have hentries := pushValues_ok hvalues
    unfold push at hpush
    split at hpush
    · cases hpush
      obtain ⟨⟨es⟩, frames, limit⟩ := s'
      cases hev.frames
      cases hev.limit
      simp only at hentries
      rw [hentries]
      simp [cut]
    · cases hpush
  · cases hshort.symm.trans hpop

/-- The label beneath the topmost values is the innermost one. -/
theorem labelsAbove_innermost {low : List Entry}
    (hs : s.entries.toList = low ++ [Entry.label l] ++ vs.map Entry.value) (hf : f < low.length) :
    (s.labelsAbove f)[0]? = some (low.length, l) := by
  have hentries : s.entries = (low ++ [Entry.label l] ++ Entry.operands vs.reverse).toArray := by
    apply Array.toList_inj.mp
    rw [hs]
    simp [Entry.operands]
  have hfloor : f < (low ++ [Entry.label l]).length := by
    rw [List.length_append]
    omega
  rw [labelsAbove, ← labelBelow?_eq, hentries, List.size_toArray,
    labelBelow?_operands _ _ _ _ hfloor, List.length_append, List.length_singleton,
    labelBelow?_concat_label _ _ _ _ hf]

/-- A loop that is entered and at once branched to is as if it had not been entered. -/
theorem pushLabel_branch (h : Reached limit s) (hf : s.CurrentAt f fr) (hloop : l.isLoop = true)
    (hpush : pushLabel l s = .ok () s') : branch 0 s' = .ok (.jump l.start) s := by
  have hs' : Coherent limit s' := by
    have hrun := (h.run (.pushLabel l)).coherent
    rwa [show (Op.pushLabel l).run s = .ok () s' from hpush] at hrun
  obtain ⟨vs, hlen, htop, rfl⟩ := pushLabel_ok hpush
  have hback := h.coherent.back?.mpr ⟨fr, hf⟩
  have hbelow := htop.beneath hf.1 rfl
  have hplace : (s.entries.toList.take (s.entries.size - l.params)).length =
      s.entries.size - l.params := by
    rw [List.length_take, Array.length_toList]
    omega
  have hlabel := @labelsAbove_innermost
    { s with entries := (s.entries.toList.take (s.entries.size - l.params) ++ [Entry.label l] ++
        vs.map Entry.value).toArray } f l vs _ rfl (by omega)
  have harity : vs.length = l.branchArity := by
    rw [hlen, Label.branchArity, if_pos hloop]
  have htarget : Target.jump l.start = .jump l.target := by
    rw [Label.target, if_pos hloop]
  refine (branch_ok hs' hback hlabel).mpr ⟨vs, harity, List.suffix_append _ _, htarget, ?_⟩
  -- What is beneath the label, and the values above it, are the stack that the loop was entered on.
  have hwhole : s.entries.toList.take (s.entries.size - l.params) ++ vs.map Entry.value =
      s.entries.toList := by
    rw [← hlen, ← htop.drop, List.take_append_drop]
  simp only [cut, List.append_assoc, List.take_left, hwhole]

/-- A branch to a label, the end of a construct and the end of a function each succeed if and only
if the values that they carry over are on top, and leave them on what is beneath the label or the
frame; a branch past the labels of the current frame changes nothing. -/
theorem unwinding_exact (h : Reached limit s) (hf : s.CurrentAt f fr) :
    (∀ d i l, (s.labelsAbove f)[d]? = some (i, l) → ∀ t s', branch d s = .ok t s' ↔
      ∃ vs, vs.length = (if l.isLoop then l.params else l.arity) ∧ s.Tops vs ∧
        t = .jump (if l.isLoop then l.start else l.stop + 1) ∧ s' = s.cut i vs) ∧
    (∀ d, (s.labelsAbove f).length ≤ d → branch d s = .ok .leave s) ∧
    (∀ l s', popLabel s = .ok l s' ↔ ∃ i vs, (s.labelsAbove f).head? = some (i, l) ∧
      vs.length = l.arity ∧ s.Tops vs ∧ s' = s.cut i vs) ∧
    (∀ g s', popFrame s = .ok g s' ↔ ∃ vs, vs.length = fr.arity ∧ s.Tops vs ∧ g = fr ∧
      s' = { s.cut f vs with frames := s.frames.pop }) ∧
    ∀ l s', l.isLoop = true → pushLabel l s = .ok () s' → branch 0 s' = .ok (.jump l.start) s := by
  have hs := h.coherent
  have hback := hs.back?.mpr ⟨fr, hf⟩
  refine ⟨?_, ?_, ?_, ?_, ?_⟩
  · intro d i l hl t s'
    exact branch_ok hs hback hl
  · intro d hd
    exact branch_leave hback hd
  · intro l s'
    exact popLabel_ok hs hback
  · intro g s'
    exact popFrame_ok hs hf
  · intro l s' hloop hpush
    exact pushLabel_branch h hf hloop hpush

def innermost : Frame := ⟨0, none, #[], 0, 1, #[]⟩

/-- A loop with one parameter in a block with one result, with operands in between. -/
def nested : Stack where
  entries := #[.value (.i32 9), .frame innermost, .value (.i32 1), .label ⟨1, 0, 2, 9, false⟩,
    .value (.i32 2), .label ⟨0, 1, 5, 7, true⟩, .value (.i32 3), .value (.i64 4)]
  frames := #[1]
  limit := 8

theorem unwinding_exact_nested : Reached 8 nested ∧ nested.CurrentAt 1 innermost ∧
    branch 0 nested = .ok (.jump 5) (nested.cut 5 [.i64 4]) ∧
    branch 1 nested = .ok (.jump 10) (nested.cut 3 [.i64 4]) ∧
    branch 2 nested = .ok .leave nested := by
  have hnew : Reached 8 ⟨#[], #[], 8⟩ := .new
  have hvalue : Reached 8 ⟨#[.value (.i32 9)], #[], 8⟩ := .run (.pushValue (.i32 9)) hnew
  have hframe : Reached 8 ⟨#[.value (.i32 9), .frame innermost], #[1], 8⟩ :=
    .run (.pushFrame innermost) hvalue
  have hone : Reached 8 ⟨#[.value (.i32 9), .frame innermost, .value (.i32 1)], #[1], 8⟩ :=
    .run (.pushValue (.i32 1)) hframe
  have hblock : Reached 8 ⟨#[.value (.i32 9), .frame innermost, .value (.i32 1),
      .label ⟨1, 0, 2, 9, false⟩], #[1], 8⟩ := .run (.pushLabel ⟨1, 0, 2, 9, false⟩) hone
  have htwo : Reached 8 ⟨#[.value (.i32 9), .frame innermost, .value (.i32 1),
      .label ⟨1, 0, 2, 9, false⟩, .value (.i32 2), .value (.i32 3)], #[1], 8⟩ :=
    .run (.pushValues [.i32 2, .i32 3]) hblock
  have hloop : Reached 8 ⟨#[.value (.i32 9), .frame innermost, .value (.i32 1),
      .label ⟨1, 0, 2, 9, false⟩, .value (.i32 2), .label ⟨0, 1, 5, 7, true⟩, .value (.i32 3)],
      #[1], 8⟩ := .run (.pushLabel ⟨0, 1, 5, 7, true⟩) htwo
  have hnested : Reached 8 nested := .run (.pushValue (.i64 4)) hloop
  obtain ⟨g, hg⟩ := hnested.coherent.back?.mp (show nested.frames.back? = some 1 from rfl)
  cases show some (Entry.frame innermost) = some (Entry.frame g) from hg.1
  obtain ⟨hbranch, hleave, -⟩ := unwinding_exact hnested hg
  have htop : nested.Tops [.i64 4] := ⟨nested.entries.toList.take 7, rfl⟩
  refine ⟨hnested, hg, ?_, ?_, hleave 2 (by decide)⟩
  · exact (hbranch 0 5 ⟨0, 1, 5, 7, true⟩ rfl _ _).mpr ⟨_, rfl, htop, rfl, rfl⟩
  · exact (hbranch 1 3 ⟨1, 0, 2, 9, false⟩ rfl _ _).mpr ⟨_, rfl, htop, rfl, rfl⟩

end Wasm.Stack
