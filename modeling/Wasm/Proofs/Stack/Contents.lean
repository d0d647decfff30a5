import Wasm.Machine.Step
import Wasm.Proofs.Outcome

namespace Wasm

def Trap.dangling : Trap → Bool
  | invalidAddress _ _ => true
  | _ => false

def Value.Scalar (v : Value) : Prop := ∀ a, v ≠ .funcref (some a)

theorem Value.scalar_int (w : Width) (bits : BitVec w.bits) : Scalar (.int w bits) := by
  cases w <;> nofun

theorem Value.scalar_float (w : Width) (bits : BitVec w.bits) : Scalar (.float w bits) := by
  cases w <;> nofun

namespace Stack

variable {α β : Type} {P : Entry → Prop} {Q : α → Prop}

def Holds (P : Entry → Prop) (s : Stack) : Prop := ∀ e ∈ s.entries, P e

/-- An operation that leaves none but entries of the kind `P`, whose result is of the kind `Q`. It
does not fail for want of an address. -/
def Keeps (P : Entry → Prop) (op : StackM α) (Q : α → Prop) : Prop :=
  ∀ s : Stack, s.Holds P → match op s with
    | .ok a s' => s'.Holds P ∧ Q a
    | .error t _ => t.dangling = false

theorem Keeps.pure {a : α} (h : Q a) : Keeps P (pure a) Q := fun _ hs ↦ ⟨hs, h⟩

theorem Keeps.throw {t : Trap} (ht : t.dangling = false) : Keeps P (throw t : StackM α) Q :=
  fun _ _ ↦ ht

theorem Keeps.bind {op : StackM β} {k : β → StackM α} {R : β → Prop} (h : Keeps P op R)
    (hk : ∀ b, R b → Keeps P (k b) Q) : Keeps P (op >>= k) Q := by
  intro s hs
  have hop := h s hs
  rw [Outcome.bind_apply]
  generalize op s = r at hop
  cases r with
  | error t s' => exact hop
  | ok b s' => exact hk b hop.2 s' hop.1

theorem Keeps.map {op : StackM β} {f : β → α} {R : β → Prop} (h : Keeps P op R)
    (hR : ∀ b, R b → Q (f b)) : Keeps P (f <$> op) Q := by
  rw [map_eq_pure_bind]
  exact h.bind fun b hb ↦ .pure (hR b hb)

theorem Keeps.push {e : Entry} (he : P e) : Keeps P (push e) fun _ ↦ True := by
  intro s hs
  by_cases hroom : s.entries.size < s.limit
  · simp only [Stack.push, hroom, if_true]
    refine ⟨fun e' he' ↦ ?_, trivial⟩
    obtain hmem | rfl := Array.mem_push.mp he'
    · exact hs e' hmem
    · exact he
  · simp only [Stack.push, hroom, if_false]
    rfl

theorem Keeps.pushValue {v : Value} (hv : P (.value v)) : Keeps P (pushValue v) fun _ ↦ True :=
  .push hv

theorem Keeps.pushValues {vs : List Value} (hvs : ∀ v ∈ vs, P (.value v)) :
    Keeps P (pushValues vs) fun _ ↦ True := by
  induction vs with
  | nil => exact .pure trivial
  | cons v vs ih =>
    change Keeps P (Stack.pushValue v >>= fun _ ↦ Stack.pushValues vs) _
    refine (Keeps.pushValue (hvs v (List.mem_cons_self ..))).bind fun _ _ ↦ ?_
    exact ih fun w hw ↦ hvs w (List.mem_cons_of_mem _ hw)

theorem Keeps.peekValue : Keeps P peekValue fun v ↦ P (.value v) := by
  intro s hs
  unfold Stack.peekValue
  cases hback : s.entries.back? with
  | none => rfl
  | some e =>
    cases e with
    | value v => exact ⟨hs, hs _ (Array.mem_of_back? hback)⟩
    | label l => rfl
    | frame f => rfl

theorem Keeps.dropTop : Keeps P dropTop fun _ ↦ True := by
  intro s hs
  refine ⟨fun e he ↦ hs e ?_, trivial⟩
  rw [← Array.mem_toList_iff, Array.toList_pop] at he
  exact Array.mem_toList_iff.mp (List.mem_of_mem_dropLast he)

theorem Keeps.popValue : Keeps P popValue fun v ↦ P (.value v) :=
  Keeps.peekValue.bind fun _ hv ↦ Keeps.dropTop.bind fun _ _ ↦ .pure hv

theorem Keeps.popAs (t : ValType) {view : Value → Option α}
    (hview : ∀ v a, P (.value v) → view v = some a → Q a) : Keeps P (popAs t view) Q := by
  refine Keeps.peekValue.bind fun v hv ↦ ?_
  cases ha : view v with
  | none => exact .throw rfl
  | some a => exact Keeps.dropTop.bind fun _ _ ↦ .pure (hview v a hv ha)

theorem Keeps.popTyped (t : ValType) : Keeps P (popTyped t) fun v ↦ P (.value v) := by
  refine .popAs t fun v w hv hw ↦ ?_
  split at hw
  · cases hw
    exact hv
  · cases hw

theorem Keeps.popRef : Keeps P popRef fun v ↦ P (.value v) ∧ v.type.isRef = true := by
  refine .popAs .funcref fun v w hv hw ↦ ?_
  split at hw
  · rename_i href
    cases hw
    exact ⟨hv, href⟩
  · cases hw

/-- A number may be any number. -/
theorem Keeps.popNumber (t : ValType) (view : Value → Option α) :
    Keeps P (Stack.popAs t view) fun _ ↦ True :=
  .popAs t fun _ _ _ _ ↦ trivial

theorem Keeps.popInt (w : Width) : Keeps P (popInt w) fun _ ↦ True := by
  cases w with
  | w32 => exact .popNumber .i32 _
  | w64 => exact .popNumber .i64 _

theorem Keeps.popFloat (w : Width) : Keeps P (popFloat w) fun _ ↦ True := by
  cases w with
  | w32 => exact .popNumber .f32 _
  | w64 => exact .popNumber .f64 _

theorem Keeps.popNat : Keeps P popNat fun _ ↦ True :=
  (Keeps.popNumber .i32 Value.i32?).map fun _ _ ↦ trivial

theorem mem_of_mem_extract {xs : Array α} {x : α} {i j : Nat} (h : x ∈ xs.extract i j) :
    x ∈ xs := by
  obtain ⟨k, hk, rfl⟩ := Array.mem_extract_iff_getElem.mp h
  exact Array.getElem_mem _

theorem Holds.shrink {s : Stack} (hs : s.Holds P) (n : Nat) :
    Holds P { s with entries := s.entries.shrink n } := by
  intro e he
  rw [Array.shrink_eq_take] at he
  exact hs e (mem_of_mem_extract he)

theorem value_of_mapM {es : List Entry} {vs : List Value} (h : es.mapM Entry.value? = some vs)
    {v : Value} (hv : v ∈ vs) : Entry.value v ∈ es := by
  induction es generalizing vs with
  | nil =>
    cases h
    cases hv
  | cons e es ih =>
    simp only [List.mapM_cons, Option.bind_eq_bind, Option.bind_eq_some_iff] at h
    obtain ⟨w, hw, ws, hws, hvs⟩ := h
    cases hvs
    obtain rfl | hmem := List.mem_cons.mp hv
    · cases e <;> cases hw
      exact List.mem_cons_self ..
    · exact List.mem_cons_of_mem _ (ih hws hmem)

theorem Keeps.popValues (n : Nat) : Keeps P (popValues n) fun vs ↦ ∀ v ∈ vs, P (.value v) := by
  intro s hs
  by_cases hn : s.entries.size < n
  · simp only [Stack.popValues, hn, if_true]
    rfl
  · simp only [Stack.popValues, hn, if_false]
    cases hvs : (s.entries.extract (s.entries.size - n)).toList.mapM Entry.value? with
    | none => rfl
    | some vs =>
      refine ⟨hs.shrink _, fun v hv ↦ hs _ ?_⟩
      exact mem_of_mem_extract (Array.mem_toList_iff.mp (value_of_mapM hvs hv))

theorem typeFault?_address {es : List Entry} {ts : List ValType} {t : Trap}
    (h : Entry.typeFault? es ts = some t) : t.dangling = false := by
  induction es generalizing ts with
  | nil => cases h
  | cons e es ih =>
    cases ts with
    | nil => cases e <;> cases h
    | cons u us =>
      cases e with
      | value v =>
        simp only [Entry.typeFault?] at h
        split at h
        · exact ih h
        · cases h
          rfl
      | label l =>
        cases h
        rfl
      | frame f =>
        cases h
        rfl

theorem Keeps.popValuesTyped (ts : List ValType) :
    Keeps P (popValuesTyped ts) fun vs ↦ ∀ v ∈ vs, P (.value v) := by
  intro s hs
  by_cases hn : s.entries.size < ts.length
  · simp only [Stack.popValuesTyped, Outcome.bind_apply, Outcome.get_apply, hn, if_true]
    rfl
  · simp only [Stack.popValuesTyped, Outcome.bind_apply, Outcome.get_apply, hn, if_false]
    cases ht : Entry.typeFault? (s.entries.extract (s.entries.size - ts.length)).toList ts with
    | some t => exact typeFault?_address ht
    | none => exact Keeps.popValues ts.length s hs

theorem Keeps.pushLabel {l : Label} (hl : P (.label l)) : Keeps P (pushLabel l) fun _ ↦ True :=
  (Keeps.popValues l.params).bind fun _ hvs ↦ (Keeps.push hl).bind fun _ _ ↦ .pushValues hvs

/-- Where the frames are does not matter. -/
theorem Keeps.modifyFrames (f : Array Nat → Array Nat) :
    Keeps P (modify fun s ↦ { s with frames := f s.frames }) fun _ ↦ True :=
  fun _ hs ↦ ⟨hs, trivial⟩

theorem Keeps.get {k : Stack → StackM α} (hk : ∀ s, s.Holds P → Keeps P (k s) Q) :
    Keeps P (get >>= k) Q :=
  fun s hs ↦ hk s hs s hs

theorem Keeps.pushFrame {f : Frame} (hf : P (.frame f)) : Keeps P (pushFrame f) fun _ ↦ True :=
  .get fun s _ ↦ (Keeps.push hf).bind fun _ _ ↦ .modifyFrames (·.push s.entries.size)

theorem Keeps.frameIndex : Keeps P frameIndex fun _ ↦ True := by
  intro s hs
  unfold Stack.frameIndex
  cases s.frames.back? with
  | none => rfl
  | some i => exact ⟨hs, trivial⟩

theorem Keeps.currentFrame : Keeps P currentFrame fun f ↦ P (.frame f) := by
  refine Keeps.frameIndex.bind fun i _ ↦ .get fun s hs ↦ ?_
  cases he : s.entries[i]? with
  | none => exact .throw rfl
  | some e =>
    cases e with
    | frame f => exact .pure (hs _ (Array.mem_of_getElem? he))
    | value v => exact .throw rfl
    | label l => exact .throw rfl

theorem Keeps.onFrame {op : EStateM Trap Frame α}
    (hop : ∀ f, P (.frame f) → match op f with
      | .ok a f' => P (.frame f') ∧ Q a
      | .error t _ => t.dangling = false) : Keeps P (onFrame op) Q := by
  refine Keeps.frameIndex.bind fun i _ ↦ ?_
  intro s hs
  by_cases hi : i < s.entries.size
  · simp only [hi, dite_true, onSlot_eq]
    have he := hs s.entries[i] (Array.getElem_mem hi)
    cases hentry : s.entries[i] with
    | value v => rfl
    | label l => rfl
    | frame f =>
      rw [hentry] at he
      have hf := hop f he
      simp only [onEntry]
      generalize op f = r at hf
      cases r with
      | error t f' => exact hf
      | ok a f' =>
        refine ⟨fun e' he' ↦ ?_, hf.2⟩
        obtain hmem | rfl := Array.mem_or_eq_of_mem_set (w := hi) he'
        · exact hs e' hmem
        · exact hf.1
  · simp only [hi, dite_false]
    rfl

theorem Keeps.findLabel? (depth : Nat) : Keeps P (findLabel? depth) fun _ ↦ True :=
  Keeps.frameIndex.bind fun _ _ ↦ .get fun _ _ ↦ .pure trivial

theorem Keeps.currentLabel (depth : Nat) : Keeps P (currentLabel depth) fun _ ↦ True := by
  refine (Keeps.findLabel? depth).bind fun x _ ↦ ?_
  cases x with
  | none => exact .throw rfl
  | some x => exact .pure trivial

theorem Keeps.unwind (place n : Nat) : Keeps P (unwind place n) fun _ ↦ True := by
  refine (Keeps.popValues n).bind fun vs hvs ↦ ?_
  refine @Keeps.bind _ _ _ _ _ _ (fun _ ↦ True) ?_ fun _ _ ↦ .pushValues hvs
  exact fun s hs ↦ ⟨hs.shrink place, trivial⟩

theorem Keeps.popLabel : Keeps P popLabel fun _ ↦ True := by
  refine (Keeps.findLabel? 0).bind fun x _ ↦ ?_
  cases x with
  | none => exact .throw rfl
  | some x => exact (Keeps.unwind x.1 x.2.arity).bind fun _ _ ↦ .pure trivial

theorem Keeps.branch (depth : Nat) : Keeps P (branch depth) fun _ ↦ True := by
  refine (Keeps.findLabel? depth).bind fun x _ ↦ ?_
  cases x with
  | none => exact .pure trivial
  | some x => exact (Keeps.unwind x.1 x.2.branchArity).bind fun _ _ ↦ .pure trivial

theorem Keeps.popFrame : Keeps P popFrame fun _ ↦ True :=
  Keeps.frameIndex.bind fun i _ ↦ Keeps.currentFrame.bind fun f _ ↦
    (Keeps.unwind i f.arity).bind fun _ _ ↦ (Keeps.modifyFrames Array.pop).bind fun _ _ ↦
      .pure trivial

end Stack

theorem IBin.eval_address {w : Nat} {x y : BitVec w} {op : IBin} {t : Trap}
    (h : op.eval x y = .error t) : t.dangling = false := by
  cases op with
  | div s => cases s <;> grind [IBin.eval, Trap.dangling]
  | rem s => cases s <;> grind [IBin.eval, Trap.dangling]
  | shr s => cases s <;> cases h
  | _ => cases h

theorem Fp.toInt_address {w dst : Width} {s : Sign} {x : Fp.Bits w} {t : Trap}
    (h : Fp.toInt dst s x = .error t) : t.dangling = false := by
  grind [Fp.toInt, Trap.dangling]

namespace Stack

variable {α : Type} {P : Entry → Prop}

theorem Keeps.pushResult {r : Except Trap α} {f : α → Value} (hf : ∀ a, P (.value (f a)))
    (hr : ∀ t, r = .error t → t.dangling = false) :
    Keeps P (pushResult (r.map f)) fun _ ↦ True := by
  cases r with
  | ok a => exact .pushValue (hf a)
  | error t => exact .throw (hr t rfl)

theorem Keeps.storeOperand (op : StoreOp) : Keeps P op.popOperand fun _ ↦ True := by
  cases op with
  | full t => cases t <;> exact (Keeps.popNumber _ _).map fun _ _ ↦ trivial
  | narrow n => exact (Keeps.popInt n.width).map fun _ _ ↦ trivial

theorem Keeps.numeric (hP : ∀ v : Value, v.Scalar → P (.value v)) (op : NumOp) :
    Keeps P op.exec fun _ ↦ True := by
  have hint (w : Width) (bits : BitVec w.bits) := hP _ (Value.scalar_int w bits)
  have hfloat (w : Width) (bits : BitVec w.bits) := hP _ (Value.scalar_float w bits)
  cases op with
  | eqz w => exact (Keeps.popInt w).bind fun _ _ ↦ .pushValue (hP _ nofun)
  | irel w op =>
    exact (Keeps.popInt w).bind fun _ _ ↦ (Keeps.popInt w).bind fun _ _ ↦ .pushValue (hP _ nofun)
  | frel w op =>
    exact (Keeps.popFloat w).bind fun _ _ ↦ (Keeps.popFloat w).bind fun _ _ ↦
      .pushValue (hP _ nofun)
  | iun w op => exact (Keeps.popInt w).bind fun _ _ ↦ .pushValue (hint w _)
  | ibin w op =>
    exact (Keeps.popInt w).bind fun _ _ ↦ (Keeps.popInt w).bind fun _ _ ↦
      .pushResult (hint w) fun _ ↦ IBin.eval_address
  | funary w op => exact (Keeps.popFloat w).bind fun _ _ ↦ .pushValue (hfloat w _)
  | fbin w op =>
    exact (Keeps.popFloat w).bind fun _ _ ↦ (Keeps.popFloat w).bind fun _ _ ↦
      .pushValue (hfloat w _)
  | wrap => exact (Keeps.popNumber _ _).bind fun _ _ ↦ .pushValue (hP _ nofun)
  | extend s => exact (Keeps.popNumber _ _).bind fun _ _ ↦ .pushValue (hP _ nofun)
  | trunc dst src s =>
    exact (Keeps.popFloat src).bind fun _ _ ↦ .pushResult (hint dst) fun _ ↦ Fp.toInt_address
  | truncSat dst src s => exact (Keeps.popFloat src).bind fun _ _ ↦ .pushValue (hint dst _)
  | convert dst src s => exact (Keeps.popInt src).bind fun _ _ ↦ .pushValue (hfloat dst _)
  | demote => exact (Keeps.popNumber _ _).bind fun _ _ ↦ .pushValue (hP _ nofun)
  | promote => exact (Keeps.popNumber _ _).bind fun _ _ ↦ .pushValue (hP _ nofun)
  | bitsOfFloat w => exact (Keeps.popFloat w).bind fun _ _ ↦ .pushValue (hint w _)
  | floatOfBits w => exact (Keeps.popInt w).bind fun _ _ ↦ .pushValue (hfloat w _)
  | signExtend n => exact (Keeps.popInt n.width).bind fun _ _ ↦ .pushValue (hint n.width _)

end Stack

end Wasm
