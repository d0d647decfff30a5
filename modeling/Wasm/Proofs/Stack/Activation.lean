import Wasm.Machine.Run
import Wasm.Proofs.Outcome

namespace Wasm

def Entry.operands (vs : List Value) : List Entry :=
  (vs.map Entry.value).reverse

/-- Open constructs as entries: each label on top of the operands that were set aside for it. -/
def Entry.constructs : List (Label × List Value) → List Entry
  | [] => []
  | (l, vs) :: cs => constructs cs ++ (operands vs ++ [.label l])

/-- A frame with what has been put on the stack since the frame was pushed. -/
structure Activation where
  frame : Frame
  /-- The open constructs, innermost first: the label, and the operands beneath it. -/
  outer : List (Label × List Value)
  /-- The operands above the innermost label. -/
  operands : List Value

def Activation.entries (a : Activation) : List Entry :=
  .frame a.frame :: (Entry.constructs a.outer ++ Entry.operands a.operands)

namespace Stack

def entriesOf (bottom : List Value) : List Activation → List Entry
  | [] => Entry.operands bottom
  | a :: as => entriesOf bottom as ++ a.entries

def height (bottom : List Value) (as : List Activation) : Nat :=
  (entriesOf bottom as).length

def placesOf (bottom : List Value) : List Activation → List Nat
  | [] => []
  | _ :: as => placesOf bottom as ++ [height bottom as]

def of (limit : Nat) (bottom : List Value) (as : List Activation) : Stack where
  entries := (entriesOf bottom as).toArray
  frames := (placesOf bottom as).toArray
  limit := limit

def Sealed (es : List Entry) : Prop :=
  ∀ v, es.getLast? ≠ some (.value v)

def topped (es : List Entry) (frames : Array Nat) (limit : Nat) (vs : List Value) : Stack where
  entries := (es ++ Entry.operands vs).toArray
  frames := frames
  limit := limit

def beneath (bottom : List Value) (as : List Activation) (f : Frame)
    (cs : List (Label × List Value)) : List Entry :=
  entriesOf bottom as ++ .frame f :: Entry.constructs cs

@[simp] theorem length_operands (vs : List Value) : (Entry.operands vs).length = vs.length := by
  simp [Entry.operands]

theorem operands_split (n : Nat) (vs : List Value) :
    Entry.operands vs = Entry.operands (vs.drop n) ++ Entry.operands (vs.take n) := by
  conv_lhs => rw [← List.take_append_drop n vs]
  simp [Entry.operands]

theorem sealed_nil : Sealed [] := by
  intro v
  simp

theorem sealed_beneath (bottom : List Value) (as : List Activation) (f : Frame)
    (cs : List (Label × List Value)) : Sealed (beneath bottom as f cs) := by
  intro v
  cases cs with
  | nil => simp [beneath, Entry.constructs]
  | cons c cs => simp [beneath, Entry.constructs, List.getLast?_cons]

theorem Sealed.getLast_value? {es : List Entry} (hs : Sealed es) (h : es ≠ []) :
    (es.getLast h).value? = none := by
  cases he : es.getLast h with
  | value v => exact absurd (by rw [List.getLast?_eq_some_getLast h, he]) (hs v)
  | label l => rfl
  | frame f => rfl

theorem getLast_mem_drop {es : List Entry} (h : es ≠ []) {i : Nat} (hi : i < es.length) :
    es.getLast h ∈ es.drop i := by
  have hd : es.drop i ≠ [] := by simp; omega
  rw [← List.getLast_drop hd]
  exact List.getLast_mem hd

theorem mapM_value?_operands (vs : List Value) :
    (Entry.operands vs).mapM Entry.value? = some vs.reverse := by
  rw [Entry.operands, ← List.map_reverse]
  induction vs.reverse with
  | nil => rfl
  | cons w ws ih => simp [List.mapM_cons, ih, Entry.value?]

theorem mapM_value?_eq_none {es : List Entry} {e : Entry} (he : e ∈ es) (hv : e.value? = none) :
    es.mapM Entry.value? = none := by
  induction es with
  | nil => cases he
  | cons x xs ih =>
    rcases List.mem_cons.mp he with rfl | hx
    · simp [List.mapM_cons, hv]
    · cases h : x.value? <;> simp [List.mapM_cons, h, ih hx]

section topped

variable {es : List Entry} {frames : Array Nat} {limit : Nat}

theorem peekValue_topped (hs : Sealed es) (vs : List Value) :
    peekValue (topped es frames limit vs) = match vs with
      | v :: _ => .ok v (topped es frames limit vs)
      | [] => .error .stackUnderflow (topped es frames limit vs) := by
  cases vs with
  | nil =>
    simp only [peekValue, topped, Entry.operands, List.map_nil, List.reverse_nil, List.append_nil,
      List.back?_toArray]
    split
    · rename_i v h
      exact absurd h (hs v)
    · rfl
  | cons v vs => simp [peekValue, topped, Entry.operands]

theorem dropTop_topped (v : Value) (vs : List Value) :
    dropTop (topped es frames limit (v :: vs)) = .ok () (topped es frames limit vs) := by
  simp [dropTop, topped, Entry.operands, ← List.append_assoc]

theorem pushValue_topped (v : Value) (vs : List Value) :
    pushValue v (topped es frames limit vs) =
      if es.length + vs.length < limit then .ok () (topped es frames limit (v :: vs))
      else .error .stackOverflow (topped es frames limit vs) := by
  simp [pushValue, push, topped, Entry.operands]

theorem pushValues_cons (w : Value) (ws : List Value) :
    pushValues (w :: ws) = pushValue w >>= fun _ ↦ pushValues ws := rfl

theorem pushValues_topped (ws vs : List Value) (h : es.length + vs.length + ws.length ≤ limit) :
    pushValues ws (topped es frames limit vs) =
      .ok () (topped es frames limit (ws.reverse ++ vs)) := by
  induction ws generalizing vs with
  | nil => rfl
  | cons w ws ih =>
    have hlt : es.length + vs.length < limit := by simp at h; omega
    have hrest := ih (w :: vs) (by simp at h ⊢; omega)
    simp [pushValues_cons, pushValue_topped, hlt, hrest]

theorem pushValues_topped_full (ws vs : List Value) (hf : es.length + vs.length ≤ limit)
    (h : limit < es.length + vs.length + ws.length) :
    pushValues ws (topped es frames limit vs) = .error .stackOverflow
      (topped es frames limit ((ws.take (limit - (es.length + vs.length))).reverse ++ vs)) := by
  induction ws generalizing vs with
  | nil => simp at h; omega
  | cons w ws ih =>
    by_cases hlt : es.length + vs.length < limit
    · have hrest := ih (w :: vs) (by simp; omega) (by simp at h ⊢; omega)
      have hk : limit - (es.length + vs.length) = limit - (es.length + (w :: vs).length) + 1 := by
        simp; omega
      simp [pushValues_cons, pushValue_topped, hlt, hrest, hk]
    · have hk : limit - (es.length + vs.length) = 0 := by omega
      simp [pushValues_cons, pushValue_topped, hlt, hk]

theorem popValues_toArray (n : Nat) (xs : List Entry) (frames : Array Nat) (limit : Nat) :
    popValues n ⟨xs.toArray, frames, limit⟩ =
      if xs.length < n then .error .stackUnderflow ⟨xs.toArray, frames, limit⟩
      else match (xs.drop (xs.length - n)).mapM Entry.value? with
        | some vs => .ok vs ⟨(xs.take (xs.length - n)).toArray, frames, limit⟩
        | none => .error .stackUnderflow ⟨xs.toArray, frames, limit⟩ := by
  have hx : (xs.toArray.extract (xs.length - n) xs.length).toList = xs.drop (xs.length - n) := by
    simp [List.take_of_length_le]
  have ht : xs.toArray.shrink (xs.length - n) = (xs.take (xs.length - n)).toArray := by
    simp
  by_cases hn : xs.length < n
  · simp only [popValues, List.size_toArray, hn, if_true]
  · cases hvs : (xs.drop (xs.length - n)).mapM Entry.value? <;>
      simp only [popValues, List.size_toArray, hx, ht, hn, hvs, if_false]

/-- The entries of which the top `n` operands are the last. -/
theorem operands_cut (es : List Entry) {n : Nat} {vs : List Value} (hn : n ≤ vs.length) :
    (es ++ Entry.operands vs).length - n = (es ++ Entry.operands (vs.drop n)).length ∧
      es ++ Entry.operands vs =
        (es ++ Entry.operands (vs.drop n)) ++ Entry.operands (vs.take n) := by
  constructor
  · simp
    omega
  · rw [operands_split n vs, List.append_assoc]

theorem popValues_topped (hs : Sealed es) (n : Nat) (vs : List Value) :
    popValues n (topped es frames limit vs) =
      if n ≤ vs.length then .ok (vs.take n).reverse (topped es frames limit (vs.drop n))
      else .error .stackUnderflow (topped es frames limit vs) := by
  by_cases hn : n ≤ vs.length
  · have hsize : ¬ (es ++ Entry.operands vs).length < n := by simp; omega
    obtain ⟨hkeep, hsplit⟩ := operands_cut es hn
    rw [topped, popValues_toArray, if_neg hsize, if_pos hn, hkeep, hsplit, List.drop_left,
      List.take_left, mapM_value?_operands]
    rfl
  · rw [topped, popValues_toArray, if_neg hn]
    split
    · rfl
    · rename_i hsize
      simp at hsize
      have hne : es ≠ [] := by
        rintro rfl
        simp at hsize
        omega
      have hpos := List.length_pos_of_ne_nil hne
      have hmem : es.getLast hne ∈
          (es ++ Entry.operands vs).drop ((es ++ Entry.operands vs).length - n) := by
        rw [List.drop_append_of_le_length (by simp; omega)]
        exact List.mem_append_left _ (getLast_mem_drop hne (by simp; omega))
      rw [mapM_value?_eq_none hmem (hs.getLast_value? hne)]

theorem unwind_topped {es' : List Entry} {ws : List Value} (vs : List Value) (n : Nat)
    (hs : Sealed (es ++ Entry.operands ws ++ es'))
    (hfit : es.length + ws.length + vs.length ≤ limit) :
    unwind (es.length + ws.length) n (topped (es ++ Entry.operands ws ++ es') frames limit vs) =
      if n ≤ vs.length then .ok () (topped es frames limit (vs.take n ++ ws))
      else .error .stackUnderflow (topped (es ++ Entry.operands ws ++ es') frames limit vs) := by
  by_cases hn : n ≤ vs.length
  · have hcut : (topped (es ++ Entry.operands ws ++ es') frames limit (vs.drop n)).entries.shrink
        (es.length + ws.length) = (topped es frames limit ws).entries := by
      simp [topped, List.take_append]
    have hroom : es.length + ws.length + (vs.take n).reverse.length ≤ limit := by
      simp only [List.length_reverse, List.length_take]
      omega
    have hpush : pushValues (vs.take n).reverse (topped es frames limit ws) =
        .ok () (topped es frames limit ((vs.take n).reverse.reverse ++ ws)) :=
      pushValues_topped _ _ hroom
    simp only [unwind, Outcome.bind_apply, popValues_topped hs, hn, if_true, Outcome.modify_apply,
      hcut]
    rw [List.reverse_reverse] at hpush
    exact hpush
  · simp only [unwind, Outcome.bind_apply, popValues_topped hs, hn, if_false]

theorem typeFault?_map_value (ws : List Value) (ts : List ValType) :
    Entry.typeFault? (ws.map Entry.value) ts = Value.typeFault? ws ts := by
  induction ws generalizing ts with
  | nil => cases ts <;> rfl
  | cons w ws ih =>
    cases ts with
    | nil => rfl
    | cons t ts => simp [Entry.typeFault?, Value.typeFault?, ih]

theorem typeFault?_trap {es : List Entry} {ts : List ValType} {t : Trap}
    (h : Entry.typeFault? es ts = some t) :
    t = .stackUnderflow ∨ ∃ a b, t = .typeMismatch a b := by
  induction es generalizing ts with
  | nil => simp [Entry.typeFault?] at h
  | cons e es ih =>
    cases ts with
    | nil => simp [Entry.typeFault?] at h
    | cons a ts =>
      cases e with
      | value v =>
        simp only [Entry.typeFault?] at h
        split at h
        · exact ih h
        · exact .inr ⟨_, _, (Option.some.inj h).symm⟩
      | label l => exact .inl (Option.some.inj h).symm
      | frame f => exact .inl (Option.some.inj h).symm

theorem extract_topped (n : Nat) (vs : List Value) (h : n ≤ vs.length) :
    ((topped es frames limit vs).entries.extract
      ((topped es frames limit vs).entries.size - n)).toList =
        (vs.take n).reverse.map Entry.value := by
  obtain ⟨hkeep, hsplit⟩ := operands_cut es h
  have hdrop : (es ++ Entry.operands vs).drop ((es ++ Entry.operands vs).length - n) =
      Entry.operands (vs.take n) := by rw [hkeep, hsplit, List.drop_left]
  simp only [topped, List.size_toArray, Array.toList_extract, List.extract_eq_take_drop]
  rw [List.take_of_length_le (by simp), hdrop, Entry.operands, List.map_reverse]

theorem popValuesTyped_topped (hs : Sealed es) (ts : List ValType) (vs : List Value)
    (h : ts.length ≤ vs.length) :
    popValuesTyped ts (topped es frames limit vs) =
      match Value.typeFault? (vs.take ts.length).reverse ts with
      | some t => .error t (topped es frames limit vs)
      | none => .ok (vs.take ts.length).reverse (topped es frames limit (vs.drop ts.length)) := by
  have hsize : ¬ (topped es frames limit vs).entries.size < ts.length := by simp [topped]; omega
  simp only [popValuesTyped, Outcome.bind_apply, Outcome.get_apply, hsize, if_false,
    extract_topped _ _ h, typeFault?_map_value]
  cases Value.typeFault? (vs.take ts.length).reverse ts with
  | some t => rfl
  | none => simp [popValues_topped hs, h]

/-- With too few operands on top the pop fails. Which trap it is depends on what lies beneath. -/
theorem popValuesTyped_topped_short (hs : Sealed es) (ts : List ValType) (vs : List Value)
    (h : vs.length < ts.length) :
    ∃ t, popValuesTyped ts (topped es frames limit vs) = .error t (topped es frames limit vs) ∧
      (t = .stackUnderflow ∨ ∃ a b, t = .typeMismatch a b) := by
  simp only [popValuesTyped, Outcome.bind_apply, Outcome.get_apply]
  split
  · exact ⟨_, rfl, .inl rfl⟩
  · cases ht : Entry.typeFault? ((topped es frames limit vs).entries.extract
        ((topped es frames limit vs).entries.size - ts.length)).toList ts with
    | some t => exact ⟨t, rfl, typeFault?_trap ht⟩
    | none =>
      refine ⟨_, ?_, .inl rfl⟩
      simp [popValues_topped hs, Nat.not_le.mpr h]

end topped

end Stack

end Wasm
