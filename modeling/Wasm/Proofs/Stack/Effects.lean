import Wasm.Proofs.Stack.Activation

namespace Wasm.Stack

variable {α : Type} {limit : Nat} {bottom : List Value} {as : List Activation} {f : Frame}
  {cs : List (Label × List Value)} {vs : List Value}

theorem of_nil : of limit bottom [] = topped [] #[] limit bottom := rfl

theorem of_cons : of limit bottom (⟨f, cs, vs⟩ :: as) =
    topped (beneath bottom as f cs) (placesOf bottom as ++ [height bottom as]).toArray limit
      vs := by
  simp [of, topped, entriesOf, beneath, Activation.entries, placesOf]

theorem entriesOf_cons : entriesOf bottom (⟨f, cs, vs⟩ :: as) =
    beneath bottom as f cs ++ Entry.operands vs := by
  simp [entriesOf, beneath, Activation.entries]

theorem height_nil : height bottom [] = bottom.length := by
  simp [height, entriesOf]

theorem height_cons :
    height bottom (⟨f, cs, vs⟩ :: as) = (beneath bottom as f cs).length + vs.length := by
  simp [height, entriesOf_cons]

theorem beneath_cons (l : Label) (ws : List Value) : beneath bottom as f ((l, ws) :: cs) =
    (beneath bottom as f cs ++ Entry.operands ws) ++ [.label l] := by
  simp [beneath, Entry.constructs]

theorem beneath_append (ds : List (Label × List Value)) :
    ∃ es, beneath bottom as f (ds ++ cs) = beneath bottom as f cs ++ es := by
  induction ds with
  | nil => exact ⟨[], by simp⟩
  | cons d ds ih =>
    obtain ⟨es, h⟩ := ih
    obtain ⟨l, ws⟩ := d
    exact ⟨es ++ Entry.operands ws ++ [.label l], by simp [beneath_cons, h]⟩

theorem length_beneath (g : Frame) :
    (beneath bottom as g cs).length = (beneath bottom as f cs).length := by
  simp [beneath]

theorem height_lt_beneath : height bottom as < (beneath bottom as f cs).length := by
  simp [beneath, height]

theorem peekValue_of : peekValue (of limit bottom (⟨f, cs, vs⟩ :: as)) = match vs with
    | v :: _ => .ok v (of limit bottom (⟨f, cs, vs⟩ :: as))
    | [] => .error .stackUnderflow (of limit bottom (⟨f, cs, vs⟩ :: as)) := by
  cases vs <;> rw [of_cons, peekValue_topped (sealed_beneath _ _ _ _)]

theorem dropTop_of (v : Value) : dropTop (of limit bottom (⟨f, cs, v :: vs⟩ :: as)) =
    .ok () (of limit bottom (⟨f, cs, vs⟩ :: as)) := by
  rw [of_cons, of_cons, dropTop_topped]

theorem pushValue_of (v : Value) : pushValue v (of limit bottom (⟨f, cs, vs⟩ :: as)) =
    if height bottom (⟨f, cs, vs⟩ :: as) < limit then
      .ok () (of limit bottom (⟨f, cs, v :: vs⟩ :: as))
    else .error .stackOverflow (of limit bottom (⟨f, cs, vs⟩ :: as)) := by
  rw [of_cons, of_cons, pushValue_topped, height_cons]

theorem pushValues_of (ws : List Value)
    (h : height bottom (⟨f, cs, vs⟩ :: as) + ws.length ≤ limit) :
    pushValues ws (of limit bottom (⟨f, cs, vs⟩ :: as)) =
      .ok () (of limit bottom (⟨f, cs, ws.reverse ++ vs⟩ :: as)) := by
  rw [height_cons] at h
  rw [of_cons, of_cons, pushValues_topped _ _ h]

/-- Pushing more values than there is room for fills the stack. -/
theorem pushValues_of_full (ws : List Value) (hfit : height bottom (⟨f, cs, vs⟩ :: as) ≤ limit)
    (h : limit < height bottom (⟨f, cs, vs⟩ :: as) + ws.length) :
    ∃ vs', pushValues ws (of limit bottom (⟨f, cs, vs⟩ :: as)) =
      .error .stackOverflow (of limit bottom (⟨f, cs, vs'⟩ :: as)) ∧
        height bottom (⟨f, cs, vs'⟩ :: as) = limit := by
  rw [height_cons] at hfit h
  refine ⟨(ws.take (limit - ((beneath bottom as f cs).length + vs.length))).reverse ++ vs, ?_, ?_⟩
  · rw [of_cons, of_cons, pushValues_topped_full _ _ hfit h]
  · rw [height_cons]
    simp
    omega

theorem popValues_of (n : Nat) : popValues n (of limit bottom (⟨f, cs, vs⟩ :: as)) =
    if n ≤ vs.length then .ok (vs.take n).reverse (of limit bottom (⟨f, cs, vs.drop n⟩ :: as))
    else .error .stackUnderflow (of limit bottom (⟨f, cs, vs⟩ :: as)) := by
  rw [of_cons, of_cons, popValues_topped (sealed_beneath _ _ _ _)]

theorem popValuesTyped_of (ts : List ValType) (h : ts.length ≤ vs.length) :
    popValuesTyped ts (of limit bottom (⟨f, cs, vs⟩ :: as)) =
      match Value.typeFault? (vs.take ts.length).reverse ts with
      | some t => .error t (of limit bottom (⟨f, cs, vs⟩ :: as))
      | none =>
        .ok (vs.take ts.length).reverse (of limit bottom (⟨f, cs, vs.drop ts.length⟩ :: as)) := by
  cases hf : Value.typeFault? (vs.take ts.length).reverse ts <;>
    rw [of_cons, of_cons, popValuesTyped_topped (sealed_beneath _ _ _ _) _ _ h, hf]

theorem popValuesTyped_of_short (ts : List ValType) (h : vs.length < ts.length) :
    ∃ t, popValuesTyped ts (of limit bottom (⟨f, cs, vs⟩ :: as)) =
      .error t (of limit bottom (⟨f, cs, vs⟩ :: as)) ∧
        (t = .stackUnderflow ∨ ∃ a b, t = .typeMismatch a b) := by
  rw [of_cons]
  exact popValuesTyped_topped_short (sealed_beneath _ _ _ _) _ _ h

theorem frameIndex_of : frameIndex (of limit bottom (⟨f, cs, vs⟩ :: as)) =
    .ok (height bottom as) (of limit bottom (⟨f, cs, vs⟩ :: as)) := by
  simp [of_cons, frameIndex, topped]

theorem lt_size_of : height bottom as < (of limit bottom (⟨f, cs, vs⟩ :: as)).entries.size := by
  simp [of, entriesOf, height, Activation.entries]

theorem getElem_of (h : height bottom as < (of limit bottom (⟨f, cs, vs⟩ :: as)).entries.size) :
    (of limit bottom (⟨f, cs, vs⟩ :: as)).entries[height bottom as] = .frame f := by
  simp [of, entriesOf, height, Activation.entries]

theorem currentFrame_of : currentFrame (of limit bottom (⟨f, cs, vs⟩ :: as)) =
    .ok f (of limit bottom (⟨f, cs, vs⟩ :: as)) := by
  have hget : (of limit bottom (⟨f, cs, vs⟩ :: as)).entries[height bottom as]? =
      some (.frame f) := by
    rw [Array.getElem?_eq_getElem lt_size_of, getElem_of]
  simp only [currentFrame, Outcome.bind_apply, frameIndex_of, Outcome.get_apply, hget]
  rfl

theorem onFrame_apply (op : EStateM Trap Frame α) (s : Stack) :
    onFrame op s = match frameIndex s with
      | .ok i s =>
        if h : i < s.entries.size then
          match onSlot (onEntry op) s.entries i h with
          | .ok a es => .ok a { s with entries := es }
          | .error t es => .error t { s with entries := es }
        else .error (.malformedControl .frameIndex) s
      | .error t s => .error t s := by
  change EStateM.bind frameIndex _ s = _
  unfold EStateM.bind
  cases frameIndex s <;> rfl

theorem onFrame_of (op : EStateM Trap Frame α) :
    onFrame op (of limit bottom (⟨f, cs, vs⟩ :: as)) = match op f with
      | .ok a f' => .ok a (of limit bottom (⟨f', cs, vs⟩ :: as))
      | .error t f' => .error t (of limit bottom (⟨f', cs, vs⟩ :: as)) := by
  have hset (f' : Frame) : (of limit bottom (⟨f, cs, vs⟩ :: as)).entries.set (height bottom as)
      (.frame f') lt_size_of = (of limit bottom (⟨f', cs, vs⟩ :: as)).entries := by
    simp [of, entriesOf, height, Activation.entries]
  rw [onFrame_apply, frameIndex_of]
  simp only [lt_size_of, dif_pos, onSlot_eq, getElem_of, onEntry]
  cases op f with
  | ok a f' => simp only [hset]; rfl
  | error t f' => simp only [hset]; rfl

theorem pushFrame_of (g : Frame) : pushFrame g (of limit bottom as) =
    if height bottom as < limit then .ok () (of limit bottom (⟨g, [], []⟩ :: as))
    else .error .stackOverflow (of limit bottom as) := by
  by_cases h : (entriesOf bottom as).length < limit
  · simp [pushFrame, push, of, h, height, entriesOf, placesOf, Activation.entries, Entry.constructs,
      Entry.operands]
  · simp [pushFrame, push, of, h, height]

theorem labelBelow?_append (es es' : List Entry) (floor i d : Nat) (hi : i ≤ es.length) :
    labelBelow? (es ++ es').toArray floor i d = labelBelow? es.toArray floor i d := by
  induction i generalizing d with
  | zero => rfl
  | succ i ih =>
    have hi' (d : Nat) := ih d (by omega)
    have hget : (es ++ es')[i]? = es[i]? := List.getElem?_append_left (by omega)
    simp only [labelBelow?, List.getElem?_toArray, hget, hi']

theorem labelBelow?_concat_value (es : List Entry) (v : Value) (floor d : Nat)
    (h : floor < es.length) :
    labelBelow? (es ++ [Entry.value v]).toArray floor (es.length + 1) d =
      labelBelow? es.toArray floor es.length d := by
  simp [labelBelow?, Nat.not_le.mpr h, labelBelow?_append es [.value v] floor es.length]

theorem labelBelow?_concat_label (es : List Entry) (l : Label) (floor d : Nat)
    (h : floor < es.length) :
    labelBelow? (es ++ [Entry.label l]).toArray floor (es.length + 1) d = match d with
      | 0 => some (es.length, l)
      | d + 1 => labelBelow? es.toArray floor es.length d := by
  cases d <;>
    simp [labelBelow?, Nat.not_le.mpr h, labelBelow?_append es [.label l] floor es.length]

theorem labelBelow?_operands (es : List Entry) (vs : List Value) (floor d : Nat)
    (h : floor < es.length) :
    labelBelow? (es ++ Entry.operands vs).toArray floor (es ++ Entry.operands vs).length d =
      labelBelow? es.toArray floor es.length d := by
  induction vs with
  | nil => simp [Entry.operands]
  | cons v vs ih =>
    have hsplit : es ++ Entry.operands (v :: vs) = (es ++ Entry.operands vs) ++ [.value v] := by
      simp [Entry.operands]
    have hlen : ((es ++ Entry.operands vs) ++ [Entry.value v]).length =
        (es ++ Entry.operands vs).length + 1 := List.length_append
    have hfloor : floor < (es ++ Entry.operands vs).length := by
      rw [List.length_append]
      omega
    rw [hsplit, hlen, labelBelow?_concat_value _ _ _ _ hfloor, ih]

/-- Looking for a label passes over operands and stops at the frame. -/
theorem labelBelow?_beneath (d : Nat) :
    labelBelow? (beneath bottom as f cs).toArray (height bottom as) (beneath bottom as f cs).length
      d = match cs.drop d with
        | [] => none
        | (l, ws) :: rest => some (height bottom (⟨f, rest, ws⟩ :: as), l) := by
  induction cs generalizing d with
  | nil =>
    have hlen : (beneath bottom as f []).length = height bottom as + 1 := by
      simp [beneath, height, Entry.constructs]
    simp [hlen, labelBelow?]
  | cons c cs ih =>
    obtain ⟨l, ws⟩ := c
    have hfloor : height bottom as < (beneath bottom as f cs ++ Entry.operands ws).length := by
      have h : height bottom as < (beneath bottom as f cs).length := height_lt_beneath
      rw [List.length_append]
      omega
    have hlen : ((beneath bottom as f cs ++ Entry.operands ws) ++ [Entry.label l]).length =
        (beneath bottom as f cs ++ Entry.operands ws).length + 1 := List.length_append
    rw [beneath_cons, hlen, labelBelow?_concat_label _ _ _ _ hfloor]
    cases d with
    | zero => simp [height_cons]
    | succ d =>
      simp only [labelBelow?_operands _ _ _ _ height_lt_beneath, ih, List.drop_succ_cons]

theorem findLabel?_of (d : Nat) : findLabel? d (of limit bottom (⟨f, cs, vs⟩ :: as)) =
    .ok (match cs.drop d with
      | [] => none
      | (l, ws) :: rest => some (height bottom (⟨f, rest, ws⟩ :: as), l))
      (of limit bottom (⟨f, cs, vs⟩ :: as)) := by
  have hentries : (of limit bottom (⟨f, cs, vs⟩ :: as)).entries =
      (beneath bottom as f cs ++ Entry.operands vs).toArray := by rw [of_cons]; rfl
  simp only [findLabel?, Outcome.bind_apply, frameIndex_of, Outcome.get_apply, Outcome.pure_apply,
    hentries, List.size_toArray, labelBelow?_operands _ _ _ _ height_lt_beneath,
    labelBelow?_beneath]

theorem currentLabel_of_nil : currentLabel 0 (of limit bottom (⟨f, [], vs⟩ :: as)) =
    .error (.malformedControl .labelDepth) (of limit bottom (⟨f, [], vs⟩ :: as)) := by
  simp [currentLabel, findLabel?_of]

theorem currentLabel_of_cons (l : Label) (ws : List Value) :
    currentLabel 0 (of limit bottom (⟨f, (l, ws) :: cs, vs⟩ :: as)) =
      .ok l (of limit bottom (⟨f, (l, ws) :: cs, vs⟩ :: as)) := by
  simp [currentLabel, findLabel?_of]

theorem unwind_of {d n : Nat} {l : Label} {ws : List Value} {rest : List (Label × List Value)}
    (hd : cs.drop d = (l, ws) :: rest) (hfit : height bottom (⟨f, cs, vs⟩ :: as) ≤ limit) :
    unwind (height bottom (⟨f, rest, ws⟩ :: as)) n (of limit bottom (⟨f, cs, vs⟩ :: as)) =
      if n ≤ vs.length then .ok () (of limit bottom (⟨f, rest, vs.take n ++ ws⟩ :: as))
      else .error .stackUnderflow (of limit bottom (⟨f, cs, vs⟩ :: as)) := by
  have hcs : cs.take d ++ (l, ws) :: rest = cs := by rw [← hd, List.take_append_drop]
  obtain ⟨es, hes⟩ : ∃ es, beneath bottom as f (cs.take d ++ (l, ws) :: rest) =
      beneath bottom as f ((l, ws) :: rest) ++ es := beneath_append _
  rw [hcs, beneath_cons, List.append_assoc] at hes
  have hs := sealed_beneath bottom as f cs
  rw [height_cons, hes] at hfit
  rw [hes] at hs
  rw [of_cons, hes, height_cons, unwind_topped _ _ hs (by simp at hfit; omega), of_cons]

theorem popLabel_of_nil : popLabel (of limit bottom (⟨f, [], vs⟩ :: as)) =
    .error (.malformedControl .strayEnd) (of limit bottom (⟨f, [], vs⟩ :: as)) := by
  simp [popLabel, findLabel?_of]

theorem popLabel_of_cons (l : Label) (ws : List Value)
    (hfit : height bottom (⟨f, (l, ws) :: cs, vs⟩ :: as) ≤ limit) :
    popLabel (of limit bottom (⟨f, (l, ws) :: cs, vs⟩ :: as)) =
      if l.arity ≤ vs.length then
        .ok l (of limit bottom (⟨f, cs, vs.take l.arity ++ ws⟩ :: as))
      else .error .stackUnderflow (of limit bottom (⟨f, (l, ws) :: cs, vs⟩ :: as)) := by
  have hu := @unwind_of limit bottom as f ((l, ws) :: cs) vs 0 l.arity l ws cs rfl hfit
  by_cases h : l.arity ≤ vs.length <;> simp [popLabel, findLabel?_of, hu, h]

theorem branch_of_nil {d : Nat} (hd : cs.drop d = []) :
    branch d (of limit bottom (⟨f, cs, vs⟩ :: as)) =
      .ok .leave (of limit bottom (⟨f, cs, vs⟩ :: as)) := by
  simp [branch, findLabel?_of, hd]

theorem branch_of_cons {d : Nat} {l : Label} {ws : List Value} {rest : List (Label × List Value)}
    (hd : cs.drop d = (l, ws) :: rest) (hfit : height bottom (⟨f, cs, vs⟩ :: as) ≤ limit) :
    branch d (of limit bottom (⟨f, cs, vs⟩ :: as)) =
      if l.branchArity ≤ vs.length then
        .ok (.jump l.target) (of limit bottom (⟨f, rest, vs.take l.branchArity ++ ws⟩ :: as))
      else .error .stackUnderflow (of limit bottom (⟨f, cs, vs⟩ :: as)) := by
  have hu := @unwind_of limit bottom as f cs vs d l.branchArity l ws rest hd hfit
  by_cases h : l.branchArity ≤ vs.length <;> simp [branch, findLabel?_of, hd, hu, h]

theorem popFrame_topped {es : List Entry} {ws : List Value}
    (hes : entriesOf bottom as = es ++ Entry.operands ws)
    (hfit : height bottom (⟨f, cs, vs⟩ :: as) ≤ limit) :
    popFrame (of limit bottom (⟨f, cs, vs⟩ :: as)) =
      if f.arity ≤ vs.length then
        .ok f (topped es (placesOf bottom as).toArray limit (vs.take f.arity ++ ws))
      else .error .stackUnderflow (of limit bottom (⟨f, cs, vs⟩ :: as)) := by
  have hbase : beneath bottom as f cs =
      es ++ Entry.operands ws ++ .frame f :: Entry.constructs cs := by rw [beneath, hes]
  have hs := sealed_beneath bottom as f cs
  rw [hbase] at hs
  rw [height_cons, hbase] at hfit
  have hroom : es.length + ws.length + vs.length ≤ limit := by simp at hfit; omega
  have hplace : height bottom as = es.length + ws.length := by simp [height, hes]
  have hu := @unwind_topped es (placesOf bottom as ++ [height bottom as]).toArray limit _ ws vs
    f.arity hs hroom
  rw [← hplace, ← hbase, ← of_cons] at hu
  simp only [popFrame, Outcome.bind_apply, frameIndex_of, currentFrame_of, hu]
  by_cases h : f.arity ≤ vs.length <;> simp [h, topped]

/-- The outermost frame leaves its results where the stack began. -/
theorem popFrame_of_nil (hfit : height bottom [⟨f, cs, vs⟩] ≤ limit) :
    popFrame (of limit bottom [⟨f, cs, vs⟩]) =
      if f.arity ≤ vs.length then .ok f (of limit (vs.take f.arity ++ bottom) [])
      else .error .stackUnderflow (of limit bottom [⟨f, cs, vs⟩]) := by
  rw [@popFrame_topped limit bottom [] f cs vs [] bottom rfl hfit]
  rfl

/-- A frame leaves its results to the frame beneath it. -/
theorem popFrame_of_cons {g : Frame} {ds : List (Label × List Value)} {ws : List Value}
    (hfit : height bottom (⟨f, cs, vs⟩ :: ⟨g, ds, ws⟩ :: as) ≤ limit) :
    popFrame (of limit bottom (⟨f, cs, vs⟩ :: ⟨g, ds, ws⟩ :: as)) =
      if f.arity ≤ vs.length then .ok f (of limit bottom (⟨g, ds, vs.take f.arity ++ ws⟩ :: as))
      else .error .stackUnderflow (of limit bottom (⟨f, cs, vs⟩ :: ⟨g, ds, ws⟩ :: as)) := by
  have hof : of limit bottom (⟨g, ds, vs.take f.arity ++ ws⟩ :: as) =
      topped (beneath bottom as g ds) (placesOf bottom (⟨g, ds, ws⟩ :: as)).toArray limit
        (vs.take f.arity ++ ws) := of_cons
  rw [popFrame_topped entriesOf_cons hfit, hof]

theorem pushLabel_of_short {l : Label} (h : vs.length < l.params) :
    pushLabel l (of limit bottom (⟨f, cs, vs⟩ :: as)) =
      .error .stackUnderflow (of limit bottom (⟨f, cs, vs⟩ :: as)) := by
  simp [pushLabel, popValues_of, Nat.not_le.mpr h]

theorem push_label_of (l : Label) (h : height bottom (⟨f, cs, vs⟩ :: as) < limit) :
    push (.label l) (of limit bottom (⟨f, cs, vs⟩ :: as)) =
      .ok () (of limit bottom (⟨f, (l, vs) :: cs, []⟩ :: as)) := by
  rw [height_cons] at h
  simp [push, of_cons, topped, h, beneath_cons, Entry.operands]

theorem height_push_label (l : Label) (ws : List Value) :
    height bottom (⟨f, (l, vs) :: cs, ws⟩ :: as) =
      height bottom (⟨f, cs, vs⟩ :: as) + 1 + ws.length := by
  simp only [height_cons, beneath_cons, List.length_append, length_operands, List.length_singleton]

theorem height_drop (n : Nat) (h : n ≤ vs.length) :
    height bottom (⟨f, cs, vs.drop n⟩ :: as) + n = height bottom (⟨f, cs, vs⟩ :: as) := by
  simp only [height_cons, List.length_drop]
  omega

theorem pushLabel_of {l : Label} (h : l.params ≤ vs.length)
    (hroom : height bottom (⟨f, cs, vs⟩ :: as) < limit) :
    pushLabel l (of limit bottom (⟨f, cs, vs⟩ :: as)) =
      .ok () (of limit bottom (⟨f, (l, vs.drop l.params) :: cs, vs.take l.params⟩ :: as)) := by
  have hd : height bottom (⟨f, cs, vs.drop l.params⟩ :: as) + l.params = _ := height_drop _ h
  have hl := push_label_of l (show height bottom (⟨f, cs, vs.drop l.params⟩ :: as) < limit by omega)
  have hv := pushValues_of (vs.take l.params).reverse
    (show height bottom (⟨f, (l, vs.drop l.params) :: cs, []⟩ :: as) + _ ≤ limit by
      rw [height_push_label]
      simp
      omega)
  simp [pushLabel, popValues_of, h, hl, hv]

/-- On a full stack no construct is entered, and the attempt leaves the stack full. -/
theorem pushLabel_of_full {l : Label} (h : l.params ≤ vs.length)
    (hfull : height bottom (⟨f, cs, vs⟩ :: as) = limit) :
    ∃ ds ws, pushLabel l (of limit bottom (⟨f, cs, vs⟩ :: as)) =
      .error .stackOverflow (of limit bottom (⟨f, ds, ws⟩ :: as)) ∧
        height bottom (⟨f, ds, ws⟩ :: as) = limit := by
  have hd : height bottom (⟨f, cs, vs.drop l.params⟩ :: as) + l.params = _ := height_drop _ h
  cases hp : l.params with
  | zero =>
    refine ⟨cs, vs, ?_, hfull⟩
    have hno : ¬ (of limit bottom (⟨f, cs, vs⟩ :: as)).entries.size < limit := by
      simp only [of, List.size_toArray]
      exact Nat.not_lt.mpr hfull.ge
    have hlim : (of limit bottom (⟨f, cs, vs⟩ :: as)).limit = limit := rfl
    simp [pushLabel, hp, popValues_of, push, hno, hlim]
  | succ n =>
    have hl := push_label_of l
      (show height bottom (⟨f, cs, vs.drop l.params⟩ :: as) < limit by omega)
    have hsize := @height_push_label bottom as f cs (vs.drop l.params) l []
    obtain ⟨ws, hv, hh⟩ := @pushValues_of_full limit bottom as f ((l, vs.drop l.params) :: cs) []
      (vs.take l.params).reverse (by rw [hsize]; simp; omega) (by rw [hsize]; simp; omega)
    refine ⟨_, ws, ?_, hh⟩
    simp [pushLabel, popValues_of, h, hl, hv]

end Wasm.Stack
