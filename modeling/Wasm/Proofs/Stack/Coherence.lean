import Wasm.Proofs.Machine.Laws

namespace Wasm

open Outcome

def Entry.isFrame : Entry → Bool
  | frame _ => true
  | _ => false

theorem Entry.isFrame_iff {e : Entry} : e.isFrame = true ↔ ∃ f, e = .frame f := by
  cases e <;> simp [isFrame]

theorem getLast?_findIdxs {α : Type} {p : α → Bool} {xs : List α} {i : Nat} :
    (xs.findIdxs p).getLast? = some i ↔
      (∃ x, xs[i]? = some x ∧ p x = true) ∧ ∀ j x, xs[j]? = some x → p x = true → j ≤ i := by
  have hmem (j : Nat) : j ∈ xs.findIdxs p ↔ ∃ x, xs[j]? = some x ∧ p x = true := by
    rw [List.mem_findIdxs_iff_exists_getElem_pos]
    simp [List.getElem?_eq_some_iff]
  have hsorted : (xs.findIdxs p).Pairwise (· < ·) := List.pairwise_findIdxs
  have hmax : (xs.findIdxs p).getLast? = some i ↔
      i ∈ xs.findIdxs p ∧ ∀ j ∈ xs.findIdxs p, j ≤ i := by
    rcases List.eq_nil_or_concat (xs.findIdxs p) with hnil | ⟨low, top, hlow⟩
    · simp [hnil]
    · rw [List.concat_eq_append] at hlow
      rw [hlow, List.pairwise_append] at hsorted
      have hbelow : ∀ j ∈ low, j < top := fun j hj ↦ hsorted.2.2 j hj top (by simp)
      rw [hlow, List.getLast?_concat]
      constructor
      · intro h
        cases h
        refine ⟨by simp, fun j hj ↦ ?_⟩
        rcases List.mem_append.mp hj with hj | hj
        · exact (hbelow j hj).le
        · exact (List.mem_singleton.mp hj).le
      · intro h
        rcases List.mem_append.mp h.1 with hi | hi
        · have hle := h.2 top (by simp)
          have hlt := hbelow i hi
          omega
        · rw [List.mem_singleton.mp hi]
  rw [hmax, hmem]
  refine and_congr_right fun _ ↦ ⟨fun h j x hx hp ↦ h j ((hmem j).mpr ⟨x, hx, hp⟩), ?_⟩
  intro h j hj
  obtain ⟨x, hx, hp⟩ := (hmem j).mp hj
  exact h j x hx hp

namespace Stack

variable {α β : Type} {s s' : Stack} {limit i n : Nat} {vs : List Value}

/-- A stack that keeps to the limit, with the positions of its frames listed in ascending order. -/
structure Coherent (limit : Nat) (s : Stack) : Prop where
  bound : s.limit = limit
  fits : s.entries.size ≤ limit
  frames : s.frames.toList = s.entries.toList.findIdxs Entry.isFrame

theorem Coherent.new (limit : Nat) : Coherent limit { limit } := ⟨rfl, Nat.zero_le _, rfl⟩

def CurrentAt (s : Stack) (i : Nat) (f : Frame) : Prop :=
  s.entries[i]? = some (.frame f) ∧ ∀ j g, s.entries[j]? = some (.frame g) → j ≤ i

theorem Coherent.back? (h : Coherent limit s) :
    s.frames.back? = some i ↔ ∃ f, s.CurrentAt i f := by
  rw [← Array.getLast?_toList, h.frames, getLast?_findIdxs]
  constructor
  · intro h
    obtain ⟨⟨e, he, hf⟩, hmax⟩ := h
    obtain ⟨f, rfl⟩ := Entry.isFrame_iff.mp hf
    exact ⟨f, by simpa using he, fun j g hj ↦ hmax j _ (by simpa using hj) rfl⟩
  · intro h
    obtain ⟨f, hf, hmax⟩ := h
    refine ⟨⟨_, by simpa using hf, rfl⟩, fun j e hj he ↦ ?_⟩
    obtain ⟨g, rfl⟩ := Entry.isFrame_iff.mp he
    exact hmax j g (by simpa using hj)

/-- The values `vs` are on top, the last of them topmost. -/
def Tops (s : Stack) (vs : List Value) : Prop :=
  vs.map Entry.value <:+ s.entries.toList

/-- The first `i` entries, and the values `vs` on top of them. -/
def cut (s : Stack) (i : Nat) (vs : List Value) : Stack :=
  { s with entries := (s.entries.toList.take i ++ vs.map Entry.value).toArray }

theorem cut_size (s : Stack) : s.cut s.entries.size [] = s := by
  simp [cut, ← Array.length_toList]

theorem Tops.nil (s : Stack) : s.Tops [] := List.nil_suffix

theorem Tops.beneath (h : s.Tops vs) {e : Entry} (he : s.entries[i]? = some e)
    (hv : e.value? = none) : i + vs.length < s.entries.size := by
  obtain ⟨low, hlow⟩ := h
  rw [← Array.getElem?_toList, ← hlow] at he
  have hsize : s.entries.size = low.length + vs.length := by
    rw [← Array.length_toList, ← hlow]
    simp
  -- At one of the positions of the values there is a value.
  rcases Nat.lt_or_ge i low.length with hi | hi
  · omega
  · rw [List.getElem?_append_right hi, List.getElem?_map] at he
    obtain ⟨v, -, rfl⟩ := Option.map_eq_some_iff.mp he
    cases hv

theorem Tops.drop (h : s.Tops vs) :
    s.entries.toList.drop (s.entries.size - vs.length) = vs.map Entry.value := by
  obtain ⟨low, hlow⟩ := h
  have hsize : s.entries.size - vs.length = low.length := by
    rw [← Array.length_toList, ← hlow]
    simp
  rw [hsize, ← hlow, List.drop_left]

theorem mapM_value?_map (vs : List Value) : (vs.map Entry.value).mapM Entry.value? = some vs := by
  have h := mapM_value?_operands vs.reverse
  rwa [Entry.operands, ← List.map_reverse, List.reverse_reverse] at h

theorem popValues_cases (n : Nat) (s : Stack) :
    (∃ vs, vs.length = n ∧ s.Tops vs ∧
      popValues n s = .ok vs (s.cut (s.entries.size - n) [])) ∨
    ((∀ vs, vs.length = n → ¬ s.Tops vs) ∧ popValues n s = .error .stackUnderflow s) := by
  obtain ⟨⟨es⟩, frames, limit⟩ := s
  rw [popValues_toArray]
  by_cases hn : es.length < n
  · refine .inr ⟨fun vs hvs htop ↦ ?_, if_pos hn⟩
    have hle : (vs.map Entry.value).length ≤ es.length := htop.length_le
    rw [List.length_map] at hle
    omega
  · rw [if_neg hn]
    cases hvs : (es.drop (es.length - n)).mapM Entry.value? with
    | some vs =>
      have hdrop := mapM_value?_ok hvs
      have hlen := congrArg List.length hdrop
      rw [List.length_drop, List.length_map] at hlen
      refine .inl ⟨vs, by omega, ?_, by simp [cut]⟩
      rw [Tops, ← hdrop]
      exact List.drop_suffix _ es
    | none =>
      refine .inr ⟨fun vs hlen htop ↦ ?_, rfl⟩
      have hdrop : es.drop (es.length - n) = vs.map Entry.value := by
        rw [← hlen]
        exact htop.drop
      rw [hdrop, mapM_value?_map] at hvs
      cases hvs

theorem pushValues_cut (hi : i ≤ s.entries.size) (hroom : i + vs.length ≤ s.limit) :
    pushValues vs (s.cut i []) = .ok () (s.cut i vs) := by
  have htopped (ws : List Value) :
      topped (s.entries.toList.take i) s.frames s.limit ws = s.cut i ws.reverse := by
    simp [topped, cut, Entry.operands]
  have hfit : (s.entries.toList.take i).length + ([] : List Value).length + vs.length ≤
      s.limit := by
    simpa [Nat.min_eq_left hi] using hroom
  have hpush := @pushValues_topped _ s.frames s.limit vs [] hfit
  rwa [htopped, htopped, List.append_nil, List.reverse_reverse] at hpush

/-- Unwinding to an entry that is not a value keeps the values that are asked for, if they are
there, and otherwise fails. There is room for them, since they were there before. -/
theorem unwind_cases {e : Entry} (hfits : s.entries.size ≤ s.limit) (he : s.entries[i]? = some e)
    (hv : e.value? = none) (n : Nat) :
    (∃ vs, vs.length = n ∧ s.Tops vs ∧ unwind i n s = .ok () (s.cut i vs)) ∨
    ((∀ vs, vs.length = n → ¬ s.Tops vs) ∧ unwind i n s = .error .stackUnderflow s) := by
  rcases popValues_cases n s with ⟨vs, hlen, htop, hpop⟩ | ⟨hnone, hpop⟩
  · refine .inl ⟨vs, hlen, htop, ?_⟩
    have hbelow := htop.beneath he hv
    have hshrink : { s.cut (s.entries.size - n) [] with
        entries := (s.cut (s.entries.size - n) []).entries.shrink i } = s.cut i [] := by
      simp [cut, List.take_take, show i ≤ s.entries.size - n by omega]
    simp only [unwind, bind_apply, hpop, modify_apply, hshrink]
    exact pushValues_cut (by omega) (by omega)
  · refine .inr ⟨hnone, ?_⟩
    simp only [unwind, bind_apply, hpop]

def labelAt? (entries : Array Entry) (i : Nat) : Option (Nat × Label) :=
  match entries[i]? with
  | some (.label l) => some (i, l)
  | _ => none

theorem labelAt?_eq_some {entries : Array Entry} {i j : Nat} {l : Label} :
    labelAt? entries i = some (j, l) ↔ i = j ∧ entries[j]? = some (.label l) := by
  unfold labelAt?
  split
  · rename_i l' hl'
    constructor
    · intro h
      cases h
      exact ⟨rfl, hl'⟩
    · intro h
      obtain ⟨rfl, hl⟩ := h
      cases hl'.symm.trans hl
      rfl
  · rename_i hnone
    constructor
    · intro h
      cases h
    · intro h
      obtain ⟨rfl, hl⟩ := h
      exact absurd hl (hnone l)

def labelsAbove (s : Stack) (floor : Nat) : List (Nat × Label) :=
  ((List.range s.entries.size).filter (floor < ·)).reverse.filterMap (labelAt? s.entries)

theorem mem_labelsAbove {floor : Nat} {l : Label} (h : (i, l) ∈ s.labelsAbove floor) :
    floor < i ∧ s.entries[i]? = some (.label l) := by
  obtain ⟨j, hj, hl⟩ := List.mem_filterMap.mp h
  obtain ⟨rfl, hl⟩ := labelAt?_eq_some.mp hl
  simp only [List.mem_reverse, List.mem_filter, decide_eq_true_eq] at hj
  exact ⟨hj.2, hl⟩

/-- A search downwards from position `i` counts the labels, passes over all else, and stops at the
floor. -/
theorem labelBelow?_eq (entries : Array Entry) (floor i d : Nat) :
    labelBelow? entries floor i d =
      (((List.range i).filter (floor < ·)).reverse.filterMap (labelAt? entries))[d]? := by
  induction i generalizing d with
  | zero => rfl
  | succ i ih =>
    rw [List.range_succ, List.filter_append, List.reverse_append]
    -- The position just below is the first that is looked at, unless it is the floor already.
    by_cases hi : i ≤ floor
    · have hempty : (List.range (i + 1)).filter (floor < ·) = [] := by
        rw [List.filter_eq_nil_iff]
        intro j hj
        simp only [List.mem_range] at hj
        simp only [decide_eq_true_eq]
        omega
      rw [List.range_succ, List.filter_append] at hempty
      obtain ⟨hlow, hself⟩ := List.append_eq_nil_iff.mp hempty
      simp [labelBelow?, hi, hlow, hself]
    · have hself : [i].filter (floor < ·) = [i] := by simp; omega
      rw [hself, List.reverse_singleton, List.singleton_append, List.filterMap_cons]
      cases he : entries[i]? with
      | none => simp [labelBelow?, labelAt?, hi, he, ih]
      | some e =>
        cases e with
        | label l => cases d <;> simp [labelBelow?, labelAt?, hi, he, ih]
        | value v => simp [labelBelow?, labelAt?, hi, he, ih]
        | frame f => simp [labelBelow?, labelAt?, hi, he, ih]

theorem findLabel?_apply (d : Nat) (s : Stack) : findLabel? d s =
    match s.frames.back? with
    | some floor => .ok (s.labelsAbove floor)[d]? s
    | none => .error (.malformedControl .noFrame) s := by
  simp only [findLabel?, bind_apply, frameIndex]
  cases s.frames.back? with
  | none => rfl
  | some floor => exact congrArg (EStateM.Result.ok · s) (labelBelow?_eq ..)

theorem findIdxs_cut (s : Stack) (i : Nat) (vs : List Value) :
    (s.cut i vs).entries.toList.findIdxs Entry.isFrame =
      (s.entries.toList.take i).findIdxs Entry.isFrame := by
  have hvalues : (vs.map Entry.value).findIdxs Entry.isFrame
      (0 + (s.entries.toList.take i).length) = [] := by
    simp [List.findIdxs_eq_nil_iff, Entry.isFrame]
  rw [cut, List.findIdxs_append, hvalues, List.append_nil]

theorem findIdxs_take (habove : ∀ j g, i ≤ j → s.entries[j]? ≠ some (.frame g)) :
    (s.entries.toList.take i).findIdxs Entry.isFrame =
      s.entries.toList.findIdxs Entry.isFrame := by
  have hrest : (s.entries.toList.drop i).findIdxs Entry.isFrame
      (0 + (s.entries.toList.take i).length) = [] := by
    rw [List.findIdxs_eq_nil_iff]
    intro e he
    obtain ⟨j, hj⟩ := List.mem_iff_getElem?.mp he
    rw [List.getElem?_drop, Array.getElem?_toList] at hj
    cases e with
    | frame g => exact absurd hj (habove (i + j) g (Nat.le_add_right i j))
    | value v => rfl
    | label l => rfl
  conv_rhs => rw [← List.take_append_drop i s.entries.toList, List.findIdxs_append, hrest,
    List.append_nil]

theorem size_cut_le (s : Stack) (i : Nat) (vs : List Value) :
    (s.cut i vs).entries.size ≤ i + vs.length := by
  simp only [cut, List.size_toArray, List.length_append, List.length_take, List.length_map]
  omega

theorem Coherent.cut (h : Coherent limit s) (hroom : i + vs.length ≤ limit)
    (habove : ∀ j g, i ≤ j → s.entries[j]? ≠ some (.frame g)) : Coherent limit (s.cut i vs) :=
  ⟨h.bound, (size_cut_le s i vs).trans hroom,
    h.frames.trans ((findIdxs_take habove).symm.trans (findIdxs_cut s i vs).symm)⟩

/-- The current frame gives way to values, with everything above it. -/
theorem Coherent.leave {f : Frame} (h : Coherent limit s) (hf : s.CurrentAt i f)
    (hroom : i + vs.length ≤ limit) :
    Coherent limit { s.cut i vs with frames := s.frames.pop } := by
  refine ⟨h.bound, (size_cut_le s i vs).trans hroom, ?_⟩
  have hget : s.entries.toList[i]? = some (.frame f) := by simpa using hf.1
  have hlt : i < s.entries.size := (Array.getElem?_eq_some_iff.mp hf.1).1
  have habove : ∀ j g, i + 1 ≤ j → s.entries[j]? ≠ some (.frame g) :=
    fun j g hj hg ↦ absurd (hf.2 j g hg) (Nat.not_le.mpr hj)
  have hlast : s.entries.toList.findIdxs Entry.isFrame =
      (s.entries.toList.take i).findIdxs Entry.isFrame ++ [i] := by
    rw [← findIdxs_take habove, List.take_add_one, hget, List.findIdxs_append]
    simp [Entry.isFrame, hlt.le]
  rw [Array.toList_pop, h.frames, hlast, List.dropLast_concat]
  exact (findIdxs_cut s i vs).symm

theorem Coherent.entered {f : Frame} (h : Coherent limit s) (hroom : s.entries.size < limit) :
    Coherent limit (s.entered f) := by
  refine ⟨h.bound, ?_, ?_⟩
  · simpa [Stack.entered] using hroom
  · simp [Stack.entered, h.frames, List.findIdxs_append, Entry.isFrame]

theorem Coherent.pushed {e : Entry} (h : Coherent limit s) (he : e.isFrame = false)
    (hroom : s.entries.size < limit) : Coherent limit { s with entries := s.entries.push e } := by
  refine ⟨h.bound, ?_, ?_⟩
  · simpa using hroom
  · simp [h.frames, List.findIdxs_append, he]

theorem Coherent.set {f : Frame} (h : Coherent limit s) (hi : i < s.entries.size)
    (hf : s.entries[i] = .frame f) (g : Frame) :
    Coherent limit { s with entries := s.entries.set i (.frame g) } := by
  refine ⟨h.bound, by simpa using h.fits, ?_⟩
  have hmap : (s.entries.toList.set i (.frame g)).map Entry.isFrame =
      s.entries.toList.map Entry.isFrame := by
    have hkind : (s.entries.toList.map Entry.isFrame)[i]? = some true := by
      simp [hi, hf, Entry.isFrame]
    obtain ⟨hlt, hself⟩ := List.getElem?_eq_some_iff.mp hkind
    rw [List.map_set, Entry.isFrame, ← hself, List.set_getElem_self]
  have hidxs (es : List Entry) : es.findIdxs Entry.isFrame = (es.map Entry.isFrame).findIdxs id :=
    (List.findIdxs_map (p := id)).symm
  rw [Array.toList_set, hidxs, hmap, ← hidxs]
  exact h.frames

/-- How operations fail on coherent stacks. Those that may stop `halfway` leave some coherent stack,
the others the one that they were given; only those that push values find no room. -/
structure Fails (limit : Nat) (halfway pushes : Bool) (s : Stack) (t : Trap) (s' : Stack) :
    Prop where
  coherent : Coherent limit s'
  synced : t ≠ .malformedControl .frameIndex
  unchanged : halfway = false → s' = s
  room : pushes = false → t ≠ .stackOverflow

def Safe (limit : Nat) (halfway pushes : Bool) (op : StackM α) : Prop :=
  ∀ s, Coherent limit s → match op s with
    | .ok _ s' => Coherent limit s'
    | .error t s' => Fails limit halfway pushes s t s'

section Safe

variable {halfway pushes : Bool} {op : StackM α}

theorem Fails.refused {t : Trap} (h : Coherent limit s) (ht : t ≠ .malformedControl .frameIndex)
    (hroom : pushes = false → t ≠ .stackOverflow) : Fails limit halfway pushes s t s :=
  ⟨h, ht, fun _ ↦ rfl, hroom⟩

theorem Safe.lax (h : Safe limit halfway pushes op) : Safe limit true true op := by
  intro s hs
  have hop := h s hs
  generalize op s = x at hop
  cases x with
  | ok a s' => exact hop
  | error t s' => exact ⟨hop.coherent, hop.synced, nofun, nofun⟩

theorem Safe.bind {k : α → StackM β} (h : Safe limit true true op)
    (hk : ∀ a, Safe limit true true (k a)) : Safe limit true true (op >>= k) := by
  intro s hs
  have hop := h s hs
  rw [bind_apply]
  generalize op s = x at hop
  cases x with
  | error t s' => exact hop
  | ok a s' =>
    have hrest := hk a s' hop
    simp only
    generalize k a s' = y at hrest
    cases y with
    | ok b s'' => exact hrest
    | error t s'' => exact ⟨hrest.coherent, hrest.synced, nofun, nofun⟩

theorem safe_push {e : Entry} (he : e.isFrame = false) : Safe limit false true (push e) := by
  intro s hs
  unfold push
  by_cases hroom : s.entries.size < s.limit
  · rw [if_pos hroom]
    exact hs.pushed he (hs.bound ▸ hroom)
  · rw [if_neg hroom]
    exact .refused hs (by simp) (by simp)

theorem safe_pushValues (vs : List Value) : Safe limit true true (pushValues vs) := by
  induction vs with
  | nil => exact fun s hs ↦ hs
  | cons v vs ih => exact (safe_push (e := .value v) rfl).lax.bind fun _ ↦ ih

theorem safe_pushFrame (f : Frame) : Safe limit false true (pushFrame f) := by
  intro s hs
  rw [pushFrame_apply]
  by_cases hroom : s.entries.size < s.limit
  · rw [if_pos hroom]
    exact hs.entered (hs.bound ▸ hroom)
  · rw [if_neg hroom]
    exact .refused hs (by simp) (by simp)

def Draws (op : StackM α) : Prop :=
  ∀ s, match op s with
    | .ok _ s' => ∃ vs, s.Tops vs ∧ s' = s.cut (s.entries.size - vs.length) []
    | .error t s' => s' = s ∧ (t = .stackUnderflow ∨ ∃ a b, t = .typeMismatch a b)

theorem Draws.safe (h : Draws op) : Safe limit false false op := by
  intro s hs
  have hop := h s
  generalize op s = x at hop
  cases x with
  | ok a s' =>
    obtain ⟨vs, htop, rfl⟩ := hop
    refine hs.cut ?_ fun j g hj hg ↦ ?_
    · have hfits := hs.fits
      rw [List.length_nil]
      omega
    · have hbelow := htop.beneath hg rfl
      omega
  | error t s' =>
    obtain ⟨rfl, rfl | ⟨a, b, rfl⟩⟩ := hop
    · exact .refused hs (by simp) (by simp)
    · exact .refused hs (by simp) (by simp)

theorem peekValue_cases (s : Stack) :
    (∃ v, s.Tops [v] ∧ peekValue s = .ok v s) ∨ peekValue s = .error .stackUnderflow s := by
  unfold peekValue
  split
  · rename_i v hv
    rw [← Array.getLast?_toList, List.getLast?_eq_some_iff] at hv
    obtain ⟨low, hlow⟩ := hv
    exact .inl ⟨v, ⟨low, hlow.symm⟩, rfl⟩
  · exact .inr rfl

theorem draws_peekValue : Draws peekValue := by
  intro s
  rcases peekValue_cases s with ⟨v, -, hv⟩ | hnone
  · rw [hv]
    exact ⟨[], .nil s, (cut_size s).symm⟩
  · rw [hnone]
    exact ⟨rfl, .inl rfl⟩

theorem draws_popAs (expected : ValType) (view : Value → Option α) :
    Draws (popAs expected view) := by
  intro s
  rcases peekValue_cases s with ⟨v, htop, hv⟩ | hnone
  · simp only [popAs, bind_apply, hv]
    cases view v with
    | none => exact ⟨rfl, .inr ⟨_, _, rfl⟩⟩
    | some a =>
      refine ⟨[v], htop, ?_⟩
      obtain ⟨⟨es⟩, frames, limit⟩ := s
      simp [cut, List.dropLast_eq_take]
  · simp [popAs, hnone]

theorem draws_popValues (n : Nat) : Draws (popValues n) := by
  intro s
  rcases popValues_cases n s with ⟨vs, rfl, htop, hpop⟩ | ⟨-, hpop⟩
  · rw [hpop]
    exact ⟨vs, htop, rfl⟩
  · rw [hpop]
    exact ⟨rfl, .inl rfl⟩

theorem draws_popValuesTyped (ts : List ValType) : Draws (popValuesTyped ts) := by
  intro s
  simp only [popValuesTyped, bind_apply, get_apply]
  by_cases hn : s.entries.size < ts.length
  · simp only [hn, if_true]
    exact ⟨rfl, .inl rfl⟩
  · simp only [hn, if_false]
    cases ht : Entry.typeFault? (s.entries.extract (s.entries.size - ts.length)).toList ts with
    | some t => exact ⟨rfl, typeFault?_trap ht⟩
    | none => exact draws_popValues ts.length s

theorem safe_pushLabel (l : Label) : Safe limit true true (pushLabel l) :=
  (draws_popValues l.params).safe.lax.bind fun vs ↦
    (safe_push (e := .label l) rfl).lax.bind fun _ ↦ safe_pushValues vs

theorem Coherent.current {f : Frame} (h : Coherent limit s) (hf : s.CurrentAt i f) :
    frameIndex s = .ok i s ∧ currentFrame s = .ok f s := by
  have hindex : frameIndex s = .ok i s := by
    simp only [frameIndex, h.back?.mpr ⟨f, hf⟩]
  refine ⟨hindex, ?_⟩
  simp only [currentFrame, bind_apply, hindex, get_apply, hf.1]
  rfl

theorem Coherent.current_cases (h : Coherent limit s) :
    frameIndex s = .error (.malformedControl .noFrame) s ∨ ∃ i f, s.CurrentAt i f := by
  cases hback : s.frames.back? with
  | none => exact .inl (by simp only [frameIndex, hback])
  | some i => exact .inr ⟨i, h.back?.mp hback⟩

theorem safe_currentFrame : Safe limit false false currentFrame := by
  intro s hs
  rcases hs.current_cases with hnone | ⟨i, f, hf⟩
  · simp only [currentFrame, bind_apply, hnone]
    exact .refused hs (by simp) (by simp)
  · rw [(hs.current hf).2]
    exact hs

theorem safe_onFrame (g : Frame → Frame) : Safe limit false false (onFrame (modify g)) := by
  intro s hs
  rw [onFrame_apply]
  rcases hs.current_cases with hnone | ⟨i, f, hf⟩
  · rw [hnone]
    exact .refused hs (by simp) (by simp)
  · obtain ⟨hlt, hget⟩ := Array.getElem?_eq_some_iff.mp hf.1
    simp only [(hs.current hf).1, hlt, dif_pos, onSlot_eq, hget, onEntry, modify_apply]
    exact hs.set hlt hget (g f)

theorem safe_currentLabel (d : Nat) : Safe limit false false (currentLabel d) := by
  intro s hs
  simp only [currentLabel, bind_apply, findLabel?_apply]
  cases s.frames.back? with
  | none => exact .refused hs (by simp) (by simp)
  | some floor =>
    simp only
    cases (s.labelsAbove floor)[d]? with
    | none => exact .refused hs (by simp) (by simp)
    | some x => exact hs

theorem CurrentAt.above {f : Frame} {floor : Nat} {l : Label} (h : s.CurrentAt floor f)
    (hl : (i, l) ∈ s.labelsAbove floor) : ∀ j g, i ≤ j → s.entries[j]? ≠ some (.frame g) := by
  intro j g hj hg
  have hle := h.2 j g hg
  have hlt := (mem_labelsAbove hl).1
  omega

theorem safe_toLabel {f : Frame} {floor : Nat} {l : Label} (hs : Coherent limit s)
    (hf : s.CurrentAt floor f) (hl : (i, l) ∈ s.labelsAbove floor) (n : Nat) (a : α) :
    match (unwind i n >>= fun _ ↦ pure a) s with
    | .ok _ s' => Coherent limit s'
    | .error t s' => Fails limit false false s t s' := by
  rw [bind_apply]
  have hget := (mem_labelsAbove hl).2
  rcases unwind_cases (hs.fits.trans hs.bound.ge) hget rfl n with
    ⟨vs, -, htop, hok⟩ | ⟨-, hshort⟩
  · -- The values were above the label, so they take up less room now.
    have hbelow := htop.beneath hget rfl
    have hfits := hs.fits
    rw [hok]
    exact hs.cut (by omega) (hf.above hl)
  · rw [hshort]
    exact .refused hs (by simp) (by simp)

theorem safe_popLabel : Safe limit false false popLabel := by
  intro s hs
  simp only [popLabel, bind_apply, findLabel?_apply]
  cases hback : s.frames.back? with
  | none => exact .refused hs (by simp) (by simp)
  | some floor =>
    obtain ⟨f, hf⟩ := hs.back?.mp hback
    simp only
    cases hl : (s.labelsAbove floor)[0]? with
    | none => exact .refused hs (by simp) (by simp)
    | some x => exact safe_toLabel hs hf (List.mem_of_getElem? hl) x.2.arity x.2

theorem safe_branch (d : Nat) : Safe limit false false (branch d) := by
  intro s hs
  simp only [branch, bind_apply, findLabel?_apply]
  cases hback : s.frames.back? with
  | none => exact .refused hs (by simp) (by simp)
  | some floor =>
    obtain ⟨f, hf⟩ := hs.back?.mp hback
    simp only
    cases hl : (s.labelsAbove floor)[d]? with
    | none => exact hs
    | some x =>
      exact safe_toLabel hs hf (List.mem_of_getElem? hl) x.2.branchArity (Target.jump x.2.target)

theorem safe_popFrame : Safe limit false false popFrame := by
  intro s hs
  rcases hs.current_cases with hnone | ⟨i, f, hf⟩
  · simp only [popFrame, bind_apply, hnone]
    exact .refused hs (by simp) (by simp)
  · obtain ⟨hindex, hcurrent⟩ := hs.current hf
    simp only [popFrame, bind_apply, hindex, hcurrent]
    rcases unwind_cases (hs.fits.trans hs.bound.ge) hf.1 rfl f.arity with
      ⟨vs, -, htop, hok⟩ | ⟨-, hshort⟩
    · have hbelow := htop.beneath hf.1 rfl
      have hfits := hs.fits
      simp only [hok]
      exact hs.leave hf (by omega)
    · simp only [hshort]
      exact .refused hs (by simp) (by simp)

end Safe

inductive Op : Type → Type
  | pushValue (v : Value) : Op Unit
  | pushValues (vs : List Value) : Op Unit
  | peekValue : Op Value
  | popValue : Op Value
  | popTyped (t : ValType) : Op Value
  | popI32 : Op (BitVec 32)
  | popI64 : Op (BitVec 64)
  | popF32 : Op (BitVec 32)
  | popF64 : Op (BitVec 64)
  | popRef : Op Value
  | popValues (n : Nat) : Op (List Value)
  | popValuesTyped (ts : List ValType) : Op (List Value)
  | pushLabel (l : Label) : Op Unit
  | pushFrame (f : Frame) : Op Unit
  | currentFrame : Op Frame
  /-- Anything may be written to the current frame. -/
  | writeFrame (g : Frame → Frame) : Op Unit
  | currentLabel (depth : Nat) : Op Label
  | popLabel : Op Label
  | branch (depth : Nat) : Op Target
  | popFrame : Op Frame

def Op.run : Op α → StackM α
  | pushValue v => Stack.pushValue v
  | pushValues vs => Stack.pushValues vs
  | peekValue => Stack.peekValue
  | popValue => Stack.popValue
  | popTyped t => Stack.popTyped t
  | popI32 => Stack.popI32
  | popI64 => Stack.popI64
  | popF32 => Stack.popF32
  | popF64 => Stack.popF64
  | popRef => Stack.popRef
  | popValues n => Stack.popValues n
  | popValuesTyped ts => Stack.popValuesTyped ts
  | pushLabel l => Stack.pushLabel l
  | pushFrame f => Stack.pushFrame f
  | currentFrame => Stack.currentFrame
  | writeFrame g => onFrame (modify g)
  | currentLabel depth => Stack.currentLabel depth
  | popLabel => Stack.popLabel
  | branch depth => Stack.branch depth
  | popFrame => Stack.popFrame

def Op.halfway : Op α → Bool
  | pushValues _ | pushLabel _ => true
  | _ => false

def Op.pushes : Op α → Bool
  | pushValue _ | pushValues _ | pushLabel _ | pushFrame _ => true
  | _ => false

theorem Op.safe (o : Op α) : Safe limit o.halfway o.pushes o.run := by
  cases o with
  | pushValue v => exact safe_push (e := .value v) rfl
  | pushValues vs => exact safe_pushValues vs
  | peekValue => exact draws_peekValue.safe
  | popValue => exact (draws_popAs .i32 some).safe
  | popTyped t => exact (draws_popAs t _).safe
  | popI32 => exact (draws_popAs .i32 _).safe
  | popI64 => exact (draws_popAs .i64 _).safe
  | popF32 => exact (draws_popAs .f32 _).safe
  | popF64 => exact (draws_popAs .f64 _).safe
  | popRef => exact (draws_popAs .funcref _).safe
  | popValues n => exact (draws_popValues n).safe
  | popValuesTyped ts => exact (draws_popValuesTyped ts).safe
  | pushLabel l => exact safe_pushLabel l
  | pushFrame f => exact safe_pushFrame f
  | currentFrame => exact safe_currentFrame
  | writeFrame g => exact safe_onFrame g
  | currentLabel d => exact safe_currentLabel d
  | popLabel => exact safe_popLabel
  | branch d => exact safe_branch d
  | popFrame => exact safe_popFrame

/-- The stacks that operations lead to from an empty one, whether they succeed or fail. -/
inductive Reached (limit : Nat) : Stack → Prop
  | new : Reached limit { limit }
  | run {α : Type} {s : Stack} (o : Op α) : Reached limit s → Reached limit (final (o.run s))

theorem Reached.coherent (h : Reached limit s) : Coherent limit s := by
  induction h with
  | new => exact .new limit
  | run o _ ih =>
    have hop := o.safe _ ih
    generalize o.run _ = x at hop
    cases x with
    | ok a s' => exact hop
    | error t s' => exact hop.coherent

/-- Stacks keep to their limit and list the positions of their frames in ascending order, whatever
is done to them, so that a frame is never missing where one is listed. Operations that fail change
nothing, but for those that push several entries, and only those that push find no room. -/
theorem reached_atomic (h : Reached limit s) :
    s.entries.size ≤ limit ∧ s.frames.toList = s.entries.toList.findIdxs Entry.isFrame ∧
      ∀ {α : Type} (o : Op α) (t : Trap) (s' : Stack), o.run s = .error t s' →
        t ≠ .malformedControl .frameIndex ∧ (o.halfway = false → s' = s) ∧
          (o.pushes = false → t ≠ .stackOverflow) := by
  refine ⟨h.coherent.fits, h.coherent.frames, fun o t s' hfail ↦ ?_⟩
  have hop := o.safe s h.coherent
  rw [hfail] at hop
  exact ⟨hop.synced, hop.unchanged, hop.room⟩

def crowded : Stack where
  entries := #[.frame ⟨0, none, #[], 0, 2, #[]⟩, .label ⟨0, 2, 0, 1, false⟩, .value (.i32 1)]
  frames := #[0]
  limit := 3

theorem reached_atomic_crowded : Reached 3 crowded ∧ crowded.entries.size ≤ 3 ∧
    popFrame crowded = .error .stackUnderflow crowded := by
  have hnew : Reached 3 ⟨#[], #[], 3⟩ := .new
  have hframe : Reached 3 ⟨#[.frame ⟨0, none, #[], 0, 2, #[]⟩], #[0], 3⟩ :=
    .run (.pushFrame ⟨0, none, #[], 0, 2, #[]⟩) hnew
  have hvalues : Reached 3
      ⟨#[.frame ⟨0, none, #[], 0, 2, #[]⟩, .value (.i32 1), .value (.i32 2)], #[0], 3⟩ :=
    .run (.pushValues [.i32 1, .i32 2]) hframe
  have hreached : Reached 3 crowded := .run (.pushLabel ⟨0, 2, 0, 1, false⟩) hvalues
  obtain ⟨hfits, -, hfail⟩ := reached_atomic hreached
  cases hpop : popFrame crowded with
  | ok f s' => cases hpop
  | error t s' =>
    obtain ⟨-, hsame, -⟩ := hfail .popFrame t s' hpop
    cases hpop
    exact ⟨hreached, hfits, congrArg _ (hsame rfl)⟩

end Stack

end Wasm
