import Wasm.Proofs.Enclosing

namespace Wasm

structure Paired (is : List Instr) : Prop where
  depth_nonneg : ∀ p, p <+: is → 0 ≤ depth p
  depth_eq : depth is = 0

structure OuterElse (is : List Instr) (n : Nat) : Prop where
  isElse : is[n]? = some .else_
  depth_eq : depth (is.take n) = 0

namespace Code

def between (code : Code) (start stop : Nat) : List Instr :=
  (code.toList.take stop).drop (start + 1)

structure Matches (code : Code) (start e : Nat) : Prop where
  lt : start < e
  isEnd : code[e]? = some .end_
  paired : Paired (code.between start e)

structure ElseAt (code : Code) (start e p : Nat) : Prop where
  lt : start < p
  before : p < e
  isElse : code[p]? = some .else_
  depth_eq : depth (code.between start p) = 0

/-- The end of a construct is the one that matches, and its `else_` the last one that belongs to
it. -/
structure Resolves (code : Code) (start : Nat) (b : BlockEnd) : Prop where
  matches_iff : ∀ e, code.Matches start e ↔ e = b.endPc
  else_some : ∀ p, b.elsePc = some p ↔ IsGreatest {q | code.ElseAt start b.endPc q} p
  else_none : b.elsePc = none ↔ ∀ q, ¬ code.ElseAt start b.endPc q

def OpensAt (code : Code) (o : Nat) : Prop := ∃ i, code[o]? = some i ∧ i.opens = true

end Code

section Balance

variable {x : Bool} {d n : Nat} {i : Instr} {is body : List Instr}

theorem Closing.balanced (h : Closing 0 (is ++ [.end_])) : Balanced true is := by
  generalize hs : is ++ [.end_] = js at h
  cases h with
  | last hb =>
    obtain rfl := List.append_cancel_right hs
    exact hb

/-- What is open at the start is closed if no prefix closes more. -/
theorem closing_of_depth (hpre : ∀ n, 0 ≤ d + depth (is.take n)) (htotal : d + depth is = 0) :
    Closing d (is ++ [.end_]) := by
  induction is generalizing d with
  | nil =>
    obtain rfl : d = 0 := by
      rw [depth_nil] at htotal
      omega
    exact .last .nil
  | cons i is ih =>
    have hrest (e : Int) (he : ∀ js, depth (i :: js) = depth js + e) :
        (∀ n, 0 ≤ d + e + depth (is.take n)) ∧ d + e + depth is = 0 := by
      refine ⟨fun n ↦ ?_, ?_⟩
      · have := hpre (n + 1)
        rw [List.take_succ_cons, he] at this
        omega
      · rw [he] at htotal
        omega
    by_cases hend : i = .end_
    · subst hend
      obtain ⟨hpre', htotal'⟩ := hrest (-1) fun js ↦ depth_end
      -- Some construct is open, since the prefix of this one `end_` does not close more.
      obtain ⟨d, rfl⟩ : ∃ k, d = k + 1 := ⟨d - 1, by have := hpre' 0; simp at this; omega⟩
      refine @Closing.close [] _ d .nil (ih (fun n ↦ ?_) ?_)
      · have := hpre' n
        push_cast at this
        omega
      · push_cast at htotal'
        omega
    · by_cases hopen : i.opens = true
      · obtain ⟨hpre', htotal'⟩ := hrest 1 fun js ↦ depth_opens hopen
        exact (ih (d := d + 1) hpre' htotal').opens hopen
      · have hplain : i.plain = true := Instr.plain_iff.mpr ⟨by simpa using hopen, hend⟩
        obtain ⟨hpre', htotal'⟩ := hrest 0 fun js ↦ (depth_plain hplain).trans (add_zero _).symm
        rw [add_zero] at hpre' htotal'
        exact (ih hpre' htotal').plain hplain

/-- Balanced code by its counts. -/
theorem paired_iff_balanced : Paired is ↔ Balanced true is := by
  constructor
  · rintro ⟨hpre, htotal⟩
    refine (closing_of_depth (d := 0) (fun n ↦ ?_) ?_).balanced
    · rw [Nat.cast_zero, zero_add]
      exact hpre _ (List.take_prefix n is)
    · rw [Nat.cast_zero, zero_add]
      exact htotal
  · intro h
    refine ⟨fun p hp ↦ ?_, h.depth_eq⟩
    rw [List.prefix_iff_eq_take.mp hp]
    exact h.depth_take _

/-- Within a construct the depth is positive, so that an `else_` there is not an outer one. -/
theorem Balanced.not_outerElse (h : Balanced false body) (n : Nat) : ¬ OuterElse body n := by
  generalize hx : false = x at h
  induction h generalizing n with
  | nil => exact fun h ↦ nomatch h.isElse
  | @plain x i is hi hne _ ih =>
    subst hx
    rintro ⟨helse, hdepth⟩
    cases n with
    | zero => exact Bool.noConfusion (hne (Option.some.inj helse))
    | succ n =>
      rw [List.take_succ_cons, depth_plain hi] at hdepth
      exact ih n rfl ⟨helse, hdepth⟩
  | @construct x i body rest hi hb _ _ ih =>
    rintro ⟨helse, hdepth⟩
    cases n with
    | zero =>
      obtain rfl : i = .else_ := Option.some.inj helse
      cases hi
    | succ n =>
      rw [List.getElem?_cons_succ] at helse
      rw [List.take_succ_cons, depth_opens hi, List.take_append, depth_append] at hdepth
      have hbody := hb.depth_take n
      by_cases hn : n < body.length
      · rw [Nat.sub_eq_zero_of_le hn.le, List.take_zero, depth_nil] at hdepth
        omega
      · obtain ⟨k, hk⟩ := Nat.exists_eq_add_of_le (Nat.not_lt.mp hn)
        rw [List.getElem?_append_right (Nat.not_lt.mp hn), hk, Nat.add_sub_cancel_left] at helse
        cases k with
        | zero => cases helse
        | succ k =>
          rw [hk, Nat.add_sub_cancel_left, List.take_succ_cons, depth_end,
            List.take_of_length_le (by omega), hb.depth_eq] at hdepth
          exact ih k hx ⟨helse, by omega⟩

/-- The last outer `else_` of code that is split at it. -/
theorem isGreatest_outerElse {a b : List Instr} (ha : Balanced true a) (hb : Balanced false b) :
    IsGreatest {n | OuterElse (a ++ .else_ :: b) n} a.length := by
  refine ⟨⟨?_, ?_⟩, fun n hn ↦ ?_⟩
  · rw [List.getElem?_append_right le_rfl, Nat.sub_self]
    rfl
  · rw [List.take_left]
    exact ha.depth_eq
  · by_contra hlt
    obtain ⟨k, rfl⟩ := Nat.exists_eq_add_of_lt (Nat.not_le.mp hlt)
    obtain ⟨helse, hdepth⟩ := hn
    have hidx : a.length + k + 1 - a.length = k + 1 := by omega
    rw [List.getElem?_append_right (by omega), hidx, List.getElem?_cons_succ] at helse
    rw [List.take_append, List.take_of_length_le (by omega), hidx, List.take_succ_cons,
      depth_append, ha.depth_eq, depth_plain rfl, zero_add] at hdepth
    exact hb.not_outerElse k ⟨helse, hdepth⟩

end Balance

namespace BlockEnd

variable {is body post : List Instr} {pc d : Nat} {e : Option Nat} {b : BlockEnd}

/-- Wherever the search stops, all that was open is closed. -/
theorem closing_of_scan (h : scan is pc d e = some b) : ∃ pre post, is = pre ++ .end_ :: post ∧
    Closing d (pre ++ [.end_]) ∧ b.endPc = pc + pre.length := by
  induction is generalizing pc d e with
  | nil => cases h
  | cons i is ih =>
    have hstep (d' : Nat) (e' : Option Nat) (h' : scan is (pc + 1) d' e' = some b)
        (hclose : ∀ js, Closing d' js → Closing d (i :: js)) :
        ∃ pre post, i :: is = pre ++ .end_ :: post ∧ Closing d (pre ++ [.end_]) ∧
          b.endPc = pc + pre.length := by
      obtain ⟨pre, post, rfl, hpre, hb⟩ := ih h'
      refine ⟨i :: pre, post, rfl, hclose _ hpre, ?_⟩
      rw [hb, List.length_cons]
      omega
    by_cases hend : i = .end_
    · subst hend
      cases d with
      | zero =>
        cases h
        exact ⟨[], is, rfl, .last .nil, rfl⟩
      | succ d => exact hstep d e h fun js hjs ↦ .close .nil hjs
    · by_cases hopen : i.opens = true
      · rw [scan_opens hopen] at h
        exact hstep (d + 1) e h fun js hjs ↦ hjs.opens hopen
      · have hplain : i.plain = true := Instr.plain_iff.mpr ⟨by simpa using hopen, hend⟩
        by_cases helse : i = .else_
        · subst helse
          cases d with
          | zero => exact hstep 0 (some pc) h fun js hjs ↦ hjs.plain hplain
          | succ d => exact hstep (d + 1) e h fun js hjs ↦ hjs.plain hplain
        · rw [scan_plain hplain helse] at h
          exact hstep d e h fun js hjs ↦ hjs.plain hplain

/-- The search through balanced code stops at the next `end_`, with the last outer `else_`. -/
theorem scan_closed (h : Balanced true body) (pc : Nat) (post : List Instr) :
    ∃ n?, scan (body ++ .end_ :: post) pc 0 none = some ⟨n?.map (pc + ·), pc + body.length⟩ ∧
      (∀ n, n? = some n → IsGreatest {n | OuterElse body n} n) ∧
      (n? = none → ∀ n, ¬ OuterElse body n) := by
  obtain hn | ⟨a, b, rfl, ha, hb⟩ := h.split_else
  · refine ⟨none, ?_, nofun, fun _ ↦ hn.not_outerElse⟩
    rw [scan_balanced hn]
    rfl
  · refine ⟨some a.length, ?_, ?_, nofun⟩
    · rw [scan_balanced_else ha hb]
      rfl
    · rintro _ ⟨⟩
      exact isGreatest_outerElse ha hb

end BlockEnd

namespace Code

variable {code : Code} {start e o p : Nat} {b : BlockEnd} {body post : List Instr}

theorem between_of_drop (h : code.toList.drop (start + 1) = body ++ post) {n : Nat}
    (hn : n ≤ body.length) : code.between start (start + 1 + n) = body.take n := by
  rw [between, List.drop_take, h, Nat.add_sub_cancel_left, List.take_append_of_le_length hn]

theorem getElem?_of_drop (h : code.toList.drop (start + 1) = body ++ post) (n : Nat) :
    code[start + 1 + n]? = (body ++ post)[n]? := by
  rw [← Array.getElem?_toList, ← h, List.getElem?_drop]

theorem matches_iff_split : code.Matches start e ↔ ∃ body post,
    code.toList.drop (start + 1) = body ++ .end_ :: post ∧ Balanced true body ∧
      e = start + 1 + body.length := by
  constructor
  · rintro ⟨hlt, hend, hpaired⟩
    obtain ⟨n, rfl⟩ := Nat.exists_eq_add_of_le (Nat.succ_le_of_lt hlt)
    have hget : (code.toList.drop (start + 1))[n]? = some .end_ := by
      rw [List.getElem?_drop, Array.getElem?_toList]
      exact hend
    obtain ⟨hn, hget⟩ := List.getElem?_eq_some_iff.mp hget
    have hsplit := List.take_append_drop n (code.toList.drop (start + 1))
    rw [List.drop_eq_getElem_cons hn, hget] at hsplit
    have hbody : code.between start (start.succ + n) = (code.toList.drop (start + 1)).take n := by
      rw [between, List.drop_take]
      congr 1
      omega
    refine ⟨_, _, hsplit.symm, hbody ▸ paired_iff_balanced.mp hpaired, ?_⟩
    rw [List.length_take, Nat.min_eq_left hn.le]
  · rintro ⟨body, post, hdrop, hb, rfl⟩
    refine ⟨by omega, ?_, ?_⟩
    · rw [getElem?_of_drop hdrop, List.getElem?_append_right le_rfl, Nat.sub_self]
      rfl
    · rw [between_of_drop hdrop le_rfl, List.take_length]
      exact paired_iff_balanced.mpr hb

theorem elseAt_iff (h : code.toList.drop (start + 1) = body ++ post) :
    code.ElseAt start (start + 1 + body.length) p ↔ ∃ n, p = start + 1 + n ∧ OuterElse body n := by
  constructor
  · rintro ⟨hlt, hbefore, helse, hdepth⟩
    obtain ⟨n, rfl⟩ := Nat.exists_eq_add_of_le (Nat.succ_le_of_lt hlt)
    have hn : n < body.length := by omega
    refine ⟨n, rfl, ?_, ?_⟩
    · rw [← helse, Nat.succ_eq_add_one, getElem?_of_drop h, List.getElem?_append_left hn]
    · rw [← between_of_drop h hn.le]
      exact hdepth
  · rintro ⟨n, rfl, helse, hdepth⟩
    have hn := (List.getElem?_eq_some_iff.mp helse).1
    refine ⟨by omega, by omega, ?_, ?_⟩
    · rw [getElem?_of_drop h, List.getElem?_append_left hn, helse]
    · rw [between_of_drop h hn.le, hdepth]

theorem blockEnd_ok_iff : code.blockEnd start = .ok b ↔
    BlockEnd.scan (code.toList.drop (start + 1)) (start + 1) 0 none = some b := by
  unfold blockEnd
  split <;> simp_all

theorem matches_of_blockEnd (h : code.blockEnd start = .ok b) : code.Matches start b.endPc := by
  obtain ⟨body, post, hdrop, hclosing, hend⟩ := BlockEnd.closing_of_scan (blockEnd_ok_iff.mp h)
  exact matches_iff_split.mpr ⟨body, post, hdrop, hclosing.balanced, hend⟩

theorem Matches.resolves (h : code.Matches start e) : ∃ b, code.blockEnd start = .ok b ∧
    b.endPc = e ∧ (∀ p, b.elsePc = some p → IsGreatest {q | code.ElseAt start e q} p) ∧
      (b.elsePc = none → ∀ q, ¬ code.ElseAt start e q) := by
  obtain ⟨body, post, hdrop, hb, rfl⟩ := matches_iff_split.mp h
  obtain ⟨n?, hscan, hsome, hnone⟩ := BlockEnd.scan_closed hb (start + 1) post
  refine ⟨_, blockEnd_ok_iff.mpr (hdrop ▸ hscan), rfl, ?_, ?_⟩
  · intro p hp
    obtain ⟨n, hn, rfl⟩ := Option.map_eq_some_iff.mp hp
    obtain ⟨hmem, hmax⟩ := hsome n hn
    refine ⟨(elseAt_iff hdrop).mpr ⟨n, rfl, hmem⟩, fun q hq ↦ ?_⟩
    obtain ⟨m, rfl, hm⟩ := (elseAt_iff hdrop).mp hq
    exact Nat.add_le_add_left (hmax hm) _
  · intro hn q hq
    obtain ⟨m, -, hm⟩ := (elseAt_iff hdrop).mp hq
    exact hnone (Option.map_eq_none_iff.mp hn) m hm

theorem resolves_of_blockEnd (h : code.blockEnd start = .ok b) : code.Resolves start b := by
  have hmatch := matches_of_blockEnd h
  obtain ⟨b', hb', -, hsome, hnone⟩ := hmatch.resolves
  cases hb'.symm.trans h
  refine ⟨fun e ↦ ⟨fun he ↦ ?_, fun he ↦ he ▸ hmatch⟩, fun p ↦ ⟨hsome p, fun hp ↦ ?_⟩,
    hnone, fun hq ↦ ?_⟩
  · obtain ⟨b', hb', rfl, -⟩ := he.resolves
    cases hb'.symm.trans h
    rfl
  · cases helse : b.elsePc with
    | none => exact absurd hp.1 (hnone helse p)
    | some p' => rw [(hsome p' helse).unique hp]
  · cases helse : b.elsePc with
    | none => rfl
    | some p => exact absurd (hsome p helse).1 (hq p)

/-- The search begins behind a position and ends within the code. -/
theorem blockEnd_lt (h : code.blockEnd start = .ok b) : start + 1 ≤ b.endPc ∧ b.endPc < code.size ∧
    ∀ p, b.elsePc = some p → start + 1 ≤ p ∧ p < b.endPc := by
  have hmatch := matches_of_blockEnd h
  refine ⟨hmatch.lt, (Array.getElem?_eq_some_iff.mp hmatch.isEnd).1, fun p hp ↦ ?_⟩
  obtain ⟨helse, -⟩ := ((resolves_of_blockEnd h).else_some p).mp hp
  exact ⟨helse.lt, helse.before⟩

namespace WellBracketed

variable (hw : code.WellBracketed) {o' : Nat} {b' : BlockEnd}

include hw

theorem closes_blockEnd (ho : code.OpensAt o) (h : code.blockEnd o = .ok b) :
    code.Closes o b.endPc := by
  obtain ⟨i, hi, hopen⟩ := ho
  obtain ⟨e, he⟩ := hw.closes hi hopen
  obtain ⟨b', hb', hend, -⟩ := he.blockEnd
  cases hb'.symm.trans h
  exact hend ▸ he

/-- Of two constructs the one that opens later lies within the other, or behind it. -/
theorem within_or_behind (ho : code.OpensAt o) (ho' : code.OpensAt o') (h : code.blockEnd o = .ok b)
    (h' : code.blockEnd o' = .ok b') (hle : o ≤ o') : b'.endPc ≤ b.endPc ∨ b.endPc < o' := by
  obtain rfl | hlt := hle.eq_or_lt
  · cases h.symm.trans h'
    exact .inl le_rfl
  · by_cases hbehind : b.endPc < o'
    · exact .inr hbehind
    · have hstop := Closes.stop_lt hw (hw.closes_blockEnd ho' h') (hw.closes_blockEnd ho h) hlt
        (Nat.not_lt.mp hbehind)
      exact .inl hstop.le

end WellBracketed

/-- The search for the end of a construct finds the matching `end_`, and the last `else_` that
stands outside of the constructs before it; it fails only where no `end_` matches. In code that was
read from an expression every construct has its end before the last instruction, and two constructs
are nested or apart. -/
theorem blockEnd_matching (code : Code) :
    (∀ start, (∃ b, code.blockEnd start = .ok b) ↔ ∃ e, code.Matches start e) ∧
    (∀ start b, code.blockEnd start = .ok b → code.Resolves start b) ∧
    ∀ types c c', Reader.expr types c = .ok code c' →
      (∀ o, code.OpensAt o → ∃ b, code.blockEnd o = .ok b ∧ b.endPc < code.size - 1) ∧
      ∀ o o' b b', code.OpensAt o → code.OpensAt o' →
        code.blockEnd o = .ok b → code.blockEnd o' = .ok b' →
        Set.Icc o b.endPc ⊆ Set.Icc o' b'.endPc ∨ Set.Icc o' b'.endPc ⊆ Set.Icc o b.endPc ∨
          Disjoint (Set.Icc o b.endPc) (Set.Icc o' b'.endPc) := by
  refine ⟨fun start ↦ ⟨?_, ?_⟩, fun start b ↦ resolves_of_blockEnd, fun types c c' hread ↦ ?_⟩
  · rintro ⟨b, hb⟩
    exact ⟨b.endPc, matches_of_blockEnd hb⟩
  · rintro ⟨e, he⟩
    obtain ⟨b, hb, -⟩ := he.resolves
    exact ⟨b, hb⟩
  have hw : code.WellBracketed := Reader.yields_expr types c code c' hread
  refine ⟨?_, ?_⟩
  · rintro o ⟨i, hi, hopen⟩
    obtain ⟨e, he⟩ := hw.closes hi hopen
    obtain ⟨b, hb, rfl, -⟩ := he.blockEnd
    have hlt := hw.closes_lt he
    exact ⟨b, hb, by omega⟩
  · intro o o' b b' ho ho' h h'
    obtain hle | hle := le_total o o'
    · obtain hin | hbehind := hw.within_or_behind ho ho' h h' hle
      · exact .inr (.inl (Set.Icc_subset_Icc hle hin))
      · refine .inr (.inr (Set.disjoint_left.mpr fun p hp hp' ↦ ?_))
        exact absurd (hp'.1.trans hp.2) (Nat.not_le.mpr hbehind)
    · obtain hin | hbehind := hw.within_or_behind ho' ho h' h hle
      · exact .inl (Set.Icc_subset_Icc hle hin)
      · refine .inr (.inr (Set.disjoint_right.mpr fun p hp hp' ↦ ?_))
        exact absurd (hp'.1.trans hp.2) (Nat.not_le.mpr hbehind)

def branching : Code :=
  #[.if_ .empty, .block .empty, .nop, .end_, .else_, .if_ .empty, .else_, .end_, .end_, .end_]

theorem blockEnd_matching_branching :
    Reader.expr [] (.ofBytes [0x04, 0x40, 0x02, 0x40, 0x01, 0x0B, 0x05, 0x04, 0x40, 0x05, 0x0B,
      0x0B, 0x0B]) = .ok branching ⟨[], 13, 0⟩ ∧
    branching.blockEnd 0 = .ok ⟨some 4, 8⟩ ∧ branching.Resolves 0 ⟨some 4, 8⟩ ∧
    branching.blockEnd 5 = .ok ⟨some 6, 7⟩ ∧ branching.Resolves 5 ⟨some 6, 7⟩ ∧
    (Set.Icc 0 8 ⊆ Set.Icc 5 7 ∨ Set.Icc 5 7 ⊆ Set.Icc 0 8 ∨
      Disjoint (Set.Icc 0 8) (Set.Icc 5 7)) := by
  have hread : Reader.expr [] (.ofBytes [0x04, 0x40, 0x02, 0x40, 0x01, 0x0B, 0x05, 0x04, 0x40, 0x05,
      0x0B, 0x0B, 0x0B]) = .ok branching ⟨[], 13, 0⟩ := rfl
  have houter : branching.blockEnd 0 = .ok ⟨some 4, 8⟩ := by decide
  have hinner : branching.blockEnd 5 = .ok ⟨some 6, 7⟩ := by decide
  obtain ⟨-, hresolves, hexpr⟩ := blockEnd_matching branching
  obtain ⟨-, hnested⟩ := hexpr [] _ _ hread
  exact ⟨hread, houter, hresolves 0 _ houter, hinner, hresolves 5 _ hinner,
    hnested 0 5 _ _ ⟨_, rfl, rfl⟩ ⟨_, rfl, rfl⟩ houter hinner⟩

end Code

end Wasm
