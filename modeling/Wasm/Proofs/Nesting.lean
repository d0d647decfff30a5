import Mathlib
import Wasm.BlockEnd

namespace Wasm

namespace Instr

def signature? : Instr → Option BlockType
  | block t | loop t | if_ t => some t
  | _ => none

def isLoop : Instr → Bool
  | loop _ => true
  | _ => false

def plain (i : Instr) : Bool := !i.opens && i != .end_

theorem opens_of_signature {i : Instr} {t : BlockType} (h : i.signature? = some t) :
    i.opens = true := by
  cases i <;> first | rfl | cases h

theorem plain_iff {i : Instr} : i.plain = true ↔ i.opens = false ∧ i ≠ .end_ := by
  simp [plain]

theorem opens_ne_end {i : Instr} (h : i.opens = true) : i ≠ .end_ := by
  rintro rfl
  cases h

theorem not_plain {i : Instr} (h : i.opens = true) : i.plain ≠ true := by
  simp [plain, h]

end Instr

/-- Code in which every construct that opens is closed, and no other. Whether an `else_` may stand
outside of all constructs is told by the first argument. -/
inductive Balanced : Bool → List Instr → Prop
  | nil {x : Bool} : Balanced x []
  | plain {x : Bool} {i : Instr} {is : List Instr} : i.plain = true → (i = .else_ → x = true) →
    Balanced x is → Balanced x (i :: is)
  | construct {x : Bool} {i : Instr} {body rest : List Instr} : i.opens = true →
    Balanced true body → Balanced x rest → Balanced x (i :: (body ++ .end_ :: rest))

namespace Balanced

variable {x : Bool} {is is' pre post body : List Instr} {i : Instr}

theorem append (h : Balanced x is) (h' : Balanced x is') : Balanced x (is ++ is') := by
  induction h with
  | nil => exact h'
  | plain hi he _ ih => exact .plain hi he (ih h')
  | construct hi hb _ _ ih =>
    rw [List.cons_append, List.append_assoc, List.cons_append]
    exact .construct hi hb (ih h')

/-- Code has no `else_` outside of its constructs, or there is a last one. -/
theorem split_else (h : Balanced x is) : Balanced false is ∨
    ∃ a b, is = a ++ .else_ :: b ∧ Balanced true a ∧ Balanced false b := by
  induction h with
  | nil => exact .inl .nil
  | @plain x i is hi he h ih =>
    obtain hn | ⟨a, b, rfl, ha, hb⟩ := ih
    · by_cases hie : i = .else_
      · subst hie
        exact .inr ⟨[], is, rfl, .nil, hn⟩
      · exact .inl (.plain hi (fun h ↦ absurd h hie) hn)
    · exact .inr ⟨i :: a, b, rfl, .plain hi (fun _ ↦ rfl) ha, hb⟩
  | @construct x i body rest hi hbody h _ ih =>
    obtain hn | ⟨a, b, rfl, ha, hb⟩ := ih
    · exact .inl (.construct hi hbody hn)
    · refine .inr ⟨i :: (body ++ .end_ :: a), b, by simp, .construct hi hbody ha, hb⟩

/-- A construct that opens within balanced code is closed there. -/
theorem closes (h : Balanced x is) (hs : is = pre ++ i :: post) (hi : i.opens = true) :
    ∃ body rest, post = body ++ .end_ :: rest ∧ Balanced true body := by
  induction h generalizing pre post with
  | nil => simp at hs
  | @plain x j is hj _ _ ih =>
    cases pre with
    | nil =>
      cases hs
      exact absurd hi (by simp [(Instr.plain_iff.mp hj).1])
    | cons k pre =>
      cases hs
      exact ih rfl
  | @construct x j body rest hj hb _ ihb ih =>
    cases pre with
    | nil =>
      cases hs
      exact ⟨body, rest, rfl, hb⟩
    | cons k pre =>
      simp only [List.cons_append, List.cons.injEq] at hs
      obtain ⟨rfl, hs⟩ := hs
      obtain ⟨a, rfl, ha⟩ | ⟨a, rfl, ha⟩ := List.append_eq_append_iff.mp hs
      · cases a with
        | nil =>
          simp only [List.nil_append, List.cons.injEq] at ha
          exact absurd ha.1 (Instr.opens_ne_end hi).symm
        | cons k a =>
          cases ha
          exact ih rfl
      · cases a with
        | nil =>
          simp only [List.nil_append, List.cons.injEq] at ha
          exact absurd ha.1 (Instr.opens_ne_end hi)
        | cons k a =>
          cases ha
          obtain ⟨body', rest', rfl, hb'⟩ := ihb rfl
          exact ⟨body', rest' ++ .end_ :: rest, by simp, hb'⟩

end Balanced

namespace BlockEnd

variable {x : Bool} {i : Instr} {is body rest : List Instr} {pc d : Nat} {e : Option Nat}

theorem scan_opens (hi : i.opens = true) :
    scan (i :: is) pc d e = scan is (pc + 1) (d + 1) e := by
  cases i <;> first | rfl | cases hi

theorem scan_plain (hi : i.plain = true) (he : i ≠ .else_) :
    scan (i :: is) pc d e = scan is (pc + 1) d e := by
  cases i <;> first | exact absurd rfl he | rfl | cases hi

/-- Within a construct that is open all instructions are passed over. -/
theorem scan_balanced_succ (h : Balanced x body) :
    scan (body ++ rest) pc (d + 1) e = scan rest (pc + body.length) (d + 1) e := by
  induction h generalizing pc d rest with
  | nil => rfl
  | @plain x i is hi _ _ ih =>
    have hskip : scan (i :: (is ++ rest)) pc (d + 1) e = scan (is ++ rest) (pc + 1) (d + 1) e := by
      cases i <;> first | rfl | cases hi
    rw [List.cons_append, hskip, ih, List.length_cons]
    congr 1
    omega
  | @construct x i body' rest' hi _ _ ihb ih =>
    have hend : scan (.end_ :: (rest' ++ rest)) (pc + 1 + body'.length) (d + 1 + 1) e =
        scan (rest' ++ rest) (pc + 1 + body'.length + 1) (d + 1) e := rfl
    rw [List.cons_append, scan_opens hi, List.append_assoc, ihb, List.cons_append, hend, ih]
    simp only [List.length_cons, List.length_append]
    congr 1
    omega

theorem scan_balanced (h : Balanced false body) :
    scan (body ++ rest) pc 0 e = scan rest (pc + body.length) 0 e := by
  generalize hx : false = x at h
  induction h generalizing pc rest with
  | nil => rfl
  | @plain x i is hi hne _ ih =>
    subst hx
    have he : i ≠ .else_ := fun h ↦ Bool.noConfusion (hne h)
    rw [List.cons_append, scan_plain hi he, ih rfl, List.length_cons]
    congr 1
    omega
  | @construct x i body' rest' hi hb _ _ ih =>
    have hend : scan (.end_ :: (rest' ++ rest)) (pc + 1 + body'.length) (0 + 1) e =
        scan (rest' ++ rest) (pc + 1 + body'.length + 1) 0 e := rfl
    rw [List.cons_append, scan_opens hi, List.append_assoc, scan_balanced_succ hb, List.cons_append,
      hend, ih hx]
    simp only [List.length_cons, List.length_append]
    congr 1
    omega

theorem scan_balanced_some (h : Balanced x body) (pc : Nat) (e : Option Nat) :
    ∃ e', ∀ rest, scan (body ++ rest) pc 0 e = scan rest (pc + body.length) 0 e' := by
  induction h generalizing pc e with
  | nil => exact ⟨e, fun rest ↦ rfl⟩
  | @plain x i is hi _ _ ih =>
    have hlen (n : Nat) : n + (i :: is).length = n + 1 + is.length := by
      rw [List.length_cons]
      omega
    by_cases he : i = .else_
    · subst he
      obtain ⟨e', he'⟩ := ih (pc + 1) (some pc)
      refine ⟨e', fun rest ↦ ?_⟩
      rw [hlen, ← he']
      rfl
    · obtain ⟨e', he'⟩ := ih (pc + 1) e
      refine ⟨e', fun rest ↦ ?_⟩
      rw [hlen, ← he', List.cons_append, scan_plain hi he]
  | @construct x i body' rest' hi hb _ _ ih =>
    obtain ⟨e', he'⟩ := ih (pc + 1 + body'.length + 1) e
    refine ⟨e', fun rest ↦ ?_⟩
    have hlen : pc + (i :: (body' ++ .end_ :: rest')).length =
        pc + 1 + body'.length + 1 + rest'.length := by
      simp only [List.length_cons, List.length_append]
      omega
    rw [hlen, ← he', List.cons_append, scan_opens hi, List.append_assoc, scan_balanced_succ hb]
    rfl

/-- The `else_` of a construct is the last one outside of the constructs in it. -/
theorem scan_balanced_else {a b : List Instr} (ha : Balanced true a) (hb : Balanced false b) :
    scan (a ++ .else_ :: b ++ rest) pc 0 e =
      scan rest (pc + (a ++ .else_ :: b).length) 0 (some (pc + a.length)) := by
  obtain ⟨e', he'⟩ := scan_balanced_some ha pc e
  have helse : scan (.else_ :: (b ++ rest)) (pc + a.length) 0 e' =
      scan (b ++ rest) (pc + a.length + 1) 0 (some (pc + a.length)) := rfl
  rw [List.append_assoc, he', List.cons_append, helse, scan_balanced hb]
  simp only [List.length_append, List.length_cons]
  congr 1
  omega

end BlockEnd

def Code.Closes (code : Code) (o e : Nat) : Prop :=
  ∃ pre i body post, code.toList = pre ++ i :: (body ++ .end_ :: post) ∧ i.opens = true ∧
    Balanced true body ∧ o = pre.length ∧ e = o + 1 + body.length

def Code.WellBracketed (code : Code) : Prop :=
  ∃ body, code.toList = body ++ [.end_] ∧ Balanced true body

namespace Code

variable {code : Code} {o e : Nat}

/-- The positions of the constructs that are open after the given instructions, innermost first. The
first instruction is at position `pc`, and the constructs `st` are open before it. -/
def openers : List Instr → (pc : Nat) → (st : List Nat) → List Nat
  | [], _, st => st
  | i :: is, pc, st =>
    openers is (pc + 1) (if i.opens then pc :: st else if i = .end_ then st.tail else st)

def openAt (code : Code) (pc : Nat) : List Nat := openers (code.toList.take pc) 0 []

theorem openers_append (is is' : List Instr) (pc : Nat) (st : List Nat) :
    openers (is ++ is') pc st = openers is' (pc + is.length) (openers is pc st) := by
  induction is generalizing pc st with
  | nil => rfl
  | cons i is ih =>
    rw [List.cons_append, openers, ih, openers, List.length_cons]
    congr 1
    omega

theorem openers_plain {i : Instr} (hi : i.plain = true) (is : List Instr) (pc : Nat)
    (st : List Nat) : openers (i :: is) pc st = openers is (pc + 1) st := by
  obtain ⟨ho, he⟩ := Instr.plain_iff.mp hi
  simp [openers, ho, he]

theorem openers_opens {i : Instr} (hi : i.opens = true) (is : List Instr) (pc : Nat)
    (st : List Nat) : openers (i :: is) pc st = openers is (pc + 1) (pc :: st) := by
  simp [openers, hi]

theorem openers_end (is : List Instr) (pc : Nat) (st : List Nat) :
    openers (.end_ :: is) pc st = openers is (pc + 1) st.tail := rfl

theorem openers_balanced {x : Bool} {is : List Instr} (h : Balanced x is) (pc : Nat)
    (st : List Nat) : openers is pc st = st := by
  induction h generalizing pc st with
  | nil => rfl
  | plain hi _ _ ih => rw [openers_plain hi, ih]
  | construct hi _ _ ihb ih =>
    rw [openers_opens hi, openers_append, ihb, openers_end, List.tail_cons, ih]

/-- Within balanced code the constructs that were open before stay open, and there is one more
before an `end_`. -/
theorem openers_split {x : Bool} {is pre post : List Instr} (h : Balanced x is)
    (hs : is = pre ++ post) (pc : Nat) (st : List Nat) :
    ∃ xs, openers pre pc st = xs ++ st ∧ (post.head? = some .end_ → xs ≠ []) := by
  induction h generalizing pre post pc st with
  | nil =>
    obtain ⟨rfl, rfl⟩ := List.append_eq_nil_iff.mp hs.symm
    exact ⟨[], rfl, nofun⟩
  | @plain x i is hi _ _ ih =>
    cases pre with
    | nil =>
      subst hs
      refine ⟨[], rfl, fun h ↦ ?_⟩
      exact absurd (Option.some.inj h) (Instr.plain_iff.mp hi).2
    | cons j pre =>
      cases hs
      obtain ⟨xs, hxs, hne⟩ := ih rfl (pc + 1) st
      exact ⟨xs, by rw [openers_plain hi, hxs], hne⟩
  | @construct x i body rest hi hb _ ihb ih =>
    cases pre with
    | nil =>
      subst hs
      refine ⟨[], rfl, fun h ↦ ?_⟩
      exact absurd (Option.some.inj h) (Instr.opens_ne_end hi)
    | cons j pre =>
      simp only [List.cons_append, List.cons.injEq] at hs
      obtain ⟨rfl, hs⟩ := hs
      rw [openers_opens hi]
      obtain ⟨a, rfl, ha⟩ | ⟨a, rfl, rfl⟩ := List.append_eq_append_iff.mp hs
      · cases a with
        | nil =>
          obtain ⟨xs, hxs, _⟩ := @ihb body [] (by simp) (pc + 1) (pc :: st)
          refine ⟨xs ++ [pc], by simp [hxs], fun _ ↦ by simp⟩
        | cons k a =>
          cases ha
          obtain ⟨xs, hxs, hne⟩ := ih rfl (pc + 1 + body.length + 1) st
          refine ⟨xs, ?_, hne⟩
          rw [openers_append, openers_balanced hb, openers_end, List.tail_cons, hxs]
      · obtain ⟨xs, hxs, hne⟩ := ihb rfl (pc + 1) (pc :: st)
        exact ⟨xs ++ [pc], by simp [hxs], fun _ ↦ by simp⟩

theorem not_balanced_of_end {x y : Bool} {is rest : List Instr}
    (h : Balanced x (is ++ .end_ :: rest)) : ¬ Balanced y is := by
  intro hb
  obtain ⟨xs, hxs, hne⟩ := openers_split h rfl 0 []
  rw [openers_balanced hb, List.append_nil] at hxs
  exact hne rfl hxs.symm

theorem openAt_succ {pc : Nat} {i : Instr} (h : code[pc]? = some i) :
    code.openAt (pc + 1) = openers [i] pc (code.openAt pc) := by
  rw [← Array.getElem?_toList] at h
  obtain ⟨hlt, hget⟩ := List.getElem?_eq_some_iff.mp h
  rw [openAt, List.take_succ_eq_append_getElem hlt, openers_append, hget, List.length_take,
    Nat.min_eq_left hlt.le, Nat.zero_add]
  rfl

theorem openAt_plain {pc : Nat} {i : Instr} (h : code[pc]? = some i) (hi : i.plain = true) :
    code.openAt (pc + 1) = code.openAt pc := by
  rw [openAt_succ h, openers_plain hi]
  rfl

theorem openAt_opens {pc : Nat} {i : Instr} (h : code[pc]? = some i) (hi : i.opens = true) :
    code.openAt (pc + 1) = pc :: code.openAt pc := by
  rw [openAt_succ h, openers_opens hi]
  rfl

theorem openAt_end {pc : Nat} (h : code[pc]? = some .end_) :
    code.openAt (pc + 1) = (code.openAt pc).tail := by
  rw [openAt_succ h, openers_end]
  rfl

/-- What is open below an open construct was open before it. -/
theorem openAt_suffix {pc : Nat} {xs rest : List Nat} (hpc : pc ≤ code.size)
    (h : code.openAt pc = xs ++ o :: rest) :
    o < pc ∧ rest = code.openAt o ∧ ∃ i, code[o]? = some i ∧ i.opens = true := by
  induction pc generalizing xs with
  | zero => simp [openAt, openers] at h
  | succ pc ih =>
    obtain ⟨i, hi⟩ : ∃ i, code[pc]? = some i := ⟨code[pc], Array.getElem?_eq_getElem hpc⟩
    have hup (ys : List Nat) (hy : code.openAt pc = ys ++ o :: rest) := ih (Nat.le_of_lt hpc) hy
    by_cases hopen : i.opens = true
    · rw [openAt_opens hi hopen] at h
      cases xs with
      | nil =>
        cases h
        exact ⟨Nat.lt_succ_self _, rfl, i, hi, hopen⟩
      | cons y ys =>
        obtain ⟨hlt, hrest⟩ := hup ys (List.cons.inj h).2
        exact ⟨Nat.lt_succ_of_lt hlt, hrest⟩
    · by_cases hend : i = .end_
      · subst hend
        rw [openAt_end hi] at h
        cases hst : code.openAt pc with
        | nil =>
          rw [hst] at h
          simp at h
        | cons y ys =>
          rw [hst, List.tail_cons] at h
          obtain ⟨hlt, hrest⟩ := hup (y :: xs) (by rw [hst, h]; rfl)
          exact ⟨Nat.lt_succ_of_lt hlt, hrest⟩
      · rw [openAt_plain hi (Instr.plain_iff.mpr ⟨by simpa using hopen, hend⟩)] at h
        obtain ⟨hlt, hrest⟩ := hup xs h
        exact ⟨Nat.lt_succ_of_lt hlt, hrest⟩

/-- The constructs that are open at a position of the body, where `body` is balanced up to it. -/
theorem openAt_body {pre body post : List Instr} {i : Instr}
    (hcode : code.toList = pre ++ i :: (body ++ post)) (hi : i.opens = true)
    (ho : o = pre.length) {x : Bool} (hb : Balanced x body) :
    code.openAt (o + 1 + body.length) = o :: code.openAt o := by
  have htake : code.toList.take (o + 1 + body.length) = pre ++ i :: body := by
    have hassoc : code.toList = (pre ++ i :: body) ++ post := by rw [hcode]; simp
    have hlen : o + 1 + body.length = (pre ++ i :: body).length := by simp [ho]; omega
    rw [hassoc, hlen, List.take_left]
  have hbase : code.toList.take o = pre := by rw [hcode, ho, List.take_left]
  rw [openAt, openAt, htake, hbase, openers_append, openers_opens hi, openers_balanced hb,
    Nat.zero_add, ho]

namespace Closes

variable (h : code.Closes o e)

include h

theorem lt : o < e := by
  obtain ⟨pre, i, body, post, _, _, _, rfl, rfl⟩ := h
  omega

theorem opener : ∃ i, code[o]? = some i ∧ i.opens = true := by
  obtain ⟨pre, i, body, post, hcode, hi, _, rfl, rfl⟩ := h
  refine ⟨i, ?_, hi⟩
  rw [← Array.getElem?_toList, hcode]
  simp

theorem closer : code[e]? = some .end_ := by
  obtain ⟨pre, i, body, post, hcode, _, _, rfl, rfl⟩ := h
  rw [← Array.getElem?_toList, hcode, List.getElem?_append_right (by omega)]
  have hidx : pre.length + 1 + body.length - pre.length = body.length + 1 := by omega
  rw [hidx, List.getElem?_cons_succ, List.getElem?_append_right le_rfl]
  simp

theorem openAt_stop : code.openAt e = o :: code.openAt o := by
  obtain ⟨pre, i, body, post, hcode, hi, hb, ho, rfl⟩ := h
  exact openAt_body hcode hi ho hb

theorem openAt_after : code.openAt (e + 1) = code.openAt o := by
  rw [openAt_end h.closer, h.openAt_stop, List.tail_cons]

/-- The search for the end of a construct finds it. -/
theorem blockEnd : ∃ b, code.blockEnd o = .ok b ∧ b.endPc = e ∧
    ∀ p, b.elsePc = some p → o < p ∧ p < e ∧ code.openAt (p + 1) = o :: code.openAt o := by
  obtain ⟨pre, i, body, post, hcode, hi, hb, ho, rfl⟩ := h
  have hdrop : code.toList.drop (o + 1) = body ++ .end_ :: post := by
    rw [hcode, ho, ← List.drop_drop, List.drop_left]
    rfl
  obtain hn | ⟨a, b, rfl, ha, hb'⟩ := hb.split_else
  · refine ⟨⟨none, o + 1 + body.length⟩, ?_, rfl, nofun⟩
    rw [Code.blockEnd, hdrop, BlockEnd.scan_balanced hn]
    rfl
  · refine ⟨⟨some (o + 1 + a.length), o + 1 + (a ++ .else_ :: b).length⟩, ?_, rfl, ?_⟩
    · rw [Code.blockEnd, hdrop, BlockEnd.scan_balanced_else ha hb']
      rfl
    · intro p hp
      cases hp
      refine ⟨by omega, by simp only [List.length_append, List.length_cons]; omega, ?_⟩
      have hae : Balanced true (a ++ [.else_]) := ha.append (.plain rfl (fun _ ↦ rfl) .nil)
      have hcode' : code.toList = pre ++ i :: ((a ++ [.else_]) ++ (b ++ .end_ :: post)) := by
        rw [hcode]
        simp
      have hbody := openAt_body hcode' hi ho hae
      rw [← hbody, List.length_append, List.length_singleton]
      rfl

end Closes

namespace WellBracketed

variable (hw : code.WellBracketed)

include hw

theorem size_pos : 0 < code.size := by
  obtain ⟨body, hcode, _⟩ := hw
  rw [← Array.length_toList, hcode]
  simp

/-- Only an `end_` stands last. -/
theorem lt_of_ne_end {pc : Nat} {i : Instr} (h : code[pc]? = some i) (hi : i ≠ .end_) :
    pc + 1 < code.size := by
  obtain ⟨body, hcode, _⟩ := hw
  rw [← Array.getElem?_toList, hcode] at h
  have hlt : pc < body.length := by
    by_contra hle
    rw [List.getElem?_append_right (Nat.not_lt.mp hle), List.getElem?_singleton] at h
    split at h
    · exact hi (Option.some.inj h).symm
    · cases h
  rw [← Array.length_toList, hcode, List.length_append, List.length_singleton]
  omega

/-- The split of the balanced part at a position before the last. -/
theorem split {pc : Nat} {i : Instr} (h : code[pc]? = some i) (hlt : pc + 1 < code.size) :
    ∃ body post, code.toList = body ++ [.end_] ∧ Balanced true body ∧
      body = code.toList.take pc ++ i :: post := by
  obtain ⟨body, hcode, hb⟩ := hw
  have hsize : pc < body.length := by
    rw [← Array.length_toList, hcode, List.length_append, List.length_singleton] at hlt
    omega
  rw [← Array.getElem?_toList, hcode, List.getElem?_append_left hsize] at h
  obtain ⟨_, hget⟩ := List.getElem?_eq_some_iff.mp h
  refine ⟨body, body.drop (pc + 1), hcode, hb, ?_⟩
  rw [hcode, List.take_append_of_le_length hsize.le, ← hget, ← List.drop_eq_getElem_cons hsize,
    List.take_append_drop]

/-- A construct that opens is closed, before the last `end_`. -/
theorem closes {pc : Nat} {i : Instr} (h : code[pc]? = some i) (hi : i.opens = true) :
    ∃ e, code.Closes pc e := by
  have hlt := hw.lt_of_ne_end h (Instr.opens_ne_end hi)
  obtain ⟨body, post, hcode, hb, hsplit⟩ := hw.split h hlt
  obtain ⟨inner, rest, rfl, hinner⟩ := hb.closes hsplit hi
  refine ⟨pc + 1 + inner.length, code.toList.take pc, i, inner, rest ++ [.end_], ?_, hi, hinner, ?_,
    rfl⟩
  · conv_lhs => rw [hcode, hsplit]
    simp
  · rw [List.length_take, Array.length_toList]
    omega

theorem closes_lt (h : code.Closes o e) : e + 1 < code.size := by
  obtain ⟨body, hcode, hb⟩ := hw
  obtain ⟨pre, i, inner, post, hcode', hi, hinner, rfl, rfl⟩ := h
  have hne : post ≠ [] := by
    rintro rfl
    have hsplit : body = pre ++ i :: inner := by
      have happ : (pre ++ i :: inner) ++ [.end_] = body ++ [.end_] := by rw [← hcode, hcode']; simp
      exact (List.append_left_inj _).mp happ.symm
    obtain ⟨inner', rest, rfl, hinner'⟩ := hb.closes hsplit hi
    exact not_balanced_of_end hinner hinner'
  have hpos := List.length_pos_of_ne_nil hne
  rw [← Array.length_toList, hcode']
  simp only [List.length_append, List.length_cons]
  omega

/-- An `end_` that is not the last closes a construct. -/
theorem openAt_ne_nil {pc : Nat} (h : code[pc]? = some .end_) (hlt : pc + 1 < code.size) :
    code.openAt pc ≠ [] := by
  obtain ⟨body, post, hcode, hb, hsplit⟩ := hw.split h hlt
  obtain ⟨xs, hxs, hne⟩ := openers_split hb hsplit 0 []
  rw [List.append_nil] at hxs
  rw [openAt, hxs]
  exact hne rfl

end WellBracketed

theorem Closes.unique {e' : Nat} (h : code.Closes o e) (h' : code.Closes o e') : e = e' := by
  obtain ⟨b, hb, he, _⟩ := h.blockEnd
  obtain ⟨b', hb', he', _⟩ := h'.blockEnd
  cases hb.symm.trans hb'
  exact he.symm.trans he'

theorem mem_openers {is : List Instr} {pc : Nat} {st : List Nat} (h : o ∈ openers is pc st) :
    o ∈ st ∨ pc ≤ o := by
  induction is generalizing pc st with
  | nil => exact .inl h
  | cons i is ih =>
    rw [openers] at h
    obtain hst | hle := ih h
    · split at hst
      · obtain rfl | hmem := List.mem_cons.mp hst
        · exact .inr le_rfl
        · exact .inl hmem
      · split at hst
        · exact .inl (List.mem_of_mem_tail hst)
        · exact .inl hst
    · exact .inr (Nat.le_of_succ_le hle)

theorem openAt_from {p q : Nat} (hqp : q ≤ p) (hq : q ≤ code.size) :
    code.openAt p = openers ((code.toList.take p).drop q) q (code.openAt q) := by
  have hsplit : code.toList.take p = code.toList.take q ++ (code.toList.take p).drop q := by
    conv_lhs => rw [← List.take_append_drop q (code.toList.take p)]
    rw [List.take_take, Nat.min_eq_left hqp]
  rw [openAt, openAt]
  conv_lhs => rw [hsplit]
  rw [openers_append, List.length_take, Array.length_toList, Nat.min_eq_left hq, Nat.zero_add]

theorem lt_of_mem_openAt {pc : Nat} (hpc : pc ≤ code.size) (h : o ∈ code.openAt pc) : o < pc := by
  obtain ⟨xs, rest, hsplit⟩ := List.append_of_mem h
  exact (openAt_suffix hpc hsplit).1

/-- The open constructs are those that began before and end at the position or after it. -/
theorem WellBracketed.mem_openAt_iff (hw : code.WellBracketed) {pc : Nat} (hpc : pc ≤ code.size) :
    o ∈ code.openAt pc ↔ ∃ e, code.Closes o e ∧ o < pc ∧ pc ≤ e := by
  constructor
  · intro h
    obtain ⟨xs, rest, hsplit⟩ := List.append_of_mem h
    obtain ⟨hlt, _, i, hi, hopen⟩ := openAt_suffix hpc hsplit
    obtain ⟨e, he⟩ := hw.closes hi hopen
    refine ⟨e, he, hlt, ?_⟩
    by_contra hle
    have hsize := hw.closes_lt he
    rw [openAt_from (Nat.lt_of_not_le hle) hsize.le, he.openAt_after] at h
    have hoe := he.lt
    obtain hmem | hge := mem_openers h
    · have := lt_of_mem_openAt (by omega) hmem
      omega
    · omega
  · rintro ⟨e, ⟨pre, i, body, post, hcode, hi, hb, rfl, rfl⟩, hlt, hle⟩
    obtain ⟨k, rfl⟩ : ∃ k, pc = pre.length + 1 + k := ⟨pc - (pre.length + 1), by omega⟩
    have htake : code.toList.take (pre.length + 1 + k) = pre ++ i :: body.take k := by
      rw [hcode, List.take_append, List.take_of_length_le (by omega)]
      have hidx : pre.length + 1 + k - pre.length = k + 1 := by omega
      rw [hidx, List.take_succ_cons, List.take_append_of_le_length (by omega)]
    obtain ⟨xs, hxs, _⟩ := openers_split hb (List.take_append_drop k body).symm
      (0 + pre.length + 1) ((0 + pre.length) :: openers pre 0 [])
    rw [openAt, htake, openers_append, openers_opens hi, hxs]
    simp

theorem openAt_sorted {pc : Nat} (hpc : pc ≤ code.size) :
    (code.openAt pc).Pairwise (· > ·) := by
  induction pc using Nat.strong_induction_on with
  | _ pc ih =>
    cases hst : code.openAt pc with
    | nil => exact .nil
    | cons o rest =>
      obtain ⟨hlt, hrest, _⟩ := @openAt_suffix code o pc [] rest hpc hst
      have ho : o ≤ code.size := by omega
      rw [hrest]
      exact .cons (fun y hy ↦ lt_of_mem_openAt ho hy) (ih o hlt ho)

end Code

end Wasm
