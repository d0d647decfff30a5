import Wasm.Proofs.Structured.Calls

namespace Wasm

section Runs

variable {M : Module → Prop} {T : Trap → Prop} {const : Code} {callHost : HostCall} {base k : Nat}
  {r : Machine × EStateM.Result (Stop Trap) Machine Unit} {c c' : Context} {s s' : Scope}

/-- What comes after an instruction or a construct. -/
theorem Simulates.rest (ih : Simulates M T const callHost base k r) (hb : base ≤ c.callers.length)
    {t : Tree} {post : List Instr} {stop : Nat} (hp : c.Peer c') (ht : t.Shaped)
    (hat : c.frame.body.toList.drop c'.pc = t.flatten ++ post)
    (hstop : stop = c'.pc + t.flatten.length) (h : Arrives M T const callHost base k r c' s) :
    Follows M T const callHost base (k + 1) r c stop
      (Eval.tree callHost c.limit k c.depth c.frame.inst t s) := by
  subst hstop
  obtain ⟨locals, saved, ends, pc, rfl⟩ := id hp
  refine Follows.peer ?_ hp
  exact ih _ s t post hb ht hat h

/-- An instruction that opens or closes no construct, and what comes after it. -/
theorem Simulates.plain (ih : Simulates M T const callHost base k r) (hr : Machine.Settled r.2)
    (hM : ∀ m, M m → m.Bracketed) (hh : callHost.Honest M T) (hb : base ≤ c.callers.length)
    {i : Instr} {t : Tree} {post : List Instr} (hi : i.plain = true) (ht : t.Shaped)
    (hat : c.frame.body.toList.drop c.pc = i :: (t.flatten ++ post))
    (h : Arrives M T const callHost base (k + 1) r c s) :
    Follows M T const callHost base (k + 1) r c (c.pc + (t.flatten.length + 1))
      (Eval.tree callHost c.limit (k + 1) c.depth c.frame.inst (.plain i t) s) := by
  obtain ⟨hget, hrest⟩ := Code.at_cons hat
  obtain ⟨hc, x, hmove, hx⟩ := h.step hr
  have hx : Proceeds callHost base k r (c.fill s) x := hx
  have hk := Nat.le_succ k
  rw [Eval.tree, Outcome.bind_apply]
  cases hmove with
  | pastEnd hget' => cases hget.symm.trans hget'
  | trap hget' _ hy _ _ =>
    cases hget.symm.trans hget'
    rw [Eval.primitive_error hy]
    refine fails_of hx (c.shows_fill _) ?_
    intro u v hm
    obtain ⟨_, _, _, _, hy', _⟩ := hm.call hc.fits hget
    cases hy.symm.trans hy'
  | next h =>
    rw [h.primitive hget]
    exact ih.rest hb (.goto c _) ht hrest (by simp only [Context.goto]; omega)
      (Proceeds.arrives hx (hc.next h))
  | skip h ho =>
    rw [h.primitive hget]
    exact ⟨c, .refl c, .skip ho ((Proceeds.arrives hx (hc.skip h ho)).mono hk)⟩
  | skipOut h ho =>
    rw [h.primitive hget]
    exact ⟨c, .refl c, .skipOut ho (fails_of hx (c.shows_fill _) (h.counts hc.fits (by simp)))⟩
  | branch h ho hn =>
    rw [h.primitive hget]
    exact ⟨c, .refl c, .branch ho hn ((Proceeds.arrives hx (hc.branch h ho _)).mono hk)⟩
  | branchShort h ho hn =>
    have hfail := fails_of hx (c.shows_fill _) (h.counts hc.fits (by simp))
    rw [h.primitive hget]
    exact ⟨c, .refl c, .branchShort ho hn hfail⟩
  | branchOut h ho hl =>
    have hdep := h.departs (by simp) (by simp) hl hc hx
    rw [h.primitive hget]
    exact ⟨c, .refl c, .branchOut ho (hdep.mono hk)⟩
  | leave h hl =>
    have hdep := h.departs (by simp) (by simp) hl hc hx
    rw [h.primitive hget]
    exact ⟨c, .refl c, .leave (hdep.mono hk)⟩
  | call h hcall =>
    have hres := ih.call hr hM hh hb hc h hcall hx
    rw [h.primitive hget]
    simp only [Outcome.bind_apply]
    generalize Eval.call callHost c.limit _ c.depth c.frame.inst _ _ = y at hres ⊢
    cases y with
    | error e s' => exact hres
    | ok _ s' =>
      obtain ⟨c', hp, hpc, harr⟩ := hres
      exact ih.rest hb hp ht (hpc ▸ hrest) (by omega) harr
  | overflow hfull _ => exact (not_overflow hr hfull hx).elim
  -- a plain instruction is no `end_`
  | last hget' _ _ | close hget' _ _ _ | closeShort hget' _ _ _ | closeOut hget' _ _ =>
    cases hget.symm.trans hget'
    cases hi
  -- and opens nothing
  | refuse hget' hs _ _ _ | unterminated hget' hs _ _ =>
    cases hget.symm.trans hget'
    exact absurd hi (Instr.not_plain (Instr.opens_of_signature hs))
  | pass h _ _ | mistyped h _ _ _ _ | enterShort h _ _ _ _ _ | enter h _ _ _ _ _ _ _ _ =>
    exact absurd hi (Instr.not_plain (h.opens hget))

/-- From the `else_` at the end of a part to the end of the construct. -/
theorem Arrives.else_ (h : Arrives M T const callHost base k r c s) (hr : Machine.Settled r.2)
    {l : Label} {ws : List Value} {rest : List (Label × List Value)}
    (hi : c.frame.body[c.pc]? = some .else_) (ho : c.outer = (l, ws) :: rest) :
    Arrives M T const callHost base k r (c.goto l.stop) s := by
  obtain ⟨n, hn, hfinish, hc⟩ := h
  have hadvance : Machine.advance callHost base (c.fill s) =
      .ok false ((c.goto l.stop).fill s) := by
    have hstep : Machine.exec c.frame.body.size .else_ (c.fill s) =
        .ok (.jump l.stop) (c.fill s) := by
      rw [Machine.exec_plain rfl]
      change EStateM.bind (Machine.onStack (Stack.currentLabel 0)) _ (c.fill s) = _
      rw [EStateM.bind, Machine.onStack, Machine.currentLabel_fill ho]
      rfl
    rw [Machine.advance_apply, Machine.step_fill, hi]
    simp only [hstep]
    rfl
  have hintends : Intends c c s .skip s := ⟨hc.fits, rfl, .else_, hi, rfl, rfl, rfl⟩
  cases n with
  | zero =>
    subst hfinish
    exact absurd rfl hr.1
  | succ n =>
    rw [Machine.finish, hadvance] at hfinish
    exact ⟨n, Nat.le_of_succ_le hn, hfinish, hc.skip hintends ho⟩

/-- A construct is left as its body is. -/
theorem Follows.proceed {l : Label} {vs : List Value} {ends : BlockEnds} {p stop final : Nat}
    {part again rest : Eval Exit} (hr : Machine.Settled r.2)
    (h : Follows M T const callHost base k r (c.within l vs ends p) stop (part s))
    (hstop : stop = l.stop ∨ c.frame.body[stop]? = some .else_)
    (hend : c.frame.body[l.stop]? = some .end_) (hne : l.stop + 1 ≠ c.frame.body.size)
    (hrest : ∀ c' s', c.Peer c' → c'.pc = l.stop + 1 → Arrives M T const callHost base k r c' s' →
      Follows M T const callHost base (k + 1) r c final (rest s'))
    (hagain : l.isLoop = true → ∀ c' s', c.Peer c' → c'.pc = l.start →
      Arrives M T const callHost base k r c' s' →
      Follows M T const callHost base (k + 1) r c final (again s')) :
    Follows M T const callHost base (k + 1) r c final
      ((part >>= Eval.proceed l.params l.arity vs l.isLoop again rest) s) := by
  have hk := Nat.le_succ k
  rw [Outcome.bind_apply]
  generalize part s = x at h
  cases x with
  | error e s' => exact h
  | ok x s' =>
    obtain ⟨c₂, ⟨locals, saved, ends', pc, rfl⟩, hcont⟩ := h
    have hclose (harr : Arrives M T const callHost base k r
        (Context.goto { c.within l vs ends p with
          frame := { c.frame with locals := locals, pc := saved }, ends := ends', pc } l.stop) s') :
        Follows M T const callHost base (k + 1) r c final
          ((Eval.rejoin l.arity vs >>= fun _ ↦ rest) s') := by
      rw [Outcome.bind_apply, Eval.rejoin]
      obtain ⟨hn, hfail⟩ | ⟨hn, harr⟩ := harr.close hr hend hne rfl
      · rw [if_neg (Nat.not_le.mpr hn)]
        exact hfail
      · rw [if_pos hn]
        exact hrest _ _ ⟨_, _, _, _, rfl⟩ rfl harr
    have hpeer : c.Peer { c with
        frame := { c.frame with locals := locals, pc := saved }, ends := ends', pc } :=
      ⟨_, _, _, _, rfl⟩
    cases hcont with
    | normal harr =>
      refine hclose ?_
      obtain rfl | helse := hstop
      · exact harr
      · exact harr.else_ hr helse rfl
    | skip ho harr =>
      cases ho
      exact hclose harr
    | skipOut ho _ => cases ho
    | leave hdep => exact ⟨_, hpeer, .leave ((hdep.outward c.outer).mono hk)⟩
    | @branch d l' ws rest' ho hn harr =>
      cases d with
      | zero =>
        cases ho
        simp only [Eval.proceed_label]
        rw [Outcome.bind_apply, Eval.rejoin, if_pos hn]
        unfold Label.target at harr
        cases hloop : l.isLoop with
        | true =>
          simp only [hloop, if_true] at harr ⊢
          exact hagain hloop _ _ ⟨_, _, _, _, rfl⟩ rfl harr
        | false =>
          simp only [hloop, Bool.false_eq_true, if_false] at harr ⊢
          exact hrest _ _ ⟨_, _, _, _, rfl⟩ rfl harr
      | succ d => exact ⟨_, hpeer, .branch ho hn (harr.mono hk)⟩
    | @branchShort d l' ws rest' ho hn hfail =>
      cases d with
      | zero =>
        cases ho
        simp only [Eval.proceed_label]
        rw [Outcome.bind_apply, Eval.rejoin, if_neg (Nat.not_le.mpr hn)]
        exact hfail
      | succ d => exact ⟨_, hpeer, .branchShort ho hn hfail⟩
    | @branchOut d ho hdep =>
      cases d with
      | zero => cases ho
      | succ d => exact ⟨_, hpeer, .branchOut ho ((hdep.outward c.outer).mono hk)⟩

theorem condition_false {i : Instr} {m m' : Machine} (h : Machine.condition i m = .ok false m') :
    ∃ t, i = .if_ t := by
  cases i with
  | if_ t => exact ⟨t, rfl⟩
  | _ => cases h

/-- The construct at the current position ends before the body does. -/
theorem Context.Tracked.closer (h : c.Tracked M T const s) {i : Instr} {e : BlockEnd}
    (hi : c.frame.body[c.pc]? = some i) (ho : i.opens = true)
    (he : c.frame.body.blockEnd c.pc = .ok e) :
    c.frame.body[e.endPc]? = some .end_ ∧ e.endPc + 1 ≠ c.frame.body.size := by
  obtain ⟨stop, hcl⟩ := h.here.bracketed.closes hi ho
  obtain ⟨e', he', rfl, _⟩ := hcl.blockEnd
  cases he.symm.trans he'
  exact ⟨hcl.closer, Nat.ne_of_lt (h.here.bracketed.closes_lt hcl)⟩

/-- A construct, from the instruction that opens it. What is evaluated is `eval`, once the condition
is known. -/
theorem Arrives.opener {i : Instr} {t : BlockType} {e : BlockEnd} {eval : Bool → Eval Exit}
    {final : Nat} (h : Arrives M T const callHost base (k + 1) r c s) (again rest : Eval Exit)
    (hr : Machine.Settled r.2) (hi : c.frame.body[c.pc]? = some i) (hs : i.signature? = some t)
    (he : c.frame.body.blockEnd c.pc = .ok e) (hpass : e.elsePc = none → eval false = rest)
    (hpart : ∀ x p, (x = false → ∃ t, i = .if_ t) → e.entry? c.pc x = some p → ∃ part stop,
      eval x = Eval.construct c.limit c.frame.inst t i.isLoop part again rest ∧
      (stop = e.endPc ∨ c.frame.body[stop]? = some .else_) ∧
      ∀ l vs ends s', Arrives M T const callHost base k r (c.within l vs ends p) s' →
        Follows M T const callHost base k r (c.within l vs ends p) stop (part s'))
    (hrest : ∀ c' s', c.Peer c' → c'.pc = e.endPc + 1 → Arrives M T const callHost base k r c' s' →
      Follows M T const callHost base (k + 1) r c final (rest s'))
    (hagain : i.isLoop = true → ∀ c' s', c.Peer c' → c'.pc = c.pc →
      Arrives M T const callHost base k r c' s' →
      Follows M T const callHost base (k + 1) r c final (again s')) :
    Follows M T const callHost base (k + 1) r c final
      ((Eval.primitive c.limit c.frame.inst (Machine.condition i) >>= eval) s) := by
  obtain ⟨hc, x, hmove, hx⟩ := h.step hr
  have hx : Proceeds callHost base k r (c.fill s) x := hx
  have hopen := Instr.opens_of_signature hs
  have hplain := Instr.not_plain hopen
  have hquiet (u v : ValType) (hm : (c.fill s).Miscounts u v) : False :=
    hplain (hm.call hc.fits hi).1
  have hsame {e' : BlockEnd} {ends : BlockEnds} (hends : Ends c e' ends) : e' = e := by
    obtain ⟨he', _, _⟩ := hc.closes hi hopen hends
    exact Except.ok.inj (he'.symm.trans he)
  rw [Outcome.bind_apply]
  cases hmove with
  | refuse hget hs' hcond _ _ =>
    cases hi.symm.trans hget
    rw [Eval.primitive_error hcond]
    exact fails_of hx (c.shows_fill _) hquiet
  | pass hop hends hnone =>
    cases hi.symm.trans hop.instr
    cases hsame hends
    rw [Eval.primitive_ok hop.condition]
    simp only [hpass hnone]
    exact hrest _ _ ⟨_, _, _, _, rfl⟩ rfl (Proceeds.arrives hx (hc.pass hop hends))
  | @mistyped i' t' x s' s'' ends u hop helse harity _ _ =>
    cases hi.symm.trans hop.instr
    cases hs.symm.trans hop.signature
    have hentry : ∃ p, e.entry? c.pc x = some p := by
      cases x with
      | true => exact ⟨_, rfl⟩
      | false =>
        obtain ⟨e', p, hends, hp⟩ := helse rfl
        cases hsame hends
        exact ⟨p + 1, by simp only [BlockEnd.entry?, hp, Option.map_some]⟩
    obtain ⟨p, hp⟩ := hentry
    obtain ⟨part, stop, heval, _⟩ := hpart x p (fun hx ↦ condition_false (hx ▸ hop.condition)) hp
    rw [Eval.primitive_ok hop.condition]
    simp only [heval, Eval.construct_error harity]
    exact fails_of hx (Context.shows_fill { c with ends } _) hquiet
  | @enterShort i' t' x s' s'' e' ends p params arity hop hends hp harity _ hn =>
    cases hi.symm.trans hop.instr
    cases hs.symm.trans hop.signature
    cases hsame hends
    obtain ⟨part, stop, heval, _⟩ := hpart x p (fun hx ↦ condition_false (hx ▸ hop.condition)) hp
    rw [Eval.primitive_ok hop.condition]
    simp only [heval, Eval.construct_short harity hn]
    exact fails_of hx (Context.shows_fill { c with ends } _) hquiet
  | @enter i' t' x s' s'' e' ends p params arity c₁ s₁ hop hends hp harity hstore hn hc₁ hs₁ hfit =>
    cases hi.symm.trans hop.instr
    cases hs.symm.trans hop.signature
    cases hsame hends
    subst hc₁
    obtain ⟨part, stop, heval, hstop, hin⟩ :=
      hpart x p (fun hx ↦ condition_false (hx ▸ hop.condition)) hp
    have hs₁' := congrArg Scope.store hs₁
    have harr := Proceeds.arrives hx (hc.enter hop hends hp hstore hs₁' hfit)
    subst hs₁
    obtain ⟨hend, hne⟩ := hc.closer hi hopen he
    rw [Eval.primitive_ok hop.condition]
    simp only [heval, Eval.construct_enter harity hn]
    exact (hin _ _ _ _ harr).proceed hr hstop hend hne hrest hagain
  | overflow hfull _ => exact (not_overflow hr hfull hx).elim
  | unterminated _ _ hfind _ =>
    have hlook := hc.ends.find c.pc hc.here.code
    rw [hfind] at hlook
    cases he.symm.trans hlook.1
  | pastEnd hget => cases hi.symm.trans hget
  -- what opens a construct is not plain
  | trap hget hp _ _ _ =>
    cases hi.symm.trans hget
    exact absurd hp hplain
  | next h | skip h _ | skipOut h _ | branch h _ _ | branchShort h _ _ | branchOut h _ _
  | leave h _ | call h _ => exact absurd (h.plain hi) hplain
  -- and is no `end_`
  | last hget _ _ | close hget _ _ _ | closeShort hget _ _ _ | closeOut hget _ _ =>
    cases hi.symm.trans hget
    cases hs

theorem Simulates.construct (ih : Simulates M T const callHost base k r)
    (hr : Machine.Settled r.2) (hb : base ≤ c.callers.length) {kind : Tree.Kind} {t : BlockType}
    {body rest : Tree} {post : List Instr} (ht : (Tree.construct kind t body rest).Shaped)
    (hat : c.frame.body.toList.drop c.pc = (Tree.construct kind t body rest).flatten ++ post)
    (h : Arrives M T const callHost base (k + 1) r c s) :
    Follows M T const callHost base (k + 1) r c
      (c.pc + (Tree.construct kind t body rest).flatten.length)
      (Eval.tree callHost c.limit (k + 1) c.depth c.frame.inst (.construct kind t body rest)
        s) := by
  obtain ⟨hbody, hif, hrest⟩ := id ht
  have hcode : c.frame.body.toList.drop c.pc =
      kind.opener t :: (body.flatten ++ .end_ :: (rest.flatten ++ post)) := by
    rw [hat]
    simp [Tree.flatten]
  obtain ⟨hget, hin⟩ := Code.at_cons hcode
  have hout := (Code.at_cons (Code.at_append hin)).2
  have hend : ∃ e, c.frame.body.blockEnd c.pc = .ok ⟨e, c.pc + 1 + body.flatten.length⟩ ∧
      (kind = .if_ → e = none) := by
    by_cases hkind : kind = .if_
    · obtain ⟨e, he, hnone⟩ := Code.blockEnd_balanced (hbody.balanced_elseless (hif hkind)) hcode
      exact ⟨e, he, fun _ ↦ hnone rfl⟩
    · obtain ⟨e, he, _⟩ := Code.blockEnd_balanced hbody.balanced hcode
      exact ⟨e, he, fun h ↦ absurd h hkind⟩
  obtain ⟨e, he, hnone⟩ := hend
  rw [Eval.tree]
  refine h.opener (Eval.tree callHost c.limit k c.depth c.frame.inst (.construct kind t body rest))
    (Eval.tree callHost c.limit k c.depth c.frame.inst rest) hr hget (kind.signature t) he
    (fun _ ↦ rfl) ?_ ?_ ?_
  · intro x p hfalse hp
    cases x with
    | false =>
      obtain ⟨t', hkind⟩ := hfalse rfl
      have hif : kind = .if_ := by
        cases kind <;> cases hkind
        rfl
      rw [hnone hif] at hp
      cases hp
    | true =>
      cases hp
      have hloop : (kind.opener t).isLoop = (kind = .loop : Bool) := by cases kind <;> rfl
      refine ⟨Eval.tree callHost c.limit k c.depth c.frame.inst body, _, ?_, .inl rfl, ?_⟩
      · rw [hloop]
        rfl
      · intro l vs ends s' harr
        exact ih _ _ _ _ hb hbody hin harr
  · intro c' s' hp hpc harr
    refine ih.rest hb hp hrest (hpc ▸ hout) ?_ harr
    rw [hpc]
    simp only [Tree.flatten, List.length_cons, List.length_append]
    omega
  · intro _ c' s' hp hpc harr
    exact ih.rest hb hp ht (hpc ▸ hat) (by rw [hpc]) harr

theorem Simulates.either (ih : Simulates M T const callHost base k r) (hr : Machine.Settled r.2)
    (hb : base ≤ c.callers.length) {t : BlockType} {body alt rest : Tree} {post : List Instr}
    (ht : (Tree.either t body alt rest).Shaped)
    (hat : c.frame.body.toList.drop c.pc = (Tree.either t body alt rest).flatten ++ post)
    (h : Arrives M T const callHost base (k + 1) r c s) :
    Follows M T const callHost base (k + 1) r c
      (c.pc + (Tree.either t body alt rest).flatten.length)
      (Eval.tree callHost c.limit (k + 1) c.depth c.frame.inst (.either t body alt rest) s) := by
  obtain ⟨hbody, halt, helse, hrest⟩ := ht
  have hcode : c.frame.body.toList.drop c.pc = .if_ t ::
      ((body.flatten ++ .else_ :: alt.flatten) ++ .end_ :: (rest.flatten ++ post)) := by
    rw [hat, Tree.flatten_either]
    simp
  obtain ⟨hget, hin⟩ := Code.at_cons hcode
  have hout := (Code.at_cons (Code.at_append hin)).2
  rw [List.append_assoc] at hin
  obtain ⟨hgetElse, hinElse⟩ := Code.at_cons (Code.at_append hin)
  have he := Code.blockEnd_else hbody.balanced (halt.balanced_elseless helse) hcode
  rw [Eval.tree]
  refine h.opener (Eval.tree callHost c.limit k c.depth c.frame.inst rest)
    (Eval.tree callHost c.limit k c.depth c.frame.inst rest) hr hget rfl he nofun ?_ ?_ nofun
  · intro x p _ hp
    cases x with
    | true =>
      cases hp
      refine ⟨Eval.tree callHost c.limit k c.depth c.frame.inst body, _, rfl, .inr hgetElse, ?_⟩
      intro l vs ends s' harr
      exact ih _ _ _ _ hb hbody hin harr
    | false =>
      cases hp
      refine ⟨Eval.tree callHost c.limit k c.depth c.frame.inst alt,
        c.pc + 1 + body.flatten.length + 1 + alt.flatten.length, rfl, .inl ?_, ?_⟩
      · simp only [List.length_cons, List.length_append]
        omega
      · intro l vs ends s' harr
        exact ih _ _ _ _ hb halt hinElse harr
  · intro c' s' hp hpc harr
    refine ih.rest hb hp hrest (hpc ▸ hout) ?_ harr
    rw [hpc]
    simp only [Tree.flatten_either, List.length_cons, List.length_append]
    omega

/-- Runs do what evaluation does. -/
theorem simulates (hr : Machine.Settled r.2) (hM : ∀ m, M m → m.Bracketed)
    (hh : callHost.Honest M T) (k : Nat) : Simulates M T const callHost base k r := by
  induction k with
  | zero =>
    intro c s t post _ _ _ h
    obtain ⟨n, hn, hfinish, _⟩ := h
    cases Nat.le_zero.mp hn
    subst hfinish
    exact absurd rfl hr.1
  | succ k ih =>
    intro c s t post hb ht hat h
    cases t with
    | nil => exact ⟨c, .refl c, .normal h⟩
    | plain i t => exact ih.plain hr hM hh hb ht.1 ht.2 hat h
    | construct kind t body rest => exact ih.construct hr hb ht hat h
    | either t body alt rest => exact ih.either hr hb ht hat h

end Runs

end Wasm
