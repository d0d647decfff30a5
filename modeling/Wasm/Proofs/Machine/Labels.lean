import Wasm.Proofs.Machine.Reachable
import Wasm.Proofs.Host

namespace Wasm

def BlockEnds.Coherent (s : Store) (const : Code) (ends : BlockEnds) : Prop :=
  ∀ func start e, ends.found[(func, start)]? = some e →
    ∃ body, s.codeOf const func = some body ∧ body.blockEnd start = .ok e

theorem BlockEnds.Coherent.grows {s s' : Store} {const : Code} {ends : BlockEnds}
    (h : ends.Coherent s const) (hs : s.Grows s') : ends.Coherent s' const := by
  intro func start e he
  obtain ⟨body, hb, hend⟩ := h func start e he
  exact ⟨body, hs.codeOf hb, hend⟩

theorem BlockEnds.Coherent.empty (s : Store) (const : Code) :
    BlockEnds.Coherent s const {} := by
  intro func start e he
  simp at he

/-- What is found is the end of the construct, whether it was looked for before or not. -/
theorem BlockEnds.Coherent.find {s : Store} {const code : Code} {ends : BlockEnds}
    {func : Option Nat} (h : ends.Coherent s const) (start : Nat)
    (hcode : s.codeOf const func = some code) :
    match BlockEnds.find func code start ends with
    | .ok e ends' => code.blockEnd start = .ok e ∧ ends'.Coherent s const
    | .error t ends' => code.blockEnd start = .error t ∧ ends' = ends := by
  unfold BlockEnds.find
  cases hget : ends.found[(func, start)]? with
  | some e =>
    obtain ⟨body, hb, hend⟩ := h func start e hget
    cases hcode.symm.trans hb
    exact ⟨hend, h⟩
  | none =>
    simp only
    cases hend : code.blockEnd start with
    | error t => exact ⟨rfl, rfl⟩
    | ok e =>
      refine ⟨rfl, ?_⟩
      intro func' start' e' he'
      simp only [Std.HashMap.getElem?_insert] at he'
      split at he'
      · rename_i heq
        cases he'
        obtain ⟨rfl, rfl⟩ := Prod.mk.inj (eq_of_beq heq)
        exact ⟨code, hcode, hend⟩
      · exact h func' start' e' he'

structure Code.Aligned (code : Code) (pc : Nat) (outer : List (Label × List Value)) : Prop where
  lt : pc < code.size
  starts : outer.map (·.1.start) = code.openAt pc
  label : ∀ x ∈ outer, code.Closes x.1.start x.1.stop ∧
    (x.1.isLoop = true ↔ ∃ t, code[x.1.start]? = some (.loop t))

namespace Code.Aligned

variable {code : Code} {pc : Nat} {outer rest : List (Label × List Value)} {l : Label}
  {ws : List Value}

theorem start (hw : code.WellBracketed) : code.Aligned 0 [] where
  lt := hw.size_pos
  starts := rfl
  label := nofun

theorem next (h : code.Aligned pc outer) (hw : code.WellBracketed) {i : Instr}
    (hi : code[pc]? = some i) (hp : i.plain = true) : code.Aligned (pc + 1) outer where
  lt := hw.lt_of_ne_end hi (Instr.plain_iff.mp hp).2
  starts := h.starts.trans (openAt_plain hi hp).symm
  label := h.label

/-- The labels outside of an open construct are those that were there before it. -/
theorem unwound (h : code.Aligned pc outer) {d : Nat} (ho : outer.drop d = (l, ws) :: rest) :
    rest.map (·.1.start) = code.openAt l.start ∧ ∀ x ∈ (l, ws) :: rest,
      code.Closes x.1.start x.1.stop ∧
        (x.1.isLoop = true ↔ ∃ t, code[x.1.start]? = some (.loop t)) := by
  have hsplit : outer = outer.take d ++ (l, ws) :: rest := by rw [← ho, List.take_append_drop]
  have hstarts := h.starts
  rw [hsplit, List.map_append, List.map_cons] at hstarts
  refine ⟨(openAt_suffix h.lt.le hstarts.symm).2.1, fun x hx ↦ h.label x ?_⟩
  rw [hsplit]
  exact List.mem_append_right _ hx

theorem skip (h : code.Aligned pc outer) (hw : code.WellBracketed)
    (ho : outer = (l, ws) :: rest) : code.Aligned l.stop outer := by
  have hdrop : outer.drop 0 = (l, ws) :: rest := ho
  obtain ⟨hrest, hlabel⟩ := h.unwound hdrop
  have hl := (hlabel (l, ws) (List.mem_cons_self ..)).1
  refine ⟨?_, ?_, h.label⟩
  · exact Nat.lt_of_succ_lt (hw.closes_lt hl)
  · rw [hl.openAt_stop, ho, List.map_cons, hrest]

theorem branch (h : code.Aligned pc outer) (hw : code.WellBracketed) {d : Nat}
    (ho : outer.drop d = (l, ws) :: rest) : code.Aligned l.target rest := by
  obtain ⟨hrest, hlabel⟩ := h.unwound ho
  have hl := (hlabel (l, ws) (List.mem_cons_self ..)).1
  have hlt := hw.closes_lt hl
  have hin := hl.lt
  have hmem (x) (hx : x ∈ rest) := hlabel x (List.mem_cons_of_mem _ hx)
  unfold Label.target
  split
  · exact ⟨(hin.trans (Nat.lt_succ_self _)).trans hlt, hrest, hmem⟩
  · exact ⟨hlt, hrest.trans hl.openAt_after.symm, hmem⟩

theorem close (h : code.Aligned pc outer) (hi : code[pc]? = some .end_) (hne : pc + 1 ≠ code.size)
    (ho : outer = (l, ws) :: rest) : code.Aligned (pc + 1) rest := by
  refine ⟨Nat.lt_of_le_of_ne h.lt hne, ?_, fun x hx ↦ h.label x ?_⟩
  · rw [openAt_end hi, ← h.starts, ho, List.map_cons, List.tail_cons]
  · rw [ho]
    exact List.mem_cons_of_mem _ hx

theorem pass (h : code.Aligned pc outer) (hw : code.WellBracketed) {stop : Nat}
    (hc : code.Closes pc stop) : code.Aligned (stop + 1) outer where
  lt := hw.closes_lt hc
  starts := h.starts.trans hc.openAt_after.symm
  label := h.label

/-- A construct is entered at its first instruction or after its `else_`. -/
theorem enter (h : code.Aligned pc outer) (hw : code.WellBracketed) {i : Instr} {e : BlockEnd}
    {x : Bool} {p arity params : Nat} (hi : code[pc]? = some i) (hopen : i.opens = true)
    (he : code.blockEnd pc = .ok e) (hp : e.entry? pc x = some p) (vs : List Value) :
    code.Aligned p ((⟨arity, params, pc, e.endPc, i.isLoop⟩, vs) :: outer) := by
  obtain ⟨stop, hc⟩ := hw.closes hi hopen
  obtain ⟨b, hb, rfl, helse⟩ := hc.blockEnd
  cases he.symm.trans hb
  have hlt := hw.closes_lt hc
  have hin := hc.lt
  have hbody : p < code.size ∧ code.openAt p = pc :: code.openAt pc := by
    cases x with
    | true =>
      cases hp
      exact ⟨by omega, openAt_opens hi hopen⟩
    | false =>
      obtain ⟨q, hq, rfl⟩ := Option.map_eq_some_iff.mp hp
      obtain ⟨hfrom, hto, hopenAt⟩ := helse q hq
      exact ⟨by omega, hopenAt⟩
  refine ⟨hbody.1, ?_, ?_⟩
  · rw [List.map_cons, h.starts, hbody.2]
  · intro y hy
    obtain rfl | hy := List.mem_cons.mp hy
    · refine ⟨hc, ?_⟩
      simp only [hi, Option.some.injEq]
      cases i <;> simp [Instr.isLoop]
    · exact h.label y hy

end Code.Aligned

/-- A frame of well-bracketed code, which is that of its function, and whose labels are those of the
constructs around `pc`. -/
structure Frame.Tracks (s : Store) (const : Code) (f : Frame) (pc : Nat)
    (outer : List (Label × List Value)) : Prop where
  bracketed : f.body.WellBracketed
  code : s.codeOf const f.func = some f.body
  aligned : f.body.Aligned pc outer

structure Context.Tracked (M : Module → Prop) (T : Trap → Prop) (const : Code) (c : Context)
    (s : Scope) : Prop where
  fits : c.Fits s
  sound : s.store.Sound M T
  ends : c.ends.Coherent s.store const
  here : c.frame.Tracks s.store const c.pc c.outer
  callers : ∀ a ∈ c.callers, a.frame.Tracks s.store const a.frame.pc a.outer

namespace Frame.Tracks

variable {s s' : Store} {const : Code} {f : Frame} {pc : Nat} {outer : List (Label × List Value)}

theorem grows (h : f.Tracks s const pc outer) (hs : s.Grows s') : f.Tracks s' const pc outer :=
  ⟨h.bracketed, hs.codeOf h.code, h.aligned⟩

theorem goto (h : f.Tracks s const pc outer) {pc' : Nat} {outer' : List (Label × List Value)}
    (ha : f.body.Aligned pc' outer') : f.Tracks s const pc' outer' :=
  ⟨h.bracketed, h.code, ha⟩

end Frame.Tracks

theorem Store.bodyOf_callee {s : Store} {depth func inst : Nat} {type : FuncType} {f : FuncDef}
    (h : s.callee depth func = .ok (.code type inst f)) : s.bodyOf func = some f.body := by
  obtain ⟨index, hfunc, _, owner, howner, hf⟩ := Machine.callee_code h
  have hfuncs : s.funcs[func]? = some (.code type inst index) := by
    unfold Store.func at hfunc
    split at hfunc
    · cases hfunc
      assumption
    · cases hfunc
  have hinst : s.instances[inst]? = some owner := by
    unfold Store.instance_ at howner
    split at howner
    · cases howner
      assumption
    · cases howner
  simp only [Store.bodyOf, hfuncs, hinst, Option.bind_eq_bind, Option.bind_some, hf]
  rfl

theorem Store.Sound.host_callee {M : Module → Prop} {T : Trap → Prop} {s : Store}
    (h : s.Sound M T) {depth func : Nat} {f : Host.Func}
    (hk : s.callee depth func = .ok (.host f)) (args : List Value) : (f.run args).Within M T := by
  have hfunc := Machine.callee_host hk
  unfold Store.func at hfunc
  split at hfunc
  · rename_i g hg
    cases hfunc
    exact h.hosts func f hg args
  · cases hfunc

section Step

variable {M : Module → Prop} {T : Trap → Prop} {const : Code} {callHost : HostCall} {base : Nat}
  {b c : Context} {s : Scope}

theorem Context.Tracked.moved (h : c.Tracked M T const s) {c' : Context} {s' : Scope}
    (hfit : c'.Fits s') (hs : Store.Kept M T s.store s'.store) (hcallers : c'.callers = c.callers)
    (hends : c'.ends.Coherent s.store const)
    (hhere : c'.frame.Tracks s.store const c'.pc c'.outer) : c'.Tracked M T const s' := by
  refine ⟨hfit, hs.sound, hends.grows hs.grows, hhere.grows hs.grows, ?_⟩
  intro a ha
  rw [hcallers] at ha
  exact (h.callers a ha).grows hs.grows

/-- A construct is closed where the machine takes it to be. -/
theorem Context.Tracked.closes (h : c.Tracked M T const s) {i : Instr} {e : BlockEnd}
    {ends : BlockEnds} (hi : c.frame.body[c.pc]? = some i) (ho : i.opens = true)
    (he : Ends c e ends) : c.frame.body.blockEnd c.pc = .ok e ∧
      c.frame.body.Closes c.pc e.endPc ∧ ends.Coherent s.store const := by
  have hfind := h.ends.find c.pc h.here.code
  rw [he] at hfind
  obtain ⟨hend, hends⟩ := hfind
  obtain ⟨stop, hc⟩ := h.here.bracketed.closes hi ho
  obtain ⟨e', he', rfl, _⟩ := hc.blockEnd
  cases hend.symm.trans he'
  exact ⟨hend, hc, hends⟩

namespace Context.Tracked

section Instructions

variable {s' : Scope} {l : Label} {ws : List Value} {rest : List (Label × List Value)}

theorem next (h : c.Tracked M T const s) (hi : Intends b c s .next s') :
    (c.goto (c.pc + 1)).Tracked M T const s' := by
  obtain ⟨i, hget, hp, _⟩ := hi.instr
  refine h.moved hi.fits (h.sound.kept hi.same) rfl h.ends ?_
  exact h.here.goto (h.here.aligned.next h.here.bracketed hget hp)

theorem skip (h : c.Tracked M T const s) (hi : Intends b c s .skip s')
    (ho : c.outer = (l, ws) :: rest) : (c.goto l.stop).Tracked M T const s' := by
  refine h.moved hi.fits (h.sound.kept hi.same) rfl h.ends ?_
  exact h.here.goto (h.here.aligned.skip h.here.bracketed ho)

theorem branch (h : c.Tracked M T const s) {d : Nat} (hi : Intends b c s (.branch d) s')
    (ho : c.outer.drop d = (l, ws) :: rest) (n : Nat) :
    Context.Tracked M T const { c with outer := rest, pc := l.target }
      { s' with operands := s'.operands.take n ++ ws } := by
  refine h.moved (hi.fits.unwound ho _ _) (h.sound.kept hi.same) rfl h.ends ?_
  exact h.here.goto (h.here.aligned.branch h.here.bracketed ho)

theorem close (h : c.Tracked M T const s) (hi : c.frame.body[c.pc]? = some .end_)
    (hne : c.pc + 1 ≠ c.frame.body.size) (ho : c.outer = (l, ws) :: rest) (n : Nat) :
    Context.Tracked M T const { c with outer := rest, pc := c.pc + 1 }
      { s with operands := s.operands.take n ++ ws } := by
  have hdrop : c.outer.drop 0 = (l, ws) :: rest := ho
  refine h.moved (h.fits.unwound hdrop _ _) (h.sound.kept rfl) rfl h.ends ?_
  exact h.here.goto (h.here.aligned.close hi hne ho)

theorem pass (h : c.Tracked M T const s) {i : Instr} {t : BlockType} {e : BlockEnd}
    {ends : BlockEnds} (hi : Opens b c s i t false s') (he : Ends c e ends) :
    Context.Tracked M T const { c with ends, pc := e.endPc + 1 } s' := by
  obtain ⟨_, hcloses, hends⟩ := h.closes hi.instr (Instr.opens_of_signature hi.signature) he
  refine h.moved hi.fits (h.sound.kept hi.same) rfl hends ?_
  exact h.here.goto (h.here.aligned.pass h.here.bracketed hcloses)

theorem enter (h : c.Tracked M T const s) {i : Instr} {t : BlockType} {x : Bool} {s'' s₁ : Scope}
    {e : BlockEnd} {ends : BlockEnds} {p params arity : Nat} {vs : List Value}
    (hi : Opens b c s i t x s') (he : Ends c e ends) (hp : e.entry? c.pc x = some p)
    (hsame : s''.store.frozen = s'.store.frozen) (hs₁ : s₁.store = s''.store)
    (hfit : (c.within ⟨arity, params, c.pc, e.endPc, i.isLoop⟩ vs ends p).Fits s₁) :
    (c.within ⟨arity, params, c.pc, e.endPc, i.isLoop⟩ vs ends p).Tracked M T const s₁ := by
  have hopen := Instr.opens_of_signature hi.signature
  obtain ⟨hend, _, hends⟩ := h.closes hi.instr hopen he
  have hkept : Store.Kept M T s.store s₁.store := by
    rw [hs₁]
    exact h.sound.kept (hsame.trans hi.same)
  refine h.moved hfit hkept rfl hends ?_
  exact h.here.goto (h.here.aligned.enter h.here.bracketed hi.instr hopen hend hp _)

/-- A frame that is about to call knows where to go on. -/
theorem saving (h : c.Tracked M T const s) {func : Nat} (hi : Intends b c s (.call func) s') :
    (c.saving (c.pc + 1)).Tracked M T const s' ∧ c.frame.body.Aligned (c.pc + 1) c.outer := by
  obtain ⟨i, hget, hp, _⟩ := hi.instr
  refine ⟨?_, h.here.aligned.next h.here.bracketed hget hp⟩
  exact h.moved (Machine.fits_saving hi.fits _) (h.sound.kept hi.same) rfl h.ends
    ⟨h.here.bracketed, h.here.code, h.here.aligned⟩

theorem intends (h : c.Tracked M T const s) {x : Intent} (hi : Intends b c s x s') :
    c.Tracked M T const s' :=
  h.moved hi.fits (h.sound.kept hi.same) rfl h.ends h.here

end Instructions

theorem resume (h : c.Tracked M T const s) {f : Frame} {cs : List (Label × List Value)}
    {vs : List Value} {as : List Activation} (hc : c.callers = ⟨f, cs, vs⟩ :: as) (n : Nat) :
    Context.Tracked M T const ⟨c.limit, c.bottom, as, f, cs, c.ends, f.pc⟩
      ⟨s.store, f.locals, s.operands.take n ++ vs⟩ := by
  refine ⟨h.fits.resumed hc _ _, h.sound, h.ends, ?_, ?_⟩
  · exact h.callers ⟨f, cs, vs⟩ (hc ▸ List.mem_cons_self ..)
  · intro a ha
    exact h.callers a (hc ▸ List.mem_cons_of_mem _ ha)

section Call

variable {func p : Nat}

theorem calling (h : (c.saving p).Tracked M T const s) (hM : ∀ m, M m → m.Bracketed)
    (ha : c.frame.body.Aligned p c.outer) {type : FuncType} {inst : Nat} {f : FuncDef}
    (ho : Offers (c.saving p) s func (.code type inst f)) {c' : Context} {s' : Scope}
    (hc' : c' = (c.saving p).calling (s.dropped type.params.length)
      { inst, func := some func, locals := #[], pc := 0, arity := type.results.length
        body := f.body })
    (hs' : s'.store = s.store) (hfit : c'.Fits s') : c'.Tracked M T const s' := by
  subst hc'
  have hbody := Store.bodyOf_callee ho.callee
  have hw := h.sound.bracketed hM hbody
  refine ⟨hfit, hs' ▸ h.sound, hs' ▸ h.ends, ⟨hw, hs' ▸ hbody, .start hw⟩, ?_⟩
  intro a hmem
  rw [hs']
  obtain rfl | hmem := List.mem_cons.mp hmem
  · exact ⟨h.here.bracketed, h.here.code, ha⟩
  · exact h.callers a hmem

theorem answer (h : (c.saving p).Tracked M T const s) (hh : callHost.Honest M T)
    (ha : c.frame.body.Aligned p c.outer) {f : Host.Func}
    (ho : Offers (c.saving p) s func (.host f)) {results : List Value} {store : Store}
    (hr : callHost f (s.args f.type.params.length) s.store = .ok results store) {s' : Scope}
    (hs' : s'.store = store) (hfit : (c.saving p).Fits s') :
    Store.Kept M T s.store s'.store ∧ ((c.saving p).goto p).Tracked M T const s' := by
  have hset := hh f (h.sound.host_callee ho.callee) (s.args f.type.params.length) s.store h.sound
  rw [hr] at hset
  cases hset with
  | ok hkept =>
    rw [← hs'] at hkept
    exact ⟨hkept, h.moved hfit hkept rfl h.ends (h.here.goto ha)⟩

end Call

end Context.Tracked

theorem Leaves.tracked {done : Bool} {m : Machine} (h : Leaves base c s (.ok done m))
    (hc : c.Tracked M T const s) : m.store = s.store ∧
      (done = false → ∃ c' s', m = Context.fill c' s' ∧ c'.Tracked M T const s') := by
  cases h with
  | outermost _ _ => exact ⟨rfl, nofun⟩
  | finish _ _ _ => exact ⟨rfl, nofun⟩
  | resume _ hcallers _ => exact ⟨rfl, fun _ ↦ ⟨_, _, rfl, hc.resume hcallers _⟩⟩

theorem Calls.tracked {func pc : Nat} {done : Bool} {m : Machine}
    (h : Calls callHost (c.saving pc) s func (.ok done m)) (hM : ∀ m, M m → m.Bracketed)
    (hh : callHost.Honest M T) (hc : (c.saving pc).Tracked M T const s)
    (ha : c.frame.body.Aligned pc c.outer) : Store.Kept M T s.store m.store ∧
      ∃ c' s', m = Context.fill c' s' ∧ c'.Tracked M T const s' := by
  cases h with
  | enter ho hc' hs' hfit =>
    have hstore := congrArg Scope.store hs'
    have hkept : Store.Kept M T s.store s.store := hc.sound.kept rfl
    exact ⟨hstore ▸ hkept, _, _, rfl, hc.calling hM ha ho hc' hstore hfit⟩
  | answer ho hr _ hs' hfit =>
    obtain ⟨hkept, hgo⟩ := hc.answer hh ha ho hr (congrArg Scope.store hs') hfit
    exact ⟨hkept, _, _, rfl, hgo⟩

/-- A step keeps every frame in step with its code. -/
theorem Moves.tracked {done : Bool} {m : Machine} (h : Moves callHost base b c s (.ok done m))
    (hM : ∀ m, M m → m.Bracketed) (hh : callHost.Honest M T) (hc : c.Tracked M T const s) :
    Store.Kept M T s.store m.store ∧
      (done = false → ∃ c' s', m = Context.fill c' s' ∧ c'.Tracked M T const s') := by
  cases h with
  | next hi => exact ⟨hc.sound.kept hi.same, fun _ ↦ ⟨_, _, rfl, hc.next hi⟩⟩
  | skip hi ho => exact ⟨hc.sound.kept hi.same, fun _ ↦ ⟨_, _, rfl, hc.skip hi ho⟩⟩
  | branch hi ho _ => exact ⟨hc.sound.kept hi.same, fun _ ↦ ⟨_, _, rfl, hc.branch hi ho _⟩⟩
  | branchOut hi _ hl =>
    obtain ⟨hstore, hgo⟩ := hl.tracked (hc.intends hi)
    exact ⟨hstore ▸ hc.sound.kept hi.same, hgo⟩
  | leave hi hl =>
    obtain ⟨hstore, hgo⟩ := hl.tracked (hc.intends hi)
    exact ⟨hstore ▸ hc.sound.kept hi.same, hgo⟩
  | last _ _ hl =>
    obtain ⟨hstore, hgo⟩ := hl.tracked hc
    exact ⟨hstore ▸ hc.sound.kept rfl, hgo⟩
  | call hi hcall =>
    obtain ⟨hsaved, ha⟩ := hc.saving hi
    obtain ⟨hkept, hgo⟩ := hcall.tracked hM hh hsaved ha
    exact ⟨(hc.sound.kept hi.same).trans hkept, fun _ ↦ hgo⟩
  | close hi hne ho _ => exact ⟨hc.sound.kept rfl, fun _ ↦ ⟨_, _, rfl, hc.close hi hne ho _⟩⟩
  | pass hi he _ => exact ⟨hc.sound.kept hi.same, fun _ ↦ ⟨_, _, rfl, hc.pass hi he⟩⟩
  | enter hi he hp _ hsame _ hc₁ hs₁ hfit =>
    subst hc₁
    have hstore := congrArg Scope.store hs₁
    have hgo := hc.enter hi he hp hsame hstore hfit
    subst hs₁
    exact ⟨hc.sound.kept (hsame.trans hi.same), fun _ ↦ ⟨_, _, rfl, hgo⟩⟩

theorem Leaves.kept {e : Stop Trap} {m : Machine} (h : Leaves base c s (.error e m)) :
    e = .failed .stackUnderflow ∧ m.store = s.store := by
  cases h
  exact ⟨rfl, rfl⟩

theorem of_failed {t : Trap} (ht : T t) (t' : Trap) (h : Stop.failed t = .failed t') : T t' := by
  cases h
  exact ht

theorem Calls.kept {func : Nat} {e : Stop Trap} {m : Machine}
    (h : Calls callHost c s func (.error e m)) (hT : ∀ t, t.bracketing = false → T t)
    (hh : callHost.Honest M T) (hs : s.store.Sound M T) :
    Store.Kept M T s.store m.store ∧ ∀ t, e = .failed t → T t := by
  have hsame : Store.Kept M T s.store s.store := hs.kept rfl
  have hhost {f : Host.Func} (ho : Offers c s func (.host f)) :=
    hh f (hs.host_callee ho.callee) (s.args f.type.params.length) s.store hs
  cases h with
  | refuse hk => exact ⟨hsame, of_failed (hT _ (Store.callee_ordinary hk))⟩
  | short _ _ _ ht =>
    obtain rfl | ⟨x, y, rfl⟩ := ht
    · exact ⟨hsame, of_failed (hT _ rfl)⟩
    · exact ⟨hsame, of_failed (hT _ rfl)⟩
  | mismatch _ _ ht => exact ⟨hsame, of_failed (hT _ (Value.typeFault?_ordinary ht))⟩
  | abort ho hr =>
    have hset := hhost ho
    rw [hr] at hset
    cases hset with
    | failed hkept ht => exact ⟨hkept, of_failed ht⟩
    | outOfFuel hkept => exact ⟨hkept, nofun⟩
  | misanswer ho hr ht =>
    have hset := hhost ho
    rw [hr] at hset
    cases hset with
    | ok hkept => exact ⟨hkept, of_failed (hT _ (Value.hostFault?_ordinary ht))⟩
  | overflow _ hframe => exact ⟨hs.kept hframe, of_failed (hT _ rfl)⟩
  | overanswer ho hr _ =>
    have hset := hhost ho
    rw [hr] at hset
    cases hset with
    | ok hkept => exact ⟨hkept, of_failed (hT _ rfl)⟩

/-- A step of a machine whose frames are in step with their code does not fail for want of it. -/
theorem Moves.kept {e : Stop Trap} {m : Machine} (h : Moves callHost base b c s (.error e m))
    (hT : ∀ t, t.bracketing = false → T t) (hh : callHost.Honest M T)
    (hc : c.Tracked M T const s) :
    Store.Kept M T s.store m.store ∧ ∀ t, e = .failed t → T t := by
  have hsame : Store.Kept M T s.store s.store := hc.sound.kept rfl
  have hfail {t : Trap} (ht : t.bracketing = false) := of_failed (hT t ht)
  have hw := hc.here.bracketed
  have ha := hc.here.aligned
  cases h with
  | pastEnd hget =>
    have hlt := ha.lt
    rw [Array.getElem?_eq_none_iff] at hget
    omega
  | trap _ _ _ ht hframe => exact ⟨hc.sound.kept hframe, hfail ht⟩
  | skipOut hi _ => exact ⟨hc.sound.kept hi.same, hfail rfl⟩
  | branchShort hi _ _ => exact ⟨hc.sound.kept hi.same, hfail rfl⟩
  | branchOut hi _ hl =>
    obtain ⟨rfl, hstore⟩ := hl.kept
    exact ⟨hstore ▸ hc.sound.kept hi.same, hfail rfl⟩
  | leave hi hl =>
    obtain ⟨rfl, hstore⟩ := hl.kept
    exact ⟨hstore ▸ hc.sound.kept hi.same, hfail rfl⟩
  | last _ _ hl =>
    obtain ⟨rfl, hstore⟩ := hl.kept
    exact ⟨hstore ▸ hsame, hfail rfl⟩
  | call hi hcall =>
    have hkept := hc.sound.kept hi.same
    obtain ⟨hkept', ht⟩ := hcall.kept hT hh hkept.sound
    exact ⟨hkept.trans hkept', ht⟩
  | closeShort _ _ _ _ => exact ⟨hsame, hfail rfl⟩
  | closeOut hget hne ho =>
    have hlt := Nat.lt_of_le_of_ne ha.lt hne
    have hstarts := ha.starts
    rw [ho, List.map_nil] at hstarts
    exact absurd hstarts.symm (hw.openAt_ne_nil hget hlt)
  | refuse _ _ _ ht hframe => exact ⟨hc.sound.kept hframe, hfail ht⟩
  | unterminated hget hsig hfind _ =>
    have hlook := hc.ends.find c.pc hc.here.code
    rw [hfind] at hlook
    obtain ⟨stop, hcl⟩ := hw.closes hget (Instr.opens_of_signature hsig)
    obtain ⟨e, he, _⟩ := hcl.blockEnd
    cases he.symm.trans hlook.1
  | mistyped hi _ _ ht hframe => exact ⟨hc.sound.kept (hframe.trans hi.same), hfail ht⟩
  | enterShort hi _ _ _ hframe _ => exact ⟨hc.sound.kept (hframe.trans hi.same), hfail rfl⟩
  | overflow _ hframe => exact ⟨hc.sound.kept hframe, hfail rfl⟩

end Step

end Wasm
