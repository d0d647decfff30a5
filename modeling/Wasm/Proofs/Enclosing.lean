import Wasm.Proofs.Engine
import Wasm.Proofs.Decode.WellFormed

namespace Wasm

/-- The frames among entries that are listed from the top down, each with the labels above it,
innermost first. The labels `ls` lie above the entries. -/
def Entry.scopes : List Entry → (ls : List Label) → List (Frame × List Label)
  | [], _ => []
  | .value _ :: es, ls => scopes es ls
  | .label l :: es, ls => scopes es (ls ++ [l])
  | .frame f :: es, ls => (f, ls) :: scopes es []

def Stack.scopes (s : Stack) : List (Frame × List Label) :=
  Entry.scopes s.entries.toList.reverse []

theorem Entry.scopes_operands (vs : List Value) (es : List Entry) (ls : List Label) :
    scopes ((operands vs).reverse ++ es) ls = scopes es ls := by
  rw [operands, List.reverse_reverse]
  induction vs with
  | nil => rfl
  | cons v vs ih => exact ih

theorem Entry.scopes_constructs (cs : List (Label × List Value)) (es : List Entry)
    (ls : List Label) :
    scopes ((constructs cs).reverse ++ es) ls = scopes es (ls ++ cs.map (·.1)) := by
  induction cs generalizing ls with
  | nil => simp [constructs]
  | cons c cs ih =>
    obtain ⟨l, vs⟩ := c
    have hrev : (constructs ((l, vs) :: cs)).reverse ++ es =
        .label l :: ((operands vs).reverse ++ ((constructs cs).reverse ++ es)) := by
      simp [constructs]
    rw [hrev, scopes, scopes_operands, ih, List.map_cons, List.append_assoc, List.singleton_append]

theorem Stack.scopes_of (limit : Nat) (bottom : List Value) (as : List Activation) :
    (Stack.of limit bottom as).scopes = as.map fun a ↦ (a.frame, a.outer.map (·.1)) := by
  unfold Stack.scopes Stack.of
  induction as with
  | nil =>
    have h := Entry.scopes_operands bottom [] []
    rwa [List.append_nil] at h
  | cons a as ih =>
    have hrev : (entriesOf bottom (a :: as)).reverse =
        (Entry.operands a.operands).reverse ++ ((Entry.constructs a.outer).reverse ++
          .frame a.frame :: (entriesOf bottom as).reverse) := by
      simp [entriesOf, Activation.entries]
    rw [hrev, Entry.scopes_operands, Entry.scopes_constructs, Entry.scopes, List.map_cons,
      List.nil_append]
    exact congrArg _ ih

/-- The labels `ls`, innermost first, are those of the constructs around position `pc`. -/
structure Code.Encloses (code : Code) (pc : Nat) (ls : List Label) : Prop where
  nested : ls.Pairwise fun inner outer ↦ outer.start < inner.start ∧ inner.stop < outer.stop
  around : ∀ l ∈ ls, l.start < pc ∧ pc ≤ l.stop ∧ code.Closes l.start l.stop ∧
    ∃ i, code[l.start]? = some i ∧ i.opens = true ∧ (l.isLoop = true ↔ ∃ t, i = .loop t)
  complete : ∀ start stop, code.Closes start stop → start < pc → pc ≤ stop →
    ∃ l ∈ ls, l.start = start ∧ l.stop = stop

namespace Code

variable {code : Code} {pc : Nat}

/-- Of two constructs around a position the one that opens later ends earlier. -/
theorem Closes.stop_lt (hw : code.WellBracketed) {o e o' e' : Nat} (h : code.Closes o e)
    (h' : code.Closes o' e') (hlt : o' < o) (hle : o ≤ e') : e < e' := by
  have hsize := hw.closes_lt h
  have hoe := h.lt
  have hmem : o' ∈ code.openAt (e + 1) := by
    rw [h.openAt_after, hw.mem_openAt_iff (by omega)]
    exact ⟨e', h', hlt, hle⟩
  obtain ⟨e'', h'', _, hle'⟩ := (hw.mem_openAt_iff hsize.le).mp hmem
  rw [h'.unique h'']
  exact hle'

theorem Aligned.encloses {outer : List (Label × List Value)} (h : code.Aligned pc outer)
    (hw : code.WellBracketed) : code.Encloses pc (outer.map (·.1)) := by
  have hstarts : (outer.map (·.1)).map (·.start) = code.openAt pc := by
    rw [List.map_map]
    exact h.starts
  have haround : ∀ l ∈ outer.map (·.1), l.start < pc ∧ pc ≤ l.stop ∧
      code.Closes l.start l.stop ∧
      ∃ i, code[l.start]? = some i ∧ i.opens = true ∧ (l.isLoop = true ↔ ∃ t, i = .loop t) := by
    intro l hl
    obtain ⟨x, hx, rfl⟩ := List.mem_map.mp hl
    obtain ⟨hc, hloop⟩ := h.label x hx
    have hmem : x.1.start ∈ code.openAt pc := by
      rw [← hstarts]
      exact List.mem_map_of_mem hl
    obtain ⟨e, he, hlt, hle⟩ := (hw.mem_openAt_iff h.lt.le).mp hmem
    obtain ⟨i, hi, hopen⟩ := hc.opener
    refine ⟨hlt, ?_, hc, i, hi, hopen, ?_⟩
    · rw [hc.unique he]
      exact hle
    · rw [hloop]
      simp only [hi, Option.some.injEq]
  refine ⟨?_, haround, ?_⟩
  · have hsorted := @openAt_sorted code pc h.lt.le
    rw [← hstarts, List.pairwise_map] at hsorted
    refine hsorted.imp_of_mem ?_
    intro l l' hl hl' hlt
    have hl := haround l hl
    have hl' := haround l' hl'
    exact ⟨hlt, Closes.stop_lt hw hl.2.2.1 hl'.2.2.1 hlt (by omega)⟩
  · intro start stop hc hlt hle
    have hmem := (hw.mem_openAt_iff h.lt.le).mpr ⟨stop, hc, hlt, hle⟩
    rw [← hstarts] at hmem
    obtain ⟨l, hl, rfl⟩ := List.mem_map.mp hmem
    exact ⟨l, hl, rfl, (haround l hl).2.2.1.unique hc⟩

/-- The position `pc`, and wherever a branch to one of the labels `ls` goes on, lie within the code.
So the sums by which these positions are found, `start + 1` and `stop + 1`, are no larger than its
size. -/
structure Spans (code : Code) (pc : Nat) (ls : List Label) : Prop where
  pc_lt : pc < code.size
  target_lt : ∀ l ∈ ls, l.target < code.size

theorem Aligned.spans {outer : List (Label × List Value)} (h : code.Aligned pc outer)
    (hw : code.WellBracketed) : code.Spans pc (outer.map (·.1)) where
  pc_lt := h.lt
  target_lt l hl := by
    obtain ⟨x, hx, rfl⟩ := List.mem_map.mp hl
    have hc := (h.label x hx).1
    have hlt := hc.lt
    have hsize := hw.closes_lt hc
    unfold Label.target
    split <;> omega

end Code

/-- A module that some bytes stand for. -/
def Module.Decoded (m : Module) : Prop := ∃ bytes, Module.decode bytes = .ok m

theorem Module.Decoded.bracketed {m : Module} (h : m.Decoded) : m.Bracketed := by
  obtain ⟨bytes, hb⟩ := h
  exact Module.bracketed_decode hb

namespace Machine

/-- The labels of every frame are those of the constructs around the position at which it is. -/
def InStep (m : Machine) : Prop :=
  ∃ f ls rest, m.stack.scopes = (f, ls) :: rest ∧ f.body.Encloses m.pc ls ∧
    ∀ x ∈ rest, x.1.body.Encloses x.1.pc x.2

def InCode (m : Machine) : Prop :=
  ∃ f ls rest, m.stack.scopes = (f, ls) :: rest ∧ f.body.Spans m.pc ls ∧
    ∀ x ∈ rest, x.1.body.Spans x.1.pc x.2

section Tracked

variable {M : Module → Prop} {T : Trap → Prop} {const : Code} {m : Machine}

theorem Tracked.each (h : m.Tracked M T const) {P : Code → Nat → List Label → Prop}
    (hP : ∀ {code pc outer}, Code.Aligned code pc outer → code.WellBracketed →
      P code pc (outer.map (·.1))) :
    ∃ f ls rest, m.stack.scopes = (f, ls) :: rest ∧ P f.body m.pc ls ∧
      ∀ x ∈ rest, P x.1.body x.1.pc x.2 := by
  obtain ⟨c, s, rfl, hc⟩ := h
  have hscopes := Stack.scopes_of c.limit c.bottom (c.activation s :: c.callers)
  rw [List.map_cons] at hscopes
  refine ⟨_, _, _, hscopes, hP hc.here.aligned hc.here.bracketed, ?_⟩
  intro x hx
  obtain ⟨a, ha, rfl⟩ := List.mem_map.mp hx
  have htracks := hc.callers a ha
  exact hP htracks.aligned htracks.bracketed

theorem Tracked.inStep (h : m.Tracked M T const) : m.InStep := h.each Code.Aligned.encloses

theorem Tracked.inCode (h : m.Tracked M T const) : m.InCode := h.each Code.Aligned.spans

end Tracked

end Machine

namespace Engine

/-- Running decoded code, no step leaves the code that it is in. -/
theorem reachable_inCode {fuel depth : Nat} {store : Store} {mod : Module} {code : Code}
    {m : Machine} (hs : store.Sound Module.Decoded (fun _ ↦ True)) (hmod : mod.Decoded)
    (hcode : code ∈ mod.exprs) (hm : Machine.Reachable (hostCall fuel depth) store code m) :
    m.InCode := by
  have hM : ∀ m : Module, m.Decoded → m.Bracketed := fun m hm ↦ hm.bracketed
  have hT : ∀ t : Trap, t.bracketing = false → True := fun _ _ ↦ trivial
  exact (hm.tracked hs hM hT (honest_hostCall hM hT fuel depth) (hM mod hmod code hcode)).inCode

/-- Running decoded code, at every step the labels of every frame are the constructs around its
position, and none of the faults arises that would tell of code and stack out of step. Host
functions are free to instantiate decoded modules; for the second part they must not make up such
faults. -/
theorem labels_enclose (fuel depth : Nat) :
    (∀ (store : Store) (mod : Module) (code : Code) (m : Machine),
      store.Sound Module.Decoded (fun _ ↦ True) → mod.Decoded → code ∈ mod.exprs →
      Machine.Reachable (hostCall fuel depth) store code m → m.InStep) ∧
    ∀ store : Store, store.Sound Module.Decoded (fun t ↦ t.bracketing = false) →
      (∀ (mod : Module) (code : Code) (m m' : Machine) (base : Nat) (t : Trap), mod.Decoded →
        code ∈ mod.exprs → Machine.Reachable (hostCall fuel depth) store code m →
        Machine.advance (hostCall fuel depth) base m = .error (.failed t) m' →
        t.bracketing = false) ∧
      (∀ (func : Nat) (args : List Value) (t : Trap) (s' : Store),
        call fuel func args store = .error (.failed t) s' → t.bracketing = false) ∧
      (∀ (inst : Nat) (name : String) (args : List Value) (t : Trap) (s' : Store),
        invoke fuel inst name args store = .error (.failed t) s' → t.bracketing = false) ∧
      ∀ (mod : Module) (r : Host.Resolver) (e : LinkError) (t : Trap) (s' : Store), mod.Decoded →
        r.Within Module.Decoded (fun t ↦ t.bracketing = false) →
        instantiate fuel mod r store = .error (.failed e) s' → e.trap? = some t →
        t.bracketing = false := by
  have hM : ∀ m : Module, m.Decoded → m.Bracketed := fun m hm ↦ hm.bracketed
  constructor
  · intro store mod code m hs hmod hcode hm
    have hT : ∀ t : Trap, t.bracketing = false → True := fun _ _ ↦ trivial
    exact (hm.tracked hs hM hT (honest_hostCall hM hT fuel depth) (hM mod hmod code hcode)).inStep
  · intro store hs
    have hT : ∀ t : Trap, t.bracketing = false → t.bracketing = false := fun _ ht ↦ ht
    have hh := honest_hostCall hM hT fuel
    refine ⟨?_, ?_, ?_, ?_⟩
    · intro mod code m m' base t hmod hcode hm he
      have htracked := hm.tracked hs hM hT (hh depth) (hM mod hmod code hcode)
      have hstep := htracked.advance base hM hT (hh depth)
      rw [he] at hstep
      exact hstep.2 t rfl
    · intro func args t s' h
      exact (Action.keeps_call hM hT (hh fuel) fuel func args).failure hs h
    · intro inst name args t s' h
      exact (Action.keeps_invoke hM hT (hh fuel) fuel inst name args).failure hs h
    · intro mod r e t s' hmod hr h ht
      exact (Link.keeps_instantiate hM hT (hh fuel) hmod hr).failure hs h t ht

def nestedLoop : Module where
  types := [⟨[], []⟩]
  funcTypes := [0, 0]
  functions := [⟨0, [], #[.block .empty, .loop .empty, .nop, .end_, .end_, .end_]⟩,
    ⟨0, [], #[.unreachable, .end_]⟩]

def nestedLoopStore : Store where
  funcs := #[.code ⟨[], []⟩ 0 0, .code ⟨[], []⟩ 0 1]
  instances := #[{ funcs := #[0, 1], mod := nestedLoop }]

theorem decoded_nestedLoop : nestedLoop.Decoded :=
  ⟨[0x00, 0x61, 0x73, 0x6D, 1, 0, 0, 0, 1, 4, 1, 0x60, 0, 0, 3, 3, 2, 0, 0, 10, 15, 2, 9, 0, 2,
    0x40, 3, 0x40, 1, 0x0B, 0x0B, 0x0B, 3, 0, 0, 0x0B], by decide +kernel⟩

theorem sound_nestedLoopStore (T : Trap → Prop) : nestedLoopStore.Sound Module.Decoded T := by
  refine ⟨?_, ?_⟩
  · intro i inst h
    obtain _ | i := i
    · cases h
      exact decoded_nestedLoop
    · cases h
  · intro i f h
    obtain _ | _ | i := i <;> cases h

def nestedLoopContext : Context where
  limit := 1048576
  bottom := []
  callers := []
  frame := { inst := 0, func := some 0, locals := #[], pc := 0, arity := 0
             body := #[.block .empty, .loop .empty, .nop, .end_, .end_, .end_] }
  outer := [(⟨0, 0, 1, 3, true⟩, []), (⟨0, 0, 0, 4, false⟩, [])]
  ends := ⟨(({} : BlockEnds).found.insert (some 0, 0) ⟨none, 4⟩).insert (some 0, 1) ⟨none, 3⟩⟩
  pc := 2

/-- A construct without parameters and condition is entered. -/
theorem advance_enter {callHost : HostCall} {base : Nat} {c : Context} {s : Scope} {i : Instr}
    {e : BlockEnd} {ends : BlockEnds} (hi : c.frame.body[c.pc]? = some i)
    (ho : i = .block .empty ∨ i = .loop .empty) (he : Ends c e ends)
    (hroom : c.base + s.operands.length < c.limit) :
    Machine.advance callHost base (c.fill s) = .ok false
      ((c.within ⟨0, 0, c.pc, e.endPc, i.isLoop⟩ s.operands ends (c.pc + 1)).fill
        { s with operands := [] }) := by
  have henter (isLoop : Bool) : Machine.follow callHost base
      ((Machine.enterBlock .empty isLoop >>= fun _ ↦ pure .next) (c.fill s)) = .ok false
        ((c.within ⟨0, 0, c.pc, e.endPc, isLoop⟩ s.operands ends (c.pc + 1)).fill
          { s with operands := [] }) := by
    have harity : Machine.blockArity .empty (c.fill s) = .ok (0, 0) (c.fill s) := rfl
    have hend : Machine.blockEnd (c.fill s) = .ok e (Context.fill { c with ends } s) := by
      rw [Machine.blockEnd_fill, he]
    have hpush : Stack.pushLabel ⟨0, 0, c.pc, e.endPc, isLoop⟩
        (Context.fill { c with ends } s).stack = .ok ()
          ((c.within ⟨0, 0, c.pc, e.endPc, isLoop⟩ s.operands ends (c.pc + 1)).fill
            { s with operands := [] }).stack := by
      have hh := c.height_activation s
      simp only [Context.activation] at hh
      exact Stack.pushLabel_of (Nat.zero_le _) (by rw [hh]; exact hroom)
    rw [Outcome.bind_apply, Machine.enterBlock_apply, harity]
    simp only [hend, Context.pc_fill, hpush]
    rfl
  rw [Machine.advance_apply, Machine.step_fill, hi]
  obtain rfl | rfl := ho
  · exact henter false
  · exact henter true

theorem reachable_nestedLoop : Machine.Reachable (hostCall 0 0) nestedLoopStore
    #[.block .empty, .loop .empty, .nop, .end_, .end_, .end_]
    (nestedLoopContext.fill ⟨nestedLoopStore, #[], []⟩) := by
  have hstart : Machine.Reachable (hostCall 0 0) nestedLoopStore
      #[.block .empty, .loop .empty, .nop, .end_, .end_, .end_]
      (Context.fill { nestedLoopContext with outer := [], ends := {}, pc := 0 }
        ⟨nestedLoopStore, #[], []⟩) := @Machine.Reachable.func _ _ _ 0 [] _ rfl
  have hblock : Ends { nestedLoopContext with outer := [], ends := {}, pc := 0 } ⟨none, 4⟩
      ⟨({} : BlockEnds).found.insert (some 0, 0) ⟨none, 4⟩⟩ := by
    simp [Ends, BlockEnds.find]
    rfl
  have hloop : Ends { nestedLoopContext with
      outer := [(⟨0, 0, 0, 4, false⟩, [])]
      ends := ⟨({} : BlockEnds).found.insert (some 0, 0) ⟨none, 4⟩⟩
      pc := 1 } ⟨none, 3⟩ nestedLoopContext.ends := by
    simp [Ends, BlockEnds.find]
    rfl
  have h₁ := hstart.step (advance_enter rfl (.inl rfl) hblock (by decide))
  exact h₁.step (advance_enter rfl (.inr rfl) hloop (by decide))

theorem labels_enclose_nestedLoop :
    (nestedLoopContext.fill ⟨nestedLoopStore, #[], []⟩).InStep ∧
      (nestedLoopContext.fill ⟨nestedLoopStore, #[], []⟩).stack.scopes.map (·.2) =
        [[⟨0, 0, 1, 3, true⟩, ⟨0, 0, 0, 4, false⟩]] ∧
    ∃ s', call 2 1 [] nestedLoopStore = .error (.failed .unreachable) s' ∧
      Trap.unreachable.bracketing = false := by
  refine ⟨?_, rfl, ?_⟩
  · refine (labels_enclose 0 0).1 nestedLoopStore nestedLoop _ _ (sound_nestedLoopStore _)
      decoded_nestedLoop ?_ reachable_nestedLoop
    exact List.mem_cons_self ..
  · have hcall : call 2 1 [] nestedLoopStore = .error (.failed .unreachable) nestedLoopStore := rfl
    have hfault := ((labels_enclose 2 0).2 nestedLoopStore (sound_nestedLoopStore _)).2.1 1 []
      .unreachable _ hcall
    exact ⟨_, hcall, hfault⟩

end Engine

end Wasm
