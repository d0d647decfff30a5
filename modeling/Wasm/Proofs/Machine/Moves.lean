import Wasm.Proofs.Machine.Instructions
import Wasm.Proofs.Nesting

namespace Wasm

inductive Intent
  | next
  | branch (depth : Nat)
  /-- Pass over the rest of the construct. -/
  | skip
  | call (func : Nat)
  | leave
  deriving DecidableEq, Inhabited

inductive Callee
  | code (type : FuncType) (inst : Nat) (f : FuncDef)
  | host (f : Host.Func)

def Callee.params : Callee → List ValType
  | code type _ _ => type.params
  | host f => f.type.params

def Store.callee (s : Store) (depth func : Nat) : Except Trap Callee :=
  match s.func func with
  | .error t => .error t
  | .ok (.host f) => .ok (.host f)
  | .ok (.code type inst index) =>
    if s.config.maxCallDepth ≤ depth then .error .callStackExhausted
    else match s.instance_ inst with
      | .error t => .error t
      | .ok owner =>
        match owner.mod.functions[index]? with
        | none => .error (.invalidAddress .body index)
        | some f => .ok (.code type inst f)

namespace Machine

def intent : Instr → Exec Intent
  | .unreachable => throw .unreachable
  | .nop => return .next
  | .else_ => return .skip
  | .br l => return .branch l.toNat
  | .brIf l => do
    if (← Stack.popI32) ≠ 0 then
      return .branch l.toNat
    else
      return .next
  | .brTable ls l => do
    let i ← Stack.popNat
    return .branch (ls[i]?.getD l).toNat
  | .return_ => return .leave
  | .call f => return .call (← check ((← instance_).funcAddr f.toNat))
  | .callIndirect type table => return .call (← indirectCallee type table)
  | i => do
    simple i
    return .next

def condition : Instr → Exec Bool
  | .if_ _ => return (← Stack.popI32) ≠ 0
  | _ => return true

theorem local_intent (i : Instr) : Local (intent i) := by
  cases i with
  | unreachable => exact .throw rfl
  | nop => exact .pure _
  | else_ => exact .pure _
  | br l => exact .pure _
  | brIf l =>
    refine Local.bind StackLocal.popI32 fun x ↦ ?_
    split
    · exact .pure _
    · exact .pure _
  | brTable ls l => exact Local.bind StackLocal.popNat fun _ ↦ .pure _
  | return_ => exact .pure _
  | call f => exact Local.instance_.bind fun _ ↦ (local_lookup _ _ _).bind fun _ ↦ .pure _
  | callIndirect type table => exact (local_indirectCallee type table).bind fun _ ↦ .pure _
  | _ => exact (local_simple _).bind fun _ ↦ .pure _

theorem local_condition (i : Instr) : Local (condition i) := by
  cases i with
  | if_ t => exact Local.bind StackLocal.popI32 fun _ ↦ .pure _
  | _ => exact .pure _

end Machine

namespace Context

def saving (c : Context) (pc : Nat) : Context := { c with frame.pc := pc }

def goto (c : Context) (pc : Nat) : Context := { c with pc := pc }

def within (c : Context) (l : Label) (vs : List Value) (ends : BlockEnds) (pc : Nat) : Context :=
  { c with outer := (l, vs) :: c.outer, ends, pc }

def calling (c : Context) (s : Scope) (frame : Frame) : Context :=
  { c with callers := c.activation s :: c.callers, frame, outer := [], pc := frame.pc }

def depth (c : Context) : Nat := c.callers.length + 1

end Context

namespace Scope

def dropped (s : Scope) (n : Nat) : Scope := { s with operands := s.operands.drop n }

def args (s : Scope) (n : Nat) : List Value := (s.operands.take n).reverse

end Scope

def Machine.Full (m : Machine) : Prop := m.stack.entries.size = m.stack.limit

section Moves

variable (callHost : HostCall) (base : Nat) (b : Context)

inductive Leaves (c : Context) (s : Scope) : EStateM.Result (Stop Trap) Machine Bool → Prop
  | short : s.operands.length < c.frame.arity →
    Leaves c s (.error (.failed .stackUnderflow) (c.fill s))
  | outermost : c.frame.arity ≤ s.operands.length → c.callers = [] →
    Leaves c s (.ok true
      ⟨s.store, .of c.limit (s.operands.take c.frame.arity ++ c.bottom) [], c.ends, c.pc⟩)
  | finish {f : Frame} {cs : List (Label × List Value)} {vs : List Value} {as : List Activation} :
    c.frame.arity ≤ s.operands.length → c.callers = ⟨f, cs, vs⟩ :: as → as.length < base →
    Leaves c s (.ok true
      ⟨s.store, .of c.limit c.bottom (⟨f, cs, s.operands.take c.frame.arity ++ vs⟩ :: as), c.ends,
        c.pc⟩)
  | resume {f : Frame} {cs : List (Label × List Value)} {vs : List Value} {as : List Activation} :
    c.frame.arity ≤ s.operands.length → c.callers = ⟨f, cs, vs⟩ :: as → base ≤ as.length →
    Leaves c s (.ok false (Context.fill ⟨c.limit, c.bottom, as, f, cs, c.ends, f.pc⟩
      ⟨s.store, f.locals, s.operands.take c.frame.arity ++ vs⟩))

structure Offers (c : Context) (s : Scope) (func : Nat) (k : Callee) : Prop where
  callee : s.store.callee c.depth func = .ok k
  enough : k.params.length ≤ s.operands.length
  typed : Value.typeFault? (s.args k.params.length) k.params = none

inductive Calls (c : Context) (s : Scope) (func : Nat) :
    EStateM.Result (Stop Trap) Machine Bool → Prop
  | refuse {t : Trap} : s.store.callee c.depth func = .error t →
    Calls c s func (.error (.failed t) (c.fill s))
  | short {k : Callee} {t : Trap} : s.store.callee c.depth func = .ok k →
    s.operands.length < k.params.length →
    Stack.popValuesTyped k.params (c.fill s).stack = .error t (c.fill s).stack →
    t = .stackUnderflow ∨ (∃ x y, t = .typeMismatch x y) →
    Calls c s func (.error (.failed t) (c.fill s))
  | mismatch {k : Callee} {t : Trap} : s.store.callee c.depth func = .ok k →
    k.params.length ≤ s.operands.length →
    Value.typeFault? (s.args k.params.length) k.params = some t →
    Calls c s func (.error (.failed t) (c.fill s))
  | enter {type : FuncType} {inst : Nat} {f : FuncDef} {c' : Context} {s' : Scope} :
    Offers c s func (.code type inst f) →
    c' = c.calling (s.dropped type.params.length)
      { inst, func := some func, locals := #[], pc := 0, arity := type.results.length
        body := f.body } →
    s' = ⟨s.store, (s.args type.params.length ++ f.locals.map Value.zero).toArray, []⟩ →
    c'.Fits s' → Calls c s func (.ok false (c'.fill s'))
  | abort {f : Host.Func} {e : Stop Trap} {store : Store} :
    Offers c s func (.host f) →
    callHost f (s.args f.type.params.length) s.store = .error e store →
    Calls c s func (.error e (c.fill { s.dropped f.type.params.length with store }))
  | misanswer {f : Host.Func} {results : List Value} {store : Store} {t : Trap} :
    Offers c s func (.host f) →
    callHost f (s.args f.type.params.length) s.store = .ok results store →
    Value.hostFault? results f.type.results = some t →
    Calls c s func (.error (.failed t) (c.fill { s.dropped f.type.params.length with store }))
  | answer {f : Host.Func} {results : List Value} {store : Store} {s' : Scope} :
    Offers c s func (.host f) →
    callHost f (s.args f.type.params.length) s.store = .ok results store →
    Value.hostFault? results f.type.results = none →
    s' = ⟨store, s.locals, results.reverse ++ s.operands.drop f.type.params.length⟩ → c.Fits s' →
    Calls c s func (.ok false ((c.goto c.frame.pc).fill s'))
  | overflow {m : Machine} : m.Full → m.store.frozen = s.store.frozen →
    Calls c s func (.error (.failed .stackOverflow) m)
  | overanswer {f : Host.Func} {results : List Value} {m : Machine} :
    Offers c s func (.host f) →
    callHost f (s.args f.type.params.length) s.store = .ok results m.store → m.Full →
    Calls c s func (.error (.failed .stackOverflow) m)

structure Intends (c : Context) (s : Scope) (x : Intent) (s' : Scope) : Prop where
  fits : c.Fits s'
  same : s'.store.frozen = s.store.frozen
  instr : ∃ i, c.frame.body[c.pc]? = some i ∧ i.plain = true ∧
    Machine.intent i (b.fill s) = .ok x (b.fill s') ∧
    Machine.intent i (c.fill s) = .ok x (c.fill s')

structure Opens (c : Context) (s : Scope) (i : Instr) (t : BlockType) (x : Bool) (s' : Scope) :
    Prop where
  fits : c.Fits s'
  same : s'.store.frozen = s.store.frozen
  instr : c.frame.body[c.pc]? = some i
  signature : i.signature? = some t
  condition : Machine.condition i (b.fill s) = .ok x (b.fill s')

def Ends (c : Context) (e : BlockEnd) (ends : BlockEnds) : Prop :=
  BlockEnds.find c.frame.func c.frame.body c.pc c.ends = .ok e ends

def BlockEnd.entry? (e : BlockEnd) (pc : Nat) : (condition : Bool) → Option Nat
  | true => some (pc + 1)
  | false => e.elsePc.map (· + 1)

inductive Moves (c : Context) (s : Scope) : EStateM.Result (Stop Trap) Machine Bool → Prop
  | pastEnd : c.frame.body[c.pc]? = none →
    Moves c s (.error (.failed (.malformedControl .pastEnd)) (c.fill s))
  | trap {i : Instr} {t : Trap} {s' : Scope} : c.frame.body[c.pc]? = some i → i.plain = true →
    Machine.intent i (b.fill s) = .error t (b.fill s') → t.bracketing = false →
    s'.store.frozen = s.store.frozen →
    Moves c s (.error (.failed t) (c.fill s'))
  | next {s' : Scope} : Intends b c s .next s' → Moves c s (.ok false ((c.goto (c.pc + 1)).fill s'))
  | skip {s' : Scope} {l : Label} {ws : List Value} {rest : List (Label × List Value)} :
    Intends b c s .skip s' → c.outer = (l, ws) :: rest →
    Moves c s (.ok false ((c.goto l.stop).fill s'))
  | skipOut {s' : Scope} : Intends b c s .skip s' → c.outer = [] →
    Moves c s (.error (.failed (.malformedControl .labelDepth)) (c.fill s'))
  | branch {s' : Scope} {d : Nat} {l : Label} {ws : List Value}
    {rest : List (Label × List Value)} :
    Intends b c s (.branch d) s' → c.outer.drop d = (l, ws) :: rest →
    l.branchArity ≤ s'.operands.length →
    Moves c s (.ok false (Context.fill { c with outer := rest, pc := l.target }
      { s' with operands := s'.operands.take l.branchArity ++ ws }))
  | branchShort {s' : Scope} {d : Nat} {l : Label} {ws : List Value}
    {rest : List (Label × List Value)} :
    Intends b c s (.branch d) s' → c.outer.drop d = (l, ws) :: rest →
    s'.operands.length < l.branchArity →
    Moves c s (.error (.failed .stackUnderflow) (c.fill s'))
  | branchOut {s' : Scope} {d : Nat} {r : EStateM.Result (Stop Trap) Machine Bool} :
    Intends b c s (.branch d) s' → c.outer.drop d = [] → Leaves base c s' r → Moves c s r
  | leave {s' : Scope} {r : EStateM.Result (Stop Trap) Machine Bool} :
    Intends b c s .leave s' → Leaves base c s' r → Moves c s r
  | call {s' : Scope} {func : Nat} {r : EStateM.Result (Stop Trap) Machine Bool} :
    Intends b c s (.call func) s' → Calls callHost (c.saving (c.pc + 1)) s' func r → Moves c s r
  | last {r : EStateM.Result (Stop Trap) Machine Bool} : c.frame.body[c.pc]? = some .end_ →
    c.pc + 1 = c.frame.body.size → Leaves base c s r → Moves c s r
  | close {l : Label} {ws : List Value} {rest : List (Label × List Value)} :
    c.frame.body[c.pc]? = some .end_ → c.pc + 1 ≠ c.frame.body.size → c.outer = (l, ws) :: rest →
    l.arity ≤ s.operands.length →
    Moves c s (.ok false (Context.fill { c with outer := rest, pc := c.pc + 1 }
      { s with operands := s.operands.take l.arity ++ ws }))
  | closeShort {l : Label} {ws : List Value} {rest : List (Label × List Value)} :
    c.frame.body[c.pc]? = some .end_ → c.pc + 1 ≠ c.frame.body.size → c.outer = (l, ws) :: rest →
    s.operands.length < l.arity → Moves c s (.error (.failed .stackUnderflow) (c.fill s))
  | closeOut : c.frame.body[c.pc]? = some .end_ → c.pc + 1 ≠ c.frame.body.size → c.outer = [] →
    Moves c s (.error (.failed (.malformedControl .strayEnd)) (c.fill s))
  | refuse {i : Instr} {sig : BlockType} {t : Trap} {s' : Scope} :
    c.frame.body[c.pc]? = some i → i.signature? = some sig →
    Machine.condition i (b.fill s) = .error t (b.fill s') → t.bracketing = false →
    s'.store.frozen = s.store.frozen →
    Moves c s (.error (.failed t) (c.fill s'))
  | unterminated {i : Instr} {sig : BlockType} {s' : Scope} {t : Trap} {ends : BlockEnds} :
    c.frame.body[c.pc]? = some i → i.signature? = some sig →
    BlockEnds.find c.frame.func c.frame.body c.pc c.ends = .error t ends →
    s'.store.frozen = s.store.frozen →
    Moves c s (.error (.failed t) (Context.fill { c with ends } s'))
  | pass {i : Instr} {sig : BlockType} {s' : Scope} {e : BlockEnd} {ends : BlockEnds} :
    Opens b c s i sig false s' → Ends c e ends → e.elsePc = none →
    Moves c s (.ok false (Context.fill { c with ends, pc := e.endPc + 1 } s'))
  | mistyped {i : Instr} {sig : BlockType} {x : Bool} {s' s'' : Scope} {ends : BlockEnds}
    {t : Trap} : Opens b c s i sig x s' → (x = false → ∃ e p, Ends c e ends ∧ e.elsePc = some p) →
    Machine.blockArity sig (b.fill s') = .error t (b.fill s'') → t.bracketing = false →
    s''.store.frozen = s'.store.frozen →
    Moves c s (.error (.failed t) (Context.fill { c with ends } s''))
  | enterShort {i : Instr} {sig : BlockType} {x : Bool} {s' s'' : Scope} {e : BlockEnd}
    {ends : BlockEnds} {p params arity : Nat} :
    Opens b c s i sig x s' → Ends c e ends → e.entry? c.pc x = some p →
    Machine.blockArity sig (b.fill s') = .ok (params, arity) (b.fill s'') →
    s''.store.frozen = s'.store.frozen →
    s''.operands.length < params →
    Moves c s (.error (.failed .stackUnderflow) (Context.fill { c with ends } s''))
  | enter {i : Instr} {sig : BlockType} {x : Bool} {s' s'' : Scope} {e : BlockEnd}
    {ends : BlockEnds} {p params arity : Nat} {c₁ : Context} {s₁ : Scope} :
    Opens b c s i sig x s' → Ends c e ends → e.entry? c.pc x = some p →
    Machine.blockArity sig (b.fill s') = .ok (params, arity) (b.fill s'') →
    s''.store.frozen = s'.store.frozen →
    params ≤ s''.operands.length →
    c₁ = c.within ⟨arity, params, c.pc, e.endPc, i.isLoop⟩ (s''.operands.drop params) ends p →
    s₁ = { s'' with operands := s''.operands.take params } → c₁.Fits s₁ →
    Moves c s (.ok false (c₁.fill s₁))
  | overflow {m : Machine} : m.Full → m.store.frozen = s.store.frozen →
    Moves c s (.error (.failed .stackOverflow) m)

variable {b} {c : Context} {s s' : Scope} {i : Instr}

theorem Intends.plain {x : Intent} (h : Intends b c s x s') (hi : c.frame.body[c.pc]? = some i) :
    i.plain = true := by
  obtain ⟨_, hi', hp, _⟩ := h.instr
  cases hi.symm.trans hi'
  exact hp

theorem Opens.opens {j : Instr} {t : BlockType} {x : Bool} (h : Opens b c s j t x s')
    (hi : c.frame.body[c.pc]? = some i) : i.opens = true := by
  cases hi.symm.trans h.instr
  exact Instr.opens_of_signature h.signature

end Moves

namespace Machine

variable (callHost : HostCall) (base : Nat)

def fulfil : Intent → Exec Flow
  | .next => return .next
  | .branch d => branch d
  | .skip => return .jump (← Stack.currentLabel 0).stop
  | .call f => return .call f
  | .leave => return .leave

def conclude : Flow → Run Bool
  | .next => do
    setPc ((← get).pc + 1)
    return false
  | .jump pc => do
    setPc pc
    return false
  | .call func => do
    let pc := (← get).pc + 1
    Stack.onFrame (modify fun f ↦ { f with pc := pc })
    let depth ← frameCount
    call callHost func
    if depth < (← frameCount) then
      resume
    else
      setPc pc
    return false
  | .leave => do
    let _ ← Stack.popFrame
    if (← frameCount) ≤ base then
      return true
    resume
    return false

def follow : EStateM.Result Trap Machine Flow → EStateM.Result (Stop Trap) Machine Bool
  | .ok x m => conclude callHost base x m
  | .error t m => .error (.failed t) m

theorem advance_apply (m : Machine) :
    advance callHost base m = follow callHost base (step m) := by
  change EStateM.bind (Stop.lift step) _ m = _
  simp only [EStateM.bind, Stop.lift]
  cases step m with
  | ok x m' => cases x <;> rfl
  | error t m' => rfl

theorem bind_fulfil {α : Type} (op : Exec α) {x : α → Intent} {k : α → Exec Flow}
    (h : ∀ a, fulfil (x a) = k a) : op >>= k = (op >>= fun a ↦ pure (x a)) >>= fulfil := by
  rw [bind_assoc]
  exact bind_congr fun a ↦ by rw [pure_bind, h]

theorem exec_plain {i : Instr} (h : i.plain = true) (n : Nat) :
    exec n i = intent i >>= fulfil := by
  cases i with
  | block t => cases h
  | loop t => cases h
  | if_ t => cases h
  | end_ => cases h
  | unreachable => rfl
  | nop => rfl
  | else_ => rfl
  | br l => rfl
  | return_ => rfl
  | brIf l =>
    refine Eq.trans ?_ (bind_assoc (onStack Stack.popI32) _ fulfil).symm
    refine bind_congr fun x ↦ ?_
    split <;> rfl
  | brTable ls l =>
    exact @bind_fulfil _ (onStack Stack.popNat) (fun i ↦ .branch (ls[i]?.getD l).toNat) _
      fun _ ↦ rfl
  | call f =>
    refine Eq.trans ?_ (bind_assoc instance_ _ fulfil).symm
    exact bind_congr fun inst ↦ @bind_fulfil _ (check _) (fun a ↦ .call a) _ fun _ ↦ rfl
  | callIndirect t u => exact @bind_fulfil _ (indirectCallee t u) (fun a ↦ .call a) _ fun _ ↦ rfl
  | _ => exact @bind_fulfil _ (simple _) (fun _ ↦ .next) _ fun _ ↦ rfl

theorem step_fill (c : Context) (s : Scope) : step (c.fill s) = match c.frame.body[c.pc]? with
    | some i => exec c.frame.body.size i (c.fill s)
    | none => .error (.malformedControl .pastEnd) (c.fill s) := by
  change EStateM.bind (onStack Stack.currentFrame) _ _ = _
  simp only [EStateM.bind, onStack, Context.fill, Context.activation, Stack.currentFrame_of,
    Outcome.bind_apply, Outcome.get_apply]
  cases c.frame.body[c.pc]? <;> rfl

end Machine

end Wasm
