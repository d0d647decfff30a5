import Wasm.Proofs.Machine.Advance
import Wasm.Proofs.Tree

namespace Wasm

/-- How a sequence is left. -/
inductive Exit
  | normal
  /-- Out of so many constructs more than the innermost. -/
  | branch (depth : Nat)
  /-- At a stray `else_`, to the end of the innermost construct. -/
  | skip
  | leave
  deriving DecidableEq, Inhabited

abbrev Eval := EStateM (Stop Trap) Scope

def Context.alone (limit inst : Nat) : Context where
  limit := limit
  bottom := []
  callers := []
  frame := { inst, func := none, locals := #[], pc := 0, arity := 0, body := #[] }
  outer := []
  ends := {}
  pc := 0

def Machine.locals (m : Machine) : Array Value :=
  (m.stack.entries.toList.findSome? fun
    | .frame f => some f.locals
    | _ => none).getD #[]

theorem Stack.entriesOf_concat (bottom : List Value) (inner : List Activation) (a : Activation) :
    ∃ es, entriesOf bottom (inner ++ [a]) = Entry.operands bottom ++ .frame a.frame :: es := by
  induction inner with
  | nil => exact ⟨_, rfl⟩
  | cons b inner ih =>
    obtain ⟨es, hes⟩ := ih
    refine ⟨es ++ b.entries, ?_⟩
    rw [List.cons_append, entriesOf, hes, List.append_assoc, List.cons_append]

theorem Machine.locals_of {m : Machine} {limit : Nat} {bottom : List Value}
    {inner : List Activation} {a : Activation} (h : m.stack = .of limit bottom (inner ++ [a])) :
    m.locals = a.frame.locals := by
  obtain ⟨es, hes⟩ := Stack.entriesOf_concat bottom inner a
  rw [Machine.locals, h, Stack.of, hes, List.findSome?_append, List.findSome?_eq_none_iff.mpr]
  · rfl
  · intro e he
    obtain ⟨v, _, rfl⟩ := List.mem_map.mp (List.mem_reverse.mp he)
    rfl

def Machine.scope (m : Machine) : Scope where
  store := m.store
  locals := m.locals
  operands := m.stack.values.reverse

theorem Context.scope_alone (limit inst : Nat) (s : Scope) :
    ((alone limit inst).fill s).scope = s := by
  obtain ⟨store, locals, operands⟩ := s
  have hvalues : (operands.map Entry.value).filterMap Entry.value? = operands := by
    rw [List.filterMap_map]
    exact List.filterMap_some
  simp only [Machine.scope, Machine.locals, alone, fill, activation, Stack.of, Stack.values,
    Stack.entriesOf, Activation.entries, Entry.constructs, Entry.operands, List.map_nil,
    List.reverse_nil, List.nil_append, List.filterMap_cons, Entry.value?, List.filterMap_reverse,
    hvalues, List.reverse_reverse, List.findSome?_cons, Option.getD_some]

def Scope.afterCall (s : Scope) :
    EStateM.Result (Stop Trap) Scope (List Value) → EStateM.Result (Stop Trap) Scope Unit
  | .ok rs s' => .ok () ⟨s'.store, s.locals, rs ++ s.operands⟩
  | .error e s' => .error e { s with store := s'.store }

namespace Eval

variable {α : Type}

/-- Do what an instruction does. -/
def primitive (limit inst : Nat) (op : Exec α) : Eval α := fun s ↦
  match op ((Context.alone limit inst).fill s) with
  | .ok a m => .ok a m.scope
  | .error t m => .error (.failed t) m.scope

/-- Begin a segment with the top operands. The others are set aside. -/
def segment (params : Nat) : Eval (List Value) := fun s ↦
  if params ≤ s.operands.length then
    .ok (s.operands.drop params) { s with operands := s.operands.take params }
  else .error (.failed .stackUnderflow) s

def rejoin (n : Nat) (aside : List Value) : Eval Unit := fun s ↦
  if n ≤ s.operands.length then .ok () { s with operands := s.operands.take n ++ aside }
  else .error (.failed .stackUnderflow) s

def results (arity : Nat) (exit : Exit) : Eval (List Value) := fun s ↦
  if exit = .skip then .error (.failed (.malformedControl .labelDepth)) s
  else if arity ≤ s.operands.length then .ok (s.operands.take arity) s
  else .error (.failed .stackUnderflow) s

variable (callHost : HostCall) (limit : Nat)

/-- Call a function with arguments. The bodies of functions are evaluated by `eval`. -/
def apply (eval : Nat → Tree → Eval Exit) (args : List Value) : Callee → Eval Unit
  | .code type inst f => fun s ↦
    let locals := (args ++ f.locals.map Value.zero).toArray
    s.afterCall ((eval inst f.body.tree >>= results type.results.length) ⟨s.store, locals, []⟩)
  | .host f => fun s ↦
    match callHost f args s.store with
    | .error e store => .error e { s with store }
    | .ok rs store =>
      match Value.hostFault? rs f.type.results with
      | some t => .error (.failed t) { s with store }
      | none => .ok () ⟨store, s.locals, rs.reverse ++ s.operands⟩

def call (eval : Nat → Tree → Eval Exit) (depth inst func : Nat) : Eval Unit := fun s ↦
  match s.store.callee depth func with
  | .error t => .error (.failed t) s
  | .ok k =>
    (do
      let args ← primitive limit inst (Machine.onStack (Stack.popValuesTyped k.params))
      apply callHost eval args k : Eval Unit) s

def proceed (params arity : Nat) (aside : List Value) (isLoop : Bool) (again rest : Eval Exit) :
    Exit → Eval Exit
  | .normal | .skip => do
    rejoin arity aside
    rest
  | .branch 0 => do
    if isLoop then
      rejoin params aside
      again
    else
      rejoin arity aside
      rest
  | .branch (d + 1) => return .branch d
  | .leave => return .leave

/-- Evaluate a construct that is entered, and what comes after it. -/
def construct (inst : Nat) (t : BlockType) (isLoop : Bool) (body again rest : Eval Exit) :
    Eval Exit := do
  let (params, arity) ← primitive limit inst (Machine.blockArity t)
  let aside ← segment params
  proceed params arity aside isLoop again rest (← body)

/-- Evaluate a tree in a frame of the given module instance, which is the `depth`-th. -/
def tree : (fuel depth inst : Nat) → Tree → Eval Exit
  | 0, _, _, _ => throw .outOfFuel
  | _ + 1, _, _, .nil => return .normal
  | n + 1, depth, inst, .plain i rest => do
    match ← primitive limit inst (Machine.intent i) with
    | .next => tree n depth inst rest
    | .branch d => return .branch d
    | .skip => return .skip
    | .leave => return .leave
    | .call func => do
      call callHost limit (tree n (depth + 1)) depth inst func
      tree n depth inst rest
  | n + 1, depth, inst, .construct kind t body rest => do
    if ← primitive limit inst (Machine.condition (kind.opener t)) then
      construct limit inst t (kind = .loop) (tree n depth inst body)
        (tree n depth inst (.construct kind t body rest)) (tree n depth inst rest)
    else
      tree n depth inst rest
  | n + 1, depth, inst, .either t body alt rest => do
    let x ← primitive limit inst (Machine.condition (.if_ t))
    let part := tree n depth inst (if x then body else alt)
    construct limit inst t false part (tree n depth inst rest) (tree n depth inst rest)

def body (fuel depth inst arity : Nat) (code : Code) : Eval (List Value) :=
  tree callHost limit fuel depth inst code.tree >>= results arity

end Eval

section Primitive

variable {limit inst : Nat} {s s' : Scope}

theorem Context.fill_alone_inj (h : (alone limit inst).fill s = (alone limit inst).fill s') :
    s = s' := by
  have hscope := congrArg Machine.scope h
  rwa [scope_alone, scope_alone] at hscope

theorem Eval.primitive_ok {α : Type} {op : Exec α} {a : α}
    (h : op ((Context.alone limit inst).fill s) = .ok a ((Context.alone limit inst).fill s')) :
    primitive limit inst op s = .ok a s' := by
  rw [primitive, h]
  simp only [Context.scope_alone]

theorem Eval.primitive_error {α : Type} {op : Exec α} {t : Trap}
    (h : op ((Context.alone limit inst).fill s) = .error t ((Context.alone limit inst).fill s')) :
    primitive limit inst op s = .error (.failed t) s' := by
  rw [primitive, h]
  simp only [Context.scope_alone]

theorem Machine.popI32_fill {c : Context} {x : BitVec 32} {m : Machine}
    (h : onStack Stack.popI32 (c.fill s) = .ok x m) :
    ∃ vs, m = c.fill { s with operands := vs } := by
  rw [Stack.popI32, Stack.popAs, onStack_bind, Outcome.bind_apply, peekValue_fill] at h
  cases hv : s.operands with
  | nil =>
    rw [hv] at h
    cases h
  | cons v vs =>
    rw [hv] at h
    simp only at h
    refine ⟨vs, ?_⟩
    cases hx : v.i32? with
    | none =>
      rw [hx] at h
      cases h
    | some a =>
      rw [hx] at h
      simp only [onStack, Outcome.bind_apply, Context.fill, Context.activation, hv,
        Stack.dropTop_of, Outcome.pure_apply] at h
      cases h
      rfl

theorem Machine.popNat_fill {c : Context} {n : Nat} {m : Machine}
    (h : onStack Stack.popNat (c.fill s) = .ok n m) :
    ∃ vs, m = c.fill { s with operands := vs } := by
  rw [Stack.popNat, map_eq_pure_bind, onStack_bind] at h
  obtain ⟨x, m', hop, hk⟩ := Outcome.bind_ok h
  cases hk
  exact popI32_fill hop

/-- An instruction that asks for a jump has done no more than to pop an operand. -/
theorem Machine.intent_jumps {i : Instr} {x : Intent}
    (h : intent i ((Context.alone limit inst).fill s) = .ok x ((Context.alone limit inst).fill s'))
    (hx : x ≠ .next) (hcall : ∀ func, x ≠ .call func) :
    s'.store = s.store ∧ s'.locals = s.locals := by
  have hpure {y : Intent} (h : (pure y : Exec Intent) ((Context.alone limit inst).fill s) =
      .ok x ((Context.alone limit inst).fill s')) : s'.store = s.store ∧ s'.locals = s.locals := by
    obtain ⟨_, hfill⟩ := EStateM.Result.ok.inj h
    rw [Context.fill_alone_inj hfill]
    exact ⟨rfl, rfl⟩
  cases i with
  | unreachable => cases h
  | nop => exact hpure h
  | else_ => exact hpure h
  | br l => exact hpure h
  | return_ => exact hpure h
  | brIf l =>
    obtain ⟨v, m, hop, hk⟩ := Outcome.bind_ok h
    obtain ⟨vs, rfl⟩ := popI32_fill hop
    split at hk
    · obtain ⟨_, hfill⟩ := EStateM.Result.ok.inj hk
      cases Context.fill_alone_inj hfill
      exact ⟨rfl, rfl⟩
    · obtain ⟨rfl, _⟩ := EStateM.Result.ok.inj hk
      exact absurd rfl hx
  | brTable ls l =>
    obtain ⟨v, m, hop, hk⟩ := Outcome.bind_ok h
    obtain ⟨vs, rfl⟩ := popNat_fill hop
    obtain ⟨_, hfill⟩ := EStateM.Result.ok.inj hk
    cases Context.fill_alone_inj hfill
    exact ⟨rfl, rfl⟩
  | call f =>
    obtain ⟨_, _, _, hk⟩ := Outcome.bind_ok h
    obtain ⟨_, _, _, hk⟩ := Outcome.bind_ok hk
    obtain ⟨rfl, _⟩ := EStateM.Result.ok.inj hk
    exact absurd rfl (hcall _)
  | callIndirect t u =>
    obtain ⟨_, _, _, hk⟩ := Outcome.bind_ok h
    obtain ⟨rfl, _⟩ := EStateM.Result.ok.inj hk
    exact absurd rfl (hcall _)
  | _ =>
    obtain ⟨_, _, _, hk⟩ := Outcome.bind_ok h
    obtain ⟨rfl, _⟩ := EStateM.Result.ok.inj hk
    exact absurd rfl hx

/-- Where there is nothing beneath the segment, parameters that are not there are an underflow. -/
theorem Machine.popValuesTyped_alone {ts : List ValType} (h : s.operands.length < ts.length) :
    Stack.popValuesTyped ts ((Context.alone limit inst).fill s).stack =
      .error .stackUnderflow ((Context.alone limit inst).fill s).stack := by
  have hentries : ((Context.alone limit inst).fill s).stack.entries.toList =
      .frame { (Context.alone limit inst).frame with locals := s.locals } ::
        Entry.operands s.operands := rfl
  have hsize : ((Context.alone limit inst).fill s).stack.entries.size = s.operands.length + 1 := by
    rw [← Array.length_toList, hentries, List.length_cons, Stack.length_operands]
  simp only [Stack.popValuesTyped, Outcome.bind_apply, Outcome.get_apply, hsize]
  by_cases hlt : s.operands.length + 1 < ts.length
  · rw [if_pos hlt]
    rfl
  · have heq : s.operands.length + 1 - ts.length = 0 := by omega
    rw [if_neg hlt, heq, Array.toList_extract, hentries]
    obtain _ | ⟨t, ts⟩ := ts
    · simp at h
    · simp [Entry.typeFault?]

theorem Eval.primitive_popValuesTyped (ts : List ValType) :
    primitive limit inst (Machine.onStack (Stack.popValuesTyped ts)) s =
      if s.operands.length < ts.length then .error (.failed .stackUnderflow) s
      else match Value.typeFault? (s.args ts.length) ts with
        | some t => .error (.failed t) s
        | none => .ok (s.args ts.length) (s.dropped ts.length) := by
  by_cases hn : s.operands.length < ts.length
  · rw [if_pos hn]
    refine primitive_error ?_
    rw [Machine.onStack, Machine.popValuesTyped_alone hn]
  · have hpop := @Machine.popValuesTyped_fill (.alone limit inst) s ts (Nat.not_lt.mp hn)
    rw [if_neg hn]
    cases hf : Value.typeFault? (s.args ts.length) ts with
    | some t =>
      rw [hf] at hpop
      refine primitive_error ?_
      rw [Machine.onStack, hpop]
    | none =>
      rw [hf] at hpop
      refine primitive_ok ?_
      rw [Machine.onStack, hpop]
      rfl

section Construct

variable {t : BlockType} {isLoop : Bool} {part again rest : Eval Exit}
  {params arity : Nat}

theorem Eval.construct_error {u : Trap}
    (h : Machine.blockArity t ((Context.alone limit inst).fill s) =
      .error u ((Context.alone limit inst).fill s')) :
    construct limit inst t isLoop part again rest s = .error (.failed u) s' := by
  simp only [construct, Outcome.bind_apply, primitive_error h]

theorem Eval.construct_short
    (h : Machine.blockArity t ((Context.alone limit inst).fill s) =
      .ok (params, arity) ((Context.alone limit inst).fill s'))
    (hn : s'.operands.length < params) :
    construct limit inst t isLoop part again rest s = .error (.failed .stackUnderflow) s' := by
  simp only [construct, Outcome.bind_apply, primitive_ok h, segment, Nat.not_le.mpr hn, if_false]

theorem Eval.construct_enter
    (h : Machine.blockArity t ((Context.alone limit inst).fill s) =
      .ok (params, arity) ((Context.alone limit inst).fill s'))
    (hn : params ≤ s'.operands.length) :
    construct limit inst t isLoop part again rest s =
      (part >>= proceed params arity (s'.operands.drop params) isLoop again rest)
        { s' with operands := s'.operands.take params } := by
  simp only [construct, Outcome.bind_apply, primitive_ok h, segment, hn, if_true]

/-- A branch to the label of a construct takes what the label takes. -/
theorem Eval.proceed_label (l : Label) (vs : List Value) (again rest : Eval Exit) :
    proceed l.params l.arity vs l.isLoop again rest (.branch 0) =
      (rejoin l.branchArity vs >>= fun _ ↦ if l.isLoop then again else rest) := by
  unfold Label.branchArity
  cases h : l.isLoop <;> simp [proceed]

end Construct

end Primitive

end Wasm
