import Wasm.Machine.Step

namespace Wasm

/-- Why there is no result: a failure, or no steps left. -/
inductive Stop (ε : Type)
  | failed (e : ε)
  | outOfFuel
  deriving DecidableEq, Inhabited

namespace Stop

variable {ε σ α : Type}

/-- An operation that never runs out of steps. -/
@[inline] def lift (op : EStateM ε σ α) : EStateM (Stop ε) σ α := fun s ↦
  match op s with
  | .ok a s => .ok a s
  | .error e s => .error (.failed e) s

@[inline] def check (r : Except ε α) : EStateM (Stop ε) σ α :=
  match r with
  | .ok a => return a
  | .error e => throw (.failed e)

def mapError {δ : Type} (f : ε → δ) (op : EStateM (Stop ε) σ α) : EStateM (Stop δ) σ α := fun s ↦
  match op s with
  | .ok a s => .ok a s
  | .error (.failed e) s => .error (.failed (f e)) s
  | .error .outOfFuel s => .error .outOfFuel s

end Stop

abbrev Action (ε : Type) := EStateM (Stop ε) Store

abbrev HostCall := Host.Func → List Value → Action Trap (List Value)

abbrev Run := EStateM (Stop Trap) Machine

instance : MonadLift Exec Run := ⟨Stop.lift⟩

def Value.typeFault? : List Value → List ValType → Option Trap
  | v :: vs, t :: ts => if v.type = t then typeFault? vs ts else some (.typeMismatch t v.type)
  | _, _ => none

def Value.hostFault? (vs : List Value) (ts : List ValType) : Option Trap :=
  if vs.length ≠ ts.length then some (.hostResults vs.length ts.length) else typeFault? vs ts

namespace Machine

variable {α : Type}

@[inline] def onAction (op : Action Trap α) : Run α := fun ⟨store, stack, ends, pc⟩ ↦
  match op store with
  | .ok a store => .ok a ⟨store, stack, ends, pc⟩
  | .error t store => .error t ⟨store, stack, ends, pc⟩

/-- Enter a function that is made of code: its parameters become the first of its locals. -/
def enter (func : Nat) (type : FuncType) (inst index : Nat) : Exec Unit := do
  if (← get).store.config.maxCallDepth ≤ (← frameCount) then
    throw .callStackExhausted
  let owner ← check ((← get).store.instance_ inst)
  match owner.mod.functions[index]? with
  | none => throw (.invalidAddress .body index)
  | some f => do
    let args ← Stack.popValuesTyped type.params
    let locals := args ++ f.locals.map Value.zero
    Stack.pushFrame {
      inst, func := some func, locals := locals.toArray, pc := 0, arity := type.results.length
      body := f.body }

variable (callHost : HostCall)

/-- Call a host function: its parameters are replaced by its results. -/
def callOut (f : Host.Func) : Run Unit := do
  let args ← Stack.popValuesTyped f.type.params
  let results ← onAction (callHost f args)
  match Value.hostFault? results f.type.results with
  | some t => throw (.failed t)
  | none => Stack.pushValues results

def call (func : Nat) : Run Unit := do
  match ← check ((← get).store.func func) with
  | .code type inst index => enter func type inst index
  | .host f => callOut callHost f

/-- Execute one instruction, and the call or return that it asks for. The result tells whether there
are no more than `base` frames left. -/
def advance (base : Nat) : Run Bool := do
  match ← step with
  | .next => do
    setPc ((← get).pc + 1)
    return false
  | .jump pc => do
    setPc pc
    return false
  | .call func => do
    let pc := (← get).pc + 1
    Stack.onFrame (modify fun f ↦ { f with pc := pc })
    let depth ← frameCount
    call callHost func
    if depth < (← frameCount) then
      resume
    else
      setPc pc
    return false
  | .leave => do
    let _ ← Stack.popFrame
    if (← frameCount) ≤ base then
      return true
    resume
    return false

def runTo (base : Nat) : (fuel : Nat) → Run Unit
  | 0 => throw .outOfFuel
  | n + 1 => do
    if ← advance callHost base then
      return ()
    runTo base n

def run (fuel : Nat) : Run Unit := do
  let base := (← frameCount) - 1
  resume
  runTo callHost base fuel

def runFunc (fuel func : Nat) (args : List Value) (arity : Nat) : Run (List Value) := do
  Stack.pushValues args
  let depth ← frameCount
  call callHost func
  if depth < (← frameCount) then
    run callHost fuel
  Stack.popValues arity

def runConst (fuel inst : Nat) (code : Code) : Run Value := do
  Stack.pushFrame { inst, func := none, locals := #[], pc := 0, arity := 1, body := code }
  run callHost fuel
  Stack.popValue

def start (op : Run α) : Action Trap α := fun store ↦
  let limit := store.config.maxStackEntries
  match op { store, stack := { limit } } with
  | .ok a m => .ok a m.store
  | .error e m => .error e m.store

end Machine

namespace Action

variable (callHost : HostCall) (fuel : Nat)

/-- An action during which one more invocation is active. -/
def nested {α : Type} (op : Action Trap α) : Action Trap α := fun s ↦
  match op { s with active := s.active + 1 } with
  | .ok a s => .ok a { s with active := s.active - 1 }
  | .error e s => .error e { s with active := s.active - 1 }

def call (func : Nat) (args : List Value) : Action Trap (List Value) := do
  let type := (← Stop.check ((← get).func func)).type
  if args.length ≠ type.params.length then
    throw (.failed (.argumentMismatch type.params.length args.length))
  if let some t := Value.typeFault? args type.params then
    throw (.failed t)
  let s ← get
  if s.config.maxReentrancy ≤ s.active then
    throw (.failed .callStackExhausted)
  nested (Machine.start (Machine.runFunc callHost fuel func args type.results.length))

def evalConst (inst : Nat) (code : Code) : Action Trap Value :=
  Machine.start (Machine.runConst callHost fuel inst code)

end Action

/-- The runs of machines, as a parameter of all that is made of them. -/
structure Runner where
  eval : (inst : Nat) → Code → Action Trap Value
  call : (func : Nat) → List Value → Action Trap (List Value)

namespace Runner

abbrev machine (callHost : HostCall) (fuel : Nat) : Runner where
  eval := Action.evalConst callHost fuel
  call := Action.call callHost fuel

def invoke (run : Runner) (inst : Nat) (name : String) (args : List Value) :
    Action Trap (List Value) := do
  match (← Stop.check ((← get).instance_ inst)).export? name with
  | some ⟨.func, addr⟩ => run.call addr args
  | some _ => throw (.failed (.notAFunction name))
  | none => throw (.failed (.exportNotFound name))

end Runner

def Action.invoke (callHost : HostCall) (fuel : Nat) :
    (inst : Nat) → (name : String) → List Value → Action Trap (List Value) :=
  (Runner.machine callHost fuel).invoke

end Wasm
