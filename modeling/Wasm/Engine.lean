import Wasm.Decode.Module
import Wasm.Link.Instantiate

namespace Wasm

namespace Engine

variable {α ε : Type}

/-- The outcome of an action as an answer to a host function. Running out of steps is no answer. -/
def attempt (op : Action ε α) : Action Trap (Except ε α) := fun s ↦
  match op s with
  | .ok a s => .ok (.ok a) s
  | .error (.failed e) s => .ok (.error e) s
  | .error .outOfFuel s => .error .outOfFuel s

end Engine

/-- Do what a host function asks for. -/
def Runner.perform (run : Runner) : Host.Act → Action Trap (List Value)
  | .finish (.ok vs) => return vs
  | .finish (.error t) => throw (.failed t)
  | .log vs next => do
    modify fun s ↦ { s with log := s.log ++ vs.toArray }
    perform run next
  | .readLog k => do
    perform run (k (← get).log)
  | .get k => do
    perform run (k (← get).heap)
  | .put heap next => do
    modify fun s ↦ { s with heap := heap }
    perform run next
  | .alloc e k => do
    let addr ← modifyGet (Store.alloc · e)
    perform run (k addr)
  | .call f args k => do
    let r ← Engine.attempt (run.call f args)
    perform run (k r)
  | .invoke inst name args k => do
    let r ← Engine.attempt (run.invoke inst name args)
    perform run (k r)
  | .instantiate m r k => do
    let r ← Engine.attempt (run.instantiate m r)
    perform run (k r)

namespace Engine

/-- Do what a host function asks for, where host functions that are called on the way are answered
by `callHost`. -/
def perform (callHost : HostCall) (fuel : Nat) : Host.Act → Action Trap (List Value) :=
  (Runner.machine callHost fuel).perform

/-- Answer calls of host functions, where no more than `depth` are nested. -/
def hostCall (fuel : Nat) : (depth : Nat) → HostCall
  | 0 => fun _ _ ↦ throw .outOfFuel
  | n + 1 => fun f args ↦ perform (hostCall fuel n) fuel (f.run args)

def call (fuel : Nat) (func : Nat) (args : List Value) : Action Trap (List Value) :=
  Action.call (hostCall fuel fuel) fuel func args

def invoke (fuel : Nat) (inst : Nat) (name : String) (args : List Value) :
    Action Trap (List Value) :=
  Action.invoke (hostCall fuel fuel) fuel inst name args

def instantiate (fuel : Nat) (m : Module) (r : Host.Resolver) : Action LinkError Nat :=
  Link.instantiate (hostCall fuel fuel) fuel m r

end Engine

end Wasm
