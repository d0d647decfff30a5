import Wasm.Value
import Wasm.Trap
import Wasm.Slot
import Wasm.Instr.Basic

namespace Wasm

/-- A label, pushed where a construct is entered. -/
structure Label where
  /-- Number of results of the construct. -/
  arity : Nat
  /-- Number of parameters of the construct. -/
  params : Nat
  /-- Position of the instruction that opens the construct. -/
  start : Nat
  /-- Position of the `end_` that closes the construct. -/
  stop : Nat
  isLoop : Bool
  deriving DecidableEq, Inhabited

/-- How many values a branch to the label carries: a loop starts again with its parameters, any
other construct is left with its results. -/
def Label.branchArity (l : Label) : Nat :=
  if l.isLoop then l.params else l.arity

def Label.target (l : Label) : Nat :=
  if l.isLoop then l.start else l.stop + 1

structure Frame where
  /-- The module instance that the function belongs to. -/
  inst : Nat
  /-- Address of the function, `none` in a frame that evaluates an initializer. -/
  func : Option Nat
  locals : Array Value
  /-- Where to go on after a call. -/
  pc : Nat
  /-- Number of results of the function. -/
  arity : Nat
  body : Code
  deriving DecidableEq, Inhabited

inductive Entry
  | value (v : Value)
  | label (l : Label)
  | frame (f : Frame)
  deriving DecidableEq, Inhabited

def Entry.value? : Entry → Option Value
  | value v => some v
  | _ => none

def Entry.typeFault? : List Entry → List ValType → Option Trap
  | value v :: es, t :: ts => if v.type = t then typeFault? es ts else some (.typeMismatch t v.type)
  | _ :: _, _ :: _ => some .stackUnderflow
  | _, _ => none

/-- Where a branch leads: to a position of the body, or out of the function. -/
inductive Target
  | jump (pc : Nat)
  | leave
  deriving DecidableEq, Inhabited

structure Stack where
  entries : Array Entry := #[]
  /-- Positions of the frames, innermost last. -/
  frames : Array Nat := #[]
  /-- Most entries that the stack may have. -/
  limit : Nat
  deriving DecidableEq, Inhabited

/-- Operations on a stack. The stack after a failure is part of the result. -/
abbrev StackM := EStateM Trap Stack

namespace Stack

variable {α : Type}

def values (s : Stack) : List Value :=
  s.entries.toList.filterMap Entry.value?

def push (e : Entry) : StackM Unit := fun s ↦
  if s.entries.size < s.limit then .ok () { s with entries := s.entries.push e }
  else .error .stackOverflow s

def pushValue (v : Value) : StackM Unit :=
  push (.value v)

def pushValues (vs : List Value) : StackM Unit :=
  vs.forM pushValue

def peekValue : StackM Value := fun s ↦
  match s.entries.back? with
  | some (.value v) => .ok v s
  | _ => .error .stackUnderflow s

def dropTop : StackM Unit := fun s ↦
  .ok () { s with entries := s.entries.pop }

def popValue : StackM Value := do
  let v ← peekValue
  dropTop
  return v

/-- The value on top, seen through `view`, which holds of the values of type `expected`. Nothing
is removed from the stack if there is no such value. -/
def popAs (expected : ValType) (view : Value → Option α) : StackM α := do
  let v ← peekValue
  match view v with
  | some a => do
    dropTop
    return a
  | none => throw (.typeMismatch expected v.type)

def popTyped (t : ValType) : StackM Value :=
  popAs t fun v ↦ if v.type = t then some v else none

def popI32 : StackM (BitVec 32) := popAs .i32 Value.i32?

def popI64 : StackM (BitVec 64) := popAs .i64 Value.i64?

def popF32 : StackM (BitVec 32) := popAs .f32 Value.f32?

def popF64 : StackM (BitVec 64) := popAs .f64 Value.f64?

def popInt : (w : Width) → StackM (BitVec w.bits)
  | .w32 => popI32
  | .w64 => popI64

def popFloat : (w : Width) → StackM (BitVec w.bits)
  | .w32 => popF32
  | .w64 => popF64

def popNat : StackM Nat :=
  BitVec.toNat <$> popI32

def popRef : StackM Value :=
  popAs .funcref fun v ↦ if v.type.isRef then some v else none

/-- The top `n` values, lowest first. Labels and frames are never passed over. -/
def popValues (n : Nat) : StackM (List Value) := fun s ↦
  if s.entries.size < n then
    .error .stackUnderflow s
  else
    let keep := s.entries.size - n
    match (s.entries.extract keep).toList.mapM Entry.value? with
    | some vs => .ok vs { s with entries := s.entries.shrink keep }
    | none => .error .stackUnderflow s

def popValuesTyped (ts : List ValType) : StackM (List Value) := do
  let s ← get
  if s.entries.size < ts.length then
    throw .stackUnderflow
  let top := (s.entries.extract (s.entries.size - ts.length)).toList
  if let some trap := Entry.typeFault? top ts then
    throw trap
  popValues ts.length

/-- Enter a construct: its label goes beneath its parameters. -/
def pushLabel (l : Label) : StackM Unit := do
  let params ← popValues l.params
  push (.label l)
  pushValues params

def pushFrame (f : Frame) : StackM Unit := do
  let place := (← get).entries.size
  push (.frame f)
  modify fun s ↦ { s with frames := s.frames.push place }

def frameIndex : StackM Nat := fun s ↦
  match s.frames.back? with
  | some i => .ok i s
  | none => .error (.malformedControl .noFrame) s

def currentFrame : StackM Frame := do
  let i ← frameIndex
  match (← get).entries[i]? with
  | some (.frame f) => return f
  | _ => throw (.malformedControl .frameIndex)

def onEntry (op : EStateM Trap Frame α) : EStateM Trap Entry α := fun e ↦
  match e with
  | .frame f =>
    match op f with
    | .ok a f' => .ok a (.frame f')
    | .error t f' => .error t (.frame f')
  | e => .error (.malformedControl .frameIndex) e

def onFrame (op : EStateM Trap Frame α) : StackM α := do
  let i ← frameIndex
  fun ⟨entries, frames, limit⟩ ↦
    if h : i < entries.size then
      match onSlot (onEntry op) entries i h with
      | .ok a entries => .ok a ⟨entries, frames, limit⟩
      | .error t entries => .error t ⟨entries, frames, limit⟩
    else
      .error (.malformedControl .frameIndex) ⟨entries, frames, limit⟩

/-- The `depth`-th label from the top among the entries below position `i` and above the position
`floor`, and its position. -/
def labelBelow? (entries : Array Entry) (floor : Nat) : (i depth : Nat) → Option (Nat × Label)
  | 0, _ => none
  | i + 1, depth =>
    if i ≤ floor then none
    else match entries[i]?, depth with
      | some (.label l), 0 => some (i, l)
      | some (.label _), d + 1 => labelBelow? entries floor i d
      | _, d => labelBelow? entries floor i d

def findLabel? (depth : Nat) : StackM (Option (Nat × Label)) := do
  let floor ← frameIndex
  let s ← get
  return labelBelow? s.entries floor s.entries.size depth

def currentLabel (depth : Nat) : StackM Label := do
  match ← findLabel? depth with
  | some (_, l) => return l
  | none => throw (.malformedControl .labelDepth)

/-- Keep the top `n` values, and of the entries below them the first `place`. -/
def unwind (place n : Nat) : StackM Unit := do
  let vs ← popValues n
  modify fun s ↦ { s with entries := s.entries.shrink place }
  pushValues vs

def popLabel : StackM Label := do
  match ← findLabel? 0 with
  | some (i, l) => do
    unwind i l.arity
    return l
  | none => throw (.malformedControl .strayEnd)

/-- Branch to the `depth`-th label. A branch past the outermost label leaves the function, and
changes nothing yet. -/
def branch (depth : Nat) : StackM Target := do
  match ← findLabel? depth with
  | some (i, l) => do
    unwind i l.branchArity
    return .jump l.target
  | none => return .leave

def popFrame : StackM Frame := do
  let i ← frameIndex
  let f ← currentFrame
  unwind i f.arity
  modify fun s ↦ { s with frames := s.frames.pop }
  return f

end Stack

end Wasm
