namespace Wasm

variable {ε τ α : Type}

/-- An operation on the item at a place of an array. The item leaves the array while the operation
runs, so that it is changed in place. -/
def onSlot [Inhabited τ] (op : EStateM ε τ α) (xs : Array τ) (i : Nat) (h : i < xs.size) :
    EStateM.Result ε (Array τ) α :=
  let (x, rest) := xs.swapAt i default h
  match op x with
  | .ok a y => .ok a (rest.setIfInBounds i y)
  | .error e y => .error e (rest.setIfInBounds i y)

theorem onSlot_eq [Inhabited τ] (op : EStateM ε τ α) (xs : Array τ) (i : Nat) (h : i < xs.size) :
    onSlot op xs i h = match op xs[i] with
      | .ok a y => .ok a (xs.set i y)
      | .error e y => .error e (xs.set i y) := by
  unfold onSlot
  simp only [Array.swapAt]
  cases op xs[i] <;> simp [Array.setIfInBounds, h]

end Wasm
