namespace Wasm

variable {κ ν : Type} [DecidableEq κ]

/-- Bind `k` to `v`, in the place of an earlier binding of `k` if there is one. -/
def assocInsert (k : κ) (v : ν) : List (κ × ν) → List (κ × ν)
  | [] => [(k, v)]
  | (k', v') :: xs => if k = k' then (k, v) :: xs else (k', v') :: assocInsert k v xs

theorem lookup_assocInsert (k k' : κ) (v : ν) (xs : List (κ × ν)) :
    (assocInsert k v xs).lookup k' = if k' = k then some v else xs.lookup k' := by
  induction xs with
  | nil =>
    by_cases h : k' = k
    · simp [assocInsert, h]
    · simp [assocInsert, List.lookup_cons, h, beq_false_of_ne h]
  | cons x xs ih =>
    obtain ⟨a, b⟩ := x
    by_cases hk : k = a
    · subst hk
      by_cases h : k' = k
      · simp [assocInsert, h]
      · simp [assocInsert, List.lookup_cons, h, beq_false_of_ne h]
    · by_cases h : k' = a
      · subst h
        simp [assocInsert, hk, Ne.symm hk]
      · simp [assocInsert, List.lookup_cons, hk, beq_false_of_ne h, ih]

end Wasm
