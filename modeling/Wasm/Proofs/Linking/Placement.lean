import Wasm.Proofs.Heap
import Wasm.Link.Instantiate

namespace Wasm

section Overwrite

variable {α : Type} {start : Nat} {ys xs : List α}

def overwrite (start : Nat) (ys xs : List α) : List α :=
  xs.mapIdx fun i x ↦ if start ≤ i then ys[i - start]?.getD x else x

@[simp] theorem length_overwrite : (overwrite start ys xs).length = xs.length := List.length_mapIdx

theorem overwrite_eq_append (h : start + ys.length ≤ xs.length) :
    overwrite start ys xs = xs.take start ++ ys ++ xs.drop (start + ys.length) := by
  apply List.ext_getElem?
  intro i
  rw [overwrite, List.getElem?_mapIdx]
  -- An index is before, within or behind the part that is replaced.
  rcases Nat.lt_or_ge i start with hlow | hlow
  · grind
  · rcases Nat.lt_or_ge i (start + ys.length) with hhigh | hhigh <;> grind

end Overwrite

def Table.put (start : Nat) (vs : List Value) (t : Table) : Table :=
  ⟨t.type, (overwrite start vs t.elems.toList).toArray⟩

def Memory.put (start : Nat) (bs : List UInt8) (m : Memory) : Memory :=
  ⟨m.type, ⟨(overwrite start bs m.bytes.data.toList).toArray⟩⟩

theorem Table.init_put (start : Nat) (vs : Array Value) (t : Table) :
    Table.init start vs 0 vs.size t =
      if start + vs.size ≤ t.size then .ok () (t.put start vs.toList)
      else .error .tableOutOfBounds t := by
  have hlen : ¬ vs.size < 0 + vs.size := by omega
  simp only [Table.init, hlen, if_false, Outcome.bind_apply, check, InBounds]
  by_cases h : start + vs.size ≤ t.size
  · have hsplice : splice t.elems start vs =
        (overwrite start vs.toList t.elems.toList).toArray := by
      rw [overwrite_eq_append h]
      apply Array.toList_inj.mp
      simp [splice]
    simp only [h, if_true, Outcome.modify_apply, Nat.zero_add, Array.extract_size, hsplice, put]
  · simp only [h, if_false]

theorem Memory.splice_put {start : Nat} {bs : List UInt8} {m : Memory}
    (h : start + bs.length ≤ m.size) :
    (⟨m.type, splice m.bytes start bs.toByteArray⟩ : Memory) = m.put start bs := by
  rw [put, overwrite_eq_append h]
  congr 1
  apply ByteArray.ext
  apply Array.toList_inj.mp
  simp [splice, ByteArray.copySlice]

theorem Memory.init_put (start : Nat) (bs : List UInt8) (m : Memory) :
    Memory.init start bs 0 bs.length m =
      if start + bs.length ≤ m.size then .ok () (m.put start bs)
      else .error (.memoryOutOfBounds start bs.length) m := by
  have hlen : ¬ bs.length < 0 + bs.length := by omega
  simp only [Memory.init, hlen, if_false, Outcome.bind_apply, check, InBounds]
  by_cases h : start + bs.length ≤ m.size
  · simp only [h, if_true, Outcome.modify_apply, List.drop_zero, List.take_length, splice_put h]
  · simp only [h, if_false]

structure Write (α : Type) where
  addr : Nat
  start : Nat
  items : List α

/-- A kind of segment: what a segment holds at first, what it holds when it has been used, and what
is written when it is used. -/
structure Placement (σ α κ τ : Type) where
  held : σ → κ
  left : σ → κ
  write? : σ → Option (Write α)
  size : τ → Nat
  put : Nat → List α → τ → τ
  size_put : ∀ start ys t, size (put start ys t) = size t

namespace Placement

variable {σ α κ τ : Type} (P : Placement σ α κ τ)

def Fits (ts : Array τ) (x : σ) : Prop :=
  ∀ w ∈ P.write? x, ∃ t ∈ ts[w.addr]?, w.start + w.items.length ≤ P.size t

instance (ts : Array τ) (x : σ) : Decidable (P.Fits ts x) :=
  inferInstanceAs (Decidable (∀ w ∈ P.write? x, ∃ t ∈ ts[w.addr]?, _))

def place (ts : Array τ) (x : σ) : Array τ :=
  match P.write? x with
  | some w => ts.modify w.addr (P.put w.start w.items)
  | none => ts

variable {P} {ts : Array τ} {x y : σ} {n : Nat} {xs : List σ}

-- Nothing changes its size, so that it does not matter when segments are asked whether they fit.
theorem fits_place : P.Fits (P.place ts x) y ↔ P.Fits ts y := by
  have hsize (a : Nat) : (P.place ts x)[a]?.map P.size = ts[a]?.map P.size := by
    unfold place
    cases P.write? x with
    | none => rfl
    | some w =>
      rw [Array.getElem?_modify]
      split
      · cases ts[a]? <;> simp [P.size_put]
      · rfl
  refine forall₂_congr fun w _ ↦ ?_
  have hat (zs : Array τ) :
      (∃ t ∈ zs[w.addr]?, w.start + w.items.length ≤ P.size t) ↔
        ∃ k, zs[w.addr]?.map P.size = some k ∧ w.start + w.items.length ≤ k := by
    cases zs[w.addr]? <;> simp
  rw [hat, hat, hsize]

theorem fits_places : P.Fits (xs.foldl P.place ts) y ↔ P.Fits ts y := by
  induction xs generalizing ts with
  | nil => rfl
  | cons x xs ih => rw [List.foldl_cons, ih, fits_place]

/-- What `apply` does with a segment at its address, in the stores that tables or memories and the
contents of the segments from the address `n` on make up. -/
structure PerformedBy (P : Placement σ α κ τ) (apply : σ × Nat → Link Unit) (fault : LinkError)
    (n : Nat) (view : Array τ → List κ → Store) (x : σ) : Prop where
  ok : ∀ ts pre post, P.Fits ts x → apply (x, n + pre.length) (view ts (pre ++ P.held x :: post)) =
    .ok () (view (P.place ts x) (pre ++ P.left x :: post))
  fail : ∀ ts pre post, ¬ P.Fits ts x →
    apply (x, n + pre.length) (view ts (pre ++ P.held x :: post)) =
      .error (.failed fault) (view ts (pre ++ P.left x :: post))

variable {apply : σ × Nat → Link Unit} {fault : LinkError} {view : Array τ → List κ → Store}

theorem PerformedBy.of_none (hwrite : P.write? x = none)
    (h : ∀ ts pre post, apply (x, n + pre.length) (view ts (pre ++ P.held x :: post)) =
      .ok () (view ts (pre ++ P.left x :: post))) : P.PerformedBy apply fault n view x := by
  constructor
  · intro ts pre post _
    rw [place, hwrite]
    exact h ts pre post
  · intro ts pre post hfit
    apply absurd _ hfit
    intro w hw
    cases hwrite.symm.trans hw

theorem PerformedBy.of_some {w : Write α} (hwrite : P.write? x = some w)
    (hok : ∀ ts pre post t, ts[w.addr]? = some t → w.start + w.items.length ≤ P.size t →
      apply (x, n + pre.length) (view ts (pre ++ P.held x :: post)) =
        .ok () (view (ts.modify w.addr (P.put w.start w.items)) (pre ++ P.left x :: post)))
    (hfail : ∀ ts pre post,
      (¬ ∃ t, ts[w.addr]? = some t ∧ w.start + w.items.length ≤ P.size t) →
      apply (x, n + pre.length) (view ts (pre ++ P.held x :: post)) =
        .error (.failed fault) (view ts (pre ++ P.left x :: post))) :
    P.PerformedBy apply fault n view x := by
  constructor
  · intro ts pre post hfit
    obtain ⟨t, ht, hle⟩ := hfit w hwrite
    rw [place, hwrite]
    exact hok ts pre post t ht hle
  · intro ts pre post hfit
    apply hfail
    intro hw
    apply hfit
    intro w' hw'
    cases hwrite.symm.trans hw'
    exact hw

theorem forM_ok (hxs : ∀ x ∈ xs, P.PerformedBy apply fault n view x) (hfit : ∀ x ∈ xs, P.Fits ts x)
    (pre post : List κ) :
    (xs.zip (List.range' (n + pre.length) xs.length)).forM apply
      (view ts (pre ++ (xs.map P.held ++ post))) =
      .ok () (view (xs.foldl P.place ts) (pre ++ (xs.map P.left ++ post))) := by
  -- The segments before, which have been used, are in `pre`, so that the address tells their
  -- number.
  induction xs generalizing ts pre with
  | nil => rfl
  | cons x xs ih =>
    have hx := (hxs x (.head _)).ok ts pre (xs.map P.held ++ post) (hfit x (.head _))
    have hstill : ∀ y ∈ xs, P.Fits (P.place ts x) y :=
      fun y hy ↦ fits_place.mpr (hfit y (.tail _ hy))
    have hrest := ih (fun y hy ↦ hxs y (.tail _ hy)) hstill (pre ++ [P.left x])
    rw [List.length_append, List.length_singleton, List.append_assoc, List.append_assoc] at hrest
    rw [List.length_cons, List.range'_succ, List.zip_cons_cons, List.map_cons, List.cons_append,
      List.forM_eq_forM, List.forM_cons, Outcome.bind_apply, hx]
    exact hrest

/-- The first segment that does not fit is the last one that is used. -/
theorem forM_fail {before after : List σ}
    (hxs : ∀ y ∈ before ++ x :: after, P.PerformedBy apply fault n view y)
    (hfit : ∀ y ∈ before, P.Fits ts y) (hx : ¬ P.Fits ts x) :
    ((before ++ x :: after).zip (List.range' n (before ++ x :: after).length)).forM apply
      (view ts ((before ++ x :: after).map P.held)) =
      .error (.failed fault) (view (before.foldl P.place ts)
        (before.map P.left ++ P.left x :: after.map P.held)) := by
  have hbefore := forM_ok (fun y hy ↦ hxs y (List.mem_append_left _ hy)) hfit []
    (P.held x :: after.map P.held)
  have hfail := (hxs x (by simp)).fail (before.foldl P.place ts) (before.map P.left)
    (after.map P.held) (mt fits_places.mp hx)
  rw [List.forM_eq_forM, List.nil_append, List.nil_append, List.length_nil, Nat.add_zero] at hbefore
  rw [List.length_map] at hfail
  rw [List.length_append, List.length_cons, ← List.range'_append_1, List.zip_append (by simp),
    List.range'_succ, List.zip_cons_cons, List.forM_eq_forM, List.forM_append, Outcome.bind_apply,
    List.map_append, List.map_cons, hbefore]
  dsimp only
  rw [List.forM_cons, Outcome.bind_apply, hfail]

end Placement

def Store.noting (s : Store) (handle : Nat) (f : Instance → Instance) : Store :=
  { s with instances := s.instances.modify handle f }

theorem Store.instances_noting {s : Store} {handle : Nat} {inst : Instance}
    (h : s.instances[handle]? = some inst) (f : Instance → Instance) :
    (s.noting handle f).instances[handle]? = some (f inst) := by
  rw [noting, Array.getElem?_modify, if_pos rfl, h]
  rfl

namespace Link

variable {σ α β κ τ : Type} {xs : List σ} {s : Store} {handle n : Nat} {inst : Instance}

theorem getInstance_some (h : s.instances[handle]? = some inst) :
    getInstance handle s = .ok inst s := by
  simp only [getInstance, Outcome.bind_apply, Outcome.get_apply, Store.instance_, h]
  rfl

theorem modifyInstance_some (h : s.instances[handle]? = some inst) (f : Instance → Instance) :
    modifyInstance handle f s = .ok () (s.noting handle f) := by
  rw [modifyInstance, Outcome.bind_apply, getInstance_some h]
  rfl

theorem mapM_filterMap {f : σ → Link β} {g : σ → Option β}
    (h : ∀ x ∈ xs, ∃ y, g x = some y ∧ f x s = .ok y s) :
    xs.mapM f s = .ok (xs.filterMap g) s := by
  induction xs with
  | nil => rfl
  | cons x xs ih =>
    obtain ⟨y, hy, hx⟩ := h x (.head _)
    have hxs := ih fun z hz ↦ h z (.tail _ hz)
    rw [List.filterMap_cons_some hy, List.mapM_cons, Outcome.bind_apply, hx]
    dsimp only
    rw [Outcome.bind_apply, hxs]
    rfl

/-- What is added one after the other has consecutive addresses. -/
theorem mapM_range' {f : σ → Link Nat} {stores : List κ → Store} {held : σ → κ}
    (h : ∀ x ∈ xs, ∀ done, f x (stores done) = .ok (n + done.length) (stores (done ++ [held x])))
    (done : List κ) : xs.mapM f (stores done) =
      .ok (List.range' (n + done.length) xs.length) (stores (done ++ xs.map held)) := by
  induction xs generalizing done with
  | nil =>
    rw [List.map_nil, List.append_nil]
    rfl
  | cons x xs ih =>
    have hxs := ih (fun y hy ↦ h y (.tail _ hy)) (done ++ [held x])
    rw [List.length_append, List.length_singleton, List.append_assoc] at hxs
    rw [List.mapM_cons, Outcome.bind_apply, h x (.head _) done]
    dsimp only
    rw [Outcome.bind_apply, hxs]
    rfl

def install (define : σ → Link Nat) (note : List Nat → Instance → Instance)
    (apply : σ × Nat → Link Unit) (handle : Nat) (xs : List σ) : Link Unit := do
  let addrs ← xs.mapM define
  modifyInstance handle (note addrs)
  (xs.zip addrs).forM apply

/-- Segments are added to the store `s` at the addresses from `n` on, and then used. The stores on
the way are told by tables or memories, at first `ts`, and by the contents of the segments. -/
structure Installs (P : Placement σ α κ τ) (define : σ → Link Nat)
    (note : List Nat → Instance → Instance) (apply : σ × Nat → Link Unit) (fault : LinkError)
    (handle n : Nat) (stores : Store → Array τ → List κ → Store) (s : Store) (ts : Array τ)
    (xs : List σ) : Prop where
  blank : stores s ts [] = s
  added : ∀ x ∈ xs, ∀ done,
    define x (stores s ts done) = .ok (n + done.length) (stores s ts (done ++ [P.held x]))
  noted : ∀ segs, modifyInstance handle (note (List.range' n xs.length)) (stores s ts segs) =
    .ok () (stores (s.noting handle (note (List.range' n xs.length))) ts segs)
  used : ∀ x ∈ xs,
    P.PerformedBy apply fault n (stores (s.noting handle (note (List.range' n xs.length)))) x

namespace Installs

variable {P : Placement σ α κ τ} {define : σ → Link Nat} {note : List Nat → Instance → Instance}
  {apply : σ × Nat → Link Unit} {fault : LinkError} {stores : Store → Array τ → List κ → Store}
  {ts : Array τ} (h : Installs P define note apply fault handle n stores s ts xs)

include h

theorem install_apply : install define note apply handle xs s =
    (xs.zip (List.range' n xs.length)).forM apply
      (stores (s.noting handle (note (List.range' n xs.length))) ts (xs.map P.held)) := by
  have hadd := mapM_range' h.added []
  rw [h.blank, List.length_nil, Nat.add_zero, List.nil_append] at hadd
  rw [install, Outcome.bind_apply, hadd]
  dsimp only
  rw [Outcome.bind_apply, h.noted]

theorem install_ok (hfit : ∀ x ∈ xs, P.Fits ts x) : install define note apply handle xs s =
    .ok () (stores (s.noting handle (note (List.range' n xs.length))) (xs.foldl P.place ts)
      (xs.map P.left)) := by
  have hall := Placement.forM_ok h.used hfit [] []
  simp only [List.length_nil, List.nil_append, List.append_nil, Nat.add_zero] at hall
  rw [h.install_apply, hall]

theorem install_fail {before after : List σ} {x : σ} (hxs : xs = before ++ x :: after)
    (hfit : ∀ y ∈ before, P.Fits ts y) (hx : ¬ P.Fits ts x) :
    install define note apply handle xs s =
      .error (.failed fault) (stores (s.noting handle (note (List.range' n xs.length)))
        (before.foldl P.place ts) (before.map P.left ++ P.left x :: after.map P.held)) := by
  subst hxs
  rw [h.install_apply]
  exact Placement.forM_fail h.used hfit hx

end Installs

end Link

end Wasm
