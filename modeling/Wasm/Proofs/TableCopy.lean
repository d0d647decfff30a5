import Wasm.Proofs.Atomicity
import Wasm.Proofs.Machine.Operands

namespace Wasm

open Outcome

namespace Table

variable {elems vs : Array Value} {start : Nat}

theorem size_splice (h : start + vs.size ≤ elems.size) :
    (splice elems start vs).size = elems.size := by
  simp only [splice, Array.size_append, Array.size_extract]
  omega

theorem getElem?_splice (h : start + vs.size ≤ elems.size) (i : Nat) :
    (splice elems start vs)[i]? =
      if start ≤ i ∧ i < start + vs.size then vs[i - start]? else elems[i]? := by
  have hbefore : (elems.extract 0 start).size = start := by
    rw [Array.size_extract]
    omega
  rw [splice, Array.getElem?_append, Array.getElem?_append, Array.size_append, hbefore]
  -- A slot is before, within or behind the part that is replaced.
  rcases Nat.lt_or_ge i start with hlow | hlow
  · rw [if_pos (by omega), if_pos hlow, if_neg (by omega), Array.getElem?_extract,
      if_pos (by omega), Nat.zero_add]
  · rcases Nat.lt_or_ge i (start + vs.size) with hhigh | hhigh
    · rw [if_pos hhigh, if_neg (by omega), if_pos ⟨hlow, hhigh⟩]
    · have hshift : start + vs.size + (i - (start + vs.size)) = i := by omega
      rw [if_neg (by omega), if_neg (by omega), Array.getElem?_extract, hshift, Nat.min_self]
      split
      · rfl
      · exact (Array.getElem?_eq_none (by omega)).symm

theorem size_extract {t : Table} {len : Nat} (h : start + len ≤ t.size) :
    (t.elems.extract start (start + len)).size = len := by
  rw [Array.size_extract]
  exact Nat.sub_eq_of_eq_add' (Nat.min_eq_left h)

theorem slice_apply (start len : Nat) (t : Table) : slice start len t =
    if start + len ≤ t.size then .ok (t.elems.extract start (start + len)) t
    else .error .tableOutOfBounds t := by
  simp only [slice, bind_apply, check, InBounds]
  by_cases h : start + len ≤ t.size
  · simp only [h, if_true]
    rfl
  · simp only [h, if_false]

def spliced (t : Table) (start : Nat) (vs : Array Value) : Table :=
  ⟨t.type, splice t.elems start vs⟩

theorem init_all_apply (dst : Nat) (vs : Array Value) (t : Table) : init dst vs 0 vs.size t =
    if dst + vs.size ≤ t.size then .ok () (t.spliced dst vs) else .error .tableOutOfBounds t := by
  have hall : ¬ vs.size < 0 + vs.size := by omega
  simp only [init, hall, if_false, bind_apply, check, InBounds]
  by_cases h : dst + vs.size ≤ t.size
  · simp only [h, if_true, modify_apply, Nat.zero_add, Array.extract_size, spliced]
  · simp only [h, if_false]

theorem copy_apply (dst src len : Nat) (t : Table) : copy dst src len t =
    if src + len ≤ t.size then
      if dst + len ≤ t.size then .ok () (t.spliced dst (t.elems.extract src (src + len)))
      else .error .tableOutOfBounds t
    else .error .tableOutOfBounds t := by
  simp only [copy, bind_apply, check, InBounds]
  by_cases hsrc : src + len ≤ t.size
  · by_cases hdst : dst + len ≤ t.size
    · simp only [hsrc, hdst, if_true, modify_apply, spliced]
    · simp only [hsrc, hdst, if_true, if_false]
  · simp only [hsrc, if_false]

end Table

namespace Heap

variable {h : Heap} {a b : Nat} {t u : Table}

/-- What a slot of a table holds, if there is such a slot. -/
def slot? (h : Heap) (a i : Nat) : Option Value := do
  (← h.tables[a]?).elems[i]?

def withTable (h : Heap) (a : Nat) (t : Table) : Heap :=
  { h with tables := h.tables.setIfInBounds a t }

/-- A heap in which the slots of the table `a` from `d` on, `n` of them, have got what those of the
table `b` from `s` on held, and nothing else has changed. -/
structure Copied (h : Heap) (a b d s n : Nat) (h' : Heap) : Prop where
  rest : h' = { h with tables := h'.tables }
  count : h'.tables.size = h.tables.size
  type : ∀ c : Nat, h'.tables[c]?.map Table.type = h.tables[c]?.map Table.type
  size : ∀ c : Nat, h'.tables[c]?.map Table.size = h.tables[c]?.map Table.size
  inside : ∀ j < n, h'.slot? a (d + j) = h.slot? b (s + j)
  outside : ∀ c i, (c = a → i < d ∨ d + n ≤ i) → h'.slot? c i = h.slot? c i

/-- What is copied within a table might as well be put into a buffer first. -/
theorem copyTable_eq_init (a b d s n : Nat) : copyTable a b d s n =
    (onTable b (Table.slice s n) >>= fun vs ↦ onTable a (Table.init d vs 0 n)) := by
  by_cases hab : a = b
  · subst hab
    funext h
    rw [copyTable, if_pos rfl]
    simp only [bind_apply, onTable_apply]
    cases ht : h.tables[a]? with
    | none => rfl
    | some t =>
      simp only [Table.copy_apply, Table.slice_apply]
      by_cases hs : s + n ≤ t.size
      · have hsize : (t.elems.extract s (s + n)).size = n := Table.size_extract hs
        have hinit := Table.init_all_apply d (t.elems.extract s (s + n)) t
        rw [hsize] at hinit
        simp only [hs, if_true, setIfInBounds_of_getElem? ht, ht, hinit]
      · simp only [hs, if_false]
  · rw [copyTable, if_neg hab]

theorem copyTable_apply (ha : h.tables[a]? = some t) (hb : h.tables[b]? = some u) (d s n : Nat) :
    copyTable a b d s n h =
      if s + n ≤ u.size ∧ d + n ≤ t.size then
        .ok () (h.withTable a (t.spliced d (u.elems.extract s (s + n))))
      else .error .tableOutOfBounds h := by
  simp only [copyTable_eq_init, bind_apply, onTable_apply, hb, Table.slice_apply]
  by_cases hs : s + n ≤ u.size
  · have hinit := Table.init_all_apply d (u.elems.extract s (s + n)) t
    rw [Table.size_extract hs] at hinit
    by_cases hd : d + n ≤ t.size
    · simp only [hs, hd, and_self, if_true, setIfInBounds_of_getElem? hb, ha, hinit, withTable]
    · simp only [hs, hd, and_false, if_true, if_false, setIfInBounds_of_getElem? hb, ha, hinit,
        setIfInBounds_of_getElem? ha]
  · simp only [hs, false_and, if_false, setIfInBounds_of_getElem? hb]

theorem slot?_of_table (ha : h.tables[a]? = some t) (i : Nat) : h.slot? a i = t.elems[i]? := by
  rw [slot?, ha]
  rfl

theorem slot?_withTable {t' : Table} (ha : h.tables[a]? = some t) (c i : Nat) :
    (h.withTable a t').slot? c i =
      if c = a then t'.elems[i]? else h.slot? c i := by
  have hlt := (Array.getElem?_eq_some_iff.mp ha).1
  by_cases hc : a = c
  · subst hc
    simp [slot?, withTable, hlt]
  · simp [slot?, withTable, hc, Ne.symm hc]

theorem map_withTable {β : Type} {f : Table → β} {t' : Table} (ha : h.tables[a]? = some t)
    (hf : f t' = f t) (c : Nat) : (h.withTable a t').tables[c]?.map f = h.tables[c]?.map f := by
  obtain ⟨hlt, rfl⟩ := Array.getElem?_eq_some_iff.mp ha
  by_cases hc : a = c
  · subst hc
    simp [withTable, hlt, hf]
  · simp [withTable, hc]

theorem copied_spliced (ha : h.tables[a]? = some t) (hb : h.tables[b]? = some u) {d s n : Nat}
    (hs : s + n ≤ u.size) (hd : d + n ≤ t.size) :
    h.Copied a b d s n (h.withTable a (t.spliced d (u.elems.extract s (s + n)))) := by
  have hlen := Table.size_extract hs
  have hfit : d + (u.elems.extract s (s + n)).size ≤ t.elems.size := by rwa [hlen]
  refine ⟨rfl, Array.size_setIfInBounds, map_withTable ha rfl,
    map_withTable ha (Table.size_splice hfit), ?_, ?_⟩
  · intro j hj
    rw [slot?_withTable ha, if_pos rfl, slot?_of_table hb, Table.spliced,
      Table.getElem?_splice hfit, if_pos (by omega), Nat.add_sub_cancel_left,
      Array.getElem?_extract, if_pos]
    have hle : s + n ≤ u.elems.size := hs
    omega
  · intro c i hi
    rw [slot?_withTable ha]
    split
    · rename_i hc
      have hout := hi hc
      rw [Table.spliced, Table.getElem?_splice hfit, if_neg (by omega), hc, slot?_of_table ha]
    · rfl

end Heap

namespace Machine

open Stack

variable {m : Machine} {dst src : Idx} {a b length : Nat} {t u : Table} {d s n : BitVec 32}

/-- The table of the current frame with the index `i` is the one at address `a`. -/
structure HasTable (m : Machine) (i : Idx) (a : Nat) (t : Table) : Prop where
  addr : tableAddr i m = .ok a m
  table : m.store.heap.tables[a]? = some t

theorem exec_tableCopy (hdst : m.HasTable dst a t) (hsrc : m.HasTable src b u) :
    exec length (.tableCopy dst src) (((m.pushed (.i32 d)).pushed (.i32 s)).pushed (.i32 n)) =
      match Heap.copyTable a b d.toNat s.toNat n.toNat m.store.heap with
      | .ok _ h => .ok .next { m with store.heap := h }
      | .error e h => .error e { m with store.heap := h } := by
  change ((onStack popNat >>= fun n ↦ onStack popNat >>= fun s ↦ onStack popNat >>= fun d ↦
    tableAddr dst >>= fun a ↦ tableAddr src >>= fun b ↦ onHeap (Heap.copyTable a b d s n)) >>=
      fun _ ↦ pure Flow.next) _ = _
  simp only [bind_apply, onStack_popNat_pushed, hdst.addr, hsrc.addr, onHeap_apply]
  cases Heap.copyTable a b d.toNat s.toNat n.toNat m.store.heap <;> rfl

/-- A copy traps if and only if one of its ranges ends beyond its table, and then changes nothing.
Otherwise the slots from `d` on get what those from `s` on held before, also where both are slots of
the same table, whether under one index or two, and no other slot of any table changes. -/
theorem table_copy (hdst : m.HasTable dst a t) (hsrc : m.HasTable src b u) (d s n : BitVec 32)
    (length : Nat) :
    let r := exec length (.tableCopy dst src)
      (((m.pushed (.i32 d)).pushed (.i32 s)).pushed (.i32 n))
    if u.size < s.toNat + n.toNat ∨ t.size < d.toNat + n.toNat then r = .error .tableOutOfBounds m
    else ∃ h, r = .ok .next { m with store.heap := h } ∧
      m.store.heap.Copied a b d.toNat s.toNat n.toNat h := by
  intro r
  have hr : r = _ := exec_tableCopy hdst hsrc
  rw [Heap.copyTable_apply hdst.table hsrc.table] at hr
  split
  · rename_i hout
    rw [hr, if_neg (by omega)]
  · rename_i hin
    have hs : s.toNat + n.toNat ≤ u.size := by omega
    have hd : d.toNat + n.toNat ≤ t.size := by omega
    rw [if_pos ⟨hs, hd⟩] at hr
    exact ⟨_, hr, Heap.copied_spliced hdst.table hsrc.table hs hd⟩

def twoNames : Machine where
  store.instances := #[{ tables := #[0, 0] }]
  store.heap.tables := #[⟨⟨.funcref, ⟨4, none⟩⟩, #[.funcref (some 7), .funcref (some 8),
    .funcref (some 9), .funcref none]⟩]
  stack.entries := #[.frame ⟨0, some 0, #[], 0, 0, #[]⟩]
  stack.frames := #[0]
  stack.limit := 4

theorem table_copy_twoNames : ∃ h,
    exec 1 (.tableCopy 1 0) (((twoNames.pushed (.i32 1)).pushed (.i32 0)).pushed (.i32 3)) =
      .ok .next { twoNames with store.heap := h } ∧
    h.slot? 0 0 = some (.funcref (some 7)) ∧ h.slot? 0 1 = some (.funcref (some 7)) ∧
    h.slot? 0 2 = some (.funcref (some 8)) ∧ h.slot? 0 3 = some (.funcref (some 9)) := by
  have hdst : twoNames.HasTable 1 0 _ := ⟨rfl, rfl⟩
  have hsrc : twoNames.HasTable 0 0 _ := ⟨rfl, rfl⟩
  obtain ⟨h, hexec, hcopied⟩ := table_copy hdst hsrc 1 0 3 1
  exact ⟨h, hexec, hcopied.outside 0 0 (by decide), hcopied.inside 0 (by decide),
    hcopied.inside 1 (by decide), hcopied.inside 2 (by decide)⟩

end Machine

end Wasm
