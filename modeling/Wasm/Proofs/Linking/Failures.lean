import Wasm.Proofs.Policy.Instantiate
import Wasm.Proofs.Linking.Definitions
import Wasm.Proofs.Linking.Placement
import Wasm.Proofs.Results

namespace Wasm

open Outcome

def Store.Allocates (s s' : Store) : Prop :=
  ∃ (funcs : Array FuncInst) (tables : Array Table) (memories : Array Memory)
    (globals : Array Global), s' = { s with
      funcs := s.funcs ++ funcs
      heap := { s.heap with
        tables := s.heap.tables ++ tables
        memories := s.heap.memories ++ memories
        globals := s.heap.globals ++ globals } }

instance : IsPreorder Store Store.Allocates where
  refl s := ⟨#[], #[], #[], #[], by simp⟩
  trans s s' s'' := by
    rintro ⟨fs, ts, ms, gs, rfl⟩ ⟨fs', ts', ms', gs', rfl⟩
    exact ⟨fs ++ fs', ts ++ ts', ms ++ ms', gs ++ gs', by simp [Array.append_assoc]⟩

def Store.Anyhow (_ _ : Store) : Prop := True

instance : IsPreorder Store Store.Anyhow where
  refl _ := trivial
  trans _ _ _ _ _ := trivial

namespace Link

variable {α β ε : Type} {callHost : HostCall} {fuel : Nat} {m : Module} {r : Host.Resolver}
  {s s' : Store} {x : Stop LinkError}

theorem allocates_define (handle : Nat) :
    Adheres Store.Allocates Stop.Early (define m r handle) := by
  apply adheres_define
  · intro s f
    exact ⟨#[f], #[], #[], #[], by simp [Store.allocFunc]⟩
  · intro s t
    exact ⟨#[], #[t], #[], #[], by simp [Store.allocTable]⟩
  · intro s mem
    exact ⟨#[], #[], #[mem], #[], by simp [Store.allocMemory]⟩
  · intro s g
    exact ⟨#[], #[], #[], #[g], by simp [Store.allocGlobal]⟩

/-- The instance is there to be filled in once everything is defined, so that nothing but the
definitions can fail. -/
theorem outlined_error (h : outlined m r s = .error x s') :
    x.Early ∧ (s.allocInstance { mod := m }).2.Allocates s' := by
  obtain ⟨⟨⟩⟩ | ⟨handle, s₁, ⟨⟩, hrest⟩ := bind_error h
  have hdefine := @allocates_define m r s.instances.size
  rcases bind_error hrest with hfails | ⟨inst, s₂, hinst, hfill⟩
  · exact hdefine.error hfails
  · have hblank : s₂.instances[s.instances.size]? = some { mod := m } := by
      obtain ⟨fs, ts, ms, gs, rfl⟩ := hdefine.respects.ok hinst
      exact Array.getElem?_push_size
    rw [bind_apply, modifyInstance_some hblank] at hfill
    cases hfill

theorem stop_late {e : LinkError} (he : e.early = false) : ¬ Stop.Early (.failed e) := by
  rintro ⟨_, ⟨⟩, h⟩
  rw [he] at h
  cases h

theorem late_mapError {f : ε → LinkError} (hf : ∀ e, (f e).early = false)
    (op : Action ε α) : Adheres Store.Anyhow (¬ ·.Early) (Stop.mapError f op) := by
  refine ⟨fun _ ↦ trivial, fun s x s' h ↦ ?_⟩
  unfold Stop.mapError at h
  cases hop : op s with
  | ok a s₁ =>
    rw [hop] at h
    cases h
  | error y s₁ =>
    rw [hop] at h
    cases y with
    | failed e =>
      cases h
      exact stop_late (hf e)
    | outOfFuel =>
      cases h
      rintro ⟨e, ⟨⟩, -⟩

theorem late_lookup {site : Site} (hsite : site ∉ [Site.importType, .funcType])
    (x : Except Trap α) : Adheres Store.Anyhow (¬ ·.Early) (lookup site x) := by
  cases x with
  | ok a => exact .pure a
  | error t =>
    apply Adheres.throw
    apply stop_late
    cases t with
    | indexOutOfRange space i => exact decide_eq_false hsite
    | _ => rfl

theorem late_getInstance (i : Nat) : Adheres Store.Anyhow (¬ ·.Early) (getInstance i) := by
  apply Adheres.get.bind
  intro s
  cases s.instance_ i with
  | ok inst => exact .pure inst
  | error t => exact .throw (stop_late rfl)

theorem late_modifyInstance (i : Nat) (f : Instance → Instance) :
    Adheres Store.Anyhow (¬ ·.Early) (modifyInstance i f) :=
  (late_getInstance i).bind fun _ ↦ ⟨fun _ ↦ trivial, by rintro s _ _ ⟨⟩⟩

theorem late_alloc (op : Store → Nat × Store) : Adheres Store.Anyhow (¬ ·.Early) (alloc op) :=
  adheres_alloc fun _ ↦ trivial

theorem late_evalOffset (handle : Nat) {site : Site}
    (hsite : ∀ found, (LinkError.typeMismatch site (.value .i32) found).early = false)
    (code : Code) :
    Adheres Store.Anyhow (¬ ·.Early) (evalOffset (.machine callHost fuel) handle site code) := by
  apply (late_mapError (fun _ ↦ rfl) _).bind
  intro v
  cases v.i32? with
  | some n => exact .pure _
  | none => exact .throw (stop_late (hsite _))

theorem late_defineGlobal (handle : Nat) (g : GlobalDef) :
    Adheres Store.Anyhow (¬ ·.Early) (defineGlobal (.machine callHost fuel) handle g) := by
  apply (late_mapError (fun _ ↦ rfl) _).bind
  intro v
  apply adheres_unless (stop_late rfl)
  exact (late_alloc _).bind fun _ ↦ late_modifyInstance handle _

theorem late_defineElem (handle : Nat) (e : ElemSegment) :
    Adheres Store.Anyhow (¬ ·.Early) (defineElem (.machine callHost fuel) handle e) := by
  refine .bind ?_ fun refs ↦ late_alloc _
  cases e.items with
  | funcs is =>
    apply (late_getInstance handle).bind
    intro inst
    exact .mapM (fun i ↦ (late_lookup (by decide) _).bind fun _ ↦ .pure _) is
  | exprs es => exact .mapM (fun code ↦ late_mapError (fun _ ↦ rfl) _) es

theorem late_applyElem (handle : Nat) (e : ElemSegment × Nat) :
    Adheres Store.Anyhow (¬ ·.Early) (applyElem (.machine callHost fuel) handle e) := by
  unfold applyElem
  have hdrop : Adheres Store.Anyhow (¬ ·.Early)
      (onHeap (outOfBounds .elemSegment) (Heap.dropElem e.2)) := by
    refine late_mapError (fun t ↦ ?_) _
    cases t <;> rfl
  cases e.1.mode with
  | passive => exact .pure _
  | declarative => exact hdrop.bind fun _ ↦ .pure _
  | active table offset =>
    apply (late_evalOffset handle (fun _ ↦ rfl) offset).bind
    intro dst
    apply (late_getInstance handle).bind
    intro inst
    apply (late_lookup (by decide) _).bind
    intro addr
    exact hdrop.bind fun refs ↦ late_mapError (fun _ ↦ rfl) _

theorem late_applyData (handle : Nat) (d : DataSegment × Nat) :
    Adheres Store.Anyhow (¬ ·.Early) (applyData (.machine callHost fuel) handle d) := by
  unfold applyData
  cases d.1.mode with
  | passive => exact .pure _
  | active memory offset =>
    apply (late_evalOffset handle (fun _ ↦ rfl) offset).bind
    intro dst
    apply (late_getInstance handle).bind
    intro inst
    apply (late_lookup (by decide) _).bind
    intro addr
    refine .bind (late_mapError (fun t ↦ ?_) _) fun bytes ↦ late_mapError (fun _ ↦ rfl) _
    cases t <;> rfl

def Continues (m : Module) (r : Host.Resolver) (op : Link α) : Prop :=
  ∃ k : Nat → Link α, op = outlined m r >>= k ∧
    ∀ handle, Adheres Store.Anyhow (¬ ·.Early) (k handle)

theorem Continues.bind {op : Link α} {k : α → Link β} (h : Continues m r op)
    (hk : ∀ a, Adheres Store.Anyhow (¬ ·.Early) (k a)) : Continues m r (op >>= k) := by
  obtain ⟨k', rfl, hk'⟩ := h
  exact ⟨fun handle ↦ k' handle >>= k, bind_assoc _ _ _, fun handle ↦ (hk' handle).bind hk⟩

variable (callHost fuel m r)

theorem continues_withGlobals : Continues m r (withGlobals callHost fuel m r) :=
  ⟨_, rfl, fun handle ↦ (Adheres.forM (late_defineGlobal handle) _).bind fun _ ↦ .pure _⟩

theorem continues_withElems : Continues m r (withElems callHost fuel m r) := by
  apply (continues_withGlobals callHost fuel m r).bind
  intro handle
  apply (Adheres.mapM (late_defineElem handle) _).bind
  intro elems
  exact (late_modifyInstance handle _).bind fun _ ↦ .pure _

theorem continues_elemsUsed : Continues m r (elemsUsed callHost fuel m r) := by
  apply (continues_withElems callHost fuel m r).bind
  rintro ⟨handle, elems⟩
  exact (Adheres.forM (late_applyElem handle) _).bind fun _ ↦ .pure _

theorem continues_withDatas : Continues m r (withDatas callHost fuel m r) := by
  apply (continues_elemsUsed callHost fuel m r).bind
  intro handle
  apply (Adheres.mapM (fun d : DataSegment ↦ late_alloc _) _).bind
  intro datas
  exact (late_modifyInstance handle _).bind fun _ ↦ .pure _

theorem continues_datasUsed : Continues m r (datasUsed callHost fuel m r) := by
  apply (continues_withDatas callHost fuel m r).bind
  rintro ⟨handle, datas⟩
  exact (Adheres.forM (late_applyData handle) _).bind fun _ ↦ .pure _

theorem continues_ready : Continues m r (ready callHost fuel m r) := by
  apply (continues_datasUsed callHost fuel m r).bind
  intro handle
  apply (late_getInstance handle).bind
  intro inst
  refine .bind (.foldlM (fun found e ↦ ?_) _ _) fun exports ↦
    (late_modifyInstance handle _).bind fun _ ↦ .pure _
  exact (late_lookup (by decide) _).bind fun _ ↦ .pure _

theorem continues_instantiate : Continues m r (instantiate callHost fuel m r) := by
  rw [instantiate_eq]
  apply (continues_ready callHost fuel m r).bind
  intro handle
  cases m.start with
  | none => exact .pure _
  | some f =>
    refine .bind (.bind (late_getInstance handle) fun inst ↦ ?_) fun _ ↦ .pure _
    apply (late_lookup (by decide) _).bind
    intro addr
    exact (late_mapError (fun _ ↦ rfl) _).bind fun _ ↦ .pure _

end Link

namespace Engine

open Link

/-- The failures of imports and definitions are told from later ones by what they say. After such a
failure the store has one more instance, with no address in it, and possibly more functions, tables,
memories and globals; the rest of it, what earlier instances export in particular, is as before. -/
theorem instantiate_early (fuel : Nat) (m : Module) (r : Host.Resolver) (s s' : Store)
    (x : Stop LinkError) :
    (outlined m r s = .error x s' ↔ instantiate fuel m r s = .error x s' ∧ x.Early) ∧
    (outlined m r s = .error x s' →
      (∃ (funcs : Array FuncInst) (tables : Array Table) (memories : Array Memory)
        (globals : Array Global), s' = { s with
          instances := s.instances.push { mod := m }
          funcs := s.funcs ++ funcs
          heap := { s.heap with
            tables := s.heap.tables ++ tables
            memories := s.heap.memories ++ memories
            globals := s.heap.globals ++ globals } }) ∧
      ∀ i < s.instances.size, ∀ name, s'.export? i name = s.export? i name) := by
  obtain ⟨k, hk, hlate⟩ := continues_instantiate (hostCall fuel fuel) fuel m r
  refine ⟨⟨fun h ↦ ⟨?_, (outlined_error h).1⟩, fun h ↦ ?_⟩, fun h ↦ ?_⟩
  · rw [instantiate, hk, bind_apply, h]
  · -- What fails after imports and definitions fails in another way.
    obtain ⟨hfails, hearly⟩ := h
    rw [instantiate, hk] at hfails
    rcases bind_error hfails with hout | ⟨handle, s₁, -, hrest⟩
    · exact hout
    · exact absurd hearly ((hlate handle).fails _ _ _ hrest)
  · obtain ⟨-, funcs, tables, memories, globals, rfl⟩ := outlined_error h
    refine ⟨⟨funcs, tables, memories, globals, rfl⟩, fun i hi name ↦ ?_⟩
    simp only [Store.export?, Store.allocInstance, Array.getElem?_push_lt hi,
      Array.getElem?_eq_getElem hi]

/-- The first two imports are supplied; the table that is supplied for the third is too small. -/
def demanding : Module where
  types := [⟨[], []⟩]
  imports := [⟨"h", "f", .func 0⟩, ⟨"h", "g", .global ⟨.i32, false⟩⟩,
    ⟨"h", "t", .table ⟨.funcref, ⟨2, none⟩⟩⟩]
  imported := { funcs := 1, tables := 1, globals := 1 }

def shortSupply : Host.Resolver where
  func _ _ type := some ⟨type, fun _ ↦ .finish (.ok [])⟩
  table _ _ _ := some 0
  memory _ _ _ := none
  global _ _ _ := some (.i32 7)

def oneSlot : Store where
  instances := #[{ tables := #[0], exports := [("t", ⟨.table, 0⟩)] }]
  heap := { tables := #[.create ⟨.funcref, ⟨1, none⟩⟩] }

theorem instantiate_early_demanding : ∃ s',
    instantiate 0 demanding shortSupply oneSlot =
      .error (.failed (.typeMismatch .tableImportLimits (.atLeast 2) (.size 1))) s' ∧
    s'.export? 0 "t" = some ⟨.table, 0⟩ ∧ s'.instances.size = 2 ∧ s'.funcs.size = 1 ∧
    s'.heap.globals.map (·.value) = #[.i32 7] := by
  obtain ⟨hiff, hstore⟩ := instantiate_early 0 demanding shortSupply oneSlot
    (Outcome.final (outlined demanding shortSupply oneSlot))
    (.failed (.typeMismatch .tableImportLimits (.atLeast 2) (.size 1)))
  obtain ⟨hfails, -⟩ := hiff.mp rfl
  obtain ⟨-, hexports⟩ := hstore rfl
  refine ⟨_, hfails, ?_, ?_, ?_, ?_⟩
  · rw [hexports 0 (by decide)]
    decide
  · decide +kernel
  · decide +kernel
  · decide +kernel

end Engine

end Wasm
