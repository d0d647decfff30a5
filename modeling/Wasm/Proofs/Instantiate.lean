import Wasm.Proofs.Machine.Runs
import Wasm.Link.Instantiate

namespace Wasm

def Host.Supply.Within (M : Module → Prop) (T : Trap → Prop) (r : Host.Resolver) : Prop :=
  ∀ source name type f, r.func source name type = some f → ∀ args, (f.run args).Within M T

def LinkError.Within (T : Trap → Prop) (e : LinkError) : Prop :=
  ∀ t, e.trap? = some t → T t

namespace Link

open Wasm.Action

variable {α : Type} {M : Module → Prop} {T : Trap → Prop} {callHost : HostCall} {fuel handle : Nat}
  {m : Module}

theorem keeps_fail {e : LinkError} (he : e.trap? = none) :
    Keeps M T (LinkError.Within T) (fail e : Link α) := by
  refine .fail ?_
  intro t ht
  rw [he] at ht
  cases ht

theorem keeps_require {β : Type} {e : LinkError} {x : Option α} {k : α → Link β}
    (he : e.trap? = none) (hk : ∀ a, x = some a → Keeps M T (LinkError.Within T) (k a)) :
    Keeps M T (LinkError.Within T) (require e x >>= k) := by
  cases x with
  | some a => exact hk a rfl
  | none => exact (keeps_fail he : Keeps M T _ (fail e : Link β))

theorem keeps_unless {c : Prop} [Decidable c] {e : LinkError} {k : PUnit → Link α}
    (he : e.trap? = none) (hk : Keeps M T (LinkError.Within T) (k ⟨⟩)) :
    Keeps M T (LinkError.Within T) (if c then fail e >>= k else k ⟨⟩) := by
  split
  · exact (keeps_fail he).bind fun _ ↦ hk
  · exact hk

theorem outOfBounds_within {t : Trap} (ht : T t) (site : Site) :
    (outOfBounds site t).Within T := by
  intro u hu
  cases t <;> cases hu <;> exact ht

theorem error_of_map {β : Type} {f : α → β} {r : Except Trap α} {t : Trap}
    (h : f <$> r = .error t) : r = .error t := by
  cases r with
  | ok a => cases h
  | error u =>
    cases h
    rfl

theorem keeps_lookup {site : Site} {r : Except Trap α} (hr : ∀ t, r = .error t → T t) :
    Keeps M T (LinkError.Within T) (lookup site r) := by
  refine .check ?_
  intro e he
  cases r with
  | ok a => cases he
  | error t =>
    cases he
    exact outOfBounds_within (hr t rfl) site

theorem onHeap_apply (fault : Trap → LinkError) (op : HeapM α) (s : Store) : onHeap fault op s =
    match op s.heap with
    | .ok a heap => .ok a { s with heap := heap }
    | .error t heap => .error (.failed (fault t)) { s with heap := heap } := by
  simp only [onHeap, Stop.mapError, Stop.lift, Store.onHeap]
  cases op s.heap <;> rfl

theorem keeps_onHeap {fault : Trap → LinkError} {op : HeapM α} (hop : Ordinary op)
    (hf : ∀ t, t.bracketing = false → (fault t).Within T) :
    Keeps M T (LinkError.Within T) (onHeap fault op) := by
  intro s hs
  rw [onHeap_apply]
  cases h : op s.heap with
  | ok a heap => exact .ok (hs.same rfl rfl)
  | error t heap => exact .failed (hs.same rfl rfl) (hf t (hop _ _ _ h))

/-- Adding something that is not a function or an instance. -/
theorem keeps_alloc {op : Store → Nat × Store} (hf : ∀ s, (op s).2.funcs = s.funcs)
    (hi : ∀ s, (op s).2.instances = s.instances) :
    Keeps M T (LinkError.Within T) (alloc op) :=
  .modifyGet fun s hs ↦ hs.same (hf s) (hi s)

end Link

theorem Store.Sound.allocFunc {M : Module → Prop} {T : Trap → Prop} {s : Store} (hs : s.Sound M T)
    {g : FuncInst} (hg : ∀ f, g = .host f → ∀ args, (f.run args).Within M T) :
    Store.Kept M T s (s.allocFunc g).2 := by
  refine ⟨⟨hs.mods, ?_⟩, ?_, fun i inst h ↦ ⟨inst, h, rfl⟩⟩
  · intro i f hf
    simp only [Store.allocFunc, Array.getElem?_push] at hf
    split at hf
    · cases hf
      exact hg f rfl
    · exact hs.hosts i f hf
  · intro i f hf
    simp only [Store.allocFunc, Array.getElem?_push]
    split
    · rename_i heq
      subst heq
      simp at hf
    · exact hf

theorem Store.Sound.allocInstance {M : Module → Prop} {T : Trap → Prop} {s : Store}
    (hs : s.Sound M T) {inst : Instance} (hm : M inst.mod) :
    Store.Kept M T s (s.allocInstance inst).2 := by
  refine ⟨⟨?_, hs.hosts⟩, fun i f h ↦ h, ?_⟩
  · intro i owner ho
    simp only [Store.allocInstance, Array.getElem?_push] at ho
    split at ho
    · cases ho
      exact hm
    · exact hs.mods i owner ho
  · intro i owner ho
    refine ⟨owner, ?_, rfl⟩
    simp only [Store.allocInstance, Array.getElem?_push]
    split
    · rename_i heq
      subst heq
      simp at ho
    · exact ho

/-- An instance may change in all but its module. -/
theorem Store.Sound.modifyInstance {M : Module → Prop} {T : Trap → Prop} {s : Store}
    (hs : s.Sound M T) (i : Nat) {f : Instance → Instance} (hf : ∀ inst, (f inst).mod = inst.mod) :
    Store.Kept M T s { s with instances := s.instances.modify i f } := by
  refine ⟨⟨?_, hs.hosts⟩, fun i f h ↦ h, ?_⟩
  · intro j owner ho
    rw [Array.getElem?_modify] at ho
    split at ho
    · obtain ⟨owner', ho', rfl⟩ := Option.map_eq_some_iff.mp ho
      rw [hf]
      exact hs.mods j owner' ho'
    · exact hs.mods j owner ho
  · intro j owner ho
    rw [Array.getElem?_modify]
    split
    · exact ⟨f owner, by rw [ho]; rfl, hf owner⟩
    · exact ⟨owner, ho, rfl⟩

namespace Link

open Wasm.Action

variable {M : Module → Prop} {T : Trap → Prop} {callHost : HostCall} {fuel handle : Nat}
  {m : Module}

theorem keeps_getInstance (hT : ∀ t, t.bracketing = false → T t) (i : Nat) :
    Keeps M T (LinkError.Within T) (getInstance i) := by
  refine Keeps.get.bind fun s ↦ .check ?_
  intro e he
  unfold Store.instance_ at he
  split at he
  · cases he
  · cases he
    rintro t ⟨⟩
    exact hT _ rfl

theorem keeps_modifyInstance (hT : ∀ t, t.bracketing = false → T t) (i : Nat)
    {f : Instance → Instance} (hf : ∀ inst, (f inst).mod = inst.mod) :
    Keeps M T (LinkError.Within T) (modifyInstance i f) :=
  (keeps_getInstance hT i).bind fun _ ↦ .modifyGet fun _ hs ↦ hs.modifyInstance i hf

theorem keeps_bindImport {r : Host.Resolver} (hr : r.Within M T) (inst : Instance) (i : Import) :
    Keeps M T (LinkError.Within T) (bindImport m r inst i) := by
  unfold bindImport
  split
  · refine keeps_require rfl fun type _ ↦ keeps_require rfl fun f hf ↦ keeps_unless rfl ?_
    refine Keeps.bind (.modifyGet fun s hs ↦ hs.allocFunc ?_) fun _ ↦ .pure _
    rintro g ⟨⟩
    exact hr i.source i.name type f hf
  · refine keeps_require rfl fun addr _ ↦ Keeps.get.bind fun s ↦ keeps_require rfl fun t _ ↦ ?_
    exact keeps_unless rfl (keeps_unless rfl (.pure _))
  · refine keeps_require rfl fun addr _ ↦ Keeps.get.bind fun s ↦ keeps_require rfl fun t _ ↦ ?_
    exact keeps_unless rfl (.pure _)
  · refine keeps_require rfl fun v _ ↦ keeps_unless rfl ?_
    exact (keeps_alloc (fun _ ↦ rfl) (fun _ ↦ rfl)).bind fun _ ↦ .pure _

theorem keeps_define {r : Host.Resolver} (hr : r.Within M T) :
    Keeps M T (LinkError.Within T) (define m r handle) := by
  refine (Keeps.foldlM (fun i _ inst ↦ keeps_bindImport hr inst i) _).bind fun inst ↦ ?_
  refine (Keeps.foldlM ?_ _).bind fun inst ↦ ?_
  · intro f _ inst
    refine keeps_require rfl fun type _ ↦ Keeps.bind (.modifyGet ?_) fun _ ↦ .pure _
    intro s hs
    exact hs.allocFunc nofun
  refine (Keeps.foldlM ?_ _).bind fun inst ↦ Keeps.foldlM ?_ _
  · intro type _ inst
    refine Keeps.get.bind fun s ↦ keeps_unless rfl (keeps_require rfl fun t _ ↦ ?_)
    exact (keeps_alloc (fun _ ↦ rfl) (fun _ ↦ rfl)).bind fun _ ↦ .pure _
  · intro type _ inst
    refine Keeps.get.bind fun s ↦ keeps_unless rfl (keeps_require rfl fun m _ ↦ ?_)
    exact (keeps_alloc (fun _ ↦ rfl) (fun _ ↦ rfl)).bind fun _ ↦ .pure _

section Code

variable (hM : ∀ m, M m → m.Bracketed) (hT : ∀ t, t.bracketing = false → T t)
  (hh : callHost.Honest M T)

include hM hT hh

theorem keeps_eval {code : Code} (hw : code.WellBracketed) (site : Site) :
    Keeps M T (LinkError.Within T) (eval (.machine callHost fuel) handle site code) := by
  refine (keeps_evalConst hM hT hh hw fuel handle).mapError ?_
  rintro t ht u ⟨⟩
  exact ht

theorem keeps_evalOffset {code : Code} (hw : code.WellBracketed) (site : Site) :
    Keeps M T (LinkError.Within T) (evalOffset (.machine callHost fuel) handle site code) := by
  refine (keeps_eval hM hT hh hw site).bind fun v ↦ ?_
  split
  · exact .pure _
  · exact keeps_fail rfl

theorem keeps_defineGlobal {g : GlobalDef} (hw : g.init.WellBracketed) :
    Keeps M T (LinkError.Within T) (defineGlobal (.machine callHost fuel) handle g) := by
  refine (keeps_eval hM hT hh hw _).bind fun v ↦ keeps_unless rfl ?_
  refine (keeps_alloc (fun _ ↦ rfl) (fun _ ↦ rfl)).bind fun addr ↦ ?_
  exact keeps_modifyInstance hT _ fun _ ↦ rfl

theorem keeps_defineElem {e : ElemSegment} (hw : ∀ es, e.items = .exprs es → ∀ code ∈ es,
    Code.WellBracketed code) :
    Keeps M T (LinkError.Within T) (defineElem (.machine callHost fuel) handle e) := by
  refine Keeps.bind ?_ fun refs ↦ keeps_alloc (fun _ ↦ rfl) (fun _ ↦ rfl)
  unfold elemRefs
  split
  · refine (keeps_getInstance hT _).bind fun inst ↦ Keeps.mapM fun i _ ↦ ?_
    exact (keeps_lookup fun t ht ↦ hT t (Machine.lookup_ordinary ht)).bind fun _ ↦ .pure _
  · rename_i es hes
    exact Keeps.mapM fun code hc ↦ keeps_eval hM hT hh (hw es hes code hc) _

theorem keeps_applyElem {e : ElemSegment} (hw : ∀ table offset, e.mode = .active table offset →
    Code.WellBracketed offset) (addr : Nat) :
    Keeps M T (LinkError.Within T) (applyElem (.machine callHost fuel) handle (e, addr)) := by
  have hdrop : Keeps M T (LinkError.Within T)
      (onHeap (outOfBounds .elemSegment) (Heap.dropElem addr)) :=
    keeps_onHeap (.dropElem addr) fun t ht ↦ outOfBounds_within (hT t ht) _
  unfold applyElem
  split
  · exact .pure _
  · exact hdrop.bind fun _ ↦ .pure _
  · rename_i table offset hmode
    refine (keeps_evalOffset hM hT hh (hw table offset hmode) _).bind fun dst ↦ ?_
    refine (keeps_getInstance hT _).bind fun inst ↦ ?_
    refine (keeps_lookup fun t ht ↦ hT t (Machine.lookup_ordinary ht)).bind fun _ ↦ ?_
    refine hdrop.bind fun refs ↦ keeps_onHeap ((Ordinary.tableInit _ _ _ _).onTable _) ?_
    rintro t ht u ⟨⟩

theorem keeps_applyData {d : DataSegment} (hw : ∀ memory offset, d.mode = .active memory offset →
    Code.WellBracketed offset) (addr : Nat) :
    Keeps M T (LinkError.Within T) (applyData (.machine callHost fuel) handle (d, addr)) := by
  unfold applyData
  split
  · exact .pure _
  · rename_i memory offset hmode
    refine (keeps_evalOffset hM hT hh (hw memory offset hmode) _).bind fun dst ↦ ?_
    refine (keeps_getInstance hT _).bind fun inst ↦ ?_
    refine (keeps_lookup fun t ht ↦ hT t (Machine.lookup_ordinary ht)).bind fun _ ↦ ?_
    refine Keeps.bind ?_ fun bytes ↦ keeps_onHeap ((Ordinary.memoryInit _ _ _ _).onMemory _) ?_
    · exact keeps_onHeap (.dropData addr) fun t ht ↦ outOfBounds_within (hT t ht) _
    · rintro t ht u ⟨⟩

theorem keeps_runStart (f : Idx) :
    Keeps M T (LinkError.Within T) (runStart (.machine callHost fuel) handle f) := by
  refine (keeps_getInstance hT _).bind fun inst ↦ ?_
  refine (keeps_lookup fun t ht ↦ hT t (Machine.lookup_ordinary ht)).bind fun addr ↦ ?_
  refine Keeps.bind ((keeps_call hM hT hh _ _ _).mapError ?_) fun _ ↦ .pure _
  rintro t ht u ⟨⟩
  exact ht

omit hM hh in
theorem keeps_bindExports (inst : Instance) (es : List Export) :
    Keeps M T (LinkError.Within T) (bindExports inst es) := by
  refine Keeps.foldlM (fun e _ found ↦ ?_) _
  refine (keeps_lookup ?_).bind fun _ ↦ .pure _
  intro t ht
  refine hT t ?_
  unfold Instance.externAddr at ht
  cases hk : e.kind <;> rw [hk] at ht <;> exact Machine.lookup_ordinary (error_of_map ht)

/-- Instantiating a module of the kind `M` keeps a store sound. -/
theorem keeps_instantiate (hm : M m) {r : Host.Resolver} (hr : r.Within M T) :
    Keeps M T (LinkError.Within T) (instantiate callHost fuel m r) := by
  have hbr := hM m hm
  refine Keeps.bind (.modifyGet fun s hs ↦ hs.allocInstance hm) fun handle ↦ ?_
  refine (keeps_define hr).bind fun inst ↦ ?_
  refine Keeps.bind (keeps_modifyInstance hT _ (by intro; rfl)) fun _ ↦ ?_
  refine (Keeps.forM ?_).bind fun _ ↦ ?_
  · intro g hg
    exact keeps_defineGlobal hM hT hh (hbr.global hg)
  refine (Keeps.mapM ?_).bind fun elems ↦ ?_
  · intro e he
    exact keeps_defineElem hM hT hh fun es hes code hc ↦ hbr.item he hes hc
  refine Keeps.bind (keeps_modifyInstance hT _ (by intro; rfl)) fun _ ↦ ?_
  refine (Keeps.forM ?_).bind fun _ ↦ ?_
  · rintro ⟨e, addr⟩ he
    exact keeps_applyElem hM hT hh
      (fun _ _ hmode ↦ hbr.elemOffset (List.of_mem_zip he).1 hmode) addr
  refine (Keeps.mapM ?_).bind fun datas ↦ ?_
  · intro d _
    exact keeps_alloc (fun _ ↦ rfl) (fun _ ↦ rfl)
  refine Keeps.bind (keeps_modifyInstance hT _ (by intro; rfl)) fun _ ↦ ?_
  refine (Keeps.forM ?_).bind fun _ ↦ ?_
  · rintro ⟨d, addr⟩ hd
    exact keeps_applyData hM hT hh
      (fun _ _ hmode ↦ hbr.dataOffset (List.of_mem_zip hd).1 hmode) addr
  refine (keeps_getInstance hT _).bind fun inst ↦ ?_
  refine (keeps_bindExports hT inst _).bind fun exports ↦ ?_
  refine Keeps.bind (keeps_modifyInstance hT _ (by intro; rfl)) fun _ ↦ ?_
  cases m.start with
  | none => exact .pure _
  | some f => exact (keeps_runStart hM hT hh f).bind fun _ ↦ .pure _

end Code

end Link

end Wasm
