import Wasm.Proofs.Addresses
import Wasm.Proofs.Results

namespace Wasm

structure Heap.References (h : Heap) : Prop where
  tables : ∀ (a : Nat) (t : Table), h.tables[a]? = some t → ∀ v ∈ t.elems, v.type.isRef = true
  elems : ∀ (a : Nat) (vs : Array Value), h.elems[a]? = some vs → ∀ v ∈ vs, v.type.isRef = true

def Host.Act.Refers : Host.Act → Prop
  | .put heap _ => heap.References
  | .alloc (.table _ vs) _ | .alloc (.elem vs) _ => ∀ v ∈ vs, v.type.isRef = true
  | _ => True

namespace Heap.References

variable {h : Heap}

theorem setTable (hh : h.References) (a : Nat) {t : Table}
    (ht : ∀ v ∈ t.elems, v.type.isRef = true) :
    References { h with tables := h.tables.setIfInBounds a t } := by
  refine { hh with tables := fun b u hu ↦ ?_ }
  rcases getElem?_setIfInBounds_cases hu with hold | rfl
  · exact hh.tables b u hold
  · exact ht

theorem pushTable (hh : h.References) {t : Table} (ht : ∀ v ∈ t.elems, v.type.isRef = true) :
    References { h with tables := h.tables.push t } := by
  refine { hh with tables := fun b u hu ↦ ?_ }
  rcases getElem?_push_cases hu with hold | rfl
  · exact hh.tables b u hold
  · exact ht

theorem dropElem (hh : h.References) (a : Nat) :
    References { h with elems := h.elems.setIfInBounds a #[] } := by
  refine { hh with elems := fun b vs hvs ↦ ?_ }
  rcases getElem?_setIfInBounds_cases hvs with hold | rfl
  · exact hh.elems b vs hold
  · nofun

theorem pushElem (hh : h.References) {vs : Array Value} (hvs : ∀ v ∈ vs, v.type.isRef = true) :
    References { h with elems := h.elems.push vs } := by
  refine { hh with elems := fun b us hus ↦ ?_ }
  rcases getElem?_push_cases hus with hold | rfl
  · exact hh.elems b us hold
  · exact hvs

end Heap.References

namespace Policy

def references : Policy where
  store s := s.heap.References
  grants _ _ _ := True
  trap _ := True
  slot v := v.type.isRef = true

variable {s s' : Store}

theorem references_leads (h : s'.heap.References) : references.Leads s s' :=
  ⟨h, fun _ _ _ ↦ trivial⟩

theorem references_value (v : Value) : references.value s v := fun _ _ ↦ trivial

theorem references_admits : references.Admits where
  trap _ := trivial
  missing _ _ _ := trivial
  owner _ _ _ := by constructor <;> intros <;> trivial
  reference h := h
  tableValue hs ht v hv := ⟨references_value v, hs.tables _ _ ht v hv⟩
  globalValue _ _ := references_value _
  elemValue hs hvs v hv := ⟨references_value v, hs.elems _ _ hvs v hv⟩
  table hs _ ht hup := by
    apply references_leads
    apply Heap.References.setTable hs
    intro v hv
    rcases hup.values v hv with hold | hnew
    · exact hs.tables _ _ ht v hold
    · exact hnew.2
  memory hs _ _ _ := references_leads { hs with }
  global hs _ _ _ := references_leads { hs with }
  elem hs _ := references_leads (hs.dropElem _)
  data hs _ := references_leads { hs with }

theorem isRef_null (t : RefType) : (Value.null t).type.isRef = true := by
  cases t <;> rfl

theorem references_links : references.Links (fun _ ↦ True) (fun _ ↦ True) (fun _ ↦ True) where
  toAdmits := references_admits
  code _ _ _ := trivial
  body _ _ _ _ _ := trivial
  active _ hs := references_leads hs
  present _ _ := trivial
  spans _ _ := by constructor <;> intros <;> trivial
  own _ := trivial
  allocInstance hs _ := references_leads hs
  modify hs _ _ _ _ := references_leads hs
  allocHost hs _ := references_leads hs
  allocCode hs _ _ _ := references_leads hs
  allocTable {s m type} hs _ _ _ := by
    refine references_leads (hs.pushTable fun v hv ↦ ?_)
    rw [(Array.mem_replicate.mp hv).2]
    exact isRef_null type.elem
  allocMemory hs _ _ _ _ := references_leads { hs with }
  allocGlobal hs _ _ := references_leads { hs with }
  allocElem hs hrefs := references_leads (hs.pushElem fun v hv ↦ (hrefs v hv).2)
  allocData _ hs := references_leads { hs with }

theorem references_alloc (hs : s.heap.References) {e : Host.Fresh Host.Func}
    {k : Option Nat → Host.Act} (he : Host.Act.Refers (.alloc e k)) :
    references.Leads s (s.alloc e).2 := by
  cases e with
  | func f => exact references_links.allocHost hs trivial
  | code type inst index => exact references_leads hs
  | instance_ inst => exact references_leads hs
  | table type slots =>
    obtain h | h := s.alloc_table type slots <;> rw [h]
    · exact .refl hs
    · refine references_leads (hs.pushTable fun v hv ↦ ?_)
      obtain rfl | hmem := Table.mem_prefill_create hv
      · exact isRef_null type.elem
      · exact he v hmem
  | memory type bytes =>
    obtain h | ⟨m, -, h⟩ := s.alloc_memory type bytes <;> rw [h]
    · exact .refl hs
    · exact references_leads { hs with }
  | global type init => exact references_leads { hs with }
  | elem refs => exact references_leads (hs.pushElem he)
  | data bytes => exact references_links.allocData bytes hs

section Requests

open Engine

variable {fuel : Nat} {client : Host.Act}

theorem references_conducts (hrefs : ∀ n act s', Asked fuel client s n act s' → act.Refers)
    (hitems : ∀ n m r k s' v, Asked fuel client s n (.instantiate m r k) s' →
      Link.Item (hostCall fuel n) fuel m r s' v → v.type.isRef = true) :
    references.Conducts (fun _ ↦ True) (fun _ ↦ True) fuel (Asked fuel client s) where
  honors {n act s'} hA hs := by
    have href := hrefs n act s' hA
    cases act with
    | finish result =>
      cases result with
      | ok vs => exact fun v _ ↦ references_value v
      | error t => trivial
    | log vs next => exact references_leads hs
    | readLog k => trivial
    | get k => trivial
    | put heap next => exact references_leads href
    | alloc e k => exact references_alloc hs href
    | call func args k => exact ⟨fun v _ ↦ references_value v, fun _ ↦ trivial⟩
    | invoke inst name args k => exact ⟨fun v _ ↦ references_value v, fun _ ↦ trivial⟩
    | instantiate m r k =>
      exact ⟨trivial, fun _ _ _ _ _ ↦ trivial, fun _ _ _ _ v _ _ ↦ references_value v⟩
  items {n m r k s' v} hA hv := hitems n m r k s' v hA hv
  next hA hfol := .next hA (hfol.imp fun _ _ ↦ trivial)
  host hA hcons _ := .host hA hcons

end Requests

theorem references_safe {m : Machine} (hm : m.store.heap.References) : references.Safe m := by
  refine ⟨hm, fun e _ ↦ ?_⟩
  cases e with
  | value v => exact references_value v
  | label l => trivial
  | frame f => exact ⟨trivial, fun v _ ↦ references_value v⟩

theorem Reads.store_eq {R : Policy} {α : Type} {op : Exec α} {Q : α → Prop} {m m' : Machine}
    {a : α} (h : R.Reads m.store op Q) (hm : R.Safe m) (hop : op m = .ok a m') :
    m'.store = m.store := by
  have hr := h m rfl hm
  rw [hop] at hr
  exact hr.1

theorem Acts.of_ok {R : Policy} {α : Type} {op : Exec α} {P : α → Store → Prop} {m m' : Machine}
    {a : α} (h : R.Acts m.store op P) (hm : R.Safe m) (hop : op m = .ok a m') : P a m'.store := by
  have hr := h m rfl hm
  rw [hop] at hr
  exact hr.2.2

theorem back?_pushValue {v : Value} {m m' : Machine}
    (h : Machine.onStack (Stack.pushValue v) m = .ok () m') :
    m'.stack.entries.back? = some (.value v) := by
  by_cases hroom : m.stack.entries.size < m.stack.limit
  · simp only [Machine.onStack, Stack.pushValue, Stack.push, hroom, if_true] at h
    cases h
    simp
  · simp only [Machine.onStack, Stack.pushValue, Stack.push, hroom, if_false] at h
    cases h

theorem isRef_tableGet {m m' : Machine} {t : Idx} (hm : m.store.heap.References)
    (h : Machine.tableGet t m = .ok () m') :
    ∃ v, m'.stack.entries.back? = some (.value v) ∧ v.type.isRef = true := by
  obtain ⟨i, m₁, hpop, hrest⟩ := Outcome.bind_ok h
  obtain ⟨a, m₂, haddr, hget⟩ := Outcome.bind_ok hrest
  obtain ⟨v, m₃, hread, hpush⟩ := Outcome.bind_ok hget
  refine ⟨v, back?_pushValue hpush, ?_⟩
  have hstore₁ := Reads.store_eq references_admits.popNat (references_safe hm) hpop
  have hm₁ : m₁.store.heap.References := hstore₁ ▸ hm
  have hstore₂ := Reads.store_eq (references_admits.tableAddr hm₁ t) (references_safe hm₁) haddr
  have hm₂ : m₂.store.heap.References := hstore₂ ▸ hm₁
  -- A value that is read from a table of the heap is one of its slots.
  have hacts := (references_admits.onTable (a := a) hm₂ trivial (Table.changes_get i)).acts
  exact (Acts.of_ok hacts (references_safe hm₂) hread).2

end Policy

inductive Code.RefConst : Code → Prop
  | null (t : RefType) : RefConst #[.refNull t, .end_]
  | func (f : Idx) : RefConst #[.refFunc f, .end_]

theorem Code.RefConst.parts {code : Code} (h : code.RefConst) :
    ∃ i, code[0]? = some i ∧ code[1]? = some .end_ ∧ code.size = 2 := by
  cases h <;> exact ⟨_, rfl, rfl, rfl⟩

namespace Machine

variable {callHost : HostCall} {c : Context} {s : Scope} {m m' : Machine} {fuel inst : Nat}
  {code : Code} {store : Store} {v : Value}

theorem instance_fill :
    instance_ (c.fill s) = check (s.store.instance_ c.frame.inst) (c.fill s) := by
  change EStateM.bind (onStack Stack.currentFrame) _ _ = _
  simp only [EStateM.bind, onStack, Context.fill, Context.activation, Stack.currentFrame_of]
  rfl

theorem check_ok {α : Type} {x : Except Trap α} {a : α} (h : check x m = .ok a m') : m' = m := by
  cases x with
  | error t => cases h
  | ok b =>
    cases h
    rfl

theorem pushValue_fill_ok (h : onStack (Stack.pushValue v) (c.fill s) = .ok () m) :
    m = c.fill { s with operands := v :: s.operands } ∧
      c.Fits { s with operands := v :: s.operands } := by
  rw [pushValue_fill] at h
  split at h
  · rename_i hlt
    cases h
    exact ⟨rfl, hlt⟩
  · cases h

theorem exec_refConst (hcode : code.RefConst) {x : Flow} {i : Instr} (hi : code[0]? = some i)
    (h : exec code.size i (c.fill s) = .ok x m) : x = .next ∧ ∃ v, v.type.isRef = true ∧
      m = c.fill { s with operands := v :: s.operands } ∧
      c.Fits { s with operands := v :: s.operands } := by
  cases hcode with
  | null t =>
    cases hi
    obtain ⟨_, m₁, hpush, ⟨⟩⟩ := Outcome.bind_ok h
    exact ⟨rfl, .null t, by cases t <;> rfl, pushValue_fill_ok hpush⟩
  | func f =>
    cases hi
    obtain ⟨_, m₁, hsimple, ⟨⟩⟩ := Outcome.bind_ok h
    obtain ⟨owner, m₂, howner, hrest⟩ := Outcome.bind_ok hsimple
    rw [instance_fill] at howner
    obtain rfl := check_ok howner
    obtain ⟨a, m₃, haddr, hpush⟩ := Outcome.bind_ok hrest
    obtain rfl := check_ok haddr
    exact ⟨rfl, .funcref (some a), rfl, pushValue_fill_ok hpush⟩

theorem runConst_ok (h : runConst callHost fuel inst code (fresh store) = .ok v m) :
    ∃ m₁ stack, runTo callHost 0 fuel ((outermost store.config.maxStackEntries []
      (initializer inst code)).fill ⟨store, #[], []⟩) = .ok () m₁ ∧
      Stack.popValue m₁.stack = .ok v stack := by
  rw [runConst_apply, stack_fresh, Stack.pushFrame_of, Stack.height_nil, List.length_nil] at h
  by_cases hroom : 0 < store.config.maxStackEntries
  · simp only [hroom, if_true, run_apply, resume_of, Stack.size_frames_of, List.length_singleton,
      Nat.sub_self] at h
    generalize hrun : runTo callHost 0 fuel _ = r at h
    cases r with
    | error e m₁ => cases h
    | ok u m₁ => exact ⟨m₁, m.stack, hrun, lift_onStack_ok h⟩
  · simp only [hroom, if_false] at h
    cases h

theorem advance_refConst (hcode : c.frame.body.RefConst) (hpc : c.pc = 0) {done : Bool}
    (h : advance callHost 0 (c.fill s) = .ok done m) : done = false ∧ ∃ v, v.type.isRef = true ∧
      m = Context.fill { c with pc := 1 } { s with operands := v :: s.operands } ∧
      Context.Fits { c with pc := 1 } { s with operands := v :: s.operands } := by
  obtain ⟨i, hi, -, -⟩ := hcode.parts
  rw [advance_apply, step_fill, hpc, hi] at h
  dsimp only at h
  generalize hx : exec c.frame.body.size i (c.fill s) = r at h
  cases r with
  | error t m₁ => cases h
  | ok x m₁ =>
    obtain ⟨rfl, v, hv, rfl, hfits⟩ := exec_refConst hcode hi hx
    cases h
    exact ⟨rfl, v, hv, by simp [Context.fill, Context.activation, hpc], hfits⟩

theorem exec_last (hl : c.pc + 1 = c.frame.body.size) :
    exec c.frame.body.size .end_ (c.fill s) = .ok .leave (c.fill s) := by
  change (if c.pc + 1 = c.frame.body.size then pure .leave else _ : Exec Flow) (c.fill s) = _
  rw [if_pos hl]
  rfl

theorem advance_last (hs : c.Fits s) (hi : c.frame.body[c.pc]? = some .end_)
    (hl : c.pc + 1 = c.frame.body.size) (hc : c.callers = []) {done : Bool}
    (h : advance callHost 0 (c.fill s) = .ok done m) : done = true ∧
      m.stack = .of c.limit (s.operands.take c.frame.arity ++ c.bottom) [] := by
  rw [advance_apply, step_fill, hi] at h
  dsimp only at h
  rw [exec_last hl] at h
  have hleave := @conclude_leave callHost 0 c s hs
  change conclude callHost 0 .leave (c.fill s) = _ at h
  rw [h] at hleave
  cases hleave with
  | outermost _ _ => exact ⟨rfl, rfl⟩
  | finish _ hc' _ => cases hc.symm.trans hc'
  | resume _ hc' _ => cases hc.symm.trans hc'

theorem runConst_refConst (hcode : code.RefConst)
    (h : runConst callHost fuel inst code (fresh store) = .ok v m) : v.type.isRef = true := by
  obtain ⟨m₁, stack, hrun, hpop⟩ := runConst_ok h
  cases fuel with
  | zero => cases hrun
  | succ fuel =>
    rw [runTo_apply] at hrun
    generalize hfirst : advance callHost 0 _ = r at hrun
    cases r with
    | error e m₂ => cases hrun
    | ok done m₂ =>
      obtain ⟨rfl, w, hw, rfl, hfits⟩ := advance_refConst hcode rfl hfirst
      obtain ⟨_, -, hend, hsize⟩ := hcode.parts
      cases fuel with
      | zero => cases hrun
      | succ fuel =>
        simp only [runTo_apply] at hrun
        generalize hsecond : advance callHost 0 _ = r at hrun
        cases r with
        | error e m₃ => cases hrun
        | ok done m₃ =>
          obtain ⟨rfl, hstack⟩ := advance_last hfits hend hsize.symm rfl hsecond
          cases hrun
          rw [hstack] at hpop
          cases hpop
          exact hw

end Machine

def Module.RefItems (m : Module) : Prop :=
  ∀ e ∈ m.elements, ∀ codes, e.items = .exprs codes → ∀ code ∈ codes, code.RefConst

theorem Link.eval_refConst {callHost : HostCall} {fuel handle : Nat} {site : Site} {code : Code}
    {s s' : Store} {v : Value} (hcode : code.RefConst)
    (h : Link.eval (.machine callHost fuel) handle site code s = .ok v s') :
    v.type.isRef = true := by
  simp only [Link.eval, Stop.mapError, Action.evalConst, Action.start_apply] at h
  generalize hr : Machine.runConst callHost fuel handle code (Machine.fresh s) = r at h
  cases r with
  | ok w m =>
    cases h
    exact Machine.runConst_refConst hcode hr
  | error e m => cases e <;> cases h

theorem Link.Item.isRef {callHost : HostCall} {fuel : Nat} {m : Module} {r : Host.Resolver}
    {s : Store} {v : Value} (hm : m.RefItems) (h : Link.Item callHost fuel m r s v) :
    v.type.isRef = true := by
  cases h with
  | @mk handle before after e addrs sooner later code vs s₁ s₂ s₃ s₄ _ hxs _ hitems _ heval =>
    have he : e ∈ m.elements := by
      rw [hxs]
      exact List.mem_append_right _ (List.mem_cons_self ..)
    have hcode : code ∈ sooner ++ code :: later :=
      List.mem_append_right _ (List.mem_cons_self ..)
    exact Link.eval_refConst (hm e he _ hitems code hcode) heval

namespace Engine

open Policy

/-- A client starts with a store whose slots hold nothing but references, and neither it nor a host
function that it leads to puts anything else there. If moreover the items of element segments have
references for their values, then slots hold nothing but references ever after. -/
theorem asked_references {fuel : Nat} {client : Host.Act} {s₀ : Store}
    (hs₀ : s₀.heap.References) (hrefs : ∀ n act s, Asked fuel client s₀ n act s → act.Refers)
    (hitems : ∀ n m r k s v, Asked fuel client s₀ n (.instantiate m r k) s →
      Link.Item (hostCall fuel n) fuel m r s v → v.type.isRef = true) :
    ∀ n act s, Asked fuel client s₀ n act s → s.heap.References ∧
      ∀ m, Running (hostCall fuel n) fuel act s m → m.store.heap.References ∧
        ∀ t m', Machine.tableGet t m = .ok () m' →
          ∃ v, m'.stack.entries.back? = some (.value v) ∧ v.type.isRef = true := by
  have hC := references_conducts hrefs hitems
  intro n act s h
  obtain ⟨hA, hs⟩ := references_links.asked hC .client hs₀ h
  refine ⟨hs, fun m hm ↦ ?_⟩
  have hsafe :=
    references_links.safe (references_links.attends hC n act s hA) hs (hC.honors hA hs) hm
  exact ⟨hsafe.store, fun t m' ↦ isRef_tableGet hsafe.store⟩

def referring : Module where
  types := [⟨[], []⟩]
  funcTypes := [0]
  tables := [⟨.funcref, ⟨2, none⟩⟩]
  exports := [⟨"f", .func, 0⟩]
  elements := [⟨.funcref, .exprs [#[.refFunc 0, .end_], #[.refNull .funcref, .end_]],
    .active 0 #[.i32Const 0, .end_]⟩]
  functions := [⟨0, [], #[.i32Const 0, .tableGet 0, .drop, .end_]⟩]

def referringBytes : List UInt8 :=
  [0x00, 0x61, 0x73, 0x6D, 1, 0, 0, 0,
    1, 4, 1, 0x60, 0, 0,
    3, 2, 1, 0,
    4, 4, 1, 0x70, 0, 2,
    7, 5, 1, 1, 0x66, 0, 0,
    9, 12, 1, 4, 0x41, 0, 0x0B, 2, 0xD2, 0, 0x0B, 0xD0, 0x70, 0x0B,
    10, 9, 1, 7, 0, 0x41, 0, 0x25, 0, 0x1A, 0x0B]

def invoking (m : Module) : Host.Act :=
  .instantiate m noSupply fun _ ↦ .invoke 0 "f" [] .finish

theorem orderly_invoking {Q : Host.Act → Prop} {m : Module}
    (hm : Q (invoking m)) (hinvoke : Q (.invoke 0 "f" [] .finish)) (hfinish : ∀ r, Q (.finish r)) :
    (invoking m).Orderly Q :=
  .instantiate hm nofun fun _ ↦ .invoke hinvoke fun r ↦ .finish (hfinish r)

theorem references_empty : ({} : Store).heap.References := ⟨by simp, by simp⟩

theorem refItems_referring : referring.RefItems := by
  intro e he codes hcodes code hcode
  obtain rfl := List.mem_singleton.mp he
  cases hcodes
  rcases List.mem_pair.mp hcode with rfl | rfl
  · exact .func 0
  · exact .null .funcref

theorem asked_references_referring :
    Module.decode referringBytes = .ok referring ∧
    (∀ n act s, Asked 16 (invoking referring) {} n act s → s.heap.References ∧
      ∀ m, Running (hostCall 16 n) 16 act s m → m.store.heap.References) ∧
    (Outcome.final (perform (hostCall 16 16) 16 (invoking referring) {})).heap.tables.map
      (·.elems) = #[#[.funcref (some 0), .funcref none]] := by
  have hall : ∀ n act s, Asked 16 (invoking referring) {} n act s →
      act.Refers ∧ ∀ m r k, act = .instantiate m r k → m.RefItems := by
    intro n act s h
    refine asked_orderly
      (Q := fun act ↦ act.Refers ∧ ∀ m r k, act = .instantiate m r k → m.RefItems)
      (orderly_invoking ⟨trivial, ?_⟩ ⟨trivial, nofun⟩ fun _ ↦ ⟨trivial, nofun⟩) h
    rintro m r k ⟨⟩
    exact refItems_referring
  refine ⟨by decide +kernel, fun n act s h ↦ ?_, by decide +kernel⟩
  obtain ⟨hs, hm⟩ := asked_references references_empty (fun n act s h ↦ (hall n act s h).1)
    (fun n m r k s v h hv ↦ hv.isRef ((hall n _ s h).2 m r k rfl)) n act s h
  exact ⟨hs, fun m h ↦ (hm m h).1⟩

def numbered : Module where
  types := [⟨[], [.i32]⟩]
  funcTypes := [0]
  tables := [⟨.funcref, ⟨1, none⟩⟩]
  exports := [⟨"f", .func, 0⟩]
  elements := [⟨.funcref, .exprs [#[.i32Const 5, .end_]], .active 0 #[.i32Const 0, .end_]⟩]
  functions := [⟨0, [], #[.i32Const 0, .tableGet 0, .end_]⟩]

def numberedBytes : List UInt8 :=
  [0x00, 0x61, 0x73, 0x6D, 1, 0, 0, 0,
    1, 5, 1, 0x60, 0, 1, 0x7F,
    3, 2, 1, 0,
    4, 4, 1, 0x70, 0, 1,
    7, 5, 1, 1, 0x66, 0, 0,
    9, 9, 1, 4, 0x41, 0, 0x0B, 1, 0x41, 5, 0x0B,
    10, 8, 1, 6, 0, 0x41, 0, 0x25, 0, 0x0B]

theorem number_in_slot :
    Module.decode numberedBytes = .ok numbered ∧ ({} : Store).heap.References ∧
    ∃ s s', instantiate 8 numbered noSupply {} = .ok 0 s ∧ ¬ s.heap.References ∧
      invoke 8 0 "f" [] s = .ok [.i32 5] s' := by
  have hmade := Outcome.eq_ok_final
    (show Outcome.value? (instantiate 8 numbered noSupply {}) = some 0 by decide +kernel)
  have hasked := Outcome.eq_ok_final
    (show Outcome.value? (invoke 8 0 "f" [] (Outcome.final (instantiate 8 numbered noSupply {}))) =
      some [.i32 5] by decide +kernel)
  have hslots : (Outcome.final (instantiate 8 numbered noSupply {})).heap.tables =
      #[⟨⟨.funcref, ⟨1, none⟩⟩, #[.i32 5]⟩] := by decide +kernel
  refine ⟨by decide +kernel, references_empty, _, _, hmade, fun h ↦ ?_, hasked⟩
  cases h.tables 0 ⟨⟨.funcref, ⟨1, none⟩⟩, #[.i32 5]⟩ (by rw [hslots]; rfl) (.i32 5) (by simp)

end Engine

end Wasm
