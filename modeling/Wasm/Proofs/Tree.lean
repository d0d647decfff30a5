import Wasm.Proofs.Nesting

namespace Wasm

inductive Tree.Kind
  | block
  | loop
  | if_
  deriving DecidableEq, Inhabited

def Tree.Kind.opener : Kind → BlockType → Instr
  | block, t => .block t
  | loop, t => .loop t
  | if_, t => .if_ t

/-- A sequence of instructions and constructs. An `if_` with an `else_` is an `either`, any other
construct has one part. -/
inductive Tree
  | nil
  | plain (i : Instr) (rest : Tree)
  | construct (kind : Tree.Kind) (t : BlockType) (body rest : Tree)
  | either (t : BlockType) (body alt rest : Tree)
  deriving DecidableEq, Inhabited

namespace Tree

def flatten : Tree → List Instr
  | nil => []
  | plain i rest => i :: rest.flatten
  | construct kind t body rest => kind.opener t :: (body.flatten ++ .end_ :: rest.flatten)
  | either t body alt rest =>
    .if_ t :: (body.flatten ++ .else_ :: (alt.flatten ++ .end_ :: rest.flatten))

def Elseless : Tree → Prop
  | nil => True
  | plain i rest => i ≠ .else_ ∧ rest.Elseless
  | construct _ _ _ rest => rest.Elseless
  | either _ _ _ rest => rest.Elseless

/-- The instructions of a tree are where they belong: the `else_` that parts a construct is the last
one of an `if_`. -/
def Shaped : Tree → Prop
  | nil => True
  | plain i rest => i.plain = true ∧ rest.Shaped
  | construct kind _ body rest => body.Shaped ∧ (kind = .if_ → body.Elseless) ∧ rest.Shaped
  | either _ body alt rest => body.Shaped ∧ alt.Shaped ∧ alt.Elseless ∧ rest.Shaped

theorem Kind.opens (k : Kind) (t : BlockType) : (k.opener t).opens = true := by
  cases k <;> rfl

theorem Kind.signature (k : Kind) (t : BlockType) : (k.opener t).signature? = some t := by
  cases k <;> rfl

theorem flatten_either (t : BlockType) (body alt rest : Tree) : (either t body alt rest).flatten =
    .if_ t :: ((body.flatten ++ .else_ :: alt.flatten) ++ .end_ :: rest.flatten) := by
  simp [flatten]

theorem Shaped.balanced {T : Tree} (h : T.Shaped) : Balanced true T.flatten := by
  induction T with
  | nil => exact .nil
  | plain i rest ih => exact .plain h.1 (fun _ ↦ rfl) (ih h.2)
  | construct k t body rest ihb ih =>
    obtain ⟨hb, _, hr⟩ := h
    exact .construct (k.opens t) (ihb hb) (ih hr)
  | either t body alt rest ihb iha ih =>
    obtain ⟨hb, ha, _, hr⟩ := h
    have hparts : Balanced true (body.flatten ++ .else_ :: alt.flatten) :=
      (ihb hb).append (.plain rfl (fun _ ↦ rfl) (iha ha))
    rw [flatten_either]
    exact .construct rfl hparts (ih hr)

theorem Shaped.balanced_elseless {T : Tree} (h : T.Shaped) (he : T.Elseless) :
    Balanced false T.flatten := by
  induction T with
  | nil => exact .nil
  | plain i rest ih => exact .plain h.1 (fun hi ↦ absurd hi he.1) (ih h.2 he.2)
  | construct k t body rest _ ih =>
    obtain ⟨hb, _, hr⟩ := h
    exact .construct (k.opens t) hb.balanced (ih hr he)
  | either t body alt rest _ _ ih =>
    obtain ⟨hb, ha, _, hr⟩ := h
    have hparts : Balanced true (body.flatten ++ .else_ :: alt.flatten) :=
      hb.balanced.append (.plain rfl (fun _ ↦ rfl) ha.balanced)
    rw [flatten_either]
    exact .construct rfl hparts (ih hr he)

/-- What has been read of a construct, from its end: all of it, and the parts before and after the
last `else_`, if there is one. -/
structure Level where
  full : Tree
  parts : Option (Tree × Tree)

namespace Level

def empty : Level := ⟨.nil, none⟩

def cons (l : Level) (node : Tree → Tree) : Level where
  full := node l.full
  parts := l.parts.map fun p ↦ (node p.1, p.2)

def split (l : Level) : Level where
  full := .plain .else_ l.full
  parts := match l.parts with
    | none => some (.nil, l.full)
    | some (body, alt) => some (.plain .else_ body, alt)

def close (l : Level) (i : Instr) (rest : Tree) : Tree :=
  match i, l.parts with
  | .if_ t, some (body, alt) => .either t body alt rest
  | .if_ t, none => .construct .if_ t l.full rest
  | .loop t, _ => .construct .loop t l.full rest
  | .block t, _ => .construct .block t l.full rest
  | _, _ => rest

end Level

/-- Read an instruction in front of what has been read, where the levels of the constructs outside
are kept. -/
def read (i : Instr) : Level × List Level → Level × List Level
  | (l, ls) =>
    match i, ls with
    | .end_, _ => (.empty, l :: ls)
    | .else_, _ => (l.split, ls)
    | _, outer :: rest =>
      if i.opens then (outer.cons (l.close i), rest) else (l.cons (.plain i), ls)
    | _, [] => (l.cons (.plain i), [])

def parse (is : List Instr) : Level × List Level := is.foldr read (.empty, [])

structure Level.Holds (l : Level) (is : List Instr) : Prop where
  flatten : l.full.flatten = is
  shaped : l.full.Shaped
  whole : l.parts = none → l.full.Elseless
  parts : ∀ body alt, l.parts = some (body, alt) → body.flatten ++ .else_ :: alt.flatten = is ∧
    body.Shaped ∧ alt.Shaped ∧ alt.Elseless

end Tree

def Code.tree (code : Code) : Tree := (Tree.parse code.toList.dropLast).1.full

namespace Tree

theorem Level.Holds.empty : Level.empty.Holds [] :=
  ⟨rfl, trivial, fun _ ↦ trivial, nofun⟩

theorem Level.Holds.split {l : Level} {is : List Instr} (h : l.Holds is) :
    l.split.Holds (.else_ :: is) := by
  obtain ⟨full, parts⟩ := l
  refine ⟨congrArg _ h.flatten, ⟨rfl, h.shaped⟩, ?_, ?_⟩
  · intro hn
    cases parts <;> cases hn
  · intro body alt hp
    cases parts with
    | none =>
      cases hp
      exact ⟨congrArg (List.cons Instr.else_) h.flatten, trivial, h.shaped, h.whole rfl⟩
    | some p =>
      cases hp
      obtain ⟨hf, hb, ha, he⟩ := h.parts _ _ rfl
      exact ⟨congrArg _ hf, ⟨rfl, hb⟩, ha, he⟩

/-- A node in front of a level, where the code of the node is `pre`. -/
theorem Level.Holds.cons {l : Level} {is pre : List Instr} (h : l.Holds is) {node : Tree → Tree}
    (hf : ∀ T, (node T).flatten = pre ++ T.flatten) (hs : ∀ T, T.Shaped → (node T).Shaped)
    (he : ∀ T, T.Elseless → (node T).Elseless) : (l.cons node).Holds (pre ++ is) := by
  refine ⟨?_, hs _ h.shaped, ?_, ?_⟩
  · rw [Level.cons, hf, h.flatten]
  · intro hn
    exact he _ (h.whole (by simpa [Level.cons] using hn))
  · intro body alt hp
    obtain ⟨⟨body', alt'⟩, hp', heq⟩ := Option.map_eq_some_iff.mp hp
    cases heq
    obtain ⟨hfl, hb, ha, hal⟩ := h.parts _ _ hp'
    refine ⟨?_, hs _ hb, ha, hal⟩
    rw [hf, List.append_assoc, hfl]

theorem Level.Holds.close {inner outer : Level} {is is' : List Instr} (h : inner.Holds is)
    (ho : outer.Holds is') {i : Instr} (hi : i.opens = true) :
    (outer.cons (inner.close i)).Holds (i :: (is ++ .end_ :: is')) := by
  have hpre : i :: (is ++ .end_ :: is') = (i :: (is ++ [.end_])) ++ is' := by simp
  have hconstruct (k : Kind) (t : BlockType) (hif : k = .if_ → inner.full.Elseless) :
      (outer.cons (.construct k t inner.full)).Holds ((k.opener t :: (is ++ [.end_])) ++ is') := by
    refine ho.cons ?_ ?_ fun T hT ↦ hT
    · intro T
      simp [Tree.flatten, h.flatten]
    · intro T hT
      exact ⟨h.shaped, hif, hT⟩
  rw [hpre]
  cases i with
  | block t => exact hconstruct .block t nofun
  | loop t => exact hconstruct .loop t nofun
  | if_ t =>
    cases hp : inner.parts with
    | none =>
      have hclose : inner.close (.if_ t) = .construct .if_ t inner.full := by
        funext rest
        unfold Level.close
        rw [hp]
      rw [hclose]
      exact hconstruct .if_ t fun _ ↦ h.whole hp
    | some p =>
      obtain ⟨body, alt⟩ := p
      have hclose : inner.close (.if_ t) = .either t body alt := by
        funext rest
        unfold Level.close
        rw [hp]
      obtain ⟨hf, hb, ha, he⟩ := h.parts body alt hp
      rw [hclose]
      refine ho.cons ?_ ?_ fun T hT ↦ hT
      · intro T
        simp [Tree.flatten, ← hf]
      · intro T hT
        exact ⟨hb, ha, he, hT⟩
  | _ => cases hi

/-- Balanced code is read into the level at which it stands. -/
theorem parse_balanced {x : Bool} {is post is' : List Instr} (h : Balanced x is) {l : Level}
    {ls : List Level} (hp : parse post = (l, ls)) (hl : l.Holds is') :
    ∃ l', parse (is ++ post) = (l', ls) ∧ l'.Holds (is ++ is') := by
  induction h generalizing post is' l ls with
  | nil => exact ⟨l, hp, hl⟩
  | @plain x i is hi _ _ ih =>
    obtain ⟨l', hp', hl'⟩ := ih hp hl
    obtain ⟨hopen, hend⟩ := Instr.plain_iff.mp hi
    have hstep : parse (i :: is ++ post) = read i (l', ls) := by
      rw [← hp']
      rfl
    by_cases helse : i = .else_
    · subst helse
      refine ⟨l'.split, ?_, hl'.split⟩
      rw [hstep]
      cases ls <;> rfl
    · refine ⟨l'.cons (.plain i), ?_, ?_⟩
      · rw [hstep]
        unfold read
        cases ls with
        | nil => cases i <;> first | rfl | exact absurd rfl hend | exact absurd rfl helse
        | cons o ls =>
          cases i <;> first | rfl | exact absurd rfl hend | exact absurd rfl helse | cases hopen
      · have hcons := @Level.Holds.cons l' (is ++ is') [i] hl' (.plain i) (fun _ ↦ rfl)
          (fun _ hT ↦ ⟨hi, hT⟩) (fun _ hT ↦ ⟨helse, hT⟩)
        exact hcons
  | @construct x i body rest hi _ _ ihb ih =>
    obtain ⟨l₁, hp₁, hl₁⟩ := ih hp hl
    have hend : parse (.end_ :: (rest ++ post)) = (.empty, l₁ :: ls) := by
      change read .end_ (parse (rest ++ post)) = _
      rw [hp₁]
      cases ls <;> rfl
    obtain ⟨l₂, hp₂, hl₂⟩ := ihb hend .empty
    rw [List.append_nil] at hl₂
    refine ⟨l₁.cons (l₂.close i), ?_, ?_⟩
    · have hassoc : i :: (body ++ .end_ :: rest) ++ post =
          i :: (body ++ .end_ :: (rest ++ post)) := by simp
      rw [hassoc]
      change read i (parse (body ++ .end_ :: (rest ++ post))) = _
      rw [hp₂]
      cases i <;> first | rfl | cases hi
    · have hassoc : i :: (body ++ .end_ :: rest) ++ is' =
          i :: (body ++ .end_ :: (rest ++ is')) := by
        simp
      rw [hassoc]
      exact hl₂.close hl₁ hi

end Tree

/-- Well-bracketed code is that of its tree. -/
theorem Code.WellBracketed.tree {code : Code} (h : code.WellBracketed) :
    code.toList = code.tree.flatten ++ [.end_] ∧ code.tree.Shaped := by
  obtain ⟨body, hcode, hb⟩ := h
  obtain ⟨l, hp, hl⟩ := Tree.parse_balanced hb (rfl : Tree.parse [] = (.empty, [])) .empty
  rw [List.append_nil] at hp hl
  have htree : code.tree = l.full := by
    rw [Code.tree, hcode, List.dropLast_concat, hp]
  rw [htree, hl.flatten]
  exact ⟨hcode, hl.shaped⟩

end Wasm
