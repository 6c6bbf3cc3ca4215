import ScriptRecovery.Proofs.Arena.Flattening
import ScriptRecovery.Proofs.Cleanup.Tidying
import ScriptRecovery.Proofs.Stack.Assignments

/-!
# Cleanup as a function of the script

Statements that go are taken out of the lists of a script at every depth, and where such a statement
is the arm of a choice it stays or is emptied (`Stmt.sift`).  The same is said of trees of forms
(`Rose.sift`), and there every edit of a cleanup leaves it as it is: a statement that an edit takes
out of its list would not be in what is left anyway.  When no statement that goes is left in a list,
a tree is what is left of it.

So what is left of the edits is the sifted script.  Each of them takes one statement away, which is
why a cleanup that has edits to make changes the script.
-/

namespace ScriptRecovery

open Relation Rose

/-! ## Sifted scripts -/

/-- Whether a statement defines a constant pool. -/
def Stmt.isPool : Stmt → Bool
  | .constantPool _ _ => true
  | _ => false

mutual

/-- A statement with the statements that go taken out of its lists.  An arm that goes stays, unless
arms are emptied. -/
def Stmt.sift (goes : Stmt → Bool) (emptied : Bool) : Stmt → Stmt
  | .block body loc => .block (Stmt.siftAll goes emptied body) loc
  | .branch test truthy none loc => .branch test (truthy.sift goes emptied) none loc
  | .branch test truthy (some falsy) loc =>
      .branch test (truthy.sift goes emptied) (some (falsy.sift goes emptied)) loc
  | s => if emptied && goes s then .empty none else s

/-- A list of statements without those that go. -/
def Stmt.siftAll (goes : Stmt → Bool) (emptied : Bool) : List Stmt → List Stmt
  | [] => []
  | s :: ss =>
      if goes s then Stmt.siftAll goes emptied ss
      else s.sift goes emptied :: Stmt.siftAll goes emptied ss

end

namespace Script

/-- A script without empty statements in lists. -/
def withoutEmpties (s : Script) : Script :=
  { s with body := Stmt.siftAll Stmt.isEmpty false s.body }

/-- Whether an entry of a constant pool is used somewhere in a script. -/
def usesPools (s : Script) : Bool := s.rose.labels.any (SyntaxTree.usesPool ·.kind)

/-- A script without definitions of constant pools, if no entry is used. -/
def withoutUnusedPools (s : Script) : Script :=
  if s.usesPools then s else { s with body := Stmt.siftAll Stmt.isPool true s.body }

end Script

namespace Rose

/-! ## Sifted trees -/

mutual

/-- A tree of forms with the parts that go taken out of its lists. -/
def sift (q : Kind → Bool) (emptied : Bool) : Rose Form → Rose Form
  | .node form parts =>
      .node (if emptied && q form.kind then ⟨.empty, none⟩ else form)
        (siftAll q emptied form.kind.isList parts)

/-- Trees of forms in a row, without those that go if they are a list. -/
def siftAll (q : Kind → Bool) (emptied listed : Bool) : List (Rose Form) → List (Rose Form)
  | [] => []
  | r :: rs =>
      if listed && q r.label.kind then siftAll q emptied listed rs
      else r.sift q emptied :: siftAll q emptied listed rs

end

/-- Whether statements without parts are what goes. -/
structure Leafy (q : Kind → Bool) : Prop where
  statement : ∀ {k : Kind}, q k = true → k.category = .statement
  leaf : ∀ {k : Kind} {cs : List Category}, q k = true → k.admits cs → cs = []

/-- Empty statements have no parts. -/
theorem leafy_empty : Leafy fun k => decide (k = .empty) where
  statement := by
    intro k hk
    rw [of_decide_eq_true hk]
    rfl
  leaf := by
    intro k cs hk hcs
    rw [of_decide_eq_true hk] at hcs
    exact hcs

/-- Definitions of constant pools have no parts. -/
theorem leafy_definesPool : Leafy SyntaxTree.definesPool where
  statement := by
    intro k hk
    obtain ⟨pool, rfl⟩ := SyntaxTree.definesPool_iff.1 hk
    rfl
  leaf := SyntaxTree.eq_nil_of_definesPool

/-- The tree of a script without definitions of constant pools, if no entry is used. -/
def withoutUnusedPools (r : Rose Form) : Rose Form :=
  if r.labels.any (SyntaxTree.usesPool ·.kind) then r else r.sift SyntaxTree.definesPool true

variable {q : Kind → Bool} {emptied listed : Bool}

theorem siftAll_append (rs rs' : List (Rose Form)) : siftAll q emptied listed (rs ++ rs') =
    siftAll q emptied listed rs ++ siftAll q emptied listed rs' := by
  induction rs with
  | nil => rfl
  | cons r rs ih =>
    rw [List.cons_append, siftAll, siftAll, ih]
    split
    · rfl
    · rfl

/-- Where nothing goes, nothing changes. -/
theorem siftAll_eq_self {rs : List (Rose Form)} (hq : ∀ r ∈ rs, (listed && q r.label.kind) = false)
    (hs : ∀ r ∈ rs, r.sift q emptied = r) : siftAll q emptied listed rs = rs := by
  induction rs with
  | nil => rfl
  | cons r rs ih =>
    rw [siftAll, hq r (by simp), if_neg (by simp), hs r (by simp),
      ih (fun x hx => hq x (by simp [hx])) fun x hx => hs x (by simp [hx])]

/-- What is left in a context depends on what is left in its place. -/
theorem sift_plug {C : Context Form} {x x' : Rose Form}
    (h : x'.sift q emptied = x.sift q emptied) (hl : x'.label = x.label) :
    (C.plug x').sift q emptied = (C.plug x).sift q emptied ∧
      (C.plug x').label = (C.plug x).label := by
  induction C with
  | nil => exact ⟨h, hl⟩
  | cons c C ih =>
    refine ⟨?_, rfl⟩
    simp only [Context.plug, sift, siftAll_append, siftAll, ih.1, ih.2]

/-- What is left of a list that an element is taken out of. -/
theorem sift_remove {C : Context Form} {form part : Form} {left right : List (Rose Form)}
    (hl : form.kind.isList = true) (hpart : q part.kind = true) :
    (C.plug (.node form (left ++ right))).sift q emptied =
      (C.plug (.node form (left ++ .node part [] :: right))).sift q emptied := by
  have hlist : (Rose.node form (left ++ right)).sift q emptied =
      (Rose.node form (left ++ .node part [] :: right)).sift q emptied := by
    simp [sift, siftAll_append, siftAll, label, hl, hpart]
  exact (sift_plug hlist rfl).1

/-- What is left of a node that is no list and that a part is emptied of. -/
theorem sift_clear {C : Context Form} {form part : Form} {left right : List (Rose Form)}
    (hl : form.kind.isList = false) (hpart : q part.kind = true) :
    (C.plug (.node form (left ++ .node ⟨.empty, none⟩ [] :: right))).sift q true =
      (C.plug (.node form (left ++ .node part [] :: right))).sift q true := by
  have hnode : (Rose.node form (left ++ .node ⟨.empty, none⟩ [] :: right)).sift q true =
      (Rose.node form (left ++ .node part [] :: right)).sift q true := by
    simp [sift, siftAll_append, siftAll, hl, hpart]
  exact (sift_plug hnode rfl).1

/-! ## What is left of syntax -/

theorem Leafy.branch (hq : Leafy q) : q .branch = false := by
  refine Bool.eq_false_iff.2 fun h => ?_
  have hadmits : Kind.branch.admits [.expression, .statement] := .inl rfl
  cases hq.leaf h hadmits

theorem Leafy.list (hq : Leafy q) {k : Kind} (hl : k.isList = true) : q k = false := by
  refine Bool.eq_false_iff.2 fun h => ?_
  cases k <;> simp only [Kind.isList, Bool.false_eq_true] at hl
  case script => cases hq.statement h
  case block =>
    have hadmits : Kind.block.admits [.statement] := by simp [Kind.admits]
    cases hq.leaf h hadmits

/-- A node that is no list stays when its parts do. -/
theorem sift_node {form : Form} {parts : List (Rose Form)} (hl : form.kind.isList = false)
    (hs : ∀ r ∈ parts, r.sift q emptied = r) : (Rose.node form parts).sift q emptied =
      .node (if emptied && q form.kind then ⟨.empty, none⟩ else form) parts := by
  rw [sift, siftAll_eq_self (fun r _ => by rw [hl, Bool.false_and]) hs]

/-- Nothing goes from the tree of an expression or target. -/
theorem WellFormed.sift_eq_self (hq : Leafy q) {r : Rose Form} (h : r.WellFormed)
    (hc : r.category ≠ .statement) (hs : r.category ≠ .script) : r.sift q emptied = r := by
  induction h with
  | @node form parts hadmits _ _ ih =>
    rw [category_node] at hc hs
    have hbranch : form.kind ≠ .branch := fun hk => hc (by rw [hk]; rfl)
    have hlist : form.kind.isList = false := by
      cases hk : form.kind <;> simp [hk, Kind.category, Kind.isList] at hc hs ⊢
    have hstay : q form.kind = false := Bool.eq_false_iff.2 fun h => hc (hq.statement h)
    rw [sift_node hlist, hstay, Bool.and_false, if_neg (by simp)]
    intro x hx
    have hx' := Kind.no_statement_of_admits hadmits hbranch hlist x.category
      (List.mem_map_of_mem hx)
    exact ih x hx hx'.1 hx'.2

/-- What is left of a statement that is neither a list nor a choice. -/
theorem WellFormed.sift_statement (hq : Leafy q) {form : Form} {parts : List (Rose Form)}
    (h : (Rose.node form parts).WellFormed) (hbranch : form.kind ≠ .branch)
    (hlist : form.kind.isList = false) : (Rose.node form parts).sift q emptied =
      if emptied && q form.kind then (Stmt.empty none).rose else .node form parts := by
  rw [sift_node hlist]
  · split
    · next hgoes =>
      have hk : q form.kind = true := (Bool.and_eq_true _ _ ▸ hgoes).2
      obtain rfl : parts = [] := List.map_eq_nil_iff.1 (hq.leaf hk h.admits)
      rfl
    · rfl
  · intro x hx
    have hx' := Kind.no_statement_of_admits h.admits hbranch hlist x.category
      (List.mem_map_of_mem hx)
    exact (h.parts x hx).sift_eq_self hq hx'.1 hx'.2

end Rose

section Syntax

variable {goes : Stmt → Bool} {q : Kind → Bool} {emptied : Bool}

/-- A statement that is neither a list nor a choice goes as a whole. -/
theorem Stmt.rose_sift_leaf (hq : Leafy q) (hgoes : ∀ s, goes s = q s.rose.label.kind) {s : Stmt}
    (hs : s.sift goes emptied = if emptied && goes s then .empty none else s)
    (hbranch : s.rose.label.kind ≠ .branch) (hlist : s.rose.label.kind.isList = false) :
    (s.sift goes emptied).rose = s.rose.sift q emptied := by
  have hw := s.wellFormed_rose
  rw [hs, apply_ite Stmt.rose, hgoes]
  revert hw hbranch hlist
  generalize s.rose = r
  cases r with
  | node form parts => exact fun hbranch hlist hw => (hw.sift_statement hq hbranch hlist).symm

mutual

/-- What is left of a statement has the tree that is left of its tree. -/
theorem Stmt.rose_sift (hq : Leafy q) (hgoes : ∀ s, goes s = q s.rose.label.kind) :
    ∀ s : Stmt, (s.sift goes emptied).rose = s.rose.sift q emptied
  | .block body loc => by
      have hblock : q .block = false := hq.list rfl
      simp [Stmt.sift, Stmt.rose, Rose.sift, hblock, Stmt.roses_siftAll hq hgoes body, Kind.isList]
  | .branch test truthy none loc => by
      have htest : test.rose.sift q emptied = test.rose :=
        test.wellFormed_rose.sift_eq_self hq (by simp) (by simp)
      simp [Stmt.sift, Stmt.rose, Rose.sift, Rose.siftAll, hq.branch, Kind.isList, htest,
        Stmt.rose_sift hq hgoes truthy]
  | .branch test truthy (some falsy) loc => by
      have htest : test.rose.sift q emptied = test.rose :=
        test.wellFormed_rose.sift_eq_self hq (by simp) (by simp)
      simp [Stmt.sift, Stmt.rose, Rose.sift, Rose.siftAll, hq.branch, Kind.isList, htest,
        Stmt.rose_sift hq hgoes truthy, Stmt.rose_sift hq hgoes falsy]
  | .empty _ | .expression _ _ | .ret _ _ | .raise _ _ | .setVariable _ _ _ | .constantPool _ _
  | .declareVariable _ _ _ | .push _ _ | .trace _ _ | .stackCall _ _ _ _ =>
      Stmt.rose_sift_leaf hq hgoes (by rw [Stmt.sift] <;> nofun) nofun rfl

/-- What is left of statements has the trees that are left of theirs. -/
theorem Stmt.roses_siftAll (hq : Leafy q) (hgoes : ∀ s, goes s = q s.rose.label.kind) :
    ∀ ss : List Stmt, Stmt.roses (Stmt.siftAll goes emptied ss) =
      Rose.siftAll q emptied true (Stmt.roses ss)
  | [] => rfl
  | s :: ss => by
      rw [Stmt.siftAll, Stmt.roses, Rose.siftAll, hgoes, Bool.true_and]
      split
      · exact Stmt.roses_siftAll hq hgoes ss
      · rw [Stmt.roses, Stmt.rose_sift hq hgoes s, Stmt.roses_siftAll hq hgoes ss]

end

end Syntax

theorem Stmt.isEmpty_eq (s : Stmt) : s.isEmpty = decide (s.rose.label.kind = .empty) := by
  cases s
  case branch test truthy falsy loc => cases falsy <;> rfl
  all_goals rfl

theorem Stmt.isPool_eq (s : Stmt) : s.isPool = SyntaxTree.definesPool s.rose.label.kind := by
  cases s
  case branch test truthy falsy loc => cases falsy <;> rfl
  all_goals rfl

/-- What is left of a script has the tree that is left of its tree. -/
theorem Script.rose_siftAll {goes : Stmt → Bool} {q : Kind → Bool} {emptied : Bool} (hq : Leafy q)
    (hgoes : ∀ s, goes s = q s.rose.label.kind) (s : Script) :
    ({ s with body := Stmt.siftAll goes emptied s.body } : Script).rose =
      s.rose.sift q emptied := by
  have hscript : q .script = false := hq.list rfl
  simp [Script.rose, Rose.sift, hscript, Kind.isList, Stmt.roses_siftAll hq hgoes]

theorem Script.rose_withoutEmpties (s : Script) :
    s.withoutEmpties.rose = s.rose.sift (fun k => decide (k = .empty)) false :=
  s.rose_siftAll leafy_empty Stmt.isEmpty_eq

theorem Script.rose_withoutUnusedPools (s : Script) :
    s.withoutUnusedPools.rose = s.rose.withoutUnusedPools := by
  rw [Script.withoutUnusedPools, Script.usesPools, Rose.withoutUnusedPools]
  split
  · rfl
  · exact s.rose_siftAll leafy_definesPool Stmt.isPool_eq

end ScriptRecovery
