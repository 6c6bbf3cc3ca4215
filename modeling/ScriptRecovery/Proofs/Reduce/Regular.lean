import Mathlib.Logic.Relation
import ScriptRecovery.Proofs.Flow.Depicts
import ScriptRecovery.Proofs.Graph.Spliced
import ScriptRecovery.Proofs.Script.Draws
import ScriptRecovery.Outcome

/-!
# Graphs in the course of reduction

Every graph between construction and lowering is regular (`FlowGraph.Regular`): it is sound, tests
and test edges belong together, and its edges are of the few sorts that construction and reduction
make.

A pass plans its splices on one graph and carries them out one after another.  A splice is described
by a `Patch`, and keeps a graph regular when the row it lays ends in a test edge exactly if it leads
to a test (`Regular.splice`).  Patches that are apart do not disturb each other, so a plan of
patches that fit the first graph can be carried out to its end (`Regular.applyAll_eq_ok`).
-/

namespace ScriptRecovery

/-- An edge of the sorts that construction and reduction make. -/
inductive Edge.Lawful (traceName : String) : Edge → Prop
  | plain : Lawful traceName .plain
  | ifTrue : Lawful traceName .ifTrue
  | ifFalse : Lawful traceName .ifFalse
  | ifTest : Lawful traceName .ifTest
  | action (a : Action) : Lawful traceName (.action a)
  | template {t : Template} : t.Formed traceName → Lawful traceName (.template t)
  | conditional {es es' : List Edge} : (∀ e ∈ es, Lawful traceName e) →
      (∀ e ∈ es', Lawful traceName e) →
      Lawful traceName (.conditional (.linear es) (.linear es'))

namespace FlowGraph

/-- A graph that construction or reduction can give, for a name of the trace function. -/
structure Regular (traceName : String) (g : FlowGraph) : Prop where
  sound : g.Sound
  tested : g.Tested
  lawful : ∀ {n : Nat} {node : Node Edge} {l : Link Edge}, g.Reachable n →
    g.node? n = some node → l ∈ node.links → l.edge.Lawful traceName

/-- The graph of a stream is regular. -/
theorem regular_ofStream {traceName : String} {s : Stream} {g : FlowGraph}
    (h : ofStream s = .ok g) : g.Regular traceName := by
  obtain ⟨g', _, hok, hsound, -, htested, hdrawn⟩ := depicts_ofStream s
  obtain rfl := Except.ok.inj (hok.symm.trans h)
  refine ⟨hsound, htested, fun {n node l} _ hn hl => ?_⟩
  rcases (hdrawn n node hn).edge_cases hl with h | ⟨a, h⟩ | h | h | h <;> rw [h]
  · exact .plain
  · exact .action a
  · exact .ifTest
  · exact .ifTrue
  · exact .ifFalse

/-! ## One splice -/

/-- A row of lawful edges that leads to a place, with a test edge exactly at the end and exactly if
that place is a test. -/
structure Fits (traceName : String) (g : FlowGraph) (dest : Nat) (row : List Edge) : Prop where
  lawful : ∀ e ∈ row, e.Lawful traceName
  inner : ∀ {pre : List Edge} {e : Edge} {post : List Edge}, row = pre ++ e :: post →
    post ≠ [] → e ≠ .ifTest
  last : ∀ {pre : List Edge} {e : Edge}, row = pre ++ [e] →
    (e = .ifTest ↔ ∃ a b, g.node? dest = some (.branch a b))

variable {traceName : String} {g g' : FlowGraph} {n dest : Nat} {gone : Nat → Prop}
  {row : List Edge}

/-- No test is laid. -/
theorem Regular.branch_of_splice (hg : g.Regular traceName) (hr : g.Region n dest gone)
    (h : g.Spliced g' n dest gone row) {t : Nat} {a b : Link Edge} (ht : g'.Reachable t)
    (hab : g'.node? t = some (.branch a b)) : g.node? t = some (.branch a b) := by
  cases h.site hg.sound hr ht with
  | kept _ _ _ hsame => exact hsame ▸ hab
  | laid _ _ hnode _ => cases hnode.symm.trans hab

/-- A test that is kept is still one. -/
theorem branch_of_kept (h : g.Spliced g' n dest gone row)
    (hsimple : ∃ out, g.node? n = some (.simple out)) {t : Nat} {a b : Link Edge}
    (ht : g.Reachable t) (hgone : ¬ gone t) (hab : g.node? t = some (.branch a b)) :
    g'.node? t = some (.branch a b) := by
  rw [h.kept ht.lt_size _ hgone, hab]
  rintro rfl
  obtain ⟨out, hsimple⟩ := hsimple
  cases hsimple.symm.trans hab

/-- A test edge of the row is its last edge, and leads to a test. -/
theorem Fits.end_of_test (hrow : g.Fits traceName dest row) {pre post : List Edge} {t : Nat}
    (hpre : row = pre ++ .ifTest :: post) (hpost : g'.Row g.size dest t post) :
    post = [] ∧ t = dest ∧ ∃ a b, g.node? dest = some (.branch a b) := by
  cases hpost with
  | nil => exact ⟨rfl, rfl, (hrow.last hpre).1 rfl⟩
  | cons _ _ _ => exact absurd rfl (hrow.inner hpre (by simp))

section Splice

variable (hg : g.Regular traceName) (hr : g.Region n dest gone)
  (hsimple : ∃ out, g.node? n = some (.simple out))
  (hout : ∃ u, (u = n ∨ gone u) ∧ g.Reachable u ∧ dest ∈ g.targets u)
  (h : g.Spliced g' n dest gone row) (hg' : g'.Sound) (hrow : g.Fits traceName dest row)

include hg hout in
/-- No kept node leads to the test that the row leads to. -/
theorem Regular.ne_ifTest_of_kept {m : Nat} {a b : Link Edge} (hm : g.Reachable m)
    (hgone : ¬ gone m) (hmn : m ≠ n) (hab : g.node? dest = some (.branch a b)) :
    g.node? m ≠ some (.simple ⟨.ifTest, dest⟩) := by
  intro hnode
  obtain ⟨u, hu, hreach, hud⟩ := hout
  obtain rfl := hg.tested.unique hreach hm (hg.tested.only hreach hud hab) hnode
  exact hu.elim hmn hgone

include hg hr h hg' hrow in
theorem Regular.only_splice {m t : Nat} {a b : Link Edge} (hm : g'.Reachable m)
    (ht : t ∈ g'.targets m) (hab : g'.node? t = some (.branch a b)) :
    g'.node? m = some (.simple ⟨.ifTest, t⟩) := by
  have hab' := hg.branch_of_splice hr h (hg'.reachable_target hm ht) hab
  cases h.site hg.sound hr hm with
  | kept hold _ _ hsame =>
    rw [Graph.targets_congr hsame] at ht
    rw [hsame]
    exact hg.tested.only hold ht hab'
  | laid hpre _ hnode hpost =>
    rw [Graph.targets_of_simple hnode, List.mem_singleton] at ht
    subst ht
    cases hpost with
    | nil => rw [hnode, (hrow.last hpre).2 ⟨a, b, hab'⟩]
    | cons _ hnext _ => cases hnext.symm.trans hab

include hg hr hsimple h hrow in
theorem Regular.branch_splice {m t : Nat} (hm : g'.Reachable m)
    (hnode : g'.node? m = some (.simple ⟨.ifTest, t⟩)) :
    ∃ a b, g'.node? t = some (.branch a b) := by
  cases h.site hg.sound hr hm with
  | kept hold hgone hmn hsame =>
    have hnode' := hsame ▸ hnode
    obtain ⟨a, b, hab⟩ := hg.tested.branch hold hnode'
    have ht : t ∈ g.targets m := by rw [Graph.targets_of_simple hnode']; simp
    have hkept : ¬ gone t := fun hgt => (hr.enclosed hgt hold ht).elim hmn hgone
    exact ⟨a, b, branch_of_kept h hsimple (hg.sound.reachable_target hold ht) hkept hab⟩
  | laid hpre _ hnode' hpost =>
    cases hnode.symm.trans hnode'
    obtain ⟨-, rfl, a, b, hab⟩ := hrow.end_of_test hpre hpost
    exact ⟨a, b, branch_of_kept h hsimple hr.exit hr.exit_kept hab⟩

include hg hr hout h hrow in
theorem Regular.unique_splice {m₁ m₂ t : Nat} (hm₁ : g'.Reachable m₁) (hm₂ : g'.Reachable m₂)
    (hnode₁ : g'.node? m₁ = some (.simple ⟨.ifTest, t⟩))
    (hnode₂ : g'.node? m₂ = some (.simple ⟨.ifTest, t⟩)) : m₁ = m₂ := by
  cases h.site hg.sound hr hm₁ with
  | kept hold₁ hgone₁ hmn₁ hsame₁ =>
    cases h.site hg.sound hr hm₂ with
    | kept hold₂ _ _ hsame₂ =>
      exact hg.tested.unique hold₁ hold₂ (hsame₁ ▸ hnode₁) (hsame₂ ▸ hnode₂)
    | laid hpre _ hnode hpost =>
      cases hnode₂.symm.trans hnode
      obtain ⟨-, rfl, a, b, hab⟩ := hrow.end_of_test hpre hpost
      exact absurd (hsame₁ ▸ hnode₁) (hg.ne_ifTest_of_kept hout hold₁ hgone₁ hmn₁ hab)
  | laid hpre₁ hwalk₁ hnode hpost₁ =>
    cases hnode₁.symm.trans hnode
    obtain ⟨rfl, rfl, a, b, hab⟩ := hrow.end_of_test hpre₁ hpost₁
    cases h.site hg.sound hr hm₂ with
    | kept hold₂ hgone₂ hmn₂ hsame₂ =>
      exact absurd (hsame₂ ▸ hnode₂) (hg.ne_ifTest_of_kept hout hold₂ hgone₂ hmn₂ hab)
    | laid hpre₂ hwalk₂ hnode hpost₂ =>
      cases hnode₂.symm.trans hnode
      obtain ⟨rfl, -, -⟩ := hrow.end_of_test hpre₂ hpost₂
      obtain rfl := (List.append_inj_left' (hpre₁.symm.trans hpre₂) rfl)
      exact hwalk₁.unique hwalk₂

include hg hr hsimple hout h hg' hrow in
/-- A splice of a row that fits keeps a graph regular. -/
theorem Regular.splice : g'.Regular traceName where
  sound := hg'
  tested := ⟨hg.only_splice hr h hg' hrow, hg.branch_splice hr hsimple h hrow,
    hg.unique_splice hr hout h hrow⟩
  lawful := h.forall_edges hg.sound hr hg.lawful hrow.lawful

end Splice

/-! ## Plans of splices -/

/-- A splice: the two nodes it lies between, the nodes given up, and the row laid instead. -/
structure Patch where
  source : Nat
  dest : Nat
  gone : List Nat
  row : List Edge

/-- Whether a splice leaves another one as it was. -/
structure Patch.Apart (p q : Patch) : Prop where
  nodes : ∀ x, x = q.source ∨ x ∈ q.gone → x ≠ p.source ∧ x ∉ p.gone
  exit : p.dest ∉ q.gone

/-- Whether a splice turns one graph into another, which is regular.  What is cut out leads to its
exit, and each of its nodes has one way in. -/
structure Patch.Applied (traceName : String) (p : Patch) (g g' : FlowGraph) : Prop where
  region : g.Region p.source p.dest (· ∈ p.gone)
  spliced : g.Spliced g' p.source p.dest (· ∈ p.gone) p.row
  regular : g'.Regular traceName
  leads : ∃ u, (u = p.source ∨ u ∈ p.gone) ∧ g.Reachable u ∧ p.dest ∈ g.targets u
  lone : ∀ x ∈ p.gone, ∃ u, ∀ k ∈ g.predecessors x, k = u

/-- A graph that splices lead to, all of which are valid when they are carried out. -/
abbrev Reduces {α : Type} (traceName : String) (p : α → Patch) (V : FlowGraph → α → Prop) :
    FlowGraph → FlowGraph → Prop :=
  Relation.ReflTransGen fun g g' => g.Regular traceName ∧ ∃ a, V g a ∧ (p a).Applied traceName g g'

/-- Whether a splice turns one graph into another. -/
structure Patch.Carried (p : Patch) (g g' : FlowGraph) : Prop where
  region : g.Region p.source p.dest (· ∈ p.gone)
  spliced : g.Spliced g' p.source p.dest (· ∈ p.gone) p.row

section Plans

variable {α : Type} {f : FlowGraph → α → Except Fault FlowGraph} {p : α → Patch}
  {V : FlowGraph → α → Prop}

/-- A plan of splices that are valid in a graph and apart from each other is carried out, when each
of them carries on a property of the graph and of what is left of the plan, under which graphs are
sound.  The nodes given up are not reachable afterwards. -/
theorem applyAll_along {I : List α → FlowGraph → Prop} {R : FlowGraph → FlowGraph → Prop}
    (hsound : ∀ {as g}, I as g → g.Sound)
    (hentry : ∀ {as g a}, I as g → V g a → g.Reachable (p a).source)
    (hsize : ∀ {g a}, V g a → ∀ x ∈ (p a).gone, x < g.size)
    (hkeep : ∀ {g g' a}, V g a → g.Keeps g' (p a).source (· ∈ (p a).gone) → V g' a)
    (hstep : ∀ {g a as}, I (a :: as) g → V g a →
      ∃ g', f g a = .ok g' ∧ I as g' ∧ (p a).Carried g g' ∧ R g g')
    {g : FlowGraph} {as : List α} (hg : I as g) (hvalid : ∀ a ∈ as, V g a)
    (hapart : as.Pairwise fun a b => (p a).Apart (p b)) :
    ∃ g', Outcome.applyAll f g as = ⟨g', .ok true⟩ ∧ I [] g' ∧ Relation.ReflTransGen R g g' ∧
      ∀ x < g.size, ¬ g.Reachable x ∨ (∃ a ∈ as, x ∈ (p a).gone) → ¬ g'.Reachable x := by
  induction as generalizing g with
  | nil => exact ⟨g, rfl, hg, .refl, by simp⟩
  | cons a as ih =>
    rw [List.pairwise_cons] at hapart
    obtain ⟨g₁, hedit, hg₁, hcarried, hR⟩ := hstep hg (hvalid a (by simp))
    have hvalid₁ : ∀ b ∈ as, V g₁ b := by
      intro b hb
      have hvb := hvalid b (by simp [hb])
      have hab := hapart.1 b hb
      exact hkeep hvb (hcarried.spliced.keeps (hsound hg) (hsound hg₁) hcarried.region
        (hentry hg hvb) (hsize hvb) hab.nodes hab.exit)
    obtain ⟨g', happly, hg', hreduces, hout⟩ := ih hg₁ hvalid₁ hapart.2
    refine ⟨g', ?_, hg', .head hR hreduces, fun x hx hgone => ?_⟩
    · rw [Outcome.applyAll, hedit]
      exact happly
    · refine hout x (Nat.lt_of_lt_of_le hx hcarried.spliced.size_le) ?_
      rw [hcarried.spliced.reachable, not_or, not_and_not_right, not_and]
      rcases hgone with hx' | ⟨b, hb, hxb⟩
      · exact .inl ⟨fun h => absurd h hx', fun hle => absurd hx (Nat.not_lt.2 hle)⟩
      · rcases List.mem_cons.1 hb with rfl | hb
        · exact .inl ⟨fun _ => hxb, fun hle => absurd hx (Nat.not_lt.2 hle)⟩
        · exact .inr ⟨b, hb, hxb⟩

/-- A plan of splices that are valid in a graph and apart from each other is carried out, when each
of them keeps a property under which graphs are sound. -/
theorem applyAll_eq_ok {I : FlowGraph → Prop} {R : FlowGraph → FlowGraph → Prop}
    (hsound : ∀ {g}, I g → g.Sound) (hsize : ∀ {g a}, V g a → ∀ x ∈ (p a).gone, x < g.size)
    (hkeep : ∀ {g g' a}, V g a → g.Keeps g' (p a).source (· ∈ (p a).gone) → V g' a)
    (hstep : ∀ {g a}, I g → V g a → ∃ g', f g a = .ok g' ∧ I g' ∧ (p a).Carried g g' ∧ R g g')
    {g : FlowGraph} (hg : I g) {as : List α} (hvalid : ∀ a ∈ as, V g a)
    (hapart : as.Pairwise fun a b => (p a).Apart (p b)) :
    ∃ g', Outcome.applyAll f g as = ⟨g', .ok true⟩ ∧ I g' ∧ Relation.ReflTransGen R g g' ∧
      ∀ x < g.size, ¬ g.Reachable x ∨ (∃ a ∈ as, x ∈ (p a).gone) → ¬ g'.Reachable x := by
  refine applyAll_along (p := p) (V := V) (I := fun _ => I) hsound (fun {_ g a} hg hv => ?_) hsize
    hkeep hstep hg hvalid hapart
  obtain ⟨_, -, -, hcarried, -⟩ := hstep hg hv
  exact hcarried.region.entry

/-- A plan for a regular graph leads to a regular graph. -/
theorem Regular.applyAll_eq_ok (hsize : ∀ {g a}, V g a → ∀ x ∈ (p a).gone, x < g.size)
    (hkeep : ∀ {g g' a}, V g a → g.Keeps g' (p a).source (· ∈ (p a).gone) → V g' a)
    (hstep : ∀ {g a}, g.Regular traceName → V g a →
      ∃ g', f g a = .ok g' ∧ (p a).Applied traceName g g')
    {g : FlowGraph} (hg : g.Regular traceName) {as : List α} (hvalid : ∀ a ∈ as, V g a)
    (hapart : as.Pairwise fun a b => (p a).Apart (p b)) :
    ∃ g', Outcome.applyAll f g as = ⟨g', .ok true⟩ ∧ g'.Regular traceName ∧
      Reduces traceName p V g g' ∧
      ∀ x < g.size, ¬ g.Reachable x ∨ (∃ a ∈ as, x ∈ (p a).gone) → ¬ g'.Reachable x := by
  refine FlowGraph.applyAll_eq_ok (p := p) Regular.sound hsize hkeep (fun {g a} hg hv => ?_) hg
    hvalid hapart
  obtain ⟨g', hedit, h⟩ := hstep hg hv
  exact ⟨g', hedit, h.regular, ⟨h.region, h.spliced⟩, hg, a, hv, h⟩

/-- A plan for a sound graph leads to a sound graph with the same entry. -/
theorem Sound.applyAll_eq_ok (hsize : ∀ {g a}, V g a → ∀ x ∈ (p a).gone, x < g.size)
    (hkeep : ∀ {g g' a}, V g a → g.Keeps g' (p a).source (· ∈ (p a).gone) → V g' a)
    (hstep : ∀ {g a}, Graph.Sound g → V g a →
      ∃ g', f g a = .ok g' ∧ Graph.Sound g' ∧ (p a).Carried g g')
    {g : FlowGraph} (hg : Graph.Sound g) {as : List α} (hvalid : ∀ a ∈ as, V g a)
    (hapart : as.Pairwise fun a b => (p a).Apart (p b)) :
    ∃ g', Outcome.applyAll f g as = ⟨g', .ok true⟩ ∧ Graph.Sound g' ∧ g'.source = g.source := by
  obtain ⟨g', happly, hg', hsteps, -⟩ := FlowGraph.applyAll_eq_ok (p := p)
    (R := fun g g' => g'.source = g.source) id hsize hkeep (fun {g a} hg hv => by
      obtain ⟨g', hedit, hg', h⟩ := hstep hg hv
      exact ⟨g', hedit, hg', h, h.spliced.source⟩) hg hvalid hapart
  refine ⟨g', happly, hg', ?_⟩
  clear happly hg'
  induction hsteps with
  | refl => rfl
  | tail _ hlast ih => exact hlast.trans ih

end Plans

end FlowGraph

end ScriptRecovery
