import ScriptRecovery.Proofs.Lower.Emission
import ScriptRecovery.Proofs.Reduce.Schedules

/-!
# The actions that reduction leaves

A graph holds the actions of its reachable edges, those on the arms of conditional edges among them
(`FlowGraph.Holds`).  A splice changes nothing about it when the row holds what the edges of the
region did (`Spliced.someEdge_iff`).

An action without a recipe is never resolved, turned into a template or merged, and forming a
conditional only moves it onto an arm.  So a graph holds such an action after the pipeline exactly
if it did before (`Regular.holds_pipeline`).
-/

namespace ScriptRecovery

namespace Graph

variable {ε : Type} {g g' : Graph ε} {n dest : Nat} {gone : Nat → Prop} {row : List ε}
  {P : ε → Prop}

/-! ## Edges out of some nodes -/

/-- Whether one of the edges out of some nodes has a property. -/
def SomeEdge (g : Graph ε) (nodes : Nat → Prop) (P : ε → Prop) : Prop :=
  ∃ m node l, nodes m ∧ g.node? m = some node ∧ l ∈ node.links ∧ P l.edge

theorem someEdge_or {nodes nodes' : Nat → Prop} :
    g.SomeEdge (fun m => nodes m ∨ nodes' m) P ↔ g.SomeEdge nodes P ∨ g.SomeEdge nodes' P := by
  constructor
  · rintro ⟨m, node, l, hm | hm, h⟩
    · exact .inl ⟨m, node, l, hm, h⟩
    · exact .inr ⟨m, node, l, hm, h⟩
  · rintro (⟨m, node, l, hm, h⟩ | ⟨m, node, l, hm, h⟩)
    · exact ⟨m, node, l, .inl hm, h⟩
    · exact ⟨m, node, l, .inr hm, h⟩

theorem someEdge_eq {node : Node ε} (h : g.node? n = some node) :
    g.SomeEdge (· = n) P ↔ ∃ l ∈ node.links, P l.edge := by
  constructor
  · rintro ⟨m, node', l, rfl, hnode, hl, hP⟩
    cases h.symm.trans hnode
    exact ⟨l, hl, hP⟩
  · rintro ⟨l, hl, hP⟩
    exact ⟨n, node, l, rfl, h, hl, hP⟩

theorem Lane.someEdge_iff {prev x : Nat} {ns : List Nat} {es : List ε}
    (h : g.Lane dest prev x ns es) : g.SomeEdge (· ∈ ns) P ↔ ∃ e ∈ es, P e := by
  induction h with
  | done => simp [SomeEdge]
  | step _ _ hnode _ ih =>
    simp only [List.mem_cons]
    rw [someEdge_or, someEdge_eq hnode, ih]
    simp [Node.links]

/-- The edges of a row are edges out of the nodes it goes through. -/
theorem Row.exists_link {low m : Nat} {es : List ε} (h : g.Row low dest m es) (hg : g.Sound)
    (hm : g.Reachable m) {e : ε} (he : e ∈ es) :
    ∃ k out, g.Reachable k ∧ g.node? k = some (.simple ⟨e, out⟩) := by
  induction h with
  | nil => simp at he
  | cons _ hnode _ ih =>
    rcases List.mem_cons.1 he with rfl | he
    · exact ⟨_, _, hm, hnode⟩
    · exact ih (hg.reachable_target hm (by simp [hnode])) he

/-- A splice of a row that has what the region had leaves what the graph has. -/
theorem Spliced.someEdge_iff (h : g.Spliced g' n dest gone row) (hg : g.Sound) (hg' : g'.Sound)
    (hr : g.Region n dest gone) (hin : ∀ m, gone m → g.Reachable m)
    (hrow : (∃ e ∈ row, P e) ↔ g.SomeEdge (fun m => m = n ∨ gone m) P) :
    g'.SomeEdge g'.Reachable P ↔ g.SomeEdge g.Reachable P := by
  constructor
  · rintro ⟨m, node, l, hm, hnode, hl, hP⟩
    cases h.site hg hr hm with
    | kept hm _ _ hsame => exact ⟨m, node, l, hm, hsame ▸ hnode, hl, hP⟩
    | laid hpre _ hnode' _ =>
      cases hnode.symm.trans hnode'
      obtain rfl : l = _ := by simpa [Node.links] using hl
      obtain ⟨k, node, l, hk, hold⟩ := hrow.1 ⟨_, by simp [hpre], hP⟩
      exact ⟨k, node, l, hk.elim (fun hk => hk ▸ hr.entry) (hin k), hold⟩
  · rintro ⟨m, node, l, hm, hnode, hl, hP⟩
    by_cases hregion : m = n ∨ gone m
    · obtain ⟨e, he, hP⟩ := hrow.2 ⟨m, node, l, hregion, hnode, hl, hP⟩
      obtain ⟨e', es, next, hes, hnode', hlaid⟩ := h.laid
      have hway : g'.Row 0 dest n row :=
        hes ▸ .cons (Nat.zero_le _) hnode' (hlaid.mono (Nat.zero_le _))
      have hn : g'.Reachable n := h.reachable.2 (.inl ⟨hr.entry, hr.entry_kept⟩)
      obtain ⟨k, out, hk, hnodek⟩ := hway.exists_link hg' hn he
      exact ⟨k, _, ⟨e, out⟩, hk, hnodek, by simp [Node.links], hP⟩
    · rw [not_or] at hregion
      refine ⟨m, node, l, h.reachable.2 (.inl ⟨hm, hregion.2⟩), ?_, hl, hP⟩
      rw [h.kept hm.lt_size hregion.1 hregion.2, hnode]

end Graph

/-! ## Edges that hold an action -/

namespace Edge

variable {a : Action}

@[simp] theorem not_holds_plain : ¬ Edge.plain.Holds a := by rintro ⟨⟩

@[simp] theorem not_holds_ifTest : ¬ Edge.ifTest.Holds a := by rintro ⟨⟩

@[simp] theorem not_holds_template (t : Template) : ¬ (Edge.template t).Holds a := by rintro ⟨⟩

theorem holds_rowOf {es : List Edge} :
    (∃ e ∈ Graph.rowOf es, e.Holds a) ↔ ∃ e ∈ es, e.Holds a := by
  cases es with
  | nil =>
    simp only [Graph.rowOf, List.mem_singleton, exists_eq_left, List.not_mem_nil, false_and,
      exists_false, iff_false]
    exact not_holds_plain
  | cons _ _ => exact Iff.rfl

theorem holds_conditional {es es' : List Edge} :
    (Edge.conditional (.linear es) (.linear es')).Holds a ↔
      (∃ e ∈ es, e.Holds a) ∨ ∃ e ∈ es', e.Holds a := by
  have hpath : ∀ es : List Edge, Graph.rowOf es = (Graph.linear es).path.1 := fun es => by
    rw [Graph.path_linear]
  rw [← holds_rowOf, ← @holds_rowOf a es', hpath es, hpath es']
  constructor
  · rintro (_ | ⟨he, ha⟩ | ⟨he, ha⟩)
    · exact .inl ⟨_, he, ha⟩
    · exact .inr ⟨_, he, ha⟩
  · rintro (⟨e, he, ha⟩ | ⟨e, he, ha⟩)
    · exact .onTrue he ha
    · exact .onFalse he ha

/-- What is merged holds what its parts do. -/
theorem holds_merge {e e' both : Edge} (h : e.merge e' = .ok (some both)) :
    both.Holds a ↔ e.Holds a ∨ e'.Holds a := by
  obtain ⟨rfl, rfl⟩ | ⟨rfl, rfl⟩ | ⟨t₁, t₂, t, rfl, rfl, -, rfl⟩ := merge_eq_ok h <;> simp

theorem holds_mergesTo {row row' : List Edge} (h : MergesTo row row') :
    (∃ e ∈ row', e.Holds a) ↔ ∃ e ∈ row, e.Holds a := by
  obtain ⟨pre, post, hmerge⟩ := h
  simp only [List.mem_append, List.mem_cons, or_and_right, exists_or, exists_eq_left,
    holds_merge hmerge, or_assoc]

/-- Merging along a row leaves what it holds. -/
theorem holds_reduceRow {row row' : List Edge} (h : reduceRow row = .ok (some row')) :
    (∃ e ∈ row', e.Holds a) ↔ ∃ e ∈ row, e.Holds a := by
  have hmerges := reduceRow_merges h
  clear h
  induction hmerges with
  | refl => exact Iff.rfl
  | tail _ hstep ih => exact (holds_mergesTo hstep).trans ih

end Edge

namespace FlowGraph

variable {traceName : String} {g g' : FlowGraph} {a : Action}

/-- Whether an action is held by a reachable edge. -/
def Holds (g : FlowGraph) (a : Action) : Prop := g.SomeEdge g.Reachable (Edge.Holds a)

/-! ## The passes -/

/-- Splices of rows that hold what their regions do leave what a graph holds. -/
theorem holds_of_reduces {α : Type} {p : α → Patch} {V : FlowGraph → α → Prop}
    (hV : ∀ {g : FlowGraph} {x : α}, g.Regular traceName → V g x →
      (∀ m ∈ (p x).gone, g.Reachable m) ∧ ((∃ e ∈ (p x).row, e.Holds a) ↔
        g.SomeEdge (fun m => m = (p x).source ∨ m ∈ (p x).gone) (Edge.Holds a)))
    (h : Reduces traceName p V g g') : g'.Holds a ↔ g.Holds a := by
  induction h with
  | refl => exact Iff.rfl
  | tail _ hlast ih =>
    obtain ⟨hregular, x, hx, happlied⟩ := hlast
    obtain ⟨hin, hrow⟩ := hV hregular hx
    exact (happlied.spliced.someEdge_iff hregular.sound happlied.regular.sound happlied.region hin
      hrow).trans ih

/-- Splices of single edges that hold an action exactly if what takes their place does. -/
theorem holds_of_picked {α : Type} {pick : Nat → Edge → Option α} {row : α → List Edge}
    (hpick : ∀ {n : Nat} {e : Edge} {x : α}, pick n e = some x →
      ((∃ e' ∈ row x, e'.Holds a) ↔ e.Holds a))
    (h : Reduces traceName (g.edgePatch row) (g.StillPicked pick row) g g') :
    g'.Holds a ↔ g.Holds a := by
  refine holds_of_reduces (fun {g₁ x} hg₁ hx => ⟨by simp [edgePatch], ?_⟩) h
  obtain ⟨e, hnode, hp⟩ := hx.node
  simp only [edgePatch, List.not_mem_nil, or_false]
  rw [Edge.holds_rowOf, hpick hp, Graph.someEdge_eq hnode]
  simp [Node.links]

theorem holds_formTemplates (ha : a.recipe? = none)
    (h : Reduces traceName (g.edgePatch id)
      (g.StillPicked (fun _ => Edge.toTemplates? traceName) id) g g') :
    g'.Holds a ↔ g.Holds a := by
  refine holds_of_picked (fun {n e row} hp => ?_) h
  obtain ⟨b, ts, rfl, hts, rfl⟩ := toTemplates?_eq_some hp
  refine iff_of_false ?_ ?_
  · rintro ⟨e, he, hholds⟩
    obtain ⟨t, -, rfl⟩ := List.mem_map.1 he
    cases hholds
  · rintro ⟨⟩
    cases a <;> simp_all [Action.templates?, Action.recipe?]

theorem holds_inlinePools {states : Solution PoolState} (ha : a.recipe? = none)
    (h : Reduces traceName (g.edgePatch fun e => [e])
      (g.StillPicked (pickPush states) fun e => [e]) g g') :
    g'.Holds a ↔ g.Holds a := by
  refine holds_of_picked (fun {n e e'} hp => ?_) h
  simp only [pickPush, Option.bind_eq_bind, Option.bind_eq_some_iff] at hp
  obtain ⟨_, -, pool, -, hp⟩ := hp
  obtain ⟨values, rfl, rfl⟩ := inlinePool?_eq_some hp
  have hpush : ∀ {values : List Operand}, ¬ (Edge.action (.push values)).Holds a := by
    rintro values ⟨⟩
    cases ha
  simp [hpush]

theorem holds_mergeChains (h : Reduces traceName g.chainPatch g.StillChain g g') :
    g'.Holds a ↔ g.Holds a := by
  refine holds_of_reduces (fun {g₁ r} hg₁ hr => ?_) h
  obtain ⟨chain, row⟩ := r
  obtain ⟨es, hchain, hrow⟩ := hr
  simp only [chainPatch] at hchain hrow ⊢
  generalize g.chainDest chain = dest at hchain
  cases hchain with
  | @mk n x e ns es hn hnode hlane hnd =>
    have hx : x ∈ g₁.targets n := by simp [hnode]
    refine ⟨(hlane.reachable hg₁.sound (hg₁.sound.reachable_target hn hx)).1, ?_⟩
    rw [Edge.holds_rowOf, Edge.holds_reduceRow hrow]
    show _ ↔ g₁.SomeEdge (fun m => m = n ∨ m ∈ ns) _
    rw [Graph.someEdge_or, Graph.someEdge_eq hnode, hlane.someEdge_iff]
    simp [Node.links]

theorem holds_formConditionals (h : Reduces traceName g.regionPatch g.StillDiamond g g') :
    g'.Holds a ↔ g.Holds a := by
  refine holds_of_reduces (fun {g₁ c} hg₁ hc => ?_) h
  obtain ⟨p, b, b', ns, ns', es, es', hdiamond, hedge, hgone⟩ := hc
  constructor
  · intro m hm
    exact hdiamond.reachable_between hg₁.sound m ((hgone m).1 hm)
  · simp only [hgone, Graph.mem_between]
    simp only [regionPatch, hedge]
    rw [Graph.someEdge_or, Graph.someEdge_or, Graph.someEdge_or, Graph.someEdge_eq hdiamond.way,
      Graph.someEdge_eq hdiamond.branch, hdiamond.onTrue.someEdge_iff,
      hdiamond.onFalse.someEdge_iff]
    simp only [Edge.holds_conditional, Node.links, List.mem_cons, List.not_mem_nil, or_false,
      exists_eq_or_imp, exists_eq_left, Edge.not_holds_ifTest, false_or]
    exact or_or_or_comm

/-- The pipeline leaves the actions without a recipe that a graph holds. -/
theorem Regular.holds_pipeline (hg : g.Regular traceName) {strict fixpoint : Bool}
    {maxIterations : Nat} :
    ((Schedule.pipeline traceName strict fixpoint maxIterations).run g).Leaves fun g' =>
      ∀ a : Action, a.recipe? = none → (g'.Holds a ↔ g.Holds a) := by
  have hpass : ∀ p ∈ (Schedule.pipeline traceName strict fixpoint maxIterations).passes,
      ∀ iteration g₁,
        (g₁.Regular traceName ∧ ∀ a : Action, a.recipe? = none → (g₁.Holds a ↔ g.Holds a)) →
        (p.run iteration g₁).Leaves fun g' => g'.Regular traceName ∧
          ∀ a : Action, a.recipe? = none → (g'.Holds a ↔ g.Holds a) := by
    intro p hp iteration g₁ hg₁
    refine leaves_each (fun _ _ h hold a ha => ?_) (fun h hold a ha => ?_) (fun h hold a ha => ?_)
      (fun h hold a ha => ?_) hp iteration hg₁
    · exact (holds_inlinePools ha h).trans (hold a ha)
    · exact (holds_formTemplates ha h).trans (hold a ha)
    · exact (holds_mergeChains h).trans (hold a ha)
    · exact (holds_formConditionals h).trans (hold a ha)
  exact (Schedule.run_cases hpass ⟨hg, fun _ _ => Iff.rfl⟩).imp_right fun h => ⟨h.1, h.2.2⟩

end FlowGraph

end ScriptRecovery
