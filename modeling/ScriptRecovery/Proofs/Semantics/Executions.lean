import ScriptRecovery.Proofs.Graph.Linear
import ScriptRecovery.Proofs.Reduce.Conditionals
import ScriptRecovery.Proofs.Semantics.Automata

/-!
# Executions of graphs with conditional edges

An execution goes through a graph from node to node.  Where a node branches, a test is taken off the
state and decides which way is taken.  A conditional edge takes a test off the state as well, and
then one of the graphs it holds is executed, up to an end of it, before the execution goes on behind
the edge.  So what is executed is a stack of graphs, each with the place it is at (`Level`).  What
the other edges do to the state is left open (`Behaviour`): those that only say where they go do
nothing, and all others are seen from outside, each with the state it acts on.

To put a conditional edge in place of a diamond does not change what is seen
(`Behaviour.sameExecutions_of_spliced`).  Between the two ends the execution is at an arm of the
diamond on one side, and on the other side at the same place of the graph that is the arm by itself,
above the graph with the conditional edge (`Foot`).  What is held by edges of either graph is
executed alike on top of both, whatever it is.

The pass carries out several of these splices one after another, so executions before and after it
are alike by transitivity (`FlowGraph.sameExecutions_formConditionals`).
-/

namespace ScriptRecovery

/-- What edges do to a state, and how a test is taken off it. -/
structure Behaviour (σ : Type) where
  /-- What an edge does. -/
  act : Edge → σ → σ
  /-- The test on a state, and the state without it. -/
  pop : σ → Bool × σ

/-- A level of an execution: the edges that are to be passed, and the node behind them. -/
structure Level where
  /-- The graph. -/
  graph : FlowGraph
  /-- The edges. -/
  row : List Edge
  /-- The node. -/
  node : Nat

/-- How an execution comes to rest. -/
inductive Halt (σ : Type)
  /-- The end is reached. -/
  | ended (state : σ)
  /-- A node has no way out and is no end. -/
  | incomplete (state : σ)

namespace Behaviour

variable {σ : Type}

/-- Passing an edge: what is seen of it, the graph to be executed for it, and the state. -/
def pass (B : Behaviour σ) (e : Edge) (s : σ) : List (Edge × σ) × List Level × σ :=
  match e with
  | .conditional ifTrue ifFalse =>
      let (holds, s) := B.pop s
      let g := if holds then ifTrue else ifFalse
      ([], [⟨g, [], g.source⟩], s)
  | e => if e.isTransparent then ([], [], s) else ([(e, s)], [], B.act e s)

/-- A step of an execution.  The graph on top of the stack is executed, and when the stack is empty
the execution has come to its end. -/
def step (B : Behaviour σ) : Automaton (List Level × σ) (Edge × σ) (Halt σ)
  | ([], s) => .rest (.ended s)
  | (⟨g, e :: es, n⟩ :: below, s) =>
      let (seen, levels, s) := B.pass e s
      .go seen (levels ++ ⟨g, es, n⟩ :: below, s)
  | (⟨g, [], n⟩ :: below, s) =>
      match g.node? n with
      | some (.simple out) => .go [] (⟨g, [out.edge], out.dest⟩ :: below, s)
      | some (.branch onTrue onFalse) =>
          let (holds, s) := B.pop s
          let out := if holds then onTrue else onFalse
          .go [] (⟨g, [out.edge], out.dest⟩ :: below, s)
      | some .done => .go [] (below, s)
      | some .pending | none => .rest (.incomplete s)

/-- The configuration in which a graph is to be executed from its entry. -/
def start (g : FlowGraph) (s : σ) : List Level × σ := ([⟨g, [], g.source⟩], s)

/-- Whether two graphs are executed alike, whatever their edges do and whatever the tests say. -/
def SameExecutions (g g' : FlowGraph) : Prop :=
  ∀ (σ : Type) (B : Behaviour σ) (s : σ), B.step.Alike B.step (start g s) (start g' s)

/-! ## Single steps -/

section Steps

variable (B : Behaviour σ) {g : FlowGraph} {n : Nat} {below : List Level} {s : σ}

theorem step_simple {out : Link Edge} (h : g.node? n = some (.simple out)) :
    B.step (⟨g, [], n⟩ :: below, s) = .go [] (⟨g, [out.edge], out.dest⟩ :: below, s) := by
  simp [step, h]

theorem step_branch {a b : Link Edge} (h : g.node? n = some (.branch a b)) :
    B.step (⟨g, [], n⟩ :: below, s) = .go []
      (⟨g, [(if (B.pop s).1 then a else b).edge], (if (B.pop s).1 then a else b).dest⟩ :: below,
        (B.pop s).2) := by
  simp [step, h]

theorem step_done (h : g.node? n = some .done) :
    B.step (⟨g, [], n⟩ :: below, s) = .go [] (below, s) := by
  simp [step, h]

theorem step_transparent {e : Edge} {es : List Edge} (h : e.isTransparent = true) :
    B.step (⟨g, e :: es, n⟩ :: below, s) = .go [] (⟨g, es, n⟩ :: below, s) := by
  cases e <;> first | rfl | cases h

theorem step_conditional {g₁ g₂ : FlowGraph} {es : List Edge} :
    B.step (⟨g, .conditional g₁ g₂ :: es, n⟩ :: below, s) = .go []
      (⟨if (B.pop s).1 then g₁ else g₂, [], (if (B.pop s).1 then g₁ else g₂).source⟩ ::
        ⟨g, es, n⟩ :: below, (B.pop s).2) := rfl

/-- What is on top of a stack acts in the same way on whatever it stands. -/
theorem step_top (f : Level) (s : σ) :
    (∃ o, ∀ below, B.step (f :: below, s) = .rest o) ∨
      ∃ seen levels s', ∀ below, B.step (f :: below, s) = .go seen (levels ++ below, s') := by
  obtain ⟨g, row, n⟩ := f
  cases row with
  | cons e es =>
    refine .inr ⟨(B.pass e s).1, (B.pass e s).2.1 ++ [⟨g, es, n⟩], (B.pass e s).2.2,
      fun below => ?_⟩
    simp [step]
  | nil =>
    cases hnode : g.node? n with
    | none => exact .inl ⟨.incomplete s, fun below => by simp [step, hnode]⟩
    | some node =>
      cases node with
      | pending => exact .inl ⟨.incomplete s, fun below => by simp [step, hnode]⟩
      | done => exact .inr ⟨[], [], s, fun below => B.step_done hnode⟩
      | simple out => exact .inr ⟨[], [_], s, fun below => B.step_simple hnode⟩
      | branch a b => exact .inr ⟨[], [_], _, fun below => B.step_branch hnode⟩

end Steps

/-! ## Diamonds -/

open FlowGraph

variable {g g' : FlowGraph} {n dest p : Nat} {a b : Link Edge} {ns ns' : List Nat}
  {es es' : List Edge}

/-- Where the two executions stand at the bottom of their stacks: at a node that was kept, or at the
same place of an arm, which on one side is a graph by itself above the graph with the conditional
edge. -/
inductive Foot (g g' : FlowGraph) (dest : Nat) (kept : Nat → Prop) :
    Nat → FlowGraph → Nat → List Level → Prop
  | same {y : Nat} : kept y → Foot g g' dest kept y g' y []
  | inside {arm : FlowGraph} {x i last : Nat} {post : List Edge} : g.Row 0 dest x post →
      arm.Row 0 last i post → arm.node? last = some .done →
      Foot g g' dest kept x arm i [⟨g', [], dest⟩]

/-- Whether two executions are at the same point, above what they have at the bottom. -/
inductive Abreast (g g' : FlowGraph) (dest : Nat) (kept : Nat → Prop) :
    List Level × σ → List Level × σ → Prop
  | ended {s : σ} : Abreast g g' dest kept ([], s) ([], s)
  | running {fs : List Level} {row : List Edge} {x y : Nat} {h : FlowGraph} {below : List Level}
      {s : σ} : Foot g g' dest kept x h y below →
      Abreast g g' dest kept (fs ++ [⟨g, row, x⟩], s) (fs ++ ⟨h, row, y⟩ :: below, s)

theorem Abreast.bottom {kept : Nat → Prop} {row : List Edge} {x y : Nat} {h : FlowGraph}
    {below : List Level} {s : σ} (hfoot : Foot g g' dest kept x h y below) :
    Abreast g g' dest kept ([⟨g, row, x⟩], s) (⟨h, row, y⟩ :: below, s) :=
  @running _ _ _ _ _ [] _ _ _ _ _ _ hfoot

/-- The arm that a test decides for, as a graph by itself: it is entered by the edge of the
branching node, and the rest of it is the rest of the arm. -/
theorem exists_arm (hd : g.Diamond n dest .ifTest p a b ns ns' es es') (holds : Bool) :
    ∃ arm last,
      (if holds then Graph.linear (a.edge :: es) else Graph.linear (b.edge :: es')) = arm ∧
      arm.node? arm.source = some (.simple ⟨(if holds then a else b).edge, 1⟩) ∧
      ∃ post, g.Row 0 dest (if holds then a else b).dest post ∧ arm.Row 0 last 1 post ∧
        arm.node? last = some .done := by
  have key : ∀ (l : Link Edge) (es : List Edge), g.Row 0 dest l.dest es →
      (Graph.linear (l.edge :: es)).node? (Graph.linear (l.edge :: es)).source =
        some (.simple ⟨l.edge, 1⟩) ∧
      ∃ post, g.Row 0 dest l.dest post ∧
        (Graph.linear (l.edge :: es)).Row 0 (l.edge :: es).length 1 post ∧
        (Graph.linear (l.edge :: es)).node? (l.edge :: es).length = some .done := by
    intro l es hrow
    have hlt : 0 < (Graph.rowOf (l.edge :: es)).length := by simp [Graph.rowOf]
    exact ⟨Graph.node_linear hlt, es, hrow, @Graph.row_linear _ _ (l.edge :: es) [l.edge] es rfl,
      @Graph.node_linear_last _ _ (l.edge :: es)⟩
  cases holds with
  | true => exact ⟨_, _, rfl, key a es hd.onTrue.row⟩
  | false => exact ⟨_, _, rfl, key b es' hd.onFalse.row⟩

section Splice

variable {gone : Nat → Prop}
  (hd : g.Diamond n dest .ifTest p a b ns ns' es es') (hg : Graph.Sound g)
  (hr : g.Region n dest gone)
  (hs : g.Spliced g' n dest gone
    [.conditional (.linear (a.edge :: es)) (.linear (b.edge :: es'))])

include hd hg hr hs

/-- At a node that was kept, which may be the one where the diamond starts, the executions meet
again. -/
theorem meets_at_kept (B : Behaviour σ) {y : Nat} (hy : g.Reachable y) (hgone : ¬ gone y) (s : σ) :
    B.step.Meets B.step (Abreast g g' dest fun y => g.Reachable y ∧ ¬ gone y)
      ([⟨g, [], y⟩], s) ([⟨g', [], y⟩], s) := by
  by_cases hyn : y = n
  · subst hyn
    obtain ⟨e, rest, next, hrow, hnode, hlaid⟩ := hs.laid
    obtain ⟨rfl, rfl⟩ := List.cons.inj hrow
    cases hlaid
    obtain ⟨arm, last, harm, hfirst, post, hpost, hpost', hlast⟩ := exists_arm hd (B.pop s).1
    -- one side goes to the test and past it, the other side into the edge and past its first edge
    refine .go (.succ (B.step_simple hd.way) (.succ (B.step_transparent rfl)
      (.one (B.step_branch hd.branch)))) (.succ (B.step_simple hnode) (.succ B.step_conditional
      (.one ?_))) (.bottom (.inside hpost hpost' hlast))
    rw [harm]
    exact B.step_simple hfirst
  · obtain ⟨hsame, hnext⟩ := hs.onward hg hr hy hgone hyn
    obtain ⟨node, hnode⟩ := Graph.exists_node? hy.lt_size
    have hnode' : g'.node? y = some node := hsame ▸ hnode
    rw [Graph.targets_of_node? hnode] at hnext
    cases node with
    | pending => exact absurd hnode (hg.complete hy)
    | done => exact .step (B.step_done hnode) (B.step_done hnode') .ended
    | simple out =>
      refine .step (B.step_simple hnode) (B.step_simple hnode') ?_
      exact .bottom (.same (hnext _ (by simp [Node.targets, Node.links])))
    | branch a b =>
      refine .step (B.step_branch hnode) (B.step_branch hnode') ?_
      refine .bottom (.same (hnext _ ?_))
      split <;> simp [Node.targets, Node.links]

/-- Executions at the same point meet again. -/
theorem meets_of_abreast (B : Behaviour σ) {c c' : List Level × σ}
    (h : Abreast g g' dest (fun y => g.Reachable y ∧ ¬ gone y) c c') :
    B.step.Meets B.step (Abreast g g' dest fun y => g.Reachable y ∧ ¬ gone y) c c' := by
  cases h with
  | @ended s => exact .rest .zero rfl .zero rfl
  | @running fs row x y h below s hfoot =>
    cases fs with
    | cons f fs =>
      rcases B.step_top f s with ⟨o, hrest⟩ | ⟨seen, levels, s', hgo⟩
      · exact .rest .zero (hrest _) .zero (hrest _)
      · refine .step (hgo (fs ++ _)) (hgo (fs ++ _)) ?_
        rw [← List.append_assoc, ← List.append_assoc]
        exact .running hfoot
    | nil =>
      cases row with
      | cons e row => exact .step rfl rfl (.running hfoot)
      | nil =>
        cases hfoot with
        | same hkept => exact meets_at_kept hd hg hr hs B hkept.1 hkept.2 s
        | inside hpost hpost' hlast =>
          cases hpost with
          | nil =>
            cases hpost'
            exact (meets_at_kept hd hg hr hs B hr.exit hr.exit_kept s).of_silent (B.step_done hlast)
          | cons _ hnode hrest =>
            cases hpost' with
            | cons _ hnode' hrest' =>
              refine .step (B.step_simple hnode) (B.step_simple hnode') ?_
              exact .bottom (.inside hrest hrest' hlast)

/-- A graph with a conditional edge in place of a diamond is executed like the graph with the
diamond. -/
theorem sameExecutions_of_spliced : SameExecutions g g' := by
  intro σ B s
  refine Automaton.alike_of_meets (R := Abreast g g' dest fun y => g.Reachable y ∧ ¬ gone y)
    (fun _ _ h => meets_of_abreast hd hg hr hs B h) ?_
  rw [start, start, hs.source]
  exact .bottom (.same ⟨hg.reachable_source, hr.source_kept⟩)

end Splice

end Behaviour

/-! ## The pass -/

namespace FlowGraph

open Behaviour

variable {g : FlowGraph}

/-- The conditionals that are found in a sound graph are formed without a change to what is
executed. -/
theorem Finds.sameExecutions (hg : Graph.Sound g) {l : List Nat} {cs : List Conditional}
    (h : g.Finds l cs) :
    ∃ g', Outcome.applyAll (fun g c => g.spliceRegion c.source c.dest [c.edge]) g cs =
      ⟨g', .ok true⟩ ∧ SameExecutions g g' := by
  have hstep : ∀ {g₁ c}, Graph.Sound g₁ → g.StillDiamond g₁ c →
      ∃ g₂, g₁.spliceRegion c.source c.dest [c.edge] = .ok g₂ ∧ Graph.Sound g₂ ∧
        (g.regionPatch c).Carried g₁ g₂ ∧ SameExecutions g₁ g₂ := by
    intro g₁ c hg₁ hv
    obtain ⟨g₂, hsplice, hsound, hcarried⟩ := hv.splice hg₁
    obtain ⟨p, a, b, ns, ns', es, es', hdiamond, hedge, hgone⟩ := hv
    refine ⟨g₂, hsplice, hsound, hcarried, ?_⟩
    have hspliced := hcarried.spliced
    simp only [regionPatch, hedge] at hspliced
    exact sameExecutions_of_spliced hdiamond hg₁ hcarried.region hspliced
  obtain ⟨g', happly, -, hsteps, -⟩ := applyAll_eq_ok (p := g.regionPatch) (R := SameExecutions) id
    StillDiamond.gone_lt_size StillDiamond.keeps hstep hg h.diamond h.apart
  refine ⟨g', happly, ?_⟩
  clear happly
  induction hsteps with
  | refl => exact fun σ B s => .refl B.step _
  | tail _ hlast ih => exact fun σ B s => (ih σ B s).trans (hlast σ B s)

/-- When the search for conditionals succeeds on a graph that was accepted, the graph is executed
afterwards as before. -/
theorem sameExecutions_formConditionals {nodes : Array (Node Edge)} {source iteration : Nat}
    {changed : Bool} (ho : Graph.ofNodes nodes source = .ok g)
    (hrun : (Pass.formConditionals.run iteration g).changed = .ok changed) :
    SameExecutions g (Pass.formConditionals.run iteration g).state := by
  have hg := (Graph.sound_of_ofNodes ho).1
  rcases conditionals_cases hg with ⟨n, fault, -, -, h⟩ | ⟨cs, hcs⟩
  · simp [Pass.formConditionals, h, Outcome.ofEdits, Outcome.failed] at hrun
  · obtain ⟨g', happly, hsame⟩ := hcs.sameExecutions hg
    obtain ⟨changed, hchanged⟩ := Outcome.ofEdits_eq_of_applyAll happly
    have hstate : (Pass.formConditionals.run iteration g).state = g' := by
      simp [Pass.formConditionals, conditionals, hcs.found, hchanged]
    rwa [hstate]

/-- An if/else whose arms run different code.  With a test that holds the first arm is run, before
and after the search. -/
theorem sameExecutions_formConditionals_arms :
    let nodes : Array (Node Edge) := #[.simple ⟨.ifTest, 1⟩,
      .branch ⟨.ifTrue, 2⟩ ⟨.ifFalse, 3⟩, .simple ⟨.action .trace, 4⟩, .simple ⟨.sub, 4⟩, .done]
    let g' := (Pass.formConditionals.run 0 (Graph.indexed nodes 0)).state
    let B : Behaviour Bool := ⟨fun _ s => !s, fun s => (s, s)⟩
    Graph.ofNodes nodes 0 = .ok (Graph.indexed nodes 0) ∧
      (Pass.formConditionals.run 0 (Graph.indexed nodes 0)).changed = .ok true ∧
      SameExecutions (Graph.indexed nodes 0) g' ∧
      B.step.Ends (start g' true) [(.action .trace, true)] (.ended false) := by
  intro nodes g' B
  have ho : Graph.ofNodes nodes 0 = .ok (Graph.indexed nodes 0) := by cbv
  have hrun : (Pass.formConditionals.run 0 (Graph.indexed nodes 0)).changed = .ok true := by cbv
  have hgo : B.step.Goes 7 (start (Graph.indexed nodes 0) true)
      ([] ++ ([] ++ ([] ++ ([] ++ ([] ++ ([(.action .trace, true)] ++ ([] ++ [])))))))
      ([], false) :=
    .succ rfl (.succ rfl (.succ rfl (.succ rfl (.succ rfl (.succ rfl (.succ rfl .zero))))))
  have hsame := sameExecutions_formConditionals ho hrun
  exact ⟨ho, hrun, hsame, ((hsame Bool B true).ends _ _).1 ⟨7, _, hgo, rfl⟩⟩

end FlowGraph

end ScriptRecovery
