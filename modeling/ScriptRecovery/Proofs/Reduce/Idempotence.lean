import ScriptRecovery.Proofs.Flow.Least
import ScriptRecovery.Proofs.Reduce.Convergence

/-!
# A pass has nothing to do twice

What texts, templates and merged chains are put in place of is not there any more after one run, so
a second run of the same pass leaves the graph alone (`passes_idempotent`).

For templates and chains this is a normal form of graphs, which the pass leads to and leaves alone.
For texts it needs that the states of pools are the same in the new graph.  It differs from the old
one in nothing but what is pushed (`AlikeButPushed`), and what a push does to a state does not
depend on its values.  So the same states solve the analysis on both graphs
(`AlikeButPushed.solves`) and the least ones are the same.  Then a push at which one pool is in
force was replaced before, and the push that replaced it names no entries.
-/

namespace ScriptRecovery

/-- No operand is an entry of a pool once it is resolved. -/
@[simp] theorem Operand.isConstant_resolve (pool : Pool) (v : Operand) :
    (v.resolve pool).isConstant = false := by
  cases v with
  | constant index => cases h : pool[index.toNat]? <;> simp [resolve, isConstant, h]
  | _ => rfl

/-- A push of resolved operands stays, whatever pool is in force. -/
theorem Edge.inlinePool?_resolved (pool pool' : Pool) (values : List Operand) :
    (Edge.action (.push (values.map (Operand.resolve pool)))).inlinePool? pool' = none := by
  simp [inlinePool?]

/-- A careful run that does not fail leaves a sound graph. -/
theorem Outcome.Careful.sound {g : FlowGraph} {o : Outcome FlowGraph}
    (h : o.Careful g) (hg : Graph.Sound g) {changed : Bool} (hok : o.changed = .ok changed) :
    Graph.Sound o.state := by
  cases changed with
  | false => exact h.idle hok ▸ hg
  | true => exact (Graph.sound_of_ofNodes (h.edited hok).2).1

namespace FlowGraph

variable {g g' : FlowGraph} {strict : Bool}

/-! ## Graphs that differ in what is pushed -/

/-- Whether two graphs differ in nothing but the values of pushes. -/
structure AlikeButPushed (g g' : FlowGraph) : Prop where
  source : g'.source = g.source
  nodes : ∀ n, g'.node? n = g.node? n ∨ ∃ values values' dest,
    g.node? n = some (.simple ⟨.action (.push values), dest⟩) ∧
    g'.node? n = some (.simple ⟨.action (.push values'), dest⟩)

theorem AlikeButPushed.symm (h : g.AlikeButPushed g') : g'.AlikeButPushed g := by
  refine ⟨h.source.symm, fun n => (h.nodes n).imp Eq.symm ?_⟩
  rintro ⟨values, values', dest, hnode, hnode'⟩
  exact ⟨values', values, dest, hnode', hnode⟩

/-- An edge of one of them is in the other, with the same effect on states. -/
theorem AlikeButPushed.outEdges (h : g.AlikeButPushed g') (strict : Bool) {n : Nat}
    {e : BoundEdge Edge} (he : e ∈ g.outEdges n) : ∃ edge', ⟨n, e.dest, edge'⟩ ∈ g'.outEdges n ∧
      PoolState.transfer strict edge' = PoolState.transfer strict e.edge := by
  obtain ⟨node, l, hnode, hl, rfl⟩ := Graph.mem_outEdges.1 he
  rcases h.nodes n with hsame | ⟨values, values', dest, hold, hnew⟩
  · exact ⟨l.edge, Graph.mem_outEdges.2 ⟨node, l, hsame ▸ hnode, hl, rfl⟩, rfl⟩
  · cases hnode.symm.trans hold
    obtain rfl := List.mem_singleton.1 hl
    exact ⟨_, Graph.mem_outEdges.2 ⟨_, _, hnew, List.mem_singleton.2 rfl, rfl⟩, rfl⟩

theorem AlikeButPushed.reachable (h : g.AlikeButPushed g') (hg' : Graph.Sound g') {n : Nat}
    (hn : g.Reachable n) : g'.Reachable n := by
  refine hn.mem_of_closed (h.source ▸ hg'.reachable_source) fun x hx y hy _ => ?_
  obtain ⟨e, he, rfl⟩ := Graph.mem_outEdges_of_targets hy
  obtain ⟨edge', hedge', -⟩ := h.outEdges true he
  exact hg'.reachable_target hx
    (Graph.dest_mem_targets (e := ⟨x, e.dest, edge'⟩) hedge')

/-- What the edges carry to a node is the same in both. -/
theorem AlikeButPushed.carried_subset (h : g.AlikeButPushed g') (hg' : Graph.Sound g')
    (st : Nat → PoolState) (n : Nat) :
    (PoolState.analysis strict).carried g st n ⊆ (PoolState.analysis strict).carried g' st n := by
  rintro s ⟨e, hreach, he, rfl, rfl⟩
  obtain ⟨edge', hedge', htransfer⟩ := h.outEdges strict he
  exact ⟨⟨e.source, e.dest, edge'⟩, h.reachable hg' hreach, hedge', rfl,
    congrFun htransfer.symm (st e.source)⟩

/-- The same states solve the analysis of pools on both. -/
theorem AlikeButPushed.solves (h : g.AlikeButPushed g') (hg : Graph.Sound g)
    (hg' : Graph.Sound g') {st : Nat → PoolState} (hst : (PoolState.analysis strict).Solves g st) :
    (PoolState.analysis strict).Solves g' st := by
  have hcarried : ∀ n, (PoolState.analysis strict).carried g' st n =
      (PoolState.analysis strict).carried g st n := fun n =>
    Set.Subset.antisymm (h.symm.carried_subset hg st n) (h.carried_subset hg' st n)
  refine ⟨fun {n} hn hne => ?_, fun {n} hn hempty => ?_⟩
  · rw [hcarried] at hne ⊢
    exact hst.isLUB (h.symm.reachable hg hn) hne
  · rw [hcarried] at hempty
    exact hst.boundary (h.symm.reachable hg hn) hempty

/-- A reachable node has the same pools in both. -/
theorem AlikeButPushed.state?_eq (h : g.AlikeButPushed g') (hg : Graph.Sound g)
    (hg' : Graph.Sound g') {n : Nat} (hn : g.Reachable n) :
    (g'.poolStates strict).state? n = (g.poolStates strict).state? n := by
  obtain ⟨st, hstate, hsolves, hleast⟩ :=
    (PoolState.climbs g strict).exists_least hg fun _ => Graph.mem_list
  obtain ⟨st', hstate', hsolves', hleast'⟩ :=
    (PoolState.climbs g' strict).exists_least hg' fun _ => Graph.mem_list
  have hn' : g'.Reachable n := h.reachable hg' hn
  have hle : st n ≤ st' n := hleast st' (h.symm.solves hg' hg hsolves') n hn
  have hge : st' n ≤ st n := hleast' st (h.solves hg hg' hsolves) n hn'
  calc (g'.poolStates strict).state? n = some (st' n) := hstate' n hn'
    _ = some (st n) := congrArg some (le_antisymm hge hle)
    _ = (g.poolStates strict).state? n := (hstate n hn).symm

/-! ## Texts -/

/-- Putting texts in place of pool entries changes nothing but the values of pushes. -/
theorem Relaying.alike {rest : List (Nat × Edge)}
    (h : g.Relaying (pickPush (g.poolStates strict)) (fun e => [e]) rest g') :
    g.AlikeButPushed g' := by
  refine ⟨h.source, fun n => (h.single n).imp And.left ?_⟩
  rintro ⟨e, dest, e', hnode, hpicked, hnode'⟩
  obtain ⟨-, e₁, dest₁, hnode₁, hpick⟩ := mem_pickEdges hpicked
  cases hnode.symm.trans hnode₁
  obtain ⟨_, pool, values, -, -, rfl, rfl⟩ := pickPush_eq_some hpick
  exact ⟨values, _, dest, hnode, hnode'⟩

/-- After texts are put in place of pool entries, no push is left at which one pool is in force. -/
theorem inlinePools_idle (hg : Graph.Sound g) {iteration : Nat} {changed : Bool}
    (hrun : (Pass.inlinePools strict).run iteration g = ⟨g', .ok changed⟩) (again : Nat) :
    (Pass.inlinePools strict).run again g' = .unchanged g' := by
  obtain ⟨g₁, happly, hg₁⟩ :=
    relaying_spliceEdges hg (pickPush (g.poolStates strict)) fun e => [e]
  obtain ⟨_, hrun₁⟩ := Outcome.ofEdits_eq_of_applyAll happly
  obtain ⟨rfl, -⟩ := Outcome.mk.inj (hrun.symm.trans hrun₁)
  have hnone : g'.poolPushes strict = [] := by
    refine List.eq_nil_iff_forall_not_mem.2 fun ⟨n, e'⟩ hpicked => ?_
    have hpicked : (n, e') ∈ g'.pickEdges (pickPush (g'.poolStates strict)) := hpicked
    obtain ⟨hn, e, dest, hnode, hpick⟩ := mem_pickEdges hpicked
    have hreach : g.Reachable n := hg₁.alike.symm.reachable hg hn
    rcases hg₁.single n with ⟨hsame, hleft⟩ | ⟨e₀, dest₀, e₁, hold, hpicked₁, hnode₁⟩
    · -- an edge that was not picked is not picked now, since its state is the same
      rw [pickPush, hg₁.alike.state?_eq hg hg₁.sound hreach] at hpick
      exact List.not_mem_nil (hleft e' (mem_pickEdges_of hreach (hsame ▸ hnode) hpick))
    · cases hnode.symm.trans hnode₁
      obtain ⟨-, e₂, dest₂, hold₂, hpick₂⟩ := mem_pickEdges hpicked₁
      obtain ⟨_, pool, values, -, -, -, rfl⟩ := pickPush_eq_some hpick₂
      simp only [pickPush, Option.bind_eq_bind, Option.bind_eq_some_iff] at hpick
      obtain ⟨_, -, pool', -, hpick⟩ := hpick
      rw [Edge.inlinePool?_resolved] at hpick
      cases hpick
  simp only [Pass.inlinePools, hnone, Outcome.ofEdits]

/-! ## The passes -/

/-- Putting texts in place of pool entries, in either mode, putting templates in place of actions
and merging chains are done with one run each.  A second run finds nothing to do and leaves the
graph as it is. -/
theorem passes_idempotent {nodes : Array (Node Edge)} {source : Nat}
    (h : Graph.ofNodes nodes source = .ok g) (strict : Bool) (traceName : String) :
    ∀ p ∈ [Pass.inlinePools strict, .formTemplates traceName, .mergeChains],
      ∀ (iteration : Nat) (g' : FlowGraph) (changed : Bool),
        p.run iteration g = ⟨g', .ok changed⟩ → ∀ again, p.run again g' = ⟨g', .ok false⟩ := by
  have hg := (Graph.sound_of_ofNodes h).1
  intro p hp iteration g' changed hrun again
  simp only [List.mem_cons, List.not_mem_nil, or_false] at hp
  rcases hp with rfl | rfl | rfl
  · exact inlinePools_idle hg hrun again
  · exact ((translated_formTemplates hg hrun).idle strict again).2
  · have hg' : Graph.Sound g' := by
      have hcareful := (careful_mergeChains hg iteration).1
      rw [hrun] at hcareful
      exact hcareful.sound hg rfl
    exact (mergeChains_spent hg hrun).mergeChains_idle hg' again

/-- A definition, a push of an entry of it and two templates that merge, in a loop: each of the
passes changes the graph, and has nothing to do after that. -/
theorem passes_idempotent_loop :
    let nodes : Array (Node Edge) := #[.simple ⟨.action (.constantPool ["a"]), 1⟩,
      .branch ⟨.ifTrue, 2⟩ ⟨.ifFalse, 5⟩, .simple ⟨.action (.push [.constant 0]), 3⟩,
      .simple ⟨.template (.value .undefined), 4⟩,
      .simple ⟨.template ⟨1, .unary .logicalNot (.input 0) none, false⟩, 0⟩, .done]
    let g : FlowGraph := Graph.indexed nodes 0
    Graph.ofNodes nodes 0 = .ok g ∧
      ∀ p ∈ [Pass.inlinePools false, .formTemplates "trace", .mergeChains],
        ∃ g', p.run 0 g = ⟨g', .ok true⟩ ∧ p.run 1 g' = ⟨g', .ok false⟩ := by
  intro nodes g
  have h : Graph.ofNodes nodes 0 = .ok (Graph.indexed nodes 0) := by cbv
  refine ⟨h, fun p hp => ?_⟩
  have hruns : ∃ g', p.run 0 g = ⟨g', .ok true⟩ := by
    simp only [List.mem_cons, List.not_mem_nil, or_false] at hp
    rcases hp with rfl | rfl | rfl
    · exact ⟨_, by cbv⟩
    · exact ⟨_, by cbv⟩
    · exact ⟨_, by cbv⟩
  obtain ⟨g', hrun⟩ := hruns
  exact ⟨g', hrun, passes_idempotent h false "trace" p hp 0 g' true hrun 1⟩

end FlowGraph

end ScriptRecovery
