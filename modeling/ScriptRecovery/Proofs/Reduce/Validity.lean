import ScriptRecovery.Proofs.Reduce.Conditionals
import ScriptRecovery.Proofs.Reduce.Spans
import ScriptRecovery.Recovery

/-!
# Passes on arenas of unknown origin

A pass looks at a graph before it edits anything, and what it finds there are splices that are apart
from each other.  Of that only the looking can fail, and the splices are carried out to the last
one.  So on every graph that is accepted, whatever its edges are, a pass leaves the graph as it was
or turns it into one that would be accepted as it is, index and all (`Outcome.Careful`,
`passes_careful`).
-/

namespace ScriptRecovery

open FlowGraph

namespace Outcome

/-- Whether a run on a graph leaves it as it was, or changes it into the graph that its own arena is
accepted as, with the entry it had. -/
structure Careful (g : FlowGraph) (o : Outcome FlowGraph) : Prop where
  refused : ∀ {fault : Fault}, o.changed = .error fault → o.state = g
  idle : o.changed = .ok false → o.state = g
  edited : o.changed = .ok true →
    o.state.source = g.source ∧ Graph.ofNodes o.state.nodes g.source = .ok o.state

variable {α : Type} {f : FlowGraph → α → Except Fault FlowGraph} {g : FlowGraph}

theorem careful_failed (fault : Fault) : (failed g fault).Careful g :=
  ⟨fun _ => rfl, nofun, nofun⟩

/-- Edits that are carried out to the last one are careful when they lead to a sound graph. -/
theorem careful_ofEdits {as : List α}
    (h : ∃ g', applyAll f g as = ⟨g', .ok true⟩ ∧ Graph.Sound g' ∧ g'.source = g.source) :
    (ofEdits f g (.ok as)).Careful g ∧ ∃ changed, (ofEdits f g (.ok as)).changed = .ok changed := by
  obtain ⟨g', happly, hsound, hsource⟩ := h
  cases as with
  | nil => exact ⟨⟨fun _ => rfl, fun _ => rfl, nofun⟩, false, rfl⟩
  | cons a as =>
    have hrun : ofEdits f g (.ok (a :: as)) = ⟨g', .ok true⟩ := happly
    rw [hrun]
    exact ⟨⟨nofun, nofun, fun _ => ⟨hsource, hsource ▸ hsound.ofNodes_eq⟩⟩, true, rfl⟩

end Outcome

variable {g : FlowGraph}

theorem careful_inlinePools (hg : Graph.Sound g) (strict : Bool) (iteration : Nat) :
    ((Pass.inlinePools strict).run iteration g).Careful g ∧
      ∃ changed, ((Pass.inlinePools strict).run iteration g).changed = .ok changed :=
  Outcome.careful_ofEdits (spliceEdges_eq_ok hg (pickPush (g.poolStates strict)) fun e => [e])

theorem careful_formTemplates (hg : Graph.Sound g) (traceName : String) (iteration : Nat) :
    ((Pass.formTemplates traceName).run iteration g).Careful g ∧
      ∃ changed, ((Pass.formTemplates traceName).run iteration g).changed = .ok changed :=
  Outcome.careful_ofEdits (spliceEdges_eq_ok hg (fun _ => Edge.toTemplates? traceName) id)

theorem careful_mergeChains (hg : Graph.Sound g) (iteration : Nat) :
    (Pass.mergeChains.run iteration g).Careful g ∧
      ∀ fault, (Pass.mergeChains.run iteration g).changed = .error fault →
        fault = .counterOverflow := by
  rcases merged_cases hg with h | ⟨rs, h, hrs, hapart⟩
  · have hrun : Pass.mergeChains.run iteration g = .failed g .counterOverflow := by
      simp only [Pass.mergeChains, h, Outcome.ofEdits]
    rw [hrun]
    exact ⟨Outcome.careful_failed _, fun fault hfault => (Except.error.inj hfault).symm⟩
  · have hchains : ∀ r ∈ rs, ∃ es, g.IsChain (g.chainDest r.1) r.1 es :=
      fun r hr => (hrs r hr).imp fun _ h => h.1
    obtain ⟨hcareful, changed, hchanged⟩ :=
      Outcome.careful_ofEdits (spliceChains_eq_ok hg hchains hapart)
    rw [← h] at hcareful hchanged
    exact ⟨hcareful, fun fault hfault => by cases hchanged.symm.trans hfault⟩

theorem careful_formConditionals (hg : Graph.Sound g) (iteration : Nat) :
    (Pass.formConditionals.run iteration g).Careful g := by
  rcases conditionals_cases hg with ⟨n, fault, -, -, h⟩ | ⟨cs, hcs⟩
  · have hrun : Pass.formConditionals.run iteration g = .failed g fault := by
      simp only [Pass.formConditionals, h, Outcome.ofEdits]
    rw [hrun]
    exact Outcome.careful_failed fault
  · have h := (Outcome.careful_ofEdits (hcs.spliceRegions_eq_ok hg)).1
    rwa [← hcs.found] at h

/-- Every pass of the pipeline is careful on a sound graph. -/
theorem careful_pipeline (hg : Graph.Sound g) {traceName : String} {strict fixpoint : Bool}
    {maxIterations : Nat} {p : Pass}
    (hp : p ∈ (Schedule.pipeline traceName strict fixpoint maxIterations).passes)
    (iteration : Nat) : (p.run iteration g).Careful g := by
  simp only [Schedule.pipeline, List.mem_cons, List.not_mem_nil, or_false] at hp
  rcases hp with rfl | rfl | rfl | rfl
  · exact (careful_inlinePools hg strict iteration).1
  · exact (careful_formTemplates hg traceName iteration).1
  · exact (careful_mergeChains hg iteration).1
  · exact careful_formConditionals hg iteration

/-- On a graph that is accepted every pass of the pipeline is careful.  The search for conditionals
may be refused, and two passes do not fail.  Merging can only run out of a counter, and does not
while the spans of the templates are together within its range. -/
theorem passes_careful {nodes : Array (Node Edge)} {source : Nat}
    (h : Graph.ofNodes nodes source = .ok g) (strict : Bool) (traceName : String)
    (iteration : Nat) :
    (∀ p ∈ [Pass.inlinePools strict, .formTemplates traceName, .mergeChains, .formConditionals],
      (p.run iteration g).Careful g) ∧
    (∀ p ∈ [Pass.inlinePools strict, .formTemplates traceName],
      ∃ changed, (p.run iteration g).changed = .ok changed) ∧
    (∀ fault, (Pass.mergeChains.run iteration g).changed = .error fault →
      fault = .counterOverflow) ∧
    (g.span < counterBound →
      ∃ changed, (Pass.mergeChains.run iteration g).changed = .ok changed) := by
  have hg := (Graph.sound_of_ofNodes h).1
  refine ⟨fun p hp => ?_, fun p hp => ?_, (careful_mergeChains hg iteration).2, fun hspan => ?_⟩
  · have hp : p ∈ (Schedule.pipeline traceName strict false 0).passes := hp
    exact careful_pipeline hg hp iteration
  · simp only [List.mem_cons, List.not_mem_nil, or_false] at hp
    rcases hp with rfl | rfl
    · exact (careful_inlinePools hg strict iteration).2
    · exact (careful_formTemplates hg traceName iteration).2
  · cases hrun : (Pass.mergeChains.run iteration g).changed with
    | ok changed => exact ⟨changed, rfl⟩
    | error fault =>
      obtain rfl := (careful_mergeChains hg iteration).2 fault hrun
      exact absurd hrun (changed_mergeChains_ne hg hspan iteration)

/-- A value that is negated, and two arms that meet, in an arena with a place that nothing leads to:
merging changes the graph, and so does the search for conditionals. -/
theorem passes_careful_arms_meet :
    let nodes : Array (Node Edge) := #[.simple ⟨.template (.value .undefined), 1⟩,
      .simple ⟨.template ⟨1, .unary .logicalNot (.input 0) none, false⟩, 2⟩, .simple ⟨.ifTest, 3⟩,
      .branch ⟨.ifTrue, 4⟩ ⟨.ifFalse, 5⟩, .simple ⟨.action .trace, 6⟩, .simple ⟨.sub, 6⟩, .done,
      .pending]
    let g := Graph.indexed nodes 0
    Graph.ofNodes nodes 0 = .ok g ∧ FlowGraph.span g = 1 ∧
      (Pass.mergeChains.run 0 g).changed = .ok true ∧ (Pass.mergeChains.run 0 g).Careful g ∧
      (Pass.formConditionals.run 0 g).changed = .ok true ∧
      (Pass.formConditionals.run 0 g).Careful g := by
  intro nodes g
  have h : Graph.ofNodes nodes 0 = .ok (Graph.indexed nodes 0) := by cbv
  have hspan : FlowGraph.span (Graph.indexed nodes 0) = 1 := by cbv
  obtain ⟨hcareful, -, -, hmerged⟩ := passes_careful h false "trace" 0
  obtain ⟨changed, hchanged⟩ := hmerged (by rw [hspan]; decide)
  have hrun : (Pass.mergeChains.run 0 (Graph.indexed nodes 0)).changed.toOption = some true := by
    cbv
  obtain rfl : changed = true := by simpa [hchanged, Except.toOption] using hrun
  exact ⟨h, hspan, hchanged, hcareful _ (by simp), by cbv, hcareful _ (by simp)⟩

end ScriptRecovery
