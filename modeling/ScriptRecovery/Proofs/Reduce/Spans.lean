import ScriptRecovery.Proofs.Graph.Totals
import ScriptRecovery.Proofs.Reduce.Chains
import ScriptRecovery.Proofs.Script.Spans

/-!
# Merging within the range of a counter

The span of an edge is that of its template (`Edge.span`).  Merging two edges adds nothing to their
spans, and goes on without a number that leaves its range when the two spans are together below the
bound of a counter.  So a row of edges is merged when its spans are (`Edge.reduceRow_ne_overflow`).

The nodes of a chain are reachable and no two of them are the same, so the spans along a chain are
among those of the graph.  The pass over the chains of a sound graph does not fail when the spans of
its reachable edges are together below the bound (`FlowGraph.changed_mergeChains_ne`).
-/

namespace ScriptRecovery

namespace Edge

variable {a b both edge : Edge} {row row' merged merged' : List Edge} {w : Edge → Nat}

/-- The span of the template of an edge, if it has one. -/
def span : Edge → Nat
  | template t => t.span
  | _ => 0

theorem merge_ne_overflow (h : a.span + b.span < counterBound) :
    a.merge b ≠ .error .counterOverflow := by
  unfold merge
  split
  · nofun
  · nofun
  · next first second =>
    intro herror
    obtain hmerge | ⟨_, -, h'⟩ := bind_eq_error.1 herror
    · exact Template.merge_ne_overflow h hmerge
    · cases h'
  · nofun

theorem span_merge_le (h : a.merge b = .ok (some both)) : both.span ≤ a.span + b.span := by
  rcases merge_eq_ok h with ⟨rfl, rfl⟩ | ⟨rfl, rfl⟩ | ⟨t₁, t₂, t, rfl, rfl, hmerge, rfl⟩
  · exact Nat.le_add_left _ _
  · exact Nat.le_add_right _ _
  · exact Template.span_merge_le hmerge

/-- A weight that merging two edges does not add to is not added to along a row. -/
theorem total_le_of_merges
    (hw : ∀ {a b both : Edge}, a.merge b = .ok (some both) → w both ≤ w a + w b)
    (h : Relation.ReflTransGen MergesTo row row') : total w row' ≤ total w row := by
  induction h with
  | refl => exact Nat.le_refl _
  | tail _ hstep ih =>
    refine Nat.le_trans ?_ ih
    cases hstep with
    | mk pre post hmerge =>
      have hle := hw hmerge
      simp only [total_append, total]
      omega

/-- What an edge is put on weighs no more afterwards than before with the edge. -/
theorem total_mergeOnto_le
    (hw : ∀ {a b both : Edge}, a.merge b = .ok (some both) → w both ≤ w a + w b) {grew : Bool}
    (h : edge.mergeOnto merged = .ok (merged', grew)) :
    total w merged' ≤ w edge + total w merged := by
  have hle := total_le_of_merges hw (mergeOnto_merges h [])
  rw [List.append_nil, total_append, total, total,
    total_eq_of_perm merged'.reverse_perm, total_eq_of_perm merged.reverse_perm] at hle
  omega

theorem mergeOnto_ne_overflow (h : edge.span + total span merged < counterBound) :
    edge.mergeOnto merged ≠ .error .counterOverflow := by
  induction merged generalizing edge with
  | nil => nofun
  | cons last merged ih =>
    rw [total] at h
    rw [mergeOnto]
    intro herror
    obtain hmerge | ⟨both?, hmerge, herror⟩ := bind_eq_error.1 herror
    · exact merge_ne_overflow (by omega) hmerge
    · cases both? with
      | none => cases herror
      | some both =>
        have hspan := span_merge_le hmerge
        obtain honto | ⟨_, -, herror⟩ := bind_eq_error.1 herror
        · exact ih (by omega) honto
        · cases herror

theorem mergeRow_ne_overflow {changed : Bool}
    (h : total span merged + total span row < counterBound) :
    mergeRow merged changed row ≠ .error .counterOverflow := by
  induction row generalizing merged changed with
  | nil => nofun
  | cons edge row ih =>
    rw [total] at h
    rw [mergeRow]
    intro herror
    obtain honto | ⟨⟨merged', grew⟩, honto, herror⟩ := bind_eq_error.1 herror
    · exact mergeOnto_ne_overflow (by omega) honto
    · have hspan := total_mergeOnto_le span_merge_le honto
      exact ih (by omega) herror

/-- A row whose spans are together below the bound of a counter is merged. -/
theorem reduceRow_ne_overflow (h : total span row < counterBound) :
    reduceRow row ≠ .error .counterOverflow := by
  intro herror
  obtain hrow | ⟨_, -, herror⟩ := bind_eq_error.1 herror
  · exact mergeRow_ne_overflow (by simpa [total] using h) hrow
  · cases herror

end Edge

namespace FlowGraph

variable {g : FlowGraph} {w : Edge → Nat}

/-- The spans of the reachable edges of a graph. -/
def span (g : FlowGraph) : Nat := Graph.weight Edge.span g

/-- A chain weighs what its edges do. -/
theorem IsChain.weight {dest : Nat} {chain : List Nat} {es : List Edge}
    (h : g.IsChain dest chain es) : total (Graph.weightAt w g) chain = total w es := by
  cases h with
  | mk _ hnode hlane _ => rw [total, total, Graph.weightAt_of_simple hnode, hlane.weight]

/-- The edges along a chain weigh no more than the graph. -/
theorem IsChain.weight_le (hg : Graph.Sound g) {dest : Nat} {chain : List Nat} {es : List Edge}
    (h : g.IsChain dest chain es) : total w es ≤ Graph.weight w g :=
  h.weight ▸ Graph.total_weightAt_le h.nodup (h.reachable hg)

theorem mergedChains_ne_overflow (hg : Graph.Sound g) (h : g.span < counterBound)
    {chains : List (List Nat)} (hc : ∀ chain ∈ chains, ∃ dest es, g.IsChain dest chain es) :
    g.mergedChains chains ≠ .error .counterOverflow := by
  induction chains with
  | nil => nofun
  | cons chain chains ih =>
    obtain ⟨dest, es, hchain⟩ := hc chain List.mem_cons_self
    have hspan : total Edge.span es ≤ g.span := hchain.weight_le hg
    rw [mergedChains, hchain.edges_eq]
    intro herror
    obtain hrow | ⟨_, -, herror⟩ := bind_eq_error.1 herror
    · exact Edge.reduceRow_ne_overflow (by omega) hrow
    obtain hrest | ⟨_, -, herror⟩ := bind_eq_error.1 herror
    · exact ih (fun chain hm => hc chain (List.mem_cons_of_mem _ hm)) hrest
    · cases herror

/-- Merging along chains does not fail on a sound graph whose spans are together below the bound of
a counter. -/
theorem changed_mergeChains_ne (hg : Graph.Sound g) (h : g.span < counterBound)
    (iteration : Nat) : (Pass.mergeChains.run iteration g).changed ≠ .error .counterOverflow := by
  have hmerged := mergedChains_ne_overflow hg h (chains_cases hg).1
  rcases merged_cases hg with hfault | ⟨rs, hrs, hstill, hapart⟩
  · exact absurd hfault hmerged
  · have hchains : ∀ r ∈ rs, ∃ es, g.IsChain (g.chainDest r.1) r.1 es :=
      fun r hr => (hstill r hr).imp fun _ h => h.1
    obtain ⟨g', happly, -⟩ := spliceChains_eq_ok hg hchains hapart
    obtain ⟨changed, hchanged⟩ := Outcome.ofEdits_eq_of_applyAll happly
    simp only [Pass.mergeChains, hrs, hchanged]
    intro hfault
    cases hfault

end FlowGraph

end ScriptRecovery
