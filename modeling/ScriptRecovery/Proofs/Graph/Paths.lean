import ScriptRecovery.Proofs.Graph.Sound

/-!
# Edges and paths

The edges out of a node and into it, by their ends, and the finite paths from the entry of a graph
(`Graph.Path`), loops and the empty path included.
-/

namespace ScriptRecovery

namespace Graph

variable {ε : Type} {g : Graph ε}

/-! ## Edges -/

/-- The edges out of a node are its links. -/
theorem mem_outEdges {u : Nat} {e : BoundEdge ε} : e ∈ g.outEdges u ↔
    ∃ node l, g.node? u = some node ∧ l ∈ node.links ∧ e = ⟨u, l.dest, l.edge⟩ := by
  unfold outEdges node?
  cases g.nodes[u]? with
  | none => simp
  | some node => simp [eq_comm]

theorem source_of_mem_outEdges {u : Nat} {e : BoundEdge ε} (h : e ∈ g.outEdges u) :
    e.source = u := by
  obtain ⟨_, _, -, -, rfl⟩ := mem_outEdges.1 h
  rfl

theorem dest_mem_targets {u : Nat} {e : BoundEdge ε} (h : e ∈ g.outEdges u) :
    e.dest ∈ g.targets u := by
  obtain ⟨node, l, hnode, hl, rfl⟩ := mem_outEdges.1 h
  exact targets_of_node? hnode ▸ List.mem_map.2 ⟨l, hl, rfl⟩

theorem mem_outEdges_of_targets {u v : Nat} (h : v ∈ g.targets u) :
    ∃ e ∈ g.outEdges u, e.dest = v := by
  obtain ⟨node, hnode⟩ : ∃ node, g.node? u = some node := by
    cases hnode : g.node? u with
    | none => simp [targets, show g.nodes[u]? = none from hnode] at h
    | some node => exact ⟨node, rfl⟩
  rw [targets_of_node? hnode] at h
  obtain ⟨l, hl, rfl⟩ := List.mem_map.1 h
  exact ⟨⟨u, l.dest, l.edge⟩, mem_outEdges.2 ⟨node, l, hnode, hl, rfl⟩, rfl⟩

theorem mem_inEdges {v : Nat} {e : BoundEdge ε} : e ∈ g.inEdges v ↔
    e.source ∈ g.predecessors v ∧ e ∈ g.outEdges e.source ∧ e.dest = v := by
  constructor
  · intro h
    obtain ⟨u, hu, he⟩ := List.mem_flatMap.1 h
    obtain ⟨he, hd⟩ := List.mem_filter.1 he
    obtain rfl := source_of_mem_outEdges he
    exact ⟨hu, he, by simpa using hd⟩
  · rintro ⟨hu, he, hd⟩
    exact List.mem_flatMap.2 ⟨_, hu, List.mem_filter.2 ⟨he, by simpa using hd⟩⟩

/-! ## Paths -/

/-- The edges along a path from the entry to a node. -/
inductive Path (g : Graph ε) : List ε → Nat → Prop where
  | nil : Path g [] g.source
  | snoc {es : List ε} {e : BoundEdge ε} : Path g es e.source → e ∈ g.outEdges e.source →
      Path g (es ++ [e.edge]) e.dest

theorem Path.reachable {es : List ε} {n : Nat} (h : g.Path es n) (hg : g.Sound) :
    g.Reachable n := by
  induction h with
  | nil => exact hg.reachable_source
  | snoc _ he ih => exact hg.reachable_target ih (dest_mem_targets he)

/-- A path leads to every reachable node. -/
theorem exists_path {n : Nat} (h : g.Reachable n) : ∃ es, g.Path es n := by
  refine h.mem_of_closed (p := fun n => ∃ es, g.Path es n) ⟨[], .nil⟩ fun m hm d hd _ => ?_
  obtain ⟨es, hes⟩ := hm
  obtain ⟨e, he, rfl⟩ := mem_outEdges_of_targets hd
  obtain rfl := source_of_mem_outEdges he
  exact ⟨es ++ [e.edge], hes.snoc he⟩

/-- The edges that lead a path into a node are recorded there. -/
theorem Sound.mem_inEdges_of_reachable (hg : g.Sound) {e : BoundEdge ε}
    (h : g.Reachable e.source) (he : e ∈ g.outEdges e.source) : e ∈ g.inEdges e.dest :=
  mem_inEdges.2 ⟨hg.index.2 ⟨h, dest_mem_targets he⟩, he, rfl⟩

end Graph

end ScriptRecovery
