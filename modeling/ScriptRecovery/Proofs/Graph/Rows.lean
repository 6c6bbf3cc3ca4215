import ScriptRecovery.Proofs.Graph.Splicing

/-!
# Rows that are laid

What it does to a graph to lay a row of edges from one of its nodes to another, in the place of
nodes that are given up or of none (`Graph.Replaced`).  Nothing is asked of the graph, not even that
its index is right.  The first node and the new ones read the row, there is a new node for every
edge but the first, and but for what is given up no other node changes.

Each splice looks before it lays its row.  What one that succeeds has found, and the graph it lays
its row in, are said once for each of them (`spliceEdge_eq_ok`, `spliceChain_eq_ok`,
`spliceRegion_eq_ok`).
-/

namespace ScriptRecovery

namespace Graph

variable {ε : Type} {g g₁ g' : Graph ε} {n dest next : Nat}

theorem link_eq_ok {n t : Nat} {e : ε} (h : g.link n e t = .ok g') : t < g.preds.size ∧
    g' = { g with
      nodes := g.nodes.setIfInBounds n (.simple ⟨e, t⟩)
      preds := g.preds.modify t (·.insert n) } := by
  unfold link at h
  split at h
  · next ht =>
    cases h
    exact ⟨ht, rfl⟩
  · cases h

/-- A link changes one node. -/
theorem node?_link {e : ε} (h : g.link n e dest = .ok g') :
    g'.source = g.source ∧ g'.size = g.size ∧
      (n < g.size → g'.node? n = some (.simple ⟨e, dest⟩)) ∧
      ∀ m, m ≠ n → g'.node? m = g.node? m := by
  obtain ⟨-, rfl⟩ := link_eq_ok h
  refine ⟨rfl, Array.size_setIfInBounds, fun hn => ?_, fun m hm => ?_⟩
  · simp [node?, show n < g.nodes.size from hn]
  · simp [node?, Ne.symm hm]

/-- A graph with a row of edges over new nodes, from `next` to `dest`. -/
structure Paved (g g' : Graph ε) (dest next : Nat) (row : List ε) : Prop where
  source : g'.source = g.source
  size : g'.size = g.size + row.length
  row : g'.Row g.size dest next row
  kept : ∀ {m : Nat}, m < g.size → g'.node? m = g.node? m

/-- One more node in front of a row. -/
theorem Paved.link {row : List ε} {e : ε} (h : g.Paved g₁ dest next row)
    (hl : g₁.grow.link g₁.size e next = .ok g') : g.Paved g' dest g₁.size (e :: row) := by
  obtain ⟨hsource, hsize, hnode, hother⟩ := node?_link hl
  have hold : ∀ {m}, m < g₁.size → g'.node? m = g₁.node? m := fun {m} hm =>
    (hother m (Nat.ne_of_lt hm)).trans (node?_grow hm)
  have hlow : g.size ≤ g₁.size := h.size ▸ Nat.le_add_right _ _
  refine ⟨hsource.trans h.source, ?_, .cons hlow (hnode (by simp)) ?_, fun hm => ?_⟩
  · rw [hsize, size_grow, h.size, List.length_cons, Nat.add_assoc]
  · exact h.row.congr fun m node _ hm => (hold (lt_size_of_node? hm)).trans hm
  · rw [hold (Nat.lt_of_lt_of_le hm hlow), h.kept hm]

/-- Paving lays a row over new nodes. -/
theorem paved_of_pave {row : List ε} (h : g.pave dest row = .ok (g', next)) :
    g.Paved g' dest next row := by
  induction row generalizing g' next with
  | nil =>
    cases h
    exact ⟨rfl, rfl, .nil, fun _ => rfl⟩
  | cons e row ih =>
    obtain ⟨⟨g₁, next₁⟩, hpave, h⟩ := bind_eq_ok.1 h
    obtain ⟨g₂, hlink, h⟩ := bind_eq_ok.1 h
    obtain ⟨rfl, rfl⟩ := Prod.mk.inj (Except.ok.inj h)
    have hlast : g₂.size - 1 = g₁.size := by
      rw [(node?_link hlink).2.1, size_grow, Nat.add_sub_cancel]
    exact hlast ▸ (ih hpave).link hlink

/-- A graph in which a row of edges from `n` to `dest`, all but the first of them over new nodes,
has come in the place of what is gone. -/
structure Replaced (g g' : Graph ε) (n dest : Nat) (gone : Nat → Prop) (row : List ε) : Prop where
  source : g'.source = g.source
  size : g'.size + 1 = g.size + row.length
  laid : ∃ e es next, row = e :: es ∧ g'.node? n = some (.simple ⟨e, next⟩) ∧
    g'.Row g.size dest next es
  vacated : ∀ {m : Nat}, gone m → m < g.size ∧ g'.node? m = some .pending
  kept : ∀ {m : Nat}, m < g.size → m ≠ n → ¬ gone m → g'.node? m = g.node? m

theorem Replaced.size_le {gone : Nat → Prop} {row : List ε} (h : g.Replaced g' n dest gone row) :
    g.size ≤ g'.size := by
  obtain ⟨e, es, _, rfl, -⟩ := h.laid
  have := h.size
  rw [List.length_cons] at this
  omega

/-- Laying a row does what it says, and nothing is gone. -/
theorem replaced_of_layEdges [PlainEdge ε] {edges : List ε} (hn : n < g.size)
    (h : g.layEdges n dest edges = .ok g') :
    g.Replaced g' n dest (fun _ => False) (rowOf edges) := by
  obtain ⟨e, es, hrow, hlay⟩ := g.layEdges_eq n dest edges
  rw [hlay] at h
  obtain ⟨⟨g₁, next⟩, hpave, h⟩ := bind_eq_ok.1 h
  have hpaved := paved_of_pave hpave
  obtain ⟨hsource, hsize, hnode, hother⟩ := node?_link h
  have hle : g.size ≤ g₁.size := hpaved.size ▸ Nat.le_add_right _ _
  refine ⟨hsource.trans hpaved.source, ?_, ⟨e, es, next, hrow,
    hnode (Nat.lt_of_lt_of_le hn hle), hpaved.row.congr fun m node hm hnode => ?_⟩,
    False.elim, fun {m} hm hne _ => ?_⟩
  · rw [hsize, hpaved.size, hrow, List.length_cons, Nat.add_assoc]
  · exact (hother m (by omega)).trans hnode
  · rw [hother m hne, hpaved.kept hm]

/-! ## What a splice finds -/

variable [PlainEdge ε] {edges : List ε}

/-- A splice of an edge that succeeds has found the one way out of the node. -/
theorem spliceEdge_eq_ok (h : g.spliceEdge n edges = .ok g') :
    ∃ e dest, g.node? n = some (.simple ⟨e, dest⟩) ∧
      (g.unlink n dest).layEdges n dest edges = .ok g' := by
  obtain ⟨dest, hout, h⟩ := bind_eq_ok.1 h
  obtain ⟨e, hnode⟩ := outTarget_eq_ok.1 hout
  exact ⟨e, dest, hnode, h⟩

/-- A splice of a chain that succeeds has followed the chain to its end. -/
theorem spliceChain_eq_ok {nodes : List Nat} (h : g.spliceChain nodes edges = .ok g') :
    ∃ n rest e next dest, nodes = n :: rest ∧ g.node? n = some (.simple ⟨e, next⟩) ∧
      g.chainTarget next rest = .ok dest ∧
      ((g.unlinkChain n dest rest).vacate rest).layEdges n dest edges = .ok g' := by
  cases nodes with
  | nil => cases h
  | cons n rest =>
    rw [spliceChain] at h
    split at h
    · cases h
    next next hout =>
    obtain ⟨dest, hchain, h⟩ := bind_eq_ok.1 h
    obtain ⟨e, hnode⟩ := outTarget_eq_ok.1 hout
    exact ⟨n, rest, e, next, dest, rfl, hnode, hchain, h⟩

/-- A splice of a region that succeeds has found no link of it that leaves the arena, and one that
leads to its end. -/
theorem spliceRegion_eq_ok {start : Nat} (h : g.spliceRegion start dest edges = .ok g') :
    (start < g.size ∧ dest < g.size) ∧
      (∀ u ∈ g.region start dest, ∀ d ∈ g.targets u, d < g.size) ∧
      (∃ u ∈ g.region start dest, dest ∈ g.targets u) ∧
      ((g.unlinkAll (g.region start dest)).vacate
        ((g.region start dest).filter (· != start))).layEdges start dest edges = .ok g' := by
  unfold spliceRegion at h
  simp only at h
  split_ifs at h with hstart hdest hinside hmeets
  refine ⟨⟨Nat.not_le.1 hstart, Nat.not_le.1 hdest⟩, fun u hu d hd => ?_, ?_, h⟩
  · have hall := List.any_eq_false.1 (Bool.not_eq_true _ ▸ hinside) d
      (List.mem_flatMap.2 ⟨u, hu, hd⟩)
    simpa using hall
  · simpa [List.contains_iff_mem] using hmeets

/-- One edge gives way to a row. -/
theorem replaced_of_spliceEdge (h : g.spliceEdge n edges = .ok g') :
    ∃ e dest, g.node? n = some (.simple ⟨e, dest⟩) ∧
      g.Replaced g' n dest (fun _ => False) (rowOf edges) := by
  obtain ⟨e, dest, hnode, h⟩ := spliceEdge_eq_ok h
  have hr := replaced_of_layEdges (g := g.unlink n dest) (lt_size_of_node? hnode) h
  exact ⟨e, dest, hnode, hr.source, hr.size, hr.laid, hr.vacated, hr.kept⟩

end Graph

end ScriptRecovery
