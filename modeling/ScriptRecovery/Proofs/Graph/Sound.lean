import ScriptRecovery.Graph.Basic
import ScriptRecovery.Proofs.Graph.Reach

/-!
# Sound graphs

A graph is sound when nothing reachable is pending or leaves the arena, and when the recorded
predecessors are exactly the reachable ones (`Graph.Sound`).  `Graph.ofNodes` accepts an arena
exactly when the first part holds of it, and the index it builds has the second part
(`ofNodes_eq_ok`, `sound_of_ofNodes`).  So a sound graph is the one that its own arena is accepted
as (`Sound.ofNodes_eq`): keeping a graph sound is as good as building it anew.

Everything that reads the index of a sound graph goes through `Sound.index`.
-/

namespace ScriptRecovery

namespace Graph

variable {ε : Type} {g : Graph ε}

/-- Whether the entry reaches a node. -/
def Reachable (g : Graph ε) (n : Nat) : Prop := g.adjacency.Reach g.source n

@[simp] theorem mem_list {order : TraversalOrder} {n : Nat} :
    n ∈ g.list order ↔ g.Reachable n := by
  cases order with
  | preorder => exact Adjacency.mem_preorder
  | postorder => exact Adjacency.mem_postorder
  | reversePostorder => exact Adjacency.mem_reversePostorder

theorem Reachable.lt_size {n : Nat} (h : g.Reachable n) : n < g.size :=
  Adjacency.Reach.lt_size h

theorem Reachable.step {m n : Nat} (h : g.Reachable m) (hn : n ∈ g.targets m)
    (hlt : n < g.size) : g.Reachable n :=
  Adjacency.Reach.step h hn hlt

theorem reachable_source (h : g.source < g.size) : g.Reachable g.source :=
  Adjacency.Reach.start h

/-- A set that holds the entry and is closed under links holds everything reachable. -/
theorem Reachable.mem_of_closed {n : Nat} (h : g.Reachable n) {p : Nat → Prop}
    (hs : p g.source) (hc : ∀ x, p x → ∀ y ∈ g.targets x, y < g.size → p y) : p n :=
  Adjacency.Reach.mem_of_closed h hs hc

/-- Something leads to a reachable node that is not the entry. -/
theorem Reachable.exists_pred {n : Nat} (h : g.Reachable n) (hn : n ≠ g.source) :
    ∃ m, g.Reachable m ∧ n ∈ g.targets m := by
  cases h with
  | start _ => exact absurd rfl hn
  | step hm hmn _ => exact ⟨_, hm, hmn⟩

theorem nodup_reversePostorder (g : Graph ε) : (g.list .reversePostorder).Nodup :=
  Adjacency.nodup_reversePostorder _ _

theorem reversePostorder_eq_cons (h : g.source < g.size) :
    ∃ ns, g.list .reversePostorder = g.source :: ns :=
  Adjacency.reversePostorder_eq_cons h

/-- A graph whose reachable part is complete and whose index records exactly that part. -/
structure Sound (g : Graph ε) : Prop where
  /-- The index has a set for every place. -/
  width : g.preds.size = g.size
  /-- The entry is in the arena. -/
  source_lt : g.source < g.size
  /-- No reachable node is pending. -/
  complete : ∀ {n : Nat}, g.Reachable n → g.node? n ≠ some .pending
  /-- No reachable link leaves the arena. -/
  closed : ∀ {n d : Nat}, g.Reachable n → d ∈ g.targets n → d < g.size
  /-- The predecessors of a node are the reachable nodes with a link to it. -/
  index : ∀ {m d : Nat}, m ∈ g.predecessors d ↔ g.Reachable m ∧ d ∈ g.targets m

theorem Sound.reachable_target {n d : Nat} (hg : g.Sound) (h : g.Reachable n)
    (hd : d ∈ g.targets n) : g.Reachable d :=
  h.step hd (hg.closed h hd)

theorem Sound.reachable_source (hg : g.Sound) : g.Reachable g.source :=
  Graph.reachable_source hg.source_lt

/-! ## Reading nodes -/

theorem targets_of_node? {n : Nat} {node : Node ε} (h : g.node? n = some node) :
    g.targets n = node.targets := by
  unfold targets
  rw [show g.nodes[n]? = some node from h]
  rfl

@[simp] theorem targets_of_simple {n : Nat} {out : Link ε} (h : g.node? n = some (.simple out)) :
    g.targets n = [out.dest] := targets_of_node? h

theorem length_targets_le {n : Nat} : (g.targets n).length ≤ 2 := by
  unfold targets
  cases g.nodes[n]? with
  | none => simp
  | some node => cases node <;> simp [Node.targets, Node.links]

theorem bind_simpleOut?_eq_some {n : Nat} {out : Link ε} :
    (g.node? n).bind Node.simpleOut? = some out ↔ g.node? n = some (.simple out) := by
  cases g.node? n with
  | none => simp
  | some node => cases node <;> simp [Node.simpleOut?]

theorem lt_size_of_node? {n : Nat} {node : Node ε} (h : g.node? n = some node) : n < g.size := by
  by_contra hn
  have : g.nodes[n]? = none := Array.getElem?_eq_none (Nat.le_of_not_lt hn)
  simp [node?, this] at h

theorem exists_node? {n : Nat} (h : n < g.size) : ∃ node, g.node? n = some node :=
  ⟨_, Array.getElem?_eq_getElem h⟩

/-! ## The index of an arena -/

theorem mem_modify_insert {preds : Array (Ascending Nat)} {n m d dest : Nat} :
    m ∈ (preds.modify dest (·.insert n))[d]?.getD .empty ↔
      m ∈ preds[d]?.getD .empty ∨ m = n ∧ d = dest ∧ d < preds.size := by
  rw [Array.getElem?_modify]
  by_cases h : dest = d
  · subst h
    by_cases hlt : dest < preds.size
    · simp [hlt]
      tauto
    · simp [hlt]
  · simp [h, Ne.symm h]

theorem mem_record {preds : Array (Ascending Nat)} {n m d : Nat} {targets : List Nat}
    (hd : d < preds.size) :
    m ∈ (record preds n targets)[d]?.getD .empty ↔
      m ∈ preds[d]?.getD .empty ∨ m = n ∧ d ∈ targets := by
  unfold record
  induction targets generalizing preds with
  | nil => simp
  | cons t ts ih =>
    rw [List.foldl_cons, ih (by simpa using hd), mem_modify_insert, List.mem_cons]
    tauto

theorem size_record {preds : Array (Ascending Nat)} {n : Nat} {targets : List Nat} :
    (record preds n targets).size = preds.size := by
  unfold record
  induction targets generalizing preds with
  | nil => rfl
  | cons t ts ih => rw [List.foldl_cons, ih, Array.size_modify]

theorem size_foldl_record {f : Nat → List Nat} {preds : Array (Ascending Nat)}
    {order : List Nat} :
    (order.foldl (fun preds n => record preds n (f n)) preds).size = preds.size := by
  induction order generalizing preds with
  | nil => rfl
  | cons n ns ih => rw [List.foldl_cons, ih, size_record]

theorem mem_foldl_record {f : Nat → List Nat} {preds : Array (Ascending Nat)} {m d : Nat}
    {order : List Nat} (hd : d < preds.size) :
    m ∈ (order.foldl (fun preds n => record preds n (f n)) preds)[d]?.getD .empty ↔
      m ∈ preds[d]?.getD .empty ∨ m ∈ order ∧ d ∈ f m := by
  induction order generalizing preds with
  | nil => simp
  | cons n ns ih =>
    rw [List.foldl_cons, ih (by rwa [size_record]), mem_record hd]
    constructor
    · rintro ((h | ⟨rfl, h⟩) | ⟨h, h'⟩)
      · exact .inl h
      · exact .inr ⟨by simp, h⟩
      · exact .inr ⟨by simp [h], h'⟩
    · rintro (h | ⟨h, h'⟩)
      · exact .inl (.inl h)
      · rcases List.mem_cons.1 h with rfl | h
        · exact .inl (.inr ⟨rfl, h'⟩)
        · exact .inr ⟨h, h'⟩

/-- The index of an arena records the reachable links. -/
theorem mem_predecessors_indexed {nodes : Array (Node ε)} {source m d : Nat}
    (hd : d < nodes.size) :
    m ∈ (indexed nodes source).predecessors d ↔
      (indexed nodes source).Reachable m ∧ d ∈ (indexed nodes source).targets m := by
  unfold predecessors indexed
  rw [mem_foldl_record (by simpa using hd)]
  simp only [Array.getElem?_replicate, hd, if_true, Option.getD_some, Ascending.not_mem_empty,
    false_or, mem_list]
  rfl

/-! ## Arenas that are accepted -/

theorem faultAt_eq_none {nodes : Array (Node ε)} {n : Nat} :
    faultAt nodes n = none ↔ ∃ node, nodes[n]? = some node ∧ node ≠ .pending ∧
      ∀ d ∈ node.targets, d < nodes.size := by
  unfold faultAt
  split
  · next h => simp [h]
  · next h => simp [h]
  · next node hp h =>
    rw [h]
    simp only [Option.map_eq_none_iff, List.find?_eq_none, decide_eq_true_eq, Nat.not_le]
    constructor
    · exact fun hd => ⟨node, rfl, hp, hd⟩
    · rintro ⟨_, hn, -, hd⟩
      cases hn
      exact hd

/-- An arena is accepted when its reachable part is complete. -/
theorem ofNodes_eq_ok {nodes : Array (Node ε)} {source : Nat} (hs : source < nodes.size)
    (h : ∀ n, (indexed nodes source).Reachable n → ∃ node, nodes[n]? = some node ∧
      node ≠ .pending ∧ ∀ d ∈ node.targets, d < nodes.size) :
    ofNodes nodes source = .ok (indexed nodes source) := by
  unfold ofNodes
  rw [if_pos hs]
  have : ((indexed nodes source).list .preorder).findSome? (faultAt nodes) = none := by
    rw [List.findSome?_eq_none_iff]
    exact fun n hn => faultAt_eq_none.2 (h n (mem_list.1 hn))
  simp only [this]

/-- What is accepted is sound. -/
theorem sound_of_ofNodes {nodes : Array (Node ε)} {source : Nat}
    (h : ofNodes nodes source = .ok g) : g.Sound ∧ g = indexed nodes source := by
  unfold ofNodes at h
  split at h
  · next hs =>
    simp only at h
    split at h
    · cases h
    · next hf =>
      cases h
      have hok : ∀ n, (indexed nodes source).Reachable n → ∃ node, nodes[n]? = some node ∧
          node ≠ .pending ∧ ∀ d ∈ node.targets, d < nodes.size := by
        intro n hn
        exact faultAt_eq_none.1 (List.findSome?_eq_none_iff.1 hf n (mem_list.2 hn))
      refine ⟨⟨?_, hs, ?_, ?_, ?_⟩, rfl⟩
      · unfold indexed
        rw [size_foldl_record]
        simp [size]
      · intro n hn hp
        obtain ⟨node, hnode, hne, -⟩ := hok n hn
        exact hne (Option.some.inj (hnode.symm.trans hp))
      · intro n d hn hd
        obtain ⟨node, hnode, -, ht⟩ := hok n hn
        exact ht d (by rwa [targets_of_node? (g := indexed nodes source) hnode] at hd)
      · intro m d
        by_cases hd : d < nodes.size
        · exact mem_predecessors_indexed hd
        · constructor
          · intro hm
            have hw : (indexed nodes source).preds.size = nodes.size := by
              unfold indexed
              rw [size_foldl_record]
              simp
            rw [predecessors, Array.getElem?_eq_none (by omega)] at hm
            simp at hm
          · rintro ⟨hm, hmd⟩
            obtain ⟨node, hnode, -, ht⟩ := hok m hm
            exact absurd (ht d (by rwa [targets_of_node? (g := indexed nodes source) hnode]
              at hmd)) hd
  · cases h

/-- The index of a sound graph is the one its arena has. -/
theorem Sound.indexed_eq (h : g.Sound) : indexed g.nodes g.source = g := by
  have hwidth : (indexed g.nodes g.source).preds.size = g.preds.size := by
    unfold indexed
    rw [size_foldl_record, h.width]
    simp [size]
  have hpreds : (indexed g.nodes g.source).preds = g.preds := by
    refine Array.ext hwidth fun d hd hd' => Ascending.ext_mem fun m => ?_
    have hsize : d < g.nodes.size := Nat.lt_of_lt_of_eq hd' h.width
    have hmem : m ∈ (indexed g.nodes g.source).predecessors d ↔
        g.Reachable m ∧ d ∈ g.targets m := mem_predecessors_indexed hsize
    rw [predecessors, Array.getElem?_eq_getElem hd, Option.getD_some] at hmem
    have hmem' := h.index (m := m) (d := d)
    rw [predecessors, Array.getElem?_eq_getElem hd', Option.getD_some] at hmem'
    exact hmem.trans hmem'.symm
  calc indexed g.nodes g.source
      = ⟨g.nodes, g.source, (indexed g.nodes g.source).preds⟩ := rfl
    _ = g := by rw [hpreds]

/-- The arena of a sound graph is accepted, and the graph is what becomes of it. -/
theorem Sound.ofNodes_eq (h : g.Sound) : ofNodes g.nodes g.source = .ok g := by
  rw [ofNodes_eq_ok h.source_lt, h.indexed_eq]
  rw [h.indexed_eq]
  intro n hn
  obtain ⟨node, hnode⟩ := exists_node? hn.lt_size
  refine ⟨node, hnode, fun hp => h.complete hn (hp ▸ hnode), fun d hd => ?_⟩
  exact h.closed hn (by rwa [targets_of_node? hnode])

end Graph

end ScriptRecovery
