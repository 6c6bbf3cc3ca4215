import ScriptRecovery.Proofs.Graph.Reach

/-!
# The orders are exact

What the three orders of a graph say about its edges (`orders_exact`).

* In preorder every node but the start comes after a node that it is a successor of.
* The postorder is the order of the depth-first search that calls itself on each successor in
  turn (`dfs`).
* In reverse postorder an edge leads forward unless it closes a cycle, so on a graph without
  cycles the order is topological.

The search by recursion is `explore`.  It answers with the marks it leaves and the nodes in the
order in which it leaves them, and the search over an explicit list of tasks does the same
(`leaving_map_enter`).  What is said about edges is proved on the recursion, where the list of a
node is the lists of its successors and then the node itself.
-/

namespace ScriptRecovery

/-! ## Enlisting -/

namespace Marks

/-- What is on the stack is marked and there once, also after more nodes are put on it. -/
theorem nodup_enlist {m : Marks} {stack is : List Nat} (hstack : stack.Nodup)
    (hm : ∀ j ∈ stack, ¬ m.isFree j) :
    (m.enlist stack is).2.Nodup ∧
      ∀ j ∈ (m.enlist stack is).2, ¬ (m.enlist stack is).1.isFree j := by
  induction is generalizing m stack with
  | nil => exact ⟨hstack, hm⟩
  | cons i is ih =>
    unfold enlist
    split
    · next hi =>
      have hnew : i ∉ stack := fun h => hm i h hi
      refine ih (List.nodup_cons.2 ⟨hnew, hstack⟩) fun j hj => ?_
      rcases List.mem_cons.1 hj with rfl | hj
      · simp
      · simp [hm j hj]
    · exact ih hstack hm

end Marks

namespace Adjacency

variable {a : Adjacency} {start : Nat}

/-- What a successor reaches is reached. -/
theorem Reach.head {n m v : Nat} (h : a.Reach m v) (hm : m ∈ a.successors n)
    (hn : n < a.size) : a.Reach n v :=
  h.mem_of_closed (.step (.start hn) hm h.start_lt) fun _ hx _ hy hlt => .step hx hy hlt

/-! ## Preorder -/

/-- What leaves the stack was on it, or free. -/
theorem mem_drain {marks : Marks} {stack : List Nat} {n : Nat} (h : n ∈ a.drain marks stack) :
    n ∈ stack ∨ marks.isFree n := by
  induction marks, stack using drain.induct a with
  | case1 marks =>
    rw [drain_nil] at h
    simp at h
  | case2 marks node stack enlisted ih =>
    rw [drain_cons] at h
    rcases List.mem_cons.1 h with rfl | h
    · exact .inl (by simp)
    · rcases ih h with h | h
      · rcases Marks.mem_of_mem_enlist h with h | ⟨_, h⟩
        · exact .inl (by simp [h])
        · exact .inr h
      · exact .inr (Marks.isFree_of_enlist h).1

/-- Nothing leaves the stack twice. -/
theorem nodup_drain {marks : Marks} {stack : List Nat} (hstack : stack.Nodup)
    (hm : ∀ j ∈ stack, ¬ marks.isFree j) : (a.drain marks stack).Nodup := by
  induction marks, stack using drain.induct a with
  | case1 marks =>
    rw [drain_nil]
    exact .nil
  | case2 marks node stack enlisted ih =>
    rw [drain_cons]
    obtain ⟨hnode, hrest⟩ := List.nodup_cons.1 hstack
    have hfree : ¬ marks.isFree node := hm node (by simp)
    obtain ⟨hnodup, hmarked⟩ := @Marks.nodup_enlist _ _ (a.successors node) hrest
      fun j hj => hm j (by simp [hj])
    refine List.nodup_cons.2 ⟨fun h => ?_, ih hnodup hmarked⟩
    rcases mem_drain h with h | h
    · rcases Marks.mem_of_mem_enlist h with h | ⟨_, h⟩
      · exact hnode h
      · exact hfree h
    · exact hfree (Marks.isFree_of_enlist h).1

theorem nodup_preorder (a : Adjacency) (start : Nat) : (a.preorder start).Nodup := by
  unfold preorder
  split
  · exact nodup_drain (by simp) (by simp)
  · exact .nil

/-- What leaves the stack was on it, or is a successor of what left it before. -/
theorem exists_pred_of_drain {marks : Marks} {stack pre post : List Nat} {n : Nat}
    (h : a.drain marks stack = pre ++ n :: post) :
    n ∈ stack ∨ ∃ m ∈ pre, n ∈ a.successors m := by
  induction marks, stack using drain.induct a generalizing pre with
  | case1 marks =>
    rw [drain_nil] at h
    simp at h
  | case2 marks node stack enlisted =>
    rename_i ih
    rw [drain_cons] at h
    cases pre with
    | nil =>
      obtain ⟨rfl, _⟩ := List.cons.inj h
      exact .inl (by simp)
    | cons m pre =>
      obtain ⟨rfl, hrest⟩ := List.cons.inj h
      rcases ih hrest with hn | ⟨m, hm, hn⟩
      · rcases Marks.mem_of_mem_enlist hn with hn | ⟨hn, _⟩
        · exact .inl (by simp [hn])
        · exact .inr ⟨node, by simp, hn⟩
      · exact .inr ⟨m, by simp [hm], hn⟩

/-- A node of the preorder is the start at its head, or a successor of a node before it. -/
theorem exists_pred_of_preorder {pre post : List Nat} {n : Nat}
    (h : a.preorder start = pre ++ n :: post) :
    pre = [] ∧ n = start ∨ ∃ m ∈ pre, n ∈ a.successors m := by
  unfold preorder at h
  split at h
  · rw [drain_cons] at h
    cases pre with
    | nil => exact .inl ⟨rfl, (List.cons.inj h).1.symm⟩
    | cons m pre =>
      obtain ⟨rfl, hrest⟩ := List.cons.inj h
      rcases exists_pred_of_drain hrest with hn | ⟨m, hm, hn⟩
      · have hn : n ∈ a.successors start :=
          ((Marks.mem_of_mem_enlist hn).resolve_left (by simp)).1
        exact .inr ⟨start, by simp, hn⟩
      · exact .inr ⟨m, by simp [hm], hn⟩
  · simp at h

/-! ## Depth-first search by recursion -/

/-- A depth-first search of some nodes in turn: the marks it leaves, which are no fewer than
before, and the nodes in the order in which it leaves them.  A free node is marked, its successors
are explored, and then it is listed; a node that is not free is passed over. -/
def explore (a : Adjacency) (marks : Marks) :
    List Nat → {found : Marks × List Nat // found.1.free ≤ marks.free}
  | [] => ⟨(marks, []), Nat.le_refl _⟩
  | node :: nodes =>
      if h : marks.isFree node then
        let inner := a.explore (marks.mark node) (a.successors node)
        let rest := a.explore inner.1.1 nodes
        ⟨(rest.1.1, inner.1.2 ++ node :: rest.1.2),
          Nat.le_trans rest.2 (Nat.le_trans inner.2 (Marks.free_mark h ▸ Nat.le_succ _))⟩
      else a.explore marks nodes
termination_by nodes => (marks.free, nodes.length)
decreasing_by
  · exact Prod.Lex.left _ _ (Marks.free_mark h ▸ Nat.lt_succ_self _)
  · exact Prod.Lex.left _ _ (Nat.lt_of_le_of_lt inner.2 (Marks.free_mark h ▸ Nat.lt_succ_self _))
  · exact Prod.Lex.right _ (by simp)

/-- The marks that a depth-first search leaves. -/
def explored (a : Adjacency) (marks : Marks) (nodes : List Nat) : Marks :=
  (a.explore marks nodes).1.1

/-- The nodes that a depth-first search leaves, in order. -/
def finished (a : Adjacency) (marks : Marks) (nodes : List Nat) : List Nat :=
  (a.explore marks nodes).1.2

/-- The depth-first postorder of a start, by recursion. -/
def dfs (a : Adjacency) (start : Nat) : List Nat :=
  a.finished (Marks.none a.size) [start]

@[simp] theorem explored_nil (marks : Marks) : a.explored marks [] = marks := by
  rw [explored, explore]

@[simp] theorem finished_nil (marks : Marks) : a.finished marks [] = [] := by
  rw [finished, explore]

theorem explored_free {marks : Marks} {node : Nat} (nodes : List Nat) (h : marks.isFree node) :
    a.explored marks (node :: nodes) =
      a.explored (a.explored (marks.mark node) (a.successors node)) nodes := by
  rw [explored, explore, dif_pos h, explored, explored]

theorem finished_free {marks : Marks} {node : Nat} (nodes : List Nat) (h : marks.isFree node) :
    a.finished marks (node :: nodes) = a.finished (marks.mark node) (a.successors node) ++
      node :: a.finished (a.explored (marks.mark node) (a.successors node)) nodes := by
  rw [finished, explore, dif_pos h, finished, finished, explored]

theorem explored_marked {marks : Marks} {node : Nat} (nodes : List Nat)
    (h : ¬ marks.isFree node) : a.explored marks (node :: nodes) = a.explored marks nodes := by
  rw [explored, explore, dif_neg h, explored]

theorem finished_marked {marks : Marks} {node : Nat} (nodes : List Nat)
    (h : ¬ marks.isFree node) : a.finished marks (node :: nodes) = a.finished marks nodes := by
  rw [finished, explore, dif_neg h, finished]

/-- Induction along the depth-first search. -/
theorem explore_induct (a : Adjacency) {motive : Marks → List Nat → Prop}
    (nil : ∀ marks, motive marks [])
    (free : ∀ marks node nodes, marks.isFree node →
      motive (marks.mark node) (a.successors node) →
      motive (a.explored (marks.mark node) (a.successors node)) nodes →
      motive marks (node :: nodes))
    (marked : ∀ marks node nodes, ¬ marks.isFree node → motive marks nodes →
      motive marks (node :: nodes)) :
    ∀ marks nodes, motive marks nodes := by
  intro marks nodes
  induction marks, nodes using explore.induct a with
  | case1 marks => exact nil marks
  | case2 marks node nodes hfree inner ih ih' => exact free marks node nodes hfree ih ih'
  | case3 marks node nodes hfree ih => exact marked marks node nodes hfree ih

/-- The search over a list of tasks leaves what the recursion leaves, in the same order, and goes
on with the tasks that follow. -/
theorem leaving_map_enter (marks : Marks) (nodes : List Nat) (tasks : List Task) :
    a.leaving marks (nodes.map .enter ++ tasks) =
      a.finished marks nodes ++ a.leaving (a.explored marks nodes) tasks := by
  induction marks, nodes using explore_induct a generalizing tasks with
  | nil marks => simp
  | free marks node nodes hfree ihInner ihRest =>
    rw [List.map_cons, List.cons_append, leaving_enter _ hfree, ihInner, leaving_leave, ihRest,
      finished_free _ hfree, explored_free _ hfree, List.append_assoc, List.cons_append]
  | marked marks node nodes hfree ih =>
    rw [List.map_cons, List.cons_append, leaving_skip _ hfree, ih, finished_marked _ hfree,
      explored_marked _ hfree]

/-- The postorder is the one of the search by recursion. -/
theorem postorder_eq_dfs (a : Adjacency) (start : Nat) : a.postorder start = a.dfs start := by
  have h := a.leaving_map_enter (Marks.none a.size) [start] []
  rwa [leaving_nil, List.append_nil, List.append_nil] at h

/-! ## Edges of a search -/

/-- A search marks what it lists. -/
theorem isFree_explored {marks : Marks} {nodes : List Nat} {v : Nat} :
    (a.explored marks nodes).isFree v ↔ marks.isFree v ∧ v ∉ a.finished marks nodes := by
  induction marks, nodes using explore_induct a with
  | nil marks => simp
  | free marks node nodes hfree ihInner ihRest =>
    rw [explored_free _ hfree, finished_free _ hfree, ihRest, ihInner]
    simp only [Marks.isFree_mark, Bool.and_eq_true, bne_iff_ne, List.mem_append, List.mem_cons,
      not_or]
    tauto
  | marked marks node nodes hfree ih =>
    rw [explored_marked _ hfree, finished_marked _ hfree, ih]

/-- A search lists the free ones among the nodes it is to explore. -/
theorem mem_finished_of_mem {marks : Marks} {nodes : List Nat} {v : Nat} (hv : v ∈ nodes)
    (hfree : marks.isFree v) : v ∈ a.finished marks nodes := by
  induction marks, nodes using explore_induct a with
  | nil marks => simp at hv
  | free marks node nodes hnode _ ihRest =>
    rw [finished_free _ hnode]
    by_cases hlisted : v ∈ a.finished (marks.mark node) (a.successors node)
    · exact List.mem_append_left _ hlisted
    · refine List.mem_append_right _ ?_
      rcases List.mem_cons.1 hv with rfl | hv
      · exact List.mem_cons_self
      · by_cases hne : node = v
        · exact hne ▸ List.mem_cons_self
        · have hstill : (marks.mark node).isFree v := by simp [hfree, hne]
          exact List.mem_cons_of_mem _ (ihRest hv (isFree_explored.2 ⟨hstill, hlisted⟩))
  | marked marks node nodes hnode ih =>
    rw [finished_marked _ hnode]
    rcases List.mem_cons.1 hv with rfl | hv
    · exact absurd hfree hnode
    · exact ih hv hfree

/-- A search lists only what the nodes to explore reach. -/
theorem exists_reach_of_mem_finished {marks : Marks} {nodes : List Nat}
    (hin : ∀ j, marks.isFree j → j < a.size) {v : Nat} (hv : v ∈ a.finished marks nodes) :
    ∃ node ∈ nodes, a.Reach node v := by
  induction marks, nodes using explore_induct a with
  | nil marks => simp at hv
  | free marks node nodes hfree ihInner ihRest =>
    have hnode : node < a.size := hin node hfree
    have hinner : ∀ j, (marks.mark node).isFree j → j < a.size := fun j hj => hin j (by simp_all)
    rw [finished_free _ hfree] at hv
    rcases List.mem_append.1 hv with hv | hv
    · obtain ⟨s, hs, hreach⟩ := ihInner hinner hv
      exact ⟨node, by simp, hreach.head hs hnode⟩
    · rcases List.mem_cons.1 hv with rfl | hv
      · exact ⟨v, by simp, .start hnode⟩
      · obtain ⟨s, hs, hreach⟩ := ihRest (fun j hj => hinner j (isFree_explored.1 hj).1) hv
        exact ⟨s, by simp [hs], hreach⟩
  | marked marks node nodes hfree ih =>
    rw [finished_marked _ hfree] at hv
    obtain ⟨s, hs, hreach⟩ := ih hin hv
    exact ⟨s, by simp [hs], hreach⟩

/-- A place in a list is before one of its elements, at it or after it. -/
private theorem split_cases {inner rest pre post : List Nat} {node u : Nat}
    (h : inner ++ node :: rest = pre ++ u :: post) :
    (∃ later, inner = pre ++ u :: later) ∨ (inner = pre ∧ node = u) ∨
      ∃ earlier, pre = inner ++ node :: earlier ∧ rest = earlier ++ u :: post := by
  rcases List.append_eq_append_iff.1 h with ⟨between, rfl, hrest⟩ | ⟨between, rfl, hrest⟩
  · rcases List.cons_eq_append_iff.1 hrest with ⟨rfl, hrest⟩ | ⟨earlier, rfl, hrest⟩
    · obtain ⟨rfl, _⟩ := List.cons.inj hrest
      exact .inr (.inl ⟨by simp, rfl⟩)
    · exact .inr (.inr ⟨earlier, rfl, (List.cons.inj hrest).2⟩)
  · rcases List.cons_eq_append_iff.1 hrest with ⟨rfl, hrest⟩ | ⟨later, rfl, _⟩
    · obtain ⟨rfl, _⟩ := List.cons.inj hrest
      exact .inr (.inl ⟨by simp, rfl⟩)
    · exact .inl ⟨later, rfl⟩

/-- A successor of a node that is listed was listed before it, or is marked from the beginning, or
leads back to it. -/
theorem edge_of_finished {marks : Marks} {nodes : List Nat}
    (hin : ∀ j, marks.isFree j → j < a.size) {pre post : List Nat} {u v : Nat}
    (h : a.finished marks nodes = pre ++ u :: post) (hv : v ∈ a.successors u) :
    v ∈ pre ∨ ¬ marks.isFree v ∨ a.Reach v u := by
  induction marks, nodes using explore_induct a generalizing pre post with
  | nil marks => simp at h
  | free marks node nodes hfree ihInner ihRest =>
    have hnode : node < a.size := hin node hfree
    have hinner : ∀ j, (marks.mark node).isFree j → j < a.size := fun j hj => hin j (by simp_all)
    -- a node that is marked once the search is at `node` is that node, or was marked before
    have back : ¬ (marks.mark node).isFree v → ¬ marks.isFree v ∨ v = node := by
      intro hv
      by_cases hne : node = v
      · exact .inr hne.symm
      · exact .inl (by simpa [hne] using hv)
    rw [finished_free _ hfree] at h
    rcases split_cases h with ⟨later, hlist⟩ | ⟨rfl, rfl⟩ | ⟨earlier, rfl, hlist⟩
    · rcases ihInner hinner hlist with h | h | h
      · exact .inl h
      · rcases back h with h | rfl
        · exact .inr (.inl h)
        · have hu : u ∈ a.finished (marks.mark v) (a.successors v) := by simp [hlist]
          obtain ⟨s, hs, hreach⟩ := exists_reach_of_mem_finished hinner hu
          exact .inr (.inr (hreach.head hs hnode))
      · exact .inr (.inr h)
    · by_cases hv' : (marks.mark node).isFree v
      · exact .inl (mem_finished_of_mem hv hv')
      · rcases back hv' with h | rfl
        · exact .inr (.inl h)
        · exact .inr (.inr (.start hnode))
    · rcases ihRest (fun j hj => hinner j (isFree_explored.1 hj).1) hlist with h | h | h
      · exact .inl (by simp [h])
      · rw [isFree_explored, not_and_or, not_not] at h
        rcases h with h | h
        · rcases back h with h | rfl
          · exact .inr (.inl h)
          · exact .inl (by simp)
        · exact .inl (by simp [h])
      · exact .inr (.inr h)
  | marked marks node nodes hfree ih =>
    rw [finished_marked _ hfree] at h
    exact ih hin h

/-- In reverse postorder an edge leads forward, or its end leads back to where it starts. -/
theorem edge_of_reversePostorder {u v : Nat} (hu : a.Reach start u) (hv : v ∈ a.successors u)
    (hlt : v < a.size) :
    (a.reversePostorder start).idxOf u < (a.reversePostorder start).idxOf v ∨ a.Reach v u := by
  obtain ⟨pre, post, hsplit⟩ := List.append_of_mem (mem_postorder.2 hu)
  have horder : a.reversePostorder start = post.reverse ++ u :: pre.reverse := by
    simp [reversePostorder, hsplit]
  rw [postorder_eq_dfs] at hsplit
  rcases edge_of_finished (by simp) hsplit hv with h | h | h
  · have hnodup : (post.reverse ++ u :: pre.reverse).Nodup :=
      horder ▸ nodup_reversePostorder a start
    obtain ⟨_, hpre, hapart⟩ := List.nodup_append'.1 hnodup
    have hu' : u ∉ post.reverse := fun hu => hapart hu (by simp)
    have hv' : v ∉ post.reverse := fun hv => hapart hv (by simp [h])
    have hne : u ≠ v := fun huv => (List.nodup_cons.1 hpre).1 (by simp [huv, h])
    rw [horder, List.idxOf_append_of_notMem hu', List.idxOf_append_of_notMem hv',
      List.idxOf_cons_self, List.idxOf_cons_ne _ hne]
    exact .inl (by omega)
  · exact absurd (by simp [hlt]) h
  · exact .inr h

/-- The orders of a graph are exact, whatever its edges and its start.  Each lists what the start
reaches, once, and nothing for a start outside the graph.  A node of the preorder is the start at
its head or a successor of a node before it.  The postorder is the one of the search by recursion.
In reverse postorder an edge leads forward unless its end leads back to where it starts, so the
order is topological when no edge does. -/
theorem orders_exact (a : Adjacency) (start : Nat) :
    (∀ order, (a.list start order).Nodup ∧ ∀ n, n ∈ a.list start order ↔ a.Reach start n) ∧
    (a.size ≤ start → ∀ order, a.list start order = []) ∧
    (∀ pre n post, a.preorder start = pre ++ n :: post →
      pre = [] ∧ n = start ∨ ∃ m ∈ pre, n ∈ a.successors m) ∧
    a.postorder start = a.dfs start ∧
    (∀ u ∈ a.reversePostorder start, ∀ v ∈ a.reversePostorder start, v ∈ a.successors u →
      ¬ (a.reversePostorder start).idxOf u < (a.reversePostorder start).idxOf v →
      a.Reach v u) ∧
    ((∀ u v, a.Reach start u → v ∈ a.successors u → ¬ a.Reach v u) →
      ∀ u v, a.Reach start u → v ∈ a.successors u → v < a.size →
        (a.reversePostorder start).idxOf u < (a.reversePostorder start).idxOf v) := by
  have hlists : ∀ order, (a.list start order).Nodup ∧
      ∀ n, n ∈ a.list start order ↔ a.Reach start n := by
    intro order
    cases order with
    | preorder => exact ⟨nodup_preorder a start, fun n => mem_preorder⟩
    | postorder => exact ⟨nodup_postorder a start, fun n => mem_postorder⟩
    | reversePostorder => exact ⟨nodup_reversePostorder a start, fun n => mem_reversePostorder⟩
  refine ⟨hlists, fun hout order => ?_, fun pre n post h => exists_pred_of_preorder h,
    postorder_eq_dfs a start, fun u hu v hv huv hback => ?_, fun hacyclic u v hu huv hlt => ?_⟩
  · have hnone : ∀ n, n ∉ a.list start order := fun n hn =>
      absurd (((hlists order).2 n).1 hn).start_lt (Nat.not_lt.2 hout)
    exact List.eq_nil_iff_forall_not_mem.2 hnone
  · have hlt : v < a.size := (mem_reversePostorder.1 hv).lt_size
    exact (edge_of_reversePostorder (mem_reversePostorder.1 hu) huv hlt).resolve_left hback
  · exact (edge_of_reversePostorder hu huv hlt).resolve_right (hacyclic u v hu huv)

/-- A diamond with an edge twice and an edge out of the graph lists its nodes downwards.  In a
loop the edge back leads to a node that is listed before, and that reaches where the edge starts. -/
theorem orders_exact_edges :
    let diamond : Adjacency :=
      ⟨4, fun n => if n = 0 then [1, 2, 1, 9] else if n < 3 then [3, 3] else []⟩
    let loop : Adjacency := ⟨2, fun n => if n = 0 then [1] else [1, 0]⟩
    (diamond.reversePostorder 0).idxOf 2 < (diamond.reversePostorder 0).idxOf 3 ∧
      loop.reversePostorder 0 = [0, 1] ∧ loop.Reach 0 1 := by
  intro diamond loop
  have hup : ∀ u v, v ∈ diamond.successors u → u < v := by
    intro u v huv
    simp only [diamond] at huv
    split at huv
    · simp at huv
      omega
    · split at huv <;> simp at huv
      omega
  have hacyclic : ∀ u v, diamond.Reach 0 u → v ∈ diamond.successors u → ¬ diamond.Reach v u := by
    intro u v _ huv hback
    have hle : v ≤ u := hback.mem_of_closed (p := fun x => v ≤ x) (Nat.le_refl v)
      fun x hx y hxy _ => Nat.le_trans hx (Nat.le_of_lt (hup x y hxy))
    exact absurd (hup u v huv) (Nat.not_lt.2 hle)
  have hreach : diamond.Reach 0 2 :=
    .step (.start (by simp [diamond])) (by simp [diamond]) (by simp [diamond])
  have hlisted : loop.reversePostorder 0 = [0, 1] := by cbv
  refine ⟨(orders_exact diamond 0).2.2.2.2.2 hacyclic 2 3 hreach (by simp [diamond])
    (by simp [diamond]), hlisted, ?_⟩
  exact (orders_exact loop 0).2.2.2.2.1 1 (by simp [hlisted]) 0 (by simp [hlisted])
    (by simp [loop]) (by simp [hlisted])

end Adjacency

end ScriptRecovery
