import ScriptRecovery.Proofs.Reduce.Flat
import ScriptRecovery.Proofs.Reduce.Held
import ScriptRecovery.Proofs.Semantics.Graphs

/-!
# What a graph without tests is refused for

The path of a graph that control leaves and that has no test ends at the end of the graph
(`Sound.walk_done`), and it passes every reachable edge (`mem_path_iff`).  So the graph is said in
statements when all actions that it holds have a recipe, and is refused for one that has none when
there is one (`Regular.emit_cases`).
-/

namespace ScriptRecovery

open Relation

namespace Graph

variable {ε : Type} {g : Graph ε} {n dest : Nat}

/-! ## Paths that end -/

/-- A path through nodes that are not marked ends at the end of the graph, when there are no tests
and every way ends. -/
theorem Sound.walk_done (hg : g.Sound)
    (hnone : ∀ {p : Nat} {a b : Link ε}, g.Reachable p → g.node? p ≠ some (.branch a b))
    (hacc : Acc g.Next n) (hn : g.Reachable n) {marks : Marks}
    (hfree : ∀ m, ReflTransGen g.Next m n → marks.isFree m) : (g.walk marks n).2 = .done := by
  induction hacc generalizing marks with
  | intro n hacc ih =>
    obtain ⟨node, hnode⟩ := exists_node? hn.lt_size
    have hnode : g.nodes[n]? = some node := hnode
    rw [walk, if_pos (hfree n .refl), hnode]
    cases node with
    | pending => exact absurd hnode (hg.complete hn)
    | done => rfl
    | branch a b => exact absurd hnode (hnone hn)
    | simple out =>
      have hout : out.dest ∈ g.targets n := by simp [targets_of_simple hnode]
      refine ih out.dest hout (hg.reachable_target hn hout) fun m hm => ?_
      -- a node further on is not this one, since no way comes back
      have hne : n ≠ m := by
        rintro rfl
        exact not_transGen_self ⟨n, hacc⟩ (.tail' hm hout)
      rw [Marks.isFree_mark, hfree m (.tail hm hout)]
      simpa using hne

/-- The path of a graph without tests that control leaves ends at the end of the graph. -/
theorem Sound.path_done (hg : g.Sound) (ht : g.Terminates)
    (hnone : ∀ {p : Nat} {a b : Link ε}, g.Reachable p → g.node? p ≠ some (.branch a b)) :
    g.path.2 = .done := by
  refine hg.walk_done hnone ht hg.reachable_source fun m hm => ?_
  have hreach : g.Reachable m := by
    induction hm using ReflTransGen.head_induction_on with
    | refl => exact hg.reachable_source
    | head hstep _ ih => exact hg.reachable_target ih hstep
  rw [Marks.isFree_none]
  simpa using hreach.lt_size

/-- A path to the end of a graph passes every reachable edge. -/
theorem Sound.mem_path_iff (hg : g.Sound) (h : g.path.2 = .done) {e : ε} :
    e ∈ g.path.1 ↔ ∃ m node l, g.Reachable m ∧ g.node? m = some node ∧ l ∈ node.links ∧
      l.edge = e := by
  obtain ⟨d, hrow, hdone⟩ := row_of_walk h
  constructor
  · intro he
    obtain ⟨m, out, hm, hnode⟩ := hrow.exists_link hg hg.reachable_source he
    exact ⟨m, _, ⟨e, out⟩, hm, hnode, by simp [Node.links], rfl⟩
  · rintro ⟨m, node, l, hm, hnode, hl, rfl⟩
    have hrest : ∃ post, post <:+ g.path.1 ∧ g.Row 0 d m post := by
      refine hm.mem_of_closed (p := fun x => ∃ post, post <:+ g.path.1 ∧ g.Row 0 d x post)
        ⟨_, List.suffix_rfl, hrow⟩ ?_
      rintro x ⟨post, hsuffix, hx⟩ y hy -
      cases hx with
      | nil => simp [targets_of_node? hdone, Node.targets, Node.links] at hy
      | cons _ hnodex hy' =>
        rw [targets_of_simple hnodex, List.mem_singleton] at hy
        exact ⟨_, (List.suffix_cons _ _).trans hsuffix, hy ▸ hy'⟩
    obtain ⟨post, hsuffix, hx⟩ := hrest
    cases hx with
    | nil =>
      cases hdone.symm.trans hnode
      simp [Node.links] at hl
    | cons _ hnode' _ =>
      cases hnode.symm.trans hnode'
      obtain rfl : l = _ := by simpa [Node.links] using hl
      exact hsuffix.subset List.mem_cons_self

end Graph

/-! ## Statements and refusals -/

theorem Emission.row_eq_ok {α : Type} {f : α → Scope → Emission} {xs : List α} {s : Scope}
    {body : List Stmt} (h : (row f xs s).statements = .ok body) :
    ∀ x ∈ xs, ∃ s body, (f x s).statements = .ok body := by
  induction xs generalizing s body with
  | nil => simp
  | cons x xs ih =>
    obtain ⟨first, rest, hfirst, hrest, -⟩ := followedBy_eq_ok h
    exact List.forall_mem_cons.2 ⟨⟨s, first, hfirst⟩, ih hrest⟩

/-- An edge that is said holds actions with recipes only. -/
theorem Edge.Holds.isSome_recipe {e : Edge} {a : Action} (h : e.Holds a) {s : Scope}
    {body : List Stmt} (hs : (e.emit s).statements = .ok body) : a.recipe?.isSome := by
  have harm : ∀ {g : FlowGraph} {s : Scope} {body : List Stmt} {e : Edge},
      (FlowGraph.emit g s).statements = .ok body → e ∈ (Graph.path g).1 →
        ∃ s body, (e.emit s).statements = .ok body := by
    intro g s body e hs he
    exact Emission.row_eq_ok (FlowGraph.path_of_emit hs).2 e he
  induction h generalizing s body with
  | action =>
    rw [Edge.emit] at hs
    obtain ⟨r, hr, -⟩ := Action.emit_eq_ok hs
    simp [hr]
  | onTrue he _ ih =>
    rw [Edge.emit] at hs
    obtain ⟨_, _, _, _, _, htrue, -, -⟩ := Emission.choice_eq_ok hs
    obtain ⟨_, _, hs⟩ := harm htrue he
    exact ih hs
  | onFalse he _ ih =>
    rw [Edge.emit] at hs
    obtain ⟨_, _, _, _, _, -, hfalse, -⟩ := Emission.choice_eq_ok hs
    obtain ⟨_, _, hs⟩ := harm hfalse he
    exact ih hs

namespace FlowGraph

variable {traceName : String} {g : FlowGraph}

/-- A graph without tests that control leaves is said only when the actions it holds have recipes,
and it is refused for one that has none or for a counter at the end of its range. -/
theorem Regular.emit_cases (hg : g.Regular traceName) (ht : g.Terminates) (hu : g.Unbranched)
    (s : Scope) :
    (∀ body, (FlowGraph.emit g s).statements = .ok body → ∀ a, g.Holds a → a.recipe?.isSome) ∧
      ∀ fault, (FlowGraph.emit g s).statements = .error fault → fault = .counterOverflow ∨
        ∃ a, g.Holds a ∧ a.recipe? = none ∧ fault = .unsupported a.name := by
  have hdone := hg.sound.path_done ht hu
  refine ⟨fun body hbody a ha => ?_, ?_⟩
  · obtain ⟨m, node, l, hm, hnode, hl, ha⟩ := ha
    have hmem := (hg.sound.mem_path_iff hdone).2 ⟨m, node, l, hm, hnode, hl, rfl⟩
    obtain ⟨_, _, hs⟩ := Emission.row_eq_ok (path_of_emit hbody).2 _ hmem
    exact ha.isSome_recipe hs
  · refine hg.faults_emit (P := fun fault => fault = .counterOverflow ∨
      ∃ a, g.Holds a ∧ a.recipe? = none ∧ fault = .unsupported a.name) (.inl rfl)
      (fun e he a ha hnone => .inr ⟨a, ?_, hnone, rfl⟩) (fun fault hfault => ?_) s
    · obtain ⟨m, node, l, hm, hnode, hl, rfl⟩ := (hg.sound.mem_path_iff hdone).1 he
      exact ⟨m, node, l, hm, hnode, hl, ha⟩
    · rw [hdone] at hfault
      cases hfault

end FlowGraph

end ScriptRecovery
