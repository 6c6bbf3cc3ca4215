import ScriptRecovery.Proofs.Flow.Construction
import ScriptRecovery.Proofs.Lower.Budget
import ScriptRecovery.Proofs.Reduce.Schedules
import ScriptRecovery.Proofs.Reduce.Spans

/-!
# Reduction demands no more

The graph of a stream demands no more than the actions of the stream do (`demand_le_of_ofStream`),
since every action is the edge of one node at most.  Every splice of a pass lays a row that demands
no more than the nodes of its region, so no pass raises the demand of a graph.

The spans of templates are part of the demand.  So where the actions of a stream demand less than
the bound of a counter, the pipeline does not fail, and leaves a graph that demands no more
(`gives_pipeline`).
-/

namespace ScriptRecovery

/-! ## Edges -/

namespace Edge

variable {a b both : Edge} {row row' : List Edge} {traceName : String}

theorem span_le_demand (e : Edge) : e.span ≤ e.demand := by
  cases e with
  | template t =>
    rw [demand]
    exact Nat.le_add_right _ _
  | _ => exact Nat.zero_le _

theorem demand_merge_le (h : a.merge b = .ok (some both)) : both.demand ≤ a.demand + b.demand := by
  rcases merge_eq_ok h with ⟨rfl, rfl⟩ | ⟨rfl, rfl⟩ | ⟨t₁, t₂, t, rfl, rfl, hmerge, rfl⟩
  · exact Nat.le_add_left _ _
  · exact Nat.le_add_right _ _
  · have hspan := Template.span_merge_le hmerge
    obtain ⟨-, -, -, -, hvoid, -⟩ := Template.merge_eq_ok hmerge
    simp only [demand, Template.demand, hvoid]
    omega

/-- A row that is merged demands no more. -/
theorem demand_reduceRow_le (h : reduceRow row = .ok (some row')) :
    total demand row' ≤ total demand row :=
  total_le_of_merges demand_merge_le (reduceRow_merges h)

/-- A push demands as much as it has values. -/
theorem demand_push (values : List Operand) :
    (action (.push values)).demand = values.length := by
  have hpushes : total Stmt.pushes (values.map fun v => Stmt.pushing v.toExpr) = values.length := by
    induction values with
    | nil => rfl
    | cons v values ih => rw [List.map_cons, total, ih, Stmt.pushes_pushing, List.length_cons,
        Nat.add_comm]
  rw [demand]
  simpa [Action.demand, Action.recipe?, Recipe.demand, Recipe.taking] using hpushes

theorem demand_value (v : Operand) : (template (.value v.toExpr)).demand = 1 := by
  rw [demand]
  cases v <;> rfl

/-- The templates of an action demand as much as the action. -/
theorem demand_toTemplates {e : Edge} (h : e.toTemplates? traceName = some row) :
    total demand row = e.demand := by
  obtain ⟨a, ts, rfl, hts, rfl⟩ := FlowGraph.toTemplates?_eq_some h
  cases a with
  | push values =>
    obtain rfl := Option.some.inj hts
    rw [demand_push]
    clear h hts
    induction values with
    | nil => rfl
    | cons v values ih =>
      rw [List.map_cons, List.map_cons, total, ih, demand_value, List.length_cons, Nat.add_comm]
  | not | trace | binary _ =>
    obtain rfl := Option.some.inj hts
    simp only [List.map_cons, List.map_nil, total, demand]
    rfl
  | _ => cases hts

end Edge

namespace FlowGraph

variable {g g' : FlowGraph} {traceName : String}

/-! ## Passes -/

/-- Splices of rows that demand no more than the nodes of their regions do not raise the demand of a
graph. -/
theorem demand_le_of_reduces {α : Type} {p : α → Patch} {V : FlowGraph → α → Prop}
    (hV : ∀ {g : FlowGraph} {x : α}, g.Regular traceName → V g x → ∃ cut : List Nat, cut.Nodup ∧
      (∀ m, m ∈ cut ↔ m = (p x).source ∨ m ∈ (p x).gone) ∧ (∀ m ∈ cut, g.Reachable m) ∧
      total Edge.demand (p x).row ≤ total (Graph.weightAt Edge.demand g) cut)
    (h : Reduces traceName p V g g') : g'.demand ≤ g.demand := by
  induction h with
  | refl => exact Nat.le_refl _
  | tail _ hlast ih =>
    obtain ⟨hregular, x, hx, happlied⟩ := hlast
    obtain ⟨cut, hnd, hcut, hin, hrow⟩ := hV hregular hx
    exact Nat.le_trans
      (happlied.spliced.weight_le hregular.sound happlied.region hnd hcut hin hrow) ih

/-- Splices of single edges that demand no less than what takes their place. -/
theorem demand_le_of_picked {α : Type} {pick : Nat → Edge → Option α} {row : α → List Edge}
    (hpick : ∀ {n : Nat} {e : Edge} {x : α}, pick n e = some x →
      total Edge.demand (row x) ≤ e.demand)
    (h : Reduces traceName (g.edgePatch row) (g.StillPicked pick row) g g') :
    g'.demand ≤ g.demand := by
  refine demand_le_of_reduces (fun {g₁ x} _ hx => ?_) h
  obtain ⟨e, hnode, hp⟩ := hx.node
  refine ⟨[x.1], List.nodup_singleton _, by simp [edgePatch], by simpa using hx.reachable, ?_⟩
  rw [total, total, Graph.weightAt_of_simple hnode, edgePatch, Edge.total_demand_rowOf]
  exact hpick hp

theorem demand_inlinePools {states : Solution PoolState}
    (h : Reduces traceName (g.edgePatch fun e => [e])
      (g.StillPicked (pickPush states) fun e => [e]) g g') : g'.demand ≤ g.demand := by
  refine demand_le_of_picked (fun {n e e'} hp => ?_) h
  simp only [pickPush, Option.bind_eq_bind, Option.bind_eq_some_iff] at hp
  obtain ⟨_, -, pool, -, hp⟩ := hp
  obtain ⟨values, rfl, rfl⟩ := inlinePool?_eq_some hp
  rw [total, total, Edge.demand_push, Edge.demand_push, List.length_map]
  exact Nat.le_refl _

theorem demand_formTemplates (h : Reduces traceName (g.edgePatch id)
    (g.StillPicked (fun _ => Edge.toTemplates? traceName) id) g g') : g'.demand ≤ g.demand :=
  demand_le_of_picked (fun hp => Nat.le_of_eq (Edge.demand_toTemplates hp)) h

theorem demand_mergeChains (h : Reduces traceName g.chainPatch g.StillChain g g') :
    g'.demand ≤ g.demand := by
  refine demand_le_of_reduces (fun {g₁ r} hg₁ hr => ?_) h
  obtain ⟨chain, row⟩ := r
  obtain ⟨es, hchain, hrow⟩ := hr
  refine ⟨chain, hchain.nodup, fun m => ?_, hchain.reachable hg₁.sound, ?_⟩
  · cases hchain
    exact List.mem_cons
  · rw [hchain.weight, chainPatch, Edge.total_demand_rowOf]
    exact Edge.demand_reduceRow_le hrow

theorem demand_formConditionals (h : Reduces traceName g.regionPatch g.StillDiamond g g') :
    g'.demand ≤ g.demand := by
  refine demand_le_of_reduces (fun {g₁ c} hg₁ hc => ?_) h
  obtain ⟨p, a, b, ns, ns', es, es', hdiamond, hedge, hgone⟩ := hc
  refine ⟨c.source :: Graph.between p ns ns', hdiamond.nodup, fun m => ?_, ?_, ?_⟩
  · rw [List.mem_cons, hgone]
    rfl
  · exact List.forall_mem_cons.2 ⟨hdiamond.entry, hdiamond.reachable_between hg₁.sound⟩
  · rw [hdiamond.weight, regionPatch, hedge, total, total, Edge.demand, Edge.demand,
      demandOfPath_linear, demandOfPath_linear, total, total]
    omega

/-- The pipeline does not fail on a regular graph that demands less than the bound of a counter, and
leaves one that demands no more. -/
theorem Regular.gives_pipeline (hg : g.Regular traceName) (h : g.demand < counterBound)
    (strict fixpoint : Bool) (maxIterations : Nat) :
    ((Schedule.pipeline traceName strict fixpoint maxIterations).run g).Gives fun g' =>
      g'.Regular traceName ∧ g'.demand ≤ g.demand := by
  refine Schedule.run_gives (fun p hp iteration g₁ hg₁ => ?_) ⟨hg, Nat.le_refl _⟩
  have hleaves := leaves_each (P := fun g' => g'.demand ≤ g.demand)
    (fun _ _ hr hle => Nat.le_trans (demand_inlinePools hr) hle)
    (fun hr hle => Nat.le_trans (demand_formTemplates hr) hle)
    (fun hr hle => Nat.le_trans (demand_mergeChains hr) hle)
    (fun hr hle => Nat.le_trans (demand_formConditionals hr) hle) hp iteration hg₁
  refine hleaves.gives ?_
  simp only [Schedule.pipeline, List.mem_cons, List.not_mem_nil, or_false] at hp
  rcases hp with rfl | rfl | rfl | rfl
  · obtain ⟨_, _, hrun, -⟩ := hg₁.1.inlinePools strict iteration
    intro hfault
    cases hfault.symm.trans (congrArg Outcome.changed hrun)
  · obtain ⟨_, _, hrun, -⟩ := hg₁.1.formTemplates iteration
    intro hfault
    cases hfault.symm.trans (congrArg Outcome.changed hrun)
  · have hspan : g₁.span ≤ g₁.demand := Graph.weight_mono Edge.span_le_demand
    exact changed_mergeChains_ne hg₁.1.sound (by omega) iteration
  · obtain ⟨_, _, hrun, -⟩ := hg₁.1.formConditionals iteration
    intro hfault
    cases hfault.symm.trans (congrArg Outcome.changed hrun)

/-! ## Graphs of streams -/

section Stream

variable {s : Stream} {place : Nat → Option Nat}

/-- The edge out of a node demands what the action does that is read there. -/
theorem demand_of_shows {n m next : Nat} {e : Edge} {a : Action} (hplain : e ≠ .plain)
    (hnode : g.node? n = some (.simple ⟨e, m⟩))
    (h : Shows g.node? g.Ends place n (some (a, next))) : e.demand = a.demand := by
  unfold Shows at h
  split at h
  · contradiction
  · next heq =>
    obtain ⟨test, _, _, htest, -⟩ := h
    cases heq
    cases hnode.symm.trans htest
    rw [Edge.demand]
    rfl
  · -- A jump has a plain edge, and so has the last node before an end.
    split at h
    · obtain ⟨_, hend, -⟩ := h
      cases hnode.symm.trans hend
      exact absurd rfl hplain
    · obtain ⟨_, hjump, -⟩ := h
      cases hnode.symm.trans hjump
      exact absurd rfl hplain
  · next heq =>
    obtain ⟨_, haction, -⟩ := h
    cases heq
    cases hnode.symm.trans haction
    rw [Edge.demand]

/-- A node of the graph of a stream demands nothing, or what the action at its offset demands. -/
theorem Built.weightAt_cases (hg : g.Built s place) {n : Nat} (hn : g.Reachable n) :
    Graph.weightAt Edge.demand g n = 0 ∨ ∃ entry ∈ s, place entry.offset = some n ∧
      Graph.weightAt Edge.demand g n = entry.action.demand := by
  obtain ⟨node, hnode⟩ := Graph.exists_node? hn.lt_size
  have hdrawn := hg.drawn n node hnode
  cases node with
  | pending => exact absurd hnode (hg.sound.complete hn)
  | done =>
    left
    rw [Graph.weightAt, Graph.outEdges, show g.nodes[n]? = _ from hnode]
    rfl
  | branch a b =>
    left
    rw [Graph.weightAt_of_branch hnode, hdrawn.1, hdrawn.2.1, Edge.demand, Edge.demand]
  | simple out =>
    obtain ⟨e, m⟩ := out
    rw [Graph.weightAt_of_simple hnode]
    by_cases hplain : e = .plain
    · left
      rw [hplain, Edge.demand]
    · right
      obtain ⟨o, a, next, hplace, hread⟩ := hg.exists_offset hn hnode hplain
      have hshown := hg.shown hplace
      rw [hread] at hshown
      obtain ⟨entry, hentry, heq⟩ := Option.map_eq_some_iff.1 hread
      have hoffset : entry.offset = o := by simpa using List.find?_some hentry
      cases heq
      cases hoffset
      exact ⟨entry, List.mem_of_find?_eq_some hentry, hplace, demand_of_shows hplain hnode hshown⟩

/-- What some nodes of the graph of a stream demand is demanded by entries placed at them. -/
theorem Built.exists_entries (hg : g.Built s place) {ns : List Nat} (hnd : ns.Nodup)
    (hns : ∀ n ∈ ns, g.Reachable n) : ∃ entries : Stream, entries.Nodup ∧ entries ⊆ s ∧
      (∀ entry ∈ entries, ∃ n ∈ ns, place entry.offset = some n) ∧
      total (Graph.weightAt Edge.demand g) ns ≤ Stream.demand entries := by
  induction ns with
  | nil => exact ⟨[], .nil, by simp, by simp, Nat.le_refl _⟩
  | cons n ns ih =>
    rw [List.nodup_cons] at hnd
    rw [List.forall_mem_cons] at hns
    obtain ⟨entries, hentries, hsub, hplaced, hle⟩ := ih hnd.2 hns.2
    have hlater : ∀ entry ∈ entries, ∃ m ∈ n :: ns, place entry.offset = some m := by
      intro entry hentry
      obtain ⟨m, hm, hplace⟩ := hplaced entry hentry
      exact ⟨m, List.mem_cons_of_mem _ hm, hplace⟩
    rcases hg.weightAt_cases hns.1 with hzero | ⟨entry, hentry, hplace, hdemand⟩
    · refine ⟨entries, hentries, hsub, hlater, ?_⟩
      rw [total, hzero, Nat.zero_add]
      exact hle
    · -- The entry is new, since no other node is the place of its offset.
      have hnew : entry ∉ entries := by
        intro hmem
        obtain ⟨m, hm, hplace'⟩ := hplaced entry hmem
        cases hplace.symm.trans hplace'
        exact hnd.1 hm
      refine ⟨entry :: entries, List.nodup_cons.2 ⟨hnew, hentries⟩,
        List.cons_subset.2 ⟨hentry, hsub⟩,
        List.forall_mem_cons.2 ⟨⟨n, List.mem_cons_self, hplace⟩, hlater⟩, ?_⟩
      rw [total, hdemand]
      exact Nat.add_le_add_left hle _

/-- The graph of a stream demands no more than the actions of the stream. -/
theorem demand_le_of_ofStream (h : ofStream s = .ok g) : g.demand ≤ s.demand := by
  obtain ⟨place, hg⟩ := built_ofStream h
  obtain ⟨entries, hnd, hsub, -, hle⟩ :=
    hg.exists_entries (Graph.nodup_reversePostorder g) fun n hn => Graph.mem_list.1 hn
  calc g.demand = total (Graph.weightAt Edge.demand g) (Graph.list g .reversePostorder) :=
        Graph.weight_eq
    _ ≤ Stream.demand entries := hle
    _ ≤ s.demand := total_le_of_subset hnd hsub

end Stream

end FlowGraph

end ScriptRecovery
