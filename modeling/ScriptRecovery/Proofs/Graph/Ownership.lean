import Mathlib.Tactic.IntervalCases
import ScriptRecovery.Proofs.Graph.Histories

/-!
# What a splice leaves behind

A splice gives up the nodes between its two ends, and they stay in the arena as pending nodes.  That
does no harm as long as nothing leads to them any more.  The splices do not see to it.  A chain is
checked against the index, and the index records reachable links only: where a chain starts at a
node that nothing leads to, the one recorded predecessor of its second node is not the chain's own.
A region is whatever its start leads to, so it may be entered from elsewhere or hold the entry of
the graph.

What is needed is that the call owns what it gives up (`Graph.Call.Owns`): that no given up node is
the entry, and that only nodes whose links are replaced lead to it.  With that the graph is complete
after the call, and without it never (`FlowGraph.complete_splice_iff`).  The two directions are two
searches: from the entry of the new graph nothing leads into what was given up
(`Opened.complete_of_owned`), and from the entry of the old graph every node that is kept can still
be reached unless a pending one can (`Opened.reachable_of_complete`).

One edge owns what it gives up, as that is nothing, and so does a chain from a reachable node
(`Sound.owns_chain`).
-/

namespace ScriptRecovery

namespace Graph

variable {ε : Type} {g g' cut : Graph ε} {n dest : Nat} {gone : List Nat}

/-- No reachable node is pending. -/
def Complete (g : Graph ε) : Prop := ∀ n, g.Reachable n → g.node? n ≠ some .pending

/-- Nodes that are not the entry and that no reachable node leads to but those of a list. -/
def OwnedBy (g : Graph ε) (gone taken : List Nat) : Prop :=
  ∀ d ∈ gone, d ≠ g.source ∧ ∀ m, g.Reachable m → d ∈ g.targets m → m ∈ taken

/-- Whether a call owns what it gives up. -/
def Call.Owns (g : Graph ε) (call : Call ε) : Prop := g.OwnedBy (call.vacated g) (call.taken g)

/-! ## The row can be followed -/

/-- After a row is laid its start leads to its end. -/
theorem reachable_layEdges [PlainEdge ε] {edges : List ε} (hn : n < g.size) (hd : dest < g.size)
    (h : g.layEdges n dest edges = .ok g') (hr : g'.Reachable n) : g'.Reachable dest := by
  have hlaid := replaced_of_layEdges hn h
  obtain ⟨e, es, next, -, hnode, hrow⟩ := hlaid.laid
  have hdest : dest < g'.size := Nat.lt_of_lt_of_le hd hlaid.size_le
  have hnext : next < g'.size := by
    cases hrow with
    | nil => exact hdest
    | cons _ hnext _ => exact lt_size_of_node? hnext
  exact hrow.reachable (hr.step (by simp [targets_of_simple hnode]) hnext) hdest

/-! ## What is owned is left alone -/

section Owned

variable {taken : List Nat}

/-- When everything that is given up is owned, and the row does not end in it, the graph is complete
afterwards. -/
theorem Opened.complete_of_owned (ho : g.Opened cut n dest gone) (hg : g.Sound)
    (hlaid : cut.Laid g' dest fun m => (g.size ≤ m ∧ m < g'.size) ∨ m = n)
    (htaken : ∀ m, m ∈ taken ↔ m = n ∨ m ∈ gone) (hown : g.OwnedBy gone taken)
    (hdest : g.Reachable n → dest ∉ gone) : g'.Complete := by
  have hlinked := ho.relinked hlaid
  have hreach := @Tracked.reachable_relinked _ _ _ hg.tracked _ _ _ hlinked ho.lt_size ho.exit
  have hsize : cut.size = g.size := ho.size
  -- nothing that is reached leads into what was given up
  have hout : ∀ {m}, g'.Reachable m → m ∈ gone → m = n := by
    intro m hm
    refine (hm.mem_of_closed (p := fun m => g'.Reachable m ∧ (m ∈ gone → m = n)) ?_ ?_).2
    · exact ⟨reachable_source hm.start_lt,
        fun hs => absurd hlinked.source (hown _ hs).1⟩
    · rintro x ⟨hx, hxin⟩ y hy hlt
      refine ⟨hx.step hy hlt, fun hyin => ?_⟩
      obtain ⟨hxlt, hxold, hxnew⟩ := hreach hx
      by_cases hrow : g.size ≤ x ∧ x < g'.size ∨ x = n
      · have hn : g.Reachable n := by
          rcases hrow with hrow | rfl
          · exact hxnew hrow.1
          · exact hxold ho.lt_size
        rcases hlinked.row hrow hy with rfl | hge
        · exact absurd hyin (hdest hn)
        · exact absurd (ho.vacated hyin).1 (by omega)
      · obtain ⟨hxkept, hy⟩ := hlinked.old (by omega) (by omega) hy
        have hxtaken := (hown y hyin).2 x (hxold (by omega)) hy
        rcases (htaken x).1 hxtaken with rfl | hxgone
        · exact absurd (.inr rfl) hrow
        · exact absurd hxgone hxkept
  intro m hm hpending
  obtain ⟨hlt, hold, -⟩ := hreach hm
  by_cases hrow : g.size ≤ m ∧ m < g'.size ∨ m = n
  · obtain ⟨e, t, hnode, -⟩ := hlaid.leads hrow
    simp [hnode] at hpending
  · have hkept : m ∉ gone := fun hin => hrow (.inr (hout hm hin))
    rw [hlaid.kept (hsize ▸ by omega) hrow, ho.kept hkept] at hpending
    exact hg.complete (hold (by omega)) hpending

/-- When the graph is complete after a splice, nothing that was given up is reached. -/
theorem Opened.not_reachable_of_complete (ho : g.Opened cut n dest gone) (hn : n ∉ gone)
    (hlaid : cut.Laid g' dest fun m => (g.size ≤ m ∧ m < g'.size) ∨ m = n) (hc : g'.Complete)
    {m : Nat} (hin : m ∈ gone) : ¬ g'.Reachable m := by
  intro hm
  obtain ⟨hlt, hpending⟩ := ho.vacated hin
  have hne : m ≠ n := fun h => hn (h ▸ hin)
  have hsize : cut.size = g.size := ho.size
  exact hc m hm ((hlaid.kept (hsize ▸ hlt) (by omega)).trans hpending)

/-- When the graph is complete after a splice, every node that is kept is still reached. -/
theorem Opened.reachable_of_complete (ho : g.Opened cut n dest gone) (hn : n ∉ gone)
    (hlaid : cut.Laid g' dest fun m => (g.size ≤ m ∧ m < g'.size) ∨ m = n)
    (hrow : g'.Reachable n → g'.Reachable dest) (hc : g'.Complete) {m : Nat} (hm : g.Reachable m)
    (hkept : m ∉ gone) : g'.Reachable m := by
  have hsize : cut.size = g.size := ho.size
  have hle : g.size ≤ g'.size := hsize ▸ hlaid.size_le
  have hreached := @Opened.not_reachable_of_complete _ _ _ _ _ _ _ ho hn hlaid hc
  -- in what was given up, what counts is that the way into it can be reached
  have key : g.Reachable m ∧ (m ∈ gone → g'.Reachable n) ∧ (m ∉ gone → g'.Reachable m) := by
    refine hm.mem_of_closed (p := fun m => g.Reachable m ∧
      (m ∈ gone → g'.Reachable n) ∧ (m ∉ gone → g'.Reachable m)) ?_ ?_
    · have hsource : g'.source = g.source := hlaid.source.trans ho.source
      have hs : g'.Reachable g.source :=
        hsource ▸ reachable_source (hsource ▸ Nat.lt_of_lt_of_le hm.start_lt hle)
      exact ⟨reachable_source hm.start_lt, fun hin => absurd hs (hreached hin), fun _ => hs⟩
    · rintro x ⟨hx, hxin, hxkept⟩ y hy hlt
      refine ⟨hx.step hy hlt, ?_⟩
      by_cases htaken : x = n ∨ x ∈ gone
      · have hxn : g'.Reachable n := by
          rcases htaken with rfl | hin
          · exact hxkept hn
          · exact hxin hin
        refine ⟨fun _ => hxn, fun hykept => ?_⟩
        rcases ho.leads htaken hy with hin | rfl | rfl
        · exact absurd hin hykept
        · exact hxn
        · exact hrow hxn
      · rw [not_or] at htaken
        have hy' : g'.Reachable y := by
          refine (hxkept htaken.2).step ?_ (Nat.lt_of_lt_of_le hlt hle)
          have hlt := hx.lt_size
          rwa [targets_congr ((hlaid.kept (hsize ▸ hlt) (by omega)).trans (ho.kept htaken.2))]
        exact ⟨fun hin => absurd hy' (hreached hin), fun _ => hy'⟩
  exact key.2.2 hkept

/-- When the graph is complete after a splice, the splice owned what it gave up. -/
theorem Opened.owned_of_complete (ho : g.Opened cut n dest gone) (hn : n ∉ gone)
    (hlaid : cut.Laid g' dest fun m => (g.size ≤ m ∧ m < g'.size) ∨ m = n)
    (hrow : g'.Reachable n → g'.Reachable dest) (hs : g.source < g.size)
    (htaken : ∀ m, m ∈ taken ↔ m = n ∨ m ∈ gone) (hc : g'.Complete) : g.OwnedBy gone taken := by
  have hsize : cut.size = g.size := ho.size
  have hle : g.size ≤ g'.size := hsize ▸ hlaid.size_le
  have hreached := @Opened.not_reachable_of_complete _ _ _ _ _ _ _ ho hn hlaid hc
  refine fun d hd => ⟨?_, fun m hm hmd => ?_⟩
  · rintro rfl
    have hsource : g'.source = g.source := hlaid.source.trans ho.source
    exact hreached hd (hsource ▸ reachable_source (hsource ▸ Nat.lt_of_lt_of_le hs hle))
  · by_contra hout
    rw [htaken, not_or] at hout
    have hm' := ho.reachable_of_complete hn hlaid hrow hc hm hout.2
    refine hreached hd (hm'.step ?_ (Nat.lt_of_lt_of_le (ho.vacated hd).1 hle))
    have hlt := hm.lt_size
    rwa [targets_congr ((hlaid.kept (hsize ▸ hlt) (by omega)).trans (ho.kept hout.2))]

end Owned

/-! ## Chains -/

/-- A lane from a reachable node does not come back to it, as it would be entered from nowhere. -/
theorem Lane.not_mem {prev x : Nat} {ns : List Nat} {es : List ε} (h : g.Lane dest prev x ns es)
    (hg : g.Sound) (hp : g.Reachable prev) : prev ∉ ns := by
  intro hin
  refine (hp.mem_of_closed (p := fun m => g.Reachable m ∧ m ∉ ns)
    ⟨hg.reachable_source, fun hs => h.ne_source hs rfl⟩ ?_).2 hin
  rintro u ⟨hu, hout⟩ v hv hlt
  refine ⟨hu.step hv hlt, fun hvin => ?_⟩
  rcases h.pred_mem hvin (hg.index.2 ⟨hu, hv⟩) with rfl | hin'
  · exact hout hin
  · exact hout hin'

/-- A chain from a reachable node is a lane. -/
theorem Sound.exists_lane (hg : g.Sound) {prev x : Nat} {ns : List Nat} (hp : g.Reachable prev)
    (hx : g.targets prev = [x]) (h : g.chainTarget x ns = .ok dest) :
    ∃ es, g.Lane dest prev x ns es := by
  induction ns generalizing prev x with
  | nil =>
    cases h
    exact ⟨[], .done⟩
  | cons n ns ih =>
    obtain ⟨rfl, ⟨hs, hdegree⟩, e, y, hnode, hrest⟩ := chainTarget_cons_eq_ok h
    obtain ⟨m, hm⟩ := inDegree_eq_one_iff.1 hdegree
    obtain rfl : prev = m := (hm prev).1 (hg.index.2 ⟨hp, by simp [hx]⟩)
    obtain ⟨es, hes⟩ := ih (hg.reachable_target hp (by simp [hx])) (targets_of_simple hnode) hrest
    exact ⟨e :: es, .step hs hm hnode hes⟩

theorem inDegree_of_chainTarget {x : Nat} {ns : List Nat} (h : g.chainTarget x ns = .ok dest) :
    ∀ m ∈ ns, g.inDegree m = 1 := by
  induction ns generalizing x with
  | nil => simp
  | cons n ns ih =>
    obtain ⟨rfl, ⟨-, hdegree⟩, e, y, -, hrest⟩ := chainTarget_cons_eq_ok h
    exact List.forall_mem_cons.2 ⟨hdegree, ih hrest⟩

/-- A chain does not come back to its start, and from a reachable node it does not end in itself. -/
theorem Sound.chain_kept (hg : g.Sound) {x : Nat} {ns : List Nat} (hx : g.targets n = [x])
    (h : g.chainTarget x ns = .ok dest) : n ∉ ns ∧ (g.Reachable n → dest ∉ ns) := by
  have hreach : g.Reachable n → n ∉ ns ∧ dest ∉ ns := by
    intro hn
    have hxn : x ∈ g.targets n := by simp [hx]
    obtain ⟨es, hlane⟩ := hg.exists_lane hn hx h
    have hnot := hlane.not_mem hg hn
    refine ⟨hnot, hlane.dest_not_mem (List.nodup_cons.2 ⟨hnot, hlane.nodup hnot⟩) ?_⟩
    exact hg.index.2 ⟨hlane.last_reachable hg hn hxn, hlane.dest_mem_targets hxn⟩
  refine ⟨fun hin => ?_, fun hn => (hreach hn).2⟩
  -- a node of the chain has a predecessor, which is reachable as it is recorded
  obtain ⟨m, hm⟩ := inDegree_eq_one_iff.1 (inDegree_of_chainTarget h n hin)
  obtain ⟨hmr, hmn⟩ := hg.index.1 ((hm m).2 rfl)
  exact (hreach (hg.reachable_target hmr hmn)).1 hin

/-- A chain from a reachable node owns its further nodes. -/
theorem Sound.owns_chain (hg : g.Sound) {x : Nat} {ns : List Nat} (hn : g.Reachable n)
    (hx : g.targets n = [x]) (h : g.chainTarget x ns = .ok dest) : g.OwnedBy ns (n :: ns) := by
  obtain ⟨es, hlane⟩ := hg.exists_lane hn hx h
  refine fun d hd => ⟨hlane.ne_source hd, fun m hm hmd => ?_⟩
  exact List.mem_cons.2 (hlane.pred_mem hd (hg.index.2 ⟨hm, hmd⟩))

/-! ## Calls -/

/-- A splice leaves a sound graph complete if and only if what it gives up is owned. -/
theorem Opened.complete_iff [PlainEdge ε] {edges : List ε} {taken : List Nat}
    (ho : g.Opened cut n dest gone) (hg : g.Sound) (hl : cut.layEdges n dest edges = .ok g')
    (hn : n ∉ gone) (hdest : g.Reachable n → dest ∉ gone)
    (htaken : ∀ m, m ∈ taken ↔ m = n ∨ m ∈ gone) : g'.Complete ↔ g.OwnedBy gone taken := by
  have hsize : cut.size = g.size := ho.size
  have hlaid := laid_layEdges ho.width (hsize ▸ ho.lt_size) hl
  rw [hsize] at hlaid
  have hrow : g'.Reachable n → g'.Reachable dest := by
    intro hr
    have hold := (hg.tracked.reachable_relinked (ho.relinked hlaid) ho.lt_size ho.exit hr).2.1
    refine reachable_layEdges (hsize ▸ ho.lt_size) ?_ hl hr
    exact hsize ▸ (ho.exit (hold ho.lt_size)).lt_size
  constructor
  · exact ho.owned_of_complete hn hlaid hrow hg.source_lt htaken
  · exact fun hown => ho.complete_of_owned hg hlaid htaken hown hdest

/-- A call leaves a sound graph complete if and only if it owns what it gives up. -/
theorem Sound.complete_iff [PlainEdge ε] (hg : g.Sound) {call : Call ε}
    (hs : call.splice g = .ok g') : g'.Complete ↔ call.Owns g := by
  cases call with
  | edge node edges =>
    obtain ⟨dest, cut, ho, hl⟩ := hg.tracked.opened_edge hs
    exact ho.complete_iff hg hl (by simp) (by simp) (by simp [Call.taken])
  | chain nodes edges =>
    obtain ⟨n, ns, x, dest, cut, rfl, ⟨hx, hchain⟩, ho, hl⟩ := hg.tracked.opened_chain hs
    obtain ⟨hn, hdest⟩ := hg.chain_kept hx hchain
    exact ho.complete_iff hg hl hn hdest (by simp [Call.taken])
  | region start dest edges =>
    obtain ⟨cut, ho, hin, hl⟩ := hg.tracked.opened_region hs
    refine ho.complete_iff hg hl (by simp) (fun _ => ?_) (mem_region_iff_filter hin)
    -- the search stops at the end of the region
    rw [List.mem_filter, mem_region]
    rintro ⟨hreach, hne⟩
    cases hreach with
    | start _ => simp at hne
    | step _ hd _ => simp at hd

end Graph

/-! ## Graphs that are accepted -/

namespace FlowGraph

/-- After a call on a graph that was accepted no reachable node is pending, if and only if none of
the nodes that are given up is the entry and all that led to them is replaced.  That is so for one
edge, and for a chain from a reachable node. -/
theorem complete_splice_iff {nodes : Array (Node Edge)} {source : Nat} {g g' : FlowGraph}
    {call : Graph.Call Edge} (ho : Graph.ofNodes nodes source = .ok g)
    (hs : call.splice g = .ok g') :
    (g'.Complete ↔ call.Owns g) ∧
    (∀ n edges, call = .edge n edges → g'.Complete) ∧
    ∀ n ns edges, call = .chain (n :: ns) edges → g.Reachable n → g'.Complete := by
  have hg : g.Sound := (Graph.sound_of_ofNodes ho).1
  refine ⟨hg.complete_iff hs, ?_, ?_⟩
  · rintro n edges rfl
    exact (hg.complete_iff hs).2 fun d hd => by simp [Graph.Call.vacated] at hd
  · rintro n ns edges rfl hn
    have hsplice : g.spliceChain (n :: ns) edges = .ok g' := hs
    obtain ⟨_, _, x, dest, cut, hnodes, ⟨hx, hchain⟩, -⟩ := hg.tracked.opened_chain hsplice
    cases hnodes
    exact (hg.complete_iff hs).2 (hg.owns_chain hn hx hchain)

/-- A diamond whose arms are entered from its test only. -/
theorem complete_splice_iff_diamond :
    let nodes : Array (Node Edge) := #[.branch ⟨.ifTrue, 1⟩ ⟨.ifFalse, 2⟩,
      .simple ⟨.action .trace, 3⟩, .simple ⟨.plain, 3⟩, .done]
    let call : Graph.Call Edge := .region 0 3 [.sub, .sub]
    ∃ g', Graph.ofNodes nodes 0 = .ok (Graph.indexed nodes 0) ∧
      call.splice (Graph.indexed nodes 0) = .ok g' ∧ g'.Complete ∧ g'.node? 1 = some .pending := by
  intro nodes call
  have ho : Graph.ofNodes nodes 0 = .ok (Graph.indexed nodes 0) := by cbv
  obtain ⟨g', hs, hpending⟩ : ∃ g', call.splice (Graph.indexed nodes 0) = .ok g' ∧
      g'.node? 1 = some .pending := by
    refine ⟨⟨#[.simple ⟨.sub, 4⟩, .pending, .pending, .done, .simple ⟨.sub, 3⟩], 0, _⟩,
      by cbv, by cbv⟩
  refine ⟨g', ho, hs, (complete_splice_iff ho hs).1.2 fun d hd => ?_, hpending⟩
  -- the arms are no entry, and the places before the join are all taken
  have hvacated : call.vacated (Graph.indexed nodes 0) = [2, 1] := by cbv
  have htaken : call.taken (Graph.indexed nodes 0) = [0, 2, 1] := by cbv
  have hjoin : (Graph.indexed nodes 0).targets 3 = [] := by cbv
  rw [hvacated] at hd
  rw [htaken]
  refine ⟨by rintro rfl; simp [Graph.indexed] at hd, fun m hm hmd => ?_⟩
  have hlt : m < 4 := hm.lt_size
  interval_cases m <;> simp_all

/-- A chain from a node that nothing leads to, and a region that is entered from the side: both are
accepted, and both leave a reachable node pending. -/
theorem incomplete_splices :
    let shared : Array (Node Edge) := #[.simple ⟨.sub, 2⟩, .simple ⟨.plain, 2⟩,
      .simple ⟨.plain, 3⟩, .done]
    let entered : Array (Node Edge) := #[.branch ⟨.ifTrue, 1⟩ ⟨.ifFalse, 2⟩, .simple ⟨.sub, 2⟩,
      .simple ⟨.plain, 3⟩, .done]
    (∃ g', Graph.ofNodes shared 0 = .ok (Graph.indexed shared 0) ∧
      (Graph.Call.chain [1, 2] []).splice (Graph.indexed shared 0) = .ok g' ∧ ¬ g'.Complete) ∧
    ∃ g', Graph.ofNodes entered 0 = .ok (Graph.indexed entered 0) ∧
      (Graph.Call.region 1 3 []).splice (Graph.indexed entered 0) = .ok g' ∧ ¬ g'.Complete := by
  intro shared entered
  constructor
  · refine ⟨⟨#[.simple ⟨.sub, 2⟩, .simple ⟨.plain, 3⟩, .pending, .done], 0, _⟩, by cbv, by cbv,
      fun hc => hc 2 ?_ rfl⟩
    exact (@Graph.mem_list _ _ .preorder _).1 (List.mem_of_elem_eq_true (by cbv))
  · refine ⟨⟨#[.branch ⟨.ifTrue, 1⟩ ⟨.ifFalse, 2⟩, .simple ⟨.plain, 3⟩, .pending, .done], 0, _⟩,
      by cbv, by cbv, fun hc => hc 2 ?_ rfl⟩
    exact (@Graph.mem_list _ _ .preorder _).1 (List.mem_of_elem_eq_true (by cbv))

end FlowGraph

end ScriptRecovery
