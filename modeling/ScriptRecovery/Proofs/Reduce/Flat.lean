import ScriptRecovery.Proofs.Graph.Terminating
import ScriptRecovery.Proofs.Reduce.Settled

/-!
# Flat graphs

A graph is flat when control leaves it and every test has two narrow arms that meet where nothing
else leads to (`FlowGraph.Flat`).  Then no test is on an arm of another one
(`Flat.not_onArm`), which is all that the search for conditionals can miss, so one run of it leaves
no test at all (`Flat.formConditionals`).

No splice of the pipeline takes this away from a graph (`Flat.splice`).  An arm that the splice
touches goes through the row instead (`Narrow.spliced`), and the place where two arms meet is not
given up, since two nodes lead to it.
-/

namespace ScriptRecovery

namespace Graph

variable {ε : Type} {g g' : Graph ε} {n dest d x : Nat} {gone : Nat → Prop} {row : List ε}

/-! ## Narrow ways -/

theorem Narrow.trans {ns ns' : List Nat} (h : g.Narrow dest x ns) (h' : g.Narrow d dest ns') :
    g.Narrow d x (ns ++ ns') := by
  induction h with
  | done => exact h'
  | step hone hnode _ ih => exact .step hone hnode ih

/-- Nothing narrow comes by the entry of a graph that control leaves. -/
theorem Narrow.source_not_mem {ns : List Nat} (h : g.Narrow dest x ns) (hg : g.Sound)
    (ht : g.Terminates) : g.source ∉ ns := by
  induction h with
  | done => simp
  | @step x _ _ _ hone _ _ ih =>
    rw [List.mem_cons, not_or]
    refine ⟨?_, ih⟩
    rintro rfl
    obtain ⟨m, hm⟩ := inDegree_eq_one_iff.1 hone
    obtain ⟨hreach, hms⟩ := hg.index.1 ((hm m).2 rfl)
    exact ht.source_not_mem hreach hms

/-- A node but the entry has a way in. -/
theorem Sound.inDegree_pos (hg : g.Sound) (hx : g.Reachable x) (hs : x ≠ g.source) :
    0 < g.inDegree x := by
  obtain ⟨m, hm, hmx⟩ := hx.exists_pred hs
  exact List.length_pos_of_mem (hg.index.2 ⟨hm, hmx⟩)

/-- Where two nodes lead to and there are two ways in, no other node leads to. -/
theorem eq_or_eq_of_inDegree_le_two {u v m : Nat} (h : g.inDegree x ≤ 2)
    (hu : u ∈ g.predecessors x) (hv : v ∈ g.predecessors x) (huv : u ≠ v)
    (hm : m ∈ g.predecessors x) : m = u ∨ m = v := by
  by_contra hne
  rw [not_or] at hne
  have hsub : [m, u, v] ⊆ (g.predecessors x).toList := by
    simp only [List.cons_subset, List.nil_subset, and_true]
    exact ⟨hm, hu, hv⟩
  have hnodup : [m, u, v].Nodup := by simp [hne, huv]
  have hle : 3 ≤ g.inDegree x := (hnodup.subperm hsub).length_le
  omega

/-- A lane that starts like another one does not leave it before a place with two ways in. -/
theorem Lane.mem_of_lane {prev prev' : Nat} {ns ms : List Nat} {es es' : List ε}
    (h : g.Lane dest prev x ns es) (h' : g.Lane d prev' x ms es') {u v : Nat}
    (hu : u ∈ g.predecessors d) (hv : v ∈ g.predecessors d) (huv : u ≠ v) :
    ∀ m ∈ ns, m ∈ ms := by
  induction h generalizing prev' ms es' with
  | done => simp
  | step _ hp hnode _ ih =>
    cases h' with
    | done => exact absurd (((hp u).1 hu).trans ((hp v).1 hv).symm) huv
    | step _ _ hnode' hrest' =>
      cases hnode.symm.trans hnode'
      intro m hm
      rcases List.mem_cons.1 hm with rfl | hm
      · exact List.mem_cons_self
      · exact List.mem_cons_of_mem _ (ih hrest' m hm)

section Splice

variable (h : g.Spliced g' n dest gone row) (hg : g.Sound) (hg' : g'.Sound)
  (hr : g.Region n dest gone)
include h hg hg' hr

/-- The row of a splice is narrow behind its first node. -/
theorem Spliced.narrow_row {m : Nat} {es : List ε} (hrow : g'.Row g.size dest x es)
    (hm : m ∈ g'.predecessors x) : ∃ ns, g'.Narrow dest x ns := by
  induction hrow generalizing m with
  | nil => exact ⟨[], .done⟩
  | @cons x _ _ _ hlow hnode _ ih =>
    have hone : g'.inDegree x = 1 := inDegree_eq_one_iff.2
      ⟨m, fun k => ⟨fun hk => h.pred_unique hg hg' hr hlow hk hm, fun hk => hk ▸ hm⟩⟩
    obtain ⟨hreach, hmx⟩ := hg'.index.1 hm
    obtain ⟨ns, hns⟩ := ih (hg'.index.2 ⟨hg'.reachable_target hreach hmx, by simp [hnode]⟩)
    exact ⟨x :: ns, .step hone hnode hns⟩

/-- What is narrow before a splice is narrow afterwards, from the exit of the splice on if it starts
at a node that is given up. -/
theorem Narrow.spliced (hleads : ∃ u, (u = n ∨ gone u) ∧ g.Reachable u ∧ dest ∈ g.targets u)
    (ht : g.Terminates) (hd : ¬ gone d) {ns : List Nat} (hx : g.Reachable x)
    (hns : g.Narrow d x ns) :
    (¬ gone x → ∃ ns', g'.Narrow d x ns') ∧ (gone x → ∃ ns', g'.Narrow d dest ns') := by
  induction hns with
  | done => exact ⟨fun _ => ⟨[], .done⟩, fun hgone => absurd hgone hd⟩
  | @step x y e ns hone hnode hns ih =>
    have hxy : y ∈ g.targets x := by simp [hnode]
    obtain ⟨hkept, hcut⟩ := ih (hg.reachable_target hx hxy)
    -- what comes after a node of the region leads to the exit
    have hexit : x = n ∨ gone x → ∃ ns', g'.Narrow d dest ns' := by
      intro hin
      rcases hr.leads hin hxy with hgone | rfl
      · exact hcut hgone
      · exact hkept hr.exit_kept
    refine ⟨fun hgone => ?_, fun hgone => hexit (.inr hgone)⟩
    have hone' : g'.inDegree x = 1 := by
      have hle := h.inDegree_le hg hg' hr hleads hx.lt_size hgone
      have hs : x ≠ g'.source := by
        have hnot := (Narrow.step hone hnode hns).source_not_mem hg ht
        rw [h.source]
        rintro rfl
        exact hnot List.mem_cons_self
      have hpos := hg'.inDegree_pos (h.reachable.2 (.inl ⟨hx, hgone⟩)) hs
      omega
    by_cases hxn : x = n
    · obtain ⟨ns₂, hns₂⟩ := hexit (.inl hxn)
      obtain ⟨e', es, next, -, hnode', hrow⟩ := h.laid
      subst hxn
      have hnext : x ∈ g'.predecessors next :=
        hg'.index.2 ⟨h.reachable.2 (.inl ⟨hx, hgone⟩), by simp [hnode']⟩
      obtain ⟨ns₁, hns₁⟩ := h.narrow_row hg hg' hr hrow hnext
      exact ⟨x :: (ns₁ ++ ns₂), .step hone' hnode' (hns₁.trans hns₂)⟩
    · obtain ⟨hsame, htargets⟩ := h.onward hg hr hx hgone hxn
      obtain ⟨ns', hns'⟩ := hkept (htargets y hxy).2
      exact ⟨x :: ns', .step hone' (hsame ▸ hnode) hns'⟩

end Splice

end Graph

namespace FlowGraph

variable {traceName : String} {g g' : FlowGraph} {n p : Nat} {a b : Link Edge}

/-! ## Flat graphs -/

/-- A graph that control leaves, in which the two arms of every test are narrow and meet where
nothing else leads to. -/
structure Flat (g : FlowGraph) : Prop where
  terminates : g.Terminates
  joined : ∀ {p : Nat} {a b : Link Edge}, g.Reachable p → g.node? p = some (.branch a b) →
    ∃ dest ns ns', g.Narrow dest a.dest ns ∧ g.Narrow dest b.dest ns' ∧ g.inDegree dest ≤ 2

/-- Every test of a flat graph stands in a diamond. -/
theorem Flat.diamond (h : g.Flat) (hg : g.Regular traceName) (hf : g.Forked) (hp : g.Reachable p)
    (hbranch : g.node? p = some (.branch a b)) :
    ∃ n dest ns ns' es es', g.Diamond n dest .ifTest p a b ns ns' es es' ∧
      g.Narrow dest a.dest ns ∧ g.Narrow dest b.dest ns' ∧ g.inDegree dest ≤ 2 := by
  obtain ⟨dest, ns, ns', hT, hF, hjoin⟩ := h.joined hp hbranch
  have hs : p ≠ g.source := by
    rintro rfl
    exact hf.source a b hbranch
  obtain ⟨n, hn, hnp⟩ := hp.exists_pred hs
  obtain ⟨es, es', hdiamond⟩ := diamond_of_narrow hg hf hn (hg.tested.only hn hnp hbranch) hbranch
    hT hF (hT.source_not_mem hg.sound h.terminates) (hF.source_not_mem hg.sound h.terminates)
  exact ⟨n, dest, ns, ns', es, es', hdiamond, hT, hF, hjoin⟩

/-- Splices leave flat graphs flat. -/
theorem Flat.splice {p : Patch} (h : g.Flat) (hf : g.Forked) (hg : g.Regular traceName)
    (hp : p.Applied traceName g g') : g'.Flat := by
  have hg' := hp.regular.sound
  refine ⟨hp.spliced.terminates hg.sound hp.region hp.leads h.terminates, fun {q a b} hq hab => ?_⟩
  obtain ⟨hq, ⟨hqs, hgone⟩, hab⟩ := hp.branch hg hq hab
  obtain ⟨n, dest, ns, ns', es, es', hdiamond, hT, hF, hjoin⟩ := h.diamond hg hf hq hab
  obtain ⟨hu, hv⟩ := hdiamond.meet hg.sound
  have hdest : dest ∉ p.gone := by
    intro hdest
    obtain ⟨u, hu'⟩ := hp.lone dest hdest
    exact hdiamond.last_ne (hf.arms hq hab) ((hu' _ hu).trans (hu' _ hv).symm)
  have htargets := (hp.spliced.onward hg.sound hp.region hq hgone hqs).2
  obtain ⟨ha, hagone⟩ := htargets a.dest (by simp [hdiamond.targets_branch])
  obtain ⟨hb, hbgone⟩ := htargets b.dest (by simp [hdiamond.targets_branch])
  obtain ⟨ms, hms⟩ :=
    (hT.spliced hp.spliced hg.sound hg' hp.region hp.leads h.terminates hdest ha).1 hagone
  obtain ⟨ms', hms'⟩ :=
    (hF.spliced hp.spliced hg.sound hg' hp.region hp.leads h.terminates hdest hb).1 hbgone
  refine ⟨dest, ms, ms', hms, hms', ?_⟩
  exact Nat.le_trans (hp.spliced.inDegree_le hg.sound hg' hp.region hp.leads
    (hdiamond.exit hg.sound).lt_size hdest) hjoin

/-! ## The search for conditionals -/

/-- The entry of a test of a flat graph is on no arm of a test. -/
theorem Flat.not_onArm (h : g.Flat) (hg : g.Regular traceName) (hf : g.Forked)
    (hway : g.node? n = some (.simple ⟨.ifTest, p⟩)) : ¬ g.OnArm n := by
  rintro ⟨q, a, b, first, dest, ns, es, hq, hbranch, hfirst, hlane, hn⟩
  obtain ⟨m, d, ms, ms', es₁, es₂, hdiamond, -, -, -⟩ := h.diamond hg hf hq hbranch
  obtain ⟨hu, hv⟩ := hdiamond.meet hg.sound
  have huv := hdiamond.last_ne (hf.arms hq hbranch)
  have hreach : g.Reachable n := by
    refine (hlane.reachable hg.sound (hg.sound.reachable_target hq ?_)).1 n hn
    rcases hfirst with rfl | rfl <;> simp [hdiamond.targets_branch]
  obtain ⟨a', b', htest⟩ := hg.tested.branch hreach hway
  have hnp : p ∈ g.targets n := by simp [hway]
  -- the test is on the same arm or where the arms meet
  have hmeets : p = d ∨ ∃ out, g.node? p = some (.simple out) := by
    rcases hfirst with rfl | rfl
    · have hmem := hlane.mem_of_lane hdiamond.onTrue hu hv huv n hn
      exact (hdiamond.onTrue.targets_mem hmem hnp).symm.imp id hdiamond.onTrue.node_simple
    · have hmem := hlane.mem_of_lane hdiamond.onFalse hu hv huv n hn
      exact (hdiamond.onFalse.targets_mem hmem hnp).symm.imp id hdiamond.onFalse.node_simple
  rcases hmeets with rfl | ⟨out, hout⟩
  · have halone : ∀ k ∈ g.predecessors p, k = n := by
      intro k hk
      obtain ⟨hk, hkp⟩ := hg.sound.index.1 hk
      exact hg.tested.unique hk hreach (hg.tested.only hk hkp htest) hway
    exact huv ((halone _ hu).trans (halone _ hv).symm)
  · cases htest.symm.trans hout

/-- The search for conditionals finds every test of a flat graph. -/
theorem Flat.mem_gone (h : g.Flat) (hg : g.Regular traceName) (hf : g.Forked)
    {cs : List Conditional}
    (hcs : g.Finds (g.list .reversePostorder) cs) (hp : g.Reachable p)
    (hbranch : g.node? p = some (.branch a b)) : ∃ c ∈ cs, p ∈ (g.regionPatch c).gone := by
  obtain ⟨n, dest, ns, ns', es, es', hdiamond, -, -, hjoin⟩ := h.diamond hg hf hp hbranch
  obtain ⟨hu, hv⟩ := hdiamond.meet hg.sound
  by_cases hfound : ∃ c ∈ cs, c.source = n
  · obtain ⟨c, hc, rfl⟩ := hfound
    obtain ⟨p', a', b', ms, ms', es₁, es₂, hdiamond', -, hgone⟩ := hcs.diamond c hc
    cases hdiamond.way.symm.trans hdiamond'.way
    exact ⟨c, hc, (hgone p).2 (by simp [Graph.between])⟩
  · have hmissed : ∀ c ∈ cs, c.source ≠ n := by simpa using hfound
    have hs : dest ≠ g.source := by
      rintro rfl
      obtain ⟨hreach, hsource⟩ := hg.sound.index.1 hu
      exact h.terminates.source_not_mem hreach hsource
    refine absurd (onArm_of_diamond hdiamond (fun m hm => ?_) hg hf hs hcs.found hmissed)
      (h.not_onArm hg hf hdiamond.way)
    exact Graph.eq_or_eq_of_inDegree_le_two hjoin hu hv (hdiamond.last_ne (hf.arms hp hbranch)) hm

/-- A graph without tests. -/
def Unbranched (g : FlowGraph) : Prop :=
  ∀ {p : Nat} {a b : Link Edge}, g.Reachable p → g.node? p ≠ some (.branch a b)

/-- Forming the conditionals of a flat graph leaves no test. -/
theorem Flat.formConditionals (h : g.Flat) (hg : g.Regular traceName) (hf : g.Forked)
    (iteration : Nat) :
    ∃ g' changed, Pass.formConditionals.run iteration g = ⟨g', .ok changed⟩ ∧
      g'.Regular traceName ∧
      (g'.Forked ∧ g'.Flat) ∧ g'.Unbranched := by
  obtain ⟨cs, g', changed, hcs, hrun, hg', hreduces, hout⟩ := hg.formConditionals_found iteration
  have hkept : (g'.Forked ∧ g'.Flat) ∧ ∀ {p : Nat} {a b : Link Edge}, g'.Reachable p →
      g'.node? p = some (.branch a b) → g.Reachable p ∧ g.node? p = some (.branch a b) := by
    refine keeps_of_reduces (P := fun g' => (g'.Forked ∧ g'.Flat) ∧ ∀ {p : Nat} {a b : Link Edge},
      g'.Reachable p → g'.node? p = some (.branch a b) →
        g.Reachable p ∧ g.node? p = some (.branch a b)) (fun hg₁ hp hg₂ => ?_) hreduces
      ⟨⟨hf, h⟩, fun hp hab => ⟨hp, hab⟩⟩
    obtain ⟨⟨hforked, hflat⟩, hold⟩ := hg₂
    refine ⟨⟨hforked.splice hg₁ hp, hflat.splice hforked hg₁ hp⟩, fun hq hab => ?_⟩
    obtain ⟨hq, -, hab⟩ := hp.branch hg₁ hq hab
    exact hold hq hab
  refine ⟨g', changed, hrun, hg', hkept.1, fun hp hab => ?_⟩
  obtain ⟨hp', hab'⟩ := hkept.2 hp hab
  obtain ⟨c, hc, hgone⟩ := h.mem_gone hg hf hcs hp' hab'
  exact hout c hc _ hgone hp

/-- The pipeline leaves no test of a flat graph. -/
theorem Flat.leaves_pipeline (h : g.Flat) (hg : g.Regular traceName) (hf : g.Forked)
    {strict fixpoint : Bool} {maxIterations : Nat}
    (hiter : fixpoint = true → 1 ≤ maxIterations) :
    ((Schedule.pipeline traceName strict fixpoint maxIterations).run g).Leaves fun g' =>
      (g'.Regular traceName ∧ g'.Forked ∧ g'.Flat) ∧ g'.Unbranched := by
  refine Schedule.run_last (P := fun g => g.Regular traceName ∧ g.Forked ∧ g.Flat)
    [.inlinePools strict, .formTemplates traceName, .mergeChains] .formConditionals rfl hiter
    (fun p hp iteration g hg => ?_) (fun iteration g hg => ?_) (fun g hg => hg.1) ⟨hg, hf, h⟩
  · have hp : p ∈ (Schedule.pipeline traceName strict fixpoint maxIterations).passes :=
      List.mem_append_left [Pass.formConditionals] hp
    exact leaves_passes (P := fun g => g.Forked ∧ g.Flat)
      (fun hg hp h => ⟨h.1.splice hg hp, h.2.splice h.1 hg hp⟩) hp iteration hg
  · obtain ⟨g', changed, hrun, hg', hflat, hunbranched⟩ :=
      hg.2.2.formConditionals hg.1 hg.2.1 iteration
    rw [hrun]
    exact .inr ⟨⟨changed, rfl⟩, ⟨hg', hflat⟩, hunbranched⟩

end FlowGraph

end ScriptRecovery
