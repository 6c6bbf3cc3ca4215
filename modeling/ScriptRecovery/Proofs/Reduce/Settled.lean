import ScriptRecovery.Proofs.Reduce.Missed
import ScriptRecovery.Proofs.Reduce.Schedules
import ScriptRecovery.Proofs.Reduce.Validity

/-!
# Where a schedule settles

A schedule in fixpoint mode settles when a row of passes changes nothing (`Schedule.settled?`).  At
the graph where it settles no pass has anything left to do.  That does not mean that every test
whose arms meet is gone, since the search for conditionals does not come to all of them: a test
stays when it is on an arm of another test, and when it stands around the entry of the graph
(`onArm_of_settled`).
-/

namespace ScriptRecovery

namespace Outcome

variable {σ α : Type} {f : σ → α → Except Fault σ}

theorem applyAll_changed (s : σ) (as : List α) : (applyAll f s as).changed ≠ .ok false := by
  induction as generalizing s with
  | nil => nofun
  | cons a as ih =>
    unfold applyAll
    split
    · nofun
    · exact ih _

/-- A run of edits that changes nothing has found nothing to edit. -/
theorem found_of_idle {s : σ} {found : Except Fault (List α)}
    (h : (ofEdits f s found).changed = .ok false) : found = .ok [] := by
  cases found with
  | error fault => cases h
  | ok as =>
    cases as with
    | nil => rfl
    | cons a as => exact absurd h (applyAll_changed s (a :: as))

end Outcome

namespace Schedule

/-! ## Rows that change nothing -/

/-- The graph of the first row that changes nothing, if one of the rows that are left is such a
row and none before it fails. -/
def settledIn? (passes : List Pass) (iteration : Nat) (g : FlowGraph) : Nat → Option FlowGraph
  | 0 => none
  | left + 1 =>
      match runRow iteration g passes with
      | ⟨_, .error _⟩ => none
      | ⟨g, .ok false⟩ => some g
      | ⟨g, .ok true⟩ => settledIn? passes (iteration + 1) g left

/-- The graph that a schedule settles at in fixpoint mode, if it does. -/
def settled? (s : Schedule) (g : FlowGraph) : Option FlowGraph :=
  settledIn? s.passes 0 g s.maxIterations

variable {P : FlowGraph → Prop} {passes : List Pass} {g g' : FlowGraph}

/-- A row of careful passes that changes nothing leaves the graph alone from the first pass on. -/
theorem runRow_idle {iteration : Nat} (hcareful : ∀ p ∈ passes, (p.run iteration g).Careful g)
    (h : runRow iteration g passes = ⟨g', .ok false⟩) :
    g' = g ∧ ∀ p ∈ passes, (p.run iteration g).changed = .ok false := by
  induction passes with
  | nil =>
    cases h
    exact ⟨rfl, by simp⟩
  | cons p ps ih =>
    have hp := hcareful p (by simp)
    unfold runRow at h
    split at h
    · cases h
    · next g₁ changed hrun =>
      rw [hrun] at hp
      obtain ⟨hstate, hchanged⟩ := Outcome.mk.inj h
      cases changed with
      | true =>
        cases hrest : (runRow iteration g₁ ps).changed <;> simp [hrest, Except.map] at hchanged
      | false =>
        obtain rfl : g₁ = g := hp.idle rfl
        have hrest : runRow iteration g₁ ps = ⟨g', .ok false⟩ := by
          cases hrow : runRow iteration g₁ ps with
          | mk state rest =>
            simp only [hrow] at hstate hchanged
            cases rest <;> simp_all [Except.map]
        obtain ⟨rfl, hidle⟩ := ih (fun q hq => hcareful q (by simp [hq])) hrest
        exact ⟨rfl, List.forall_mem_cons.2 ⟨by rw [hrun], hidle⟩⟩

/-- Rows that settle end at the graph where they do. -/
theorem runRows_of_settledIn {iteration left : Nat}
    (h : settledIn? passes iteration g left = some g') :
    ∃ changed, runRows passes iteration g left = ⟨g', .ok changed⟩ := by
  induction left generalizing iteration g with
  | zero => cases h
  | succ left ih =>
    rcases hrow : runRow iteration g passes with ⟨g₁, fault | _ | _⟩ <;>
      simp only [settledIn?, hrow] at h <;> simp only [runRows, hrow]
    · cases h
    · cases h
      exact ⟨false, rfl⟩
    · obtain ⟨changed, hrest⟩ := ih h
      exact ⟨true, by simp only [hrest, Except.map]⟩

/-- What every pass keeps holds where the rows settle, and the last row has changed nothing. -/
theorem idle_of_settledIn (hpass : ∀ p ∈ passes, ∀ iteration g, P g → (p.run iteration g).Leaves P)
    (hcareful : ∀ p ∈ passes, ∀ iteration g, P g → (p.run iteration g).Careful g) (hg : P g)
    {iteration left : Nat} (h : settledIn? passes iteration g left = some g') :
    P g' ∧ ∃ last, ∀ p ∈ passes, (p.run last g').changed = .ok false := by
  induction left generalizing iteration g with
  | zero => cases h
  | succ left ih =>
    have hleaves := runRow_cases iteration (fun p hp => hpass p hp iteration) hg
    rcases hrow : runRow iteration g passes with ⟨g₁, fault | _ | _⟩ <;>
      simp only [settledIn?, hrow] at h <;> rw [hrow] at hleaves
    · cases h
    · cases h
      obtain ⟨rfl, hidle⟩ := runRow_idle (fun p hp => hcareful p hp iteration g hg) hrow
      exact ⟨hg, iteration, hidle⟩
    · rcases hleaves with hfault | ⟨-, hg₁⟩
      · cases hfault
      · exact ih hg₁ h

end Schedule

namespace FlowGraph

variable {traceName : String} {s : Stream} {g g' : FlowGraph}

/-! ## The arms of a test -/

theorem forked_ofStream (h : ofStream s = .ok g) : g.Forked := by
  obtain ⟨g', place, hok, -, hdepicts, -, hdrawn⟩ := depicts_ofStream s
  obtain rfl := Except.ok.inj (hok.symm.trans h)
  refine ⟨fun a b hbranch => ?_, fun {n a b} _ hbranch => (hdrawn n _ hbranch).2.2⟩
  have harrives : Arrives g'.node? g'.Ends place g'.source (some 0) := .inl hdepicts.start
  obtain ⟨out, hout⟩ := hdepicts.simple_of_arrives harrives
  cases hout.symm.trans hbranch

/-- A branching node that is reachable after a splice was there before. -/
theorem Patch.Applied.branch {p : Patch} (h : p.Applied traceName g g')
    (hg : g.Regular traceName) {n : Nat}
    {a b : Link Edge} (hn : g'.Reachable n) (hbranch : g'.node? n = some (.branch a b)) :
    g.Reachable n ∧ (n ≠ p.source ∧ n ∉ p.gone) ∧ g.node? n = some (.branch a b) := by
  cases h.spliced.site hg.sound h.region hn with
  | kept hold hgone hne hsame => exact ⟨hold, ⟨hne, hgone⟩, hsame ▸ hbranch⟩
  | laid _ _ hnode _ => cases hnode.symm.trans hbranch

/-- Splices leave the arms of tests where they are. -/
theorem Forked.splice {p : Patch} (hf : g.Forked) (hg : g.Regular traceName)
    (h : p.Applied traceName g g') :
    g'.Forked := by
  refine ⟨fun a b hbranch => ?_, fun hn hbranch => ?_⟩
  · have hold := (h.branch hg h.regular.sound.reachable_source hbranch).2.2
    exact hf.source a b (h.spliced.source ▸ hold)
  · obtain ⟨hold, -, hbranch⟩ := h.branch hg hn hbranch
    exact hf.arms hold hbranch

end FlowGraph

namespace Graph

variable {ε : Type} {g : Graph ε}

/-- Nodes with one way in and one way out, from the first of them to `dest`. -/
inductive Narrow (g : Graph ε) (dest : Nat) : Nat → List Nat → Prop
  | done : Narrow g dest dest []
  | step {x y : Nat} {e : ε} {ns : List Nat} : g.inDegree x = 1 →
      g.node? x = some (.simple ⟨e, y⟩) → Narrow g dest y ns → Narrow g dest x (x :: ns)

/-- What is narrow behind a node is a lane from it. -/
theorem Narrow.lane {dest x prev : Nat} {ns : List Nat} (h : g.Narrow dest x ns) (hg : g.Sound)
    (hprev : g.Reachable prev) (hx : x ∈ g.targets prev) (hs : g.source ∉ ns) :
    ∃ es, g.Lane dest prev x ns es := by
  induction h generalizing prev with
  | done => exact ⟨[], .done⟩
  | @step x y e ns hone hnode _ ih =>
    rw [List.mem_cons, not_or] at hs
    obtain ⟨m, hm⟩ := inDegree_eq_one_iff.1 hone
    obtain rfl : prev = m := (hm prev).1 (hg.index.2 ⟨hprev, hx⟩)
    obtain ⟨es, hlane⟩ := ih (hg.reachable_target hprev hx) (by simp [targets_of_simple hnode])
      hs.2
    exact ⟨e :: es, .step (Ne.symm hs.1) hm hnode hlane⟩

/-- A lane does not come back to the one node that leads to where it starts. -/
theorem Lane.not_mem_of_before {dest p x n : Nat} {ns : List Nat} {es : List ε}
    (h : g.Lane dest p x ns es) (hg : g.Sound) (hn : g.Reachable n) (hs : p ≠ g.source)
    (hp : ∀ m ∈ g.predecessors p, m = n) : n ∉ ns := by
  intro hmem
  -- otherwise nothing would lead to the lane but the lane itself
  have hout : g.Reachable n ∧ n ∉ p :: ns := by
    refine hn.mem_of_closed (p := fun u => g.Reachable u ∧ u ∉ p :: ns) ⟨hg.reachable_source, ?_⟩
      fun u hu d hd _ => ⟨hg.reachable_target hu.1 hd, fun hin => ?_⟩
    · rw [List.mem_cons, not_or]
      exact ⟨Ne.symm hs, fun hin => h.ne_source hin rfl⟩
    · have hud : u ∈ g.predecessors d := hg.index.2 ⟨hu.1, hd⟩
      rw [List.mem_cons, not_or] at hu
      rcases List.mem_cons.1 hin with rfl | hin
      · exact hu.2.2 (hp u hud ▸ hmem)
      · exact (h.pred_mem hin hud).elim hu.2.1 hu.2.2
  exact hout.2 (by simp [hmem])

end Graph

namespace FlowGraph

variable {traceName : String} {s : Stream} {g g' : FlowGraph} {n dest p : Nat} {a b : Link Edge}
  {ns ns' : List Nat}

/-- A test whose arms meet where nothing else leads to. -/
structure Collapsible (g : FlowGraph) (n dest p : Nat) (a b : Link Edge) (ns ns' : List Nat) :
    Prop where
  entry : g.Reachable n
  way : g.node? n = some (.simple ⟨.ifTest, p⟩)
  branch : g.node? p = some (.branch a b)
  onTrue : g.Narrow dest a.dest ns
  onFalse : g.Narrow dest b.dest ns'
  join : ∀ m ∈ g.predecessors dest, m = ns.getLastD p ∨ m = ns'.getLastD p

/-- Arms that do not pass the entry of the graph make a diamond. -/
theorem diamond_of_narrow (hg : g.Regular traceName) (hf : g.Forked) (hn : g.Reachable n)
    (hway : g.node? n = some (.simple ⟨.ifTest, p⟩)) (hbranch : g.node? p = some (.branch a b))
    (hT : g.Narrow dest a.dest ns) (hF : g.Narrow dest b.dest ns') (hs : g.source ∉ ns)
    (hs' : g.source ∉ ns') : ∃ es es', g.Diamond n dest .ifTest p a b ns ns' es es' := by
  have htarget : p ∈ g.targets n := by simp [Graph.targets_of_simple hway]
  have hp : g.Reachable p := hg.sound.reachable_target hn htarget
  have hpn : n ≠ p := by
    rintro rfl
    cases hway.symm.trans hbranch
  have hinner : p ≠ g.source := by
    rintro rfl
    exact hf.source a b hbranch
  have halone : ∀ m, m ∈ g.predecessors p ↔ m = n := by
    refine fun m => ⟨fun hm => ?_, fun hm => hg.sound.index.2 (hm ▸ ⟨hn, htarget⟩)⟩
    obtain ⟨hm, hmp⟩ := hg.sound.index.1 hm
    exact hg.tested.unique hm hn (hg.tested.only hm hmp hbranch) hway
  have htargets : g.targets p = [a.dest, b.dest] := by
    simp [Graph.targets_of_node? hbranch, Node.targets, Node.links]
  obtain ⟨es, hT⟩ := hT.lane hg.sound hp (by simp [htargets]) hs
  obtain ⟨es', hF⟩ := hF.lane hg.sound hp (by simp [htargets]) hs'
  have hnotin : ∀ {x : Nat} {ns : List Nat} {es : List Edge}, g.Lane dest p x ns es → p ∉ ns := by
    intro x ns es hlane hmem
    obtain ⟨_, hnode⟩ := hlane.node_simple hmem
    cases hbranch.symm.trans hnode
  have hbefore : ∀ m ∈ g.predecessors p, m = n := fun m => (halone m).1
  exact ⟨es, es', hn, hway, hbranch, halone, hinner, hT, hF,
    ⟨hpn, hT.not_mem_of_before hg.sound hn hinner hbefore,
      hF.not_mem_of_before hg.sound hn hinner hbefore⟩,
    hT.disjoint hF (hnotin hF) (hnotin hT) fun _ => hf.arms hp hbranch⟩

/-- A diamond that the search for conditionals does not find has its entry on an arm of a test. -/
theorem onArm_of_diamond {es es' : List Edge} {cs : List Conditional}
    (h : g.Diamond n dest .ifTest p a b ns ns' es es')
    (hjoin : ∀ m ∈ g.predecessors dest, m = ns.getLastD p ∨ m = ns'.getLastD p)
    (hg : g.Regular traceName)
    (hf : g.Forked) (hs : dest ≠ g.source) (hfound : g.conditionals = .ok cs)
    (hmissed : ∀ c ∈ cs, c.source ≠ n) : g.OnArm n := by
  obtain ⟨before, after, hlist⟩ := h.reversePostorder_eq hg.sound hjoin hs
  refine onArm_of_missed hg hf h hjoin hlist (fun x hx => Graph.mem_list.1 hx)
    (Graph.nodup_reversePostorder g) ?_ hfound hmissed
  obtain ⟨rest, hrest⟩ := Graph.reversePostorder_eq_cons hg.sound.source_lt
  have hnd := Graph.nodup_reversePostorder g
  rw [hrest] at hnd ⊢
  exact (List.nodup_cons.1 hnd).1

/-- A test whose arms meet is found by a search, unless it is on an arm of another test or the
entry of the graph is on its arms. -/
theorem Collapsible.onArm (h : g.Collapsible n dest p a b ns ns') (hg : g.Regular traceName)
    (hf : g.Forked)
    (hnone : g.conditionals = .ok []) (hs : g.source ∉ dest :: (ns ++ ns')) : g.OnArm n := by
  simp only [List.mem_cons, List.mem_append, not_or] at hs
  obtain ⟨hdest, hs, hs'⟩ := hs
  obtain ⟨es, es', hdiamond⟩ :=
    diamond_of_narrow hg hf h.entry h.way h.branch h.onTrue h.onFalse hs hs'
  exact onArm_of_diamond hdiamond h.join hg hf (Ne.symm hdest) hnone (by simp)

/-! ## Where the pipeline settles -/

/-- Where the pipeline settles on the graph of a stream, the tests left whose arms meet are on an
arm of another test, or have the entry of the graph on their own arms. -/
theorem onArm_of_settled {traceName : String} {strict : Bool} {maxIterations : Nat}
    (hg : ofStream s = .ok g)
    (h : (Schedule.pipeline traceName strict true maxIterations).settled? g = some g') :
    (∃ changed, (Schedule.pipeline traceName strict true maxIterations).run g =
      ⟨g', .ok changed⟩) ∧
    ∀ n dest p a b ns ns', g'.Collapsible n dest p a b ns ns' →
      g'.source ∈ dest :: (ns ++ ns') ∨ g'.OnArm n := by
  refine ⟨Schedule.runRows_of_settledIn h, fun n dest p a b ns ns' hc => ?_⟩
  obtain ⟨⟨hregular, hforked⟩, last, hidle⟩ := Schedule.idle_of_settledIn
    (fun p hp iteration g hg => leaves_passes (fun hg hp hf => hf.splice hg hp) hp iteration hg)
    (fun p hp iteration g hg => careful_pipeline hg.1.sound hp iteration)
    ⟨regular_ofStream hg, forked_ofStream hg⟩ h
  have hnone : g'.conditionals = .ok [] :=
    Outcome.found_of_idle (hidle .formConditionals (by simp [Schedule.pipeline]))
  exact or_iff_not_imp_left.2 (hc.onArm hregular hforked hnone)

/-- Two branches, the second of which is on an arm of the first. -/
def nestedBranches : Stream :=
  [⟨0, .branch 3, 1⟩, ⟨1, .branch 1, 2⟩, ⟨2, .trace, 3⟩, ⟨3, .pop, 4⟩]

/-- The pipeline settles in the second row, and the inner test is still there. -/
theorem settled_nestedBranches : ∃ g g', ofStream nestedBranches = .ok g ∧
    (Schedule.pipeline "trace" false true 16).settled? g = some g' ∧ g'.source = 0 ∧
    g'.Collapsible 3 5 4 ⟨.ifTrue, 5⟩ ⟨.ifFalse, 6⟩ [] [6] := by
  refine ⟨_, _, by cbv, by cbv, by cbv, ⟨?_, by cbv, by cbv, .done, ?_, ?_⟩⟩
  · rw [← @Graph.mem_list _ _ .preorder, ← List.contains_iff_mem]
    cbv
  · exact .step (by cbv) (by cbv) .done
  · simp [Graph.predecessors, Ascending.mem_def]

/-- The inner test of two nested branches is on an arm of the outer one. -/
theorem onArm_of_settled_nested : ∃ g g', ofStream nestedBranches = .ok g ∧
    (Schedule.pipeline "trace" false true 16).settled? g = some g' ∧ g'.OnArm 3 := by
  obtain ⟨g, g', hg, hg', hsource, hc⟩ := settled_nestedBranches
  refine ⟨g, g', hg, hg', ?_⟩
  exact ((onArm_of_settled hg hg').2 _ _ _ _ _ _ _ hc).resolve_left (by simp [hsource])

/-- A pipeline that has settled leaves tests whose arms meet. -/
theorem settled_with_collapsible : ¬ ∀ (s : Stream) (g g' : FlowGraph) (traceName : String)
    (strict : Bool) (maxIterations : Nat), ofStream s = .ok g →
    (Schedule.pipeline traceName strict true maxIterations).settled? g = some g' →
    ∀ n dest p a b ns ns', ¬ g'.Collapsible n dest p a b ns ns' := by
  intro hall
  obtain ⟨g, g', hg, hg', -, hc⟩ := settled_nestedBranches
  exact hall _ g g' _ _ _ hg hg' _ _ _ _ _ _ _ hc

end FlowGraph

end ScriptRecovery
