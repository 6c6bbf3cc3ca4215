import ScriptRecovery.Proofs.Graph.Diamonds

/-!
# Diamonds in reverse postorder

A diamond stands in one piece in the reverse postorder: its entry, its branching node, the second
arm, the first arm and the place where they meet (`Diamond.reversePostorder_eq`), when nothing else
leads to that place and it is not the entry of the graph.

The search comes to the entry of the diamond with nothing of the diamond marked, since there is no
other way in (`leaving_before`).  From there it goes down the first arm to the meeting place, and
what it does from there on marks no node of the second arm (`leaving_append`).
-/

namespace ScriptRecovery

namespace Adjacency

variable {a : Adjacency}

/-! ## Parts of a search -/

theorem leaving_leaves (marks : Marks) (ns : List Nat) (tasks : List Task) :
    a.leaving marks (ns.map .leave ++ tasks) = ns ++ a.leaving marks tasks := by
  induction ns with
  | nil => rfl
  | cons n ns ih => rw [List.map_cons, List.cons_append, leaving_leave, ih, List.cons_append]

/-- A search does its first tasks before the others.  It marks no nodes but those that its first
tasks lead to, as long as free nodes are passed. -/
theorem leaving_append {marks : Marks} {first : List Task} {P : Nat → Prop}
    (hfirst : ∀ v, Task.enter v ∈ first → P v)
    (hP : ∀ u, P u → marks.isFree u → ∀ d ∈ a.successors u, P d) (tasks : List Task) :
    ∃ listed marks', a.leaving marks (first ++ tasks) = listed ++ a.leaving marks' tasks ∧
      (∀ v, ¬ P v → marks'.isFree v = marks.isFree v) ∧
      ∀ v, marks'.isFree v → marks.isFree v := by
  generalize hall : first ++ tasks = all
  induction marks, all using leaving_induct a generalizing first with
  | nil marks =>
    obtain ⟨rfl, rfl⟩ := List.append_eq_nil_iff.1 hall
    exact ⟨[], marks, rfl, fun _ _ => rfl, fun _ h => h⟩
  | leave marks node rest ih =>
    cases first with
    | nil =>
      obtain rfl := hall
      exact ⟨[], marks, rfl, fun _ _ => rfl, fun _ h => h⟩
    | cons task first =>
      obtain ⟨rfl, rfl⟩ := List.cons.inj hall
      obtain ⟨listed, marks', hleaving, hrest⟩ := ih (fun v hv => hfirst v (by simp [hv])) hP rfl
      exact ⟨node :: listed, marks', by rw [leaving_leave, hleaving, List.cons_append], hrest⟩
  | enter marks node rest hfree ih =>
    cases first with
    | nil =>
      obtain rfl := hall
      exact ⟨[], marks, rfl, fun _ _ => rfl, fun _ h => h⟩
    | cons task first =>
      obtain ⟨rfl, rfl⟩ := List.cons.inj hall
      have hnode : P node := hfirst node (by simp)
      have hmore : ∀ v, Task.enter v ∈ (a.successors node).map .enter ++ .leave node :: first →
          P v := by
        intro v hv
        rcases List.mem_append.1 hv with hv | hv
        · obtain ⟨d, hd, hdv⟩ := List.mem_map.1 hv
          cases hdv
          exact hP node hnode hfree _ hd
        · exact hfirst v (by simp_all)
      obtain ⟨listed, marks', hleaving, hsame, hless⟩ :=
        ih hmore (fun u hu hfree' => hP u hu (by simp_all)) (by simp)
      refine ⟨listed, marks', by rw [leaving_enter _ hfree, hleaving], fun v hv => ?_,
        fun v hv => ?_⟩
      · have hne : node ≠ v := fun h => hv (h ▸ hnode)
        simp [hsame v hv, hne]
      · have := hless v hv
        simp_all
  | skip marks node rest hfree ih =>
    cases first with
    | nil =>
      obtain rfl := hall
      exact ⟨[], marks, rfl, fun _ _ => rfl, fun _ h => h⟩
    | cons task first =>
      obtain ⟨rfl, rfl⟩ := List.cons.inj hall
      obtain ⟨listed, marks', hleaving, hrest⟩ := ih (fun v hv => hfirst v (by simp [hv])) hP rfl
      exact ⟨listed, marks', by rw [leaving_skip _ hfree, hleaving], hrest⟩

/-- A search comes to a node that it lists, and marks nothing before that its tasks lead to only
through this node. -/
theorem leaving_before {marks : Marks} {tasks : List Task} {n : Nat} {P : Nat → Prop}
    (htasks : ∀ v, Task.enter v ∈ tasks → P v)
    (hP : ∀ u, P u → u ≠ n → ∀ d ∈ a.successors u, P d)
    (hn : marks.isFree n) (hleave : Task.leave n ∉ tasks) (hlisted : n ∈ a.leaving marks tasks) :
    ∃ listed marks' rest, a.leaving marks tasks = listed ++ a.leaving marks' (.enter n :: rest) ∧
      marks'.isFree n ∧ ∀ v, ¬ P v → marks'.isFree v = marks.isFree v := by
  induction marks, tasks using leaving_induct a with
  | nil marks => simp [leaving_nil] at hlisted
  | leave marks node tasks ih =>
    rw [List.mem_cons, not_or] at hleave
    have hne : n ≠ node := fun h => hleave.1 (h ▸ rfl)
    rw [leaving_leave] at hlisted ⊢
    obtain ⟨listed, marks', rest, hleaving, hrest⟩ := ih (fun v hv => htasks v (by simp [hv])) hn
      hleave.2 (List.mem_of_ne_of_mem hne hlisted)
    exact ⟨node :: listed, marks', rest, by rw [hleaving, List.cons_append], hrest⟩
  | enter marks node tasks hfree ih =>
    by_cases hnode : node = n
    · subst hnode
      exact ⟨[], marks, tasks, rfl, hfree, fun _ _ => rfl⟩
    · have hPnode : P node := htasks node (by simp)
      rw [leaving_enter _ hfree] at hlisted
      obtain ⟨listed, marks', rest, hleaving, hfree', hsame⟩ := ih (fun v hv => by
          rcases List.mem_append.1 hv with hv | hv
          · obtain ⟨d, hd, hdv⟩ := List.mem_map.1 hv
            cases hdv
            exact hP node hPnode hnode _ hd
          · exact htasks v (by simp_all))
        (by simpa [hn] using hnode) (by simp_all [Ne.symm hnode]) hlisted
      refine ⟨listed, marks', rest, by rw [leaving_enter _ hfree, hleaving], hfree',
        fun v hv => ?_⟩
      have hne : node ≠ v := fun h => hv (h ▸ hPnode)
      simp [hsame v hv, hne]
  | skip marks node tasks hfree ih =>
    rw [leaving_skip _ hfree] at hlisted ⊢
    exact ih (fun v hv => htasks v (by simp [hv])) hn (by simp_all) hlisted

end Adjacency

namespace Graph

variable {ε : Type} {g : Graph ε}

open Adjacency

/-- A search goes down a lane that is free. -/
theorem Lane.leaving {dest prev x : Nat} {ns : List Nat} {es : List ε}
    (h : g.Lane dest prev x ns es) (hnd : ns.Nodup) {marks : Marks}
    (hfree : ∀ y ∈ ns, marks.isFree y) (tasks : List Task) :
    ∃ marks', g.adjacency.leaving marks (.enter x :: tasks) =
        g.adjacency.leaving marks' (.enter dest :: (ns.reverse.map .leave ++ tasks)) ∧
      ∀ v, marks'.isFree v ↔ marks.isFree v ∧ v ∉ ns := by
  induction h generalizing marks tasks with
  | done => exact ⟨marks, rfl, by simp⟩
  | @step x prev e y ns es _ _ hnode _ ih =>
    obtain ⟨hx, hnd⟩ := List.nodup_cons.1 hnd
    have hsucc : g.adjacency.successors x = [y] := targets_of_simple hnode
    have hfree' : ∀ z ∈ ns, (marks.mark x).isFree z := by
      intro z hz
      have hne : x ≠ z := fun h => hx (h ▸ hz)
      simp [hfree z (by simp [hz]), hne]
    obtain ⟨marks', hleaving, hmarks⟩ := ih hnd hfree' (.leave x :: tasks)
    refine ⟨marks', ?_, fun v => ?_⟩
    · rw [leaving_enter _ (hfree x (by simp)), hsucc]
      simpa using hleaving
    · rw [hmarks]
      simp only [Marks.isFree_mark, Bool.and_eq_true, bne_iff_ne, ne_eq, List.mem_cons]
      grind

namespace Diamond

variable {n dest p : Nat} {e : ε} {a b : Link ε} {ns ns' : List Nat} {es es' : List ε}

/-- Once the branching node and the meeting place are marked, a search from the meeting place does
not get into the second arm. -/
theorem leaving_join (h : g.Diamond n dest e p a b ns ns' es es') (hg : g.Sound) {marks : Marks}
    (hbranch : ¬ marks.isFree p) (hjoin : ¬ marks.isFree dest) (tasks : List Task) :
    ∃ listed marks',
      g.adjacency.leaving marks ((g.targets dest).map .enter ++ tasks) =
          listed ++ g.adjacency.leaving marks' tasks ∧
        (∀ v ∈ ns', marks'.isFree v = marks.isFree v) ∧ ¬ marks'.isFree dest := by
  have hdest := h.dest_not_mem hg
  rw [mem_between, not_or, not_or] at hdest
  have hfirst : ∀ v, Task.enter v ∈ (g.targets dest).map .enter → g.Reachable v ∧ v ∉ ns' := by
    intro v hv
    obtain ⟨d, hd, hdv⟩ := List.mem_map.1 hv
    cases hdv
    refine ⟨hg.reachable_target (h.exit hg) hd, fun hv' => ?_⟩
    rcases h.onFalse.pred_mem hv' (hg.index.2 ⟨h.exit hg, hd⟩) with hp | hin
    · exact hdest.1 hp
    · exact hdest.2.2 hin
  have hstep : ∀ u, g.Reachable u ∧ u ∉ ns' → marks.isFree u →
      ∀ d ∈ g.adjacency.successors u, g.Reachable d ∧ d ∉ ns' := by
    rintro u hu hfreeu d (hd : d ∈ g.targets u)
    refine ⟨hg.reachable_target hu.1 hd, fun hd' => ?_⟩
    rcases h.onFalse.pred_mem hd' (hg.index.2 ⟨hu.1, hd⟩) with rfl | hin
    · exact hbranch hfreeu
    · exact hu.2 hin
  obtain ⟨listed, marks', hleaving, hsame, hless⟩ := leaving_append hfirst hstep tasks
  exact ⟨listed, marks', hleaving, fun v hv => hsame v fun hP => hP.2 hv,
    fun hd => hjoin (hless dest hd)⟩

/-- A search that comes to the entry of a diamond that is free lists the diamond in one piece. -/
theorem leaving_entry (h : g.Diamond n dest e p a b ns ns' es es') (hg : g.Sound) {marks : Marks}
    (hfree : ∀ v, v = n ∨ v ∈ between p ns ns' ∨ v = dest → marks.isFree v) (hnd : n ≠ dest)
    (rest : List Task) : ∃ listed after, g.adjacency.leaving marks (.enter n :: rest) =
      listed ++ dest :: (ns.reverse ++ (ns'.reverse ++ p :: n :: after)) := by
  have hr := h.region hg
  have hdest := h.dest_not_mem hg
  obtain ⟨hpn, hpn'⟩ := h.not_mem
  rw [mem_between, not_or, not_or] at hdest
  simp only [mem_between] at hfree
  have hsuccn : g.adjacency.successors n = [p] := targets_of_simple h.way
  have hsuccp : g.adjacency.successors p = [a.dest, b.dest] := h.targets_branch
  have hnp : n ≠ p := h.outside.1
  -- down the first arm
  have hfreeT : ∀ y ∈ ns, ((marks.mark n).mark p).isFree y := by
    intro y hy
    have hny : n ≠ y := fun hny => h.outside.2.1 (hny ▸ hy)
    have hpy : p ≠ y := fun hpy => hpn (hpy ▸ hy)
    simp [hfree y (by simp [hy]), hny, hpy]
  obtain ⟨marks₁, hleaving₁, hmarks₁⟩ := h.onTrue.leaving (h.onTrue.nodup hpn) hfreeT
    (.enter b.dest :: .leave p :: .leave n :: rest)
  have hfree₁ : marks₁.isFree dest := by
    rw [hmarks₁]
    simp [hfree dest (by simp), hnd, Ne.symm hdest.1, hdest.2.1]
  -- from the meeting place
  obtain ⟨listed, marks₂, hleaving₂, hsame₂, hmarked₂⟩ := h.leaving_join hg
    (show ¬ (marks₁.mark dest).isFree p by simp [hmarks₁]) (by simp)
    (.leave dest :: (ns.reverse.map .leave ++ .enter b.dest :: .leave p :: .leave n :: rest))
  -- down the second arm
  have hfreeF : ∀ y ∈ ns', marks₂.isFree y := by
    intro y hy
    have hny : n ≠ y := fun hny => h.outside.2.2 (hny ▸ hy)
    have hpy : p ≠ y := fun hpy => hpn' (hpy ▸ hy)
    have hdy : dest ≠ y := fun hdy => hdest.2.2 (hdy ▸ hy)
    have hyn : y ∉ ns := fun hyn => h.apart hyn hy
    have hy₁ : marks₁.isFree y := by
      rw [hmarks₁]
      simp [hfree y (by simp [hy]), hny, hpy, hyn]
    rw [hsame₂ y hy]
    simp [hy₁, hdy]
  obtain ⟨marks₃, hleaving₃, hmarks₃⟩ := h.onFalse.leaving (h.onFalse.nodup hpn') hfreeF
    (.leave p :: .leave n :: rest)
  have hmarked₃ : ¬ marks₃.isFree dest := fun hd => hmarked₂ ((hmarks₃ dest).1 hd).1
  refine ⟨listed, g.adjacency.leaving marks₃ rest, ?_⟩
  calc g.adjacency.leaving marks (.enter n :: rest)
      = g.adjacency.leaving ((marks.mark n).mark p)
          (.enter a.dest :: .enter b.dest :: .leave p :: .leave n :: rest) := by
        rw [leaving_enter _ (hfree n (by simp)), hsuccn, List.map_cons, List.map_nil,
          List.cons_append, List.nil_append, leaving_enter _ (by simp [hfree p (by simp), hnp]),
          hsuccp]
        rfl
    _ = g.adjacency.leaving (marks₁.mark dest) ((g.targets dest).map .enter ++ .leave dest ::
          (ns.reverse.map .leave ++ .enter b.dest :: .leave p :: .leave n :: rest)) := by
        rw [hleaving₁, leaving_enter _ hfree₁]
        rfl
    _ = listed ++ dest :: (ns.reverse ++ g.adjacency.leaving marks₂
          (.enter b.dest :: .leave p :: .leave n :: rest)) := by
        rw [hleaving₂, leaving_leave, leaving_leaves]
    _ = _ := by
        rw [hleaving₃, leaving_skip _ hmarked₃, leaving_leaves, leaving_leave, leaving_leave]

/-- A diamond with an end that nothing else leads to stands in one piece in the reverse
postorder. -/
theorem reversePostorder_eq (h : g.Diamond n dest e p a b ns ns' es es') (hg : g.Sound)
    (hjoin : ∀ m ∈ g.predecessors dest, m = ns.getLastD p ∨ m = ns'.getLastD p)
    (hsource : dest ≠ g.source) : ∃ before after,
      g.list .reversePostorder = before ++ n :: p :: (ns' ++ (ns ++ dest :: after)) := by
  have hr := h.region hg
  -- what is outside of the diamond stays outside until the search comes to the entry
  have hout : ∀ u, g.Reachable u ∧ u ∉ between p ns ns' ∧ u ≠ dest → u ≠ n →
      ∀ d ∈ g.adjacency.successors u, g.Reachable d ∧ d ∉ between p ns ns' ∧ d ≠ dest := by
    rintro u ⟨hu, hub, hud⟩ hun d (hd : d ∈ g.targets u)
    refine ⟨hg.reachable_target hu hd, fun hdb => ?_, fun hdd => ?_⟩
    · exact (hr.enclosed hdb hu hd).elim hun hub
    · exact hub (last_mem (hjoin u (hg.index.2 ⟨hu, hdd ▸ hd⟩)))
  have hstart : g.Reachable g.source ∧ g.source ∉ between p ns ns' ∧ g.source ≠ dest :=
    ⟨hg.reachable_source, hr.source_kept, Ne.symm hsource⟩
  have hnd : n ≠ dest := by
    intro hnd
    refine (h.entry.mem_of_closed (p := fun u => g.Reachable u ∧ u ∉ between p ns ns' ∧ u ≠ dest)
      hstart fun u hu d hd _ => hout u hu (hnd ▸ hu.2.2) d hd).2.2 hnd
  have hlisted : n ∈ g.adjacency.leaving (.none g.size) [.enter g.source] :=
    mem_postorder.2 h.entry
  obtain ⟨listed, marks, rest, hleaving, hn, hmarks⟩ := leaving_before (by simpa using hstart) hout
    (by simpa using h.entry.lt_size) (by simp) hlisted
  have hfree : ∀ v, v = n ∨ v ∈ between p ns ns' ∨ v = dest → marks.isFree v := by
    rintro v (rfl | hv)
    · exact hn
    · have hlt : v < g.size := by
        rcases hv with hv | rfl
        · exact h.lt_size hv
        · exact hr.exit.lt_size
      rw [hmarks v fun hP => hv.elim hP.2.1 hP.2.2]
      simpa using hlt
  obtain ⟨listed', after, hentry⟩ := h.leaving_entry hg hfree hnd rest
  refine ⟨after.reverse, listed'.reverse ++ listed.reverse, ?_⟩
  have hpost : g.adjacency.postorder g.source =
      listed ++ (listed' ++ dest :: (ns.reverse ++ (ns'.reverse ++ p :: n :: after))) := by
    rw [← hentry, ← hleaving]
    rfl
  calc g.list .reversePostorder
      = (g.adjacency.postorder g.source).reverse := rfl
    _ = _ := by
      rw [hpost]
      simp

end Diamond

end Graph

end ScriptRecovery
