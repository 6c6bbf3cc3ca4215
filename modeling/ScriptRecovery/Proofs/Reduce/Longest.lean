import ScriptRecovery.Proofs.Reduce.Chains

/-!
# Chains are as long as possible

A chain that comes to a node goes on to the next one when that is not the entry, has one way in and
one way out (`FlowGraph.Continues`).  The search never cuts a chain there: two nodes of which one
continues the other are neighbours in a chain it finds (`chains_complete`).

A chain ends early only before a node with a mark.  The search marks a node when something that
leads to it has a mark (`FlowGraph.Searched`).  If the one node that leads there is the last of the
chain that is being made, then nothing with a mark led there before.

What is shown of a chain is shown at the time it is made (`FlowGraph.Makes`), and every reachable
node with one way out is in a chain that is made at some time (`exists_makes_chains`).
-/

namespace ScriptRecovery

namespace Graph

variable {ε : Type} {g : Graph ε} {dest prev x : Nat} {ns : List Nat} {es : List ε}

/-- Each node of a lane but the last leads to the next one. -/
theorem Lane.eq_last_or_within (h : g.Lane dest prev x ns es) (hp : g.targets prev = [x]) {m : Nat}
    (hm : m ∈ prev :: ns) :
    m = ns.getLastD prev ∨ ∃ y ∈ ns, g.targets m = [y] ∧ [m, y] <:+: prev :: ns := by
  induction h with
  | done => exact .inl (List.mem_singleton.1 hm)
  | @step x prev _ y ns _ _ _ hnode _ ih =>
    rw [List.getLastD_cons]
    rcases List.mem_cons.1 hm with rfl | hm
    · exact .inr ⟨x, by simp, hp, ⟨[], ns, rfl⟩⟩
    · refine (ih (targets_of_simple hnode) hm).imp_right fun ⟨z, hz, htarget, hwithin⟩ => ?_
      exact ⟨z, List.mem_cons_of_mem _ hz, htarget,
        hwithin.trans (List.suffix_cons prev (x :: ns)).isInfix⟩

/-- Something on a lane leads to each node of it. -/
theorem Lane.exists_pred (h : g.Lane dest prev x ns es) {m : Nat} (hm : m ∈ ns) :
    ∃ u ∈ prev :: ns, u ∈ g.predecessors m := by
  induction h with
  | done => cases hm
  | @step x prev _ _ ns _ _ hx _ _ ih =>
    rcases List.mem_cons.1 hm with rfl | hm
    · exact ⟨prev, by simp, (hx prev).2 rfl⟩
    · obtain ⟨u, hu, hpred⟩ := ih hm
      exact ⟨u, List.mem_cons_of_mem _ hu, hpred⟩

end Graph

namespace FlowGraph

variable {g : FlowGraph} {u v : Nat} {e e' : Edge} {marks marks' : Marks} {stack : List Nat}

/-- Whether a chain that comes to `u` goes on to `v`, over one edge and on to another. -/
structure Continues (g : FlowGraph) (u v : Nat) (e e' : Edge) : Prop where
  reachable : g.Reachable u
  node : g.node? u = some (.simple ⟨e, v⟩)
  ne_source : v ≠ g.source
  alone : g.inDegree v = 1
  next : ∃ w, g.node? v = some (.simple ⟨e', w⟩)

theorem Continues.mem_predecessors (h : g.Continues u v e e') (hg : Graph.Sound g) {m : Nat} :
    m ∈ g.predecessors v ↔ m = u := by
  obtain ⟨k, hk⟩ := Graph.inDegree_eq_one_iff.1 h.alone
  have huv : u ∈ g.predecessors v :=
    hg.index.2 ⟨h.reachable, by simp [Graph.targets_of_simple h.node]⟩
  rw [(hk u).1 huv]
  exact hk m

/-- A chain stops before a node that would continue it only if that has a mark. -/
theorem chainFrom_stop {next prev : Nat} {out : Link Edge}
    (hnode : g.node? prev = some (.simple ⟨e, next⟩))
    (hv : v ∈ g.targets ((g.chainFrom marks next).2.getLastD prev)) (hs : v ≠ g.source)
    (hone : g.inDegree v = 1) (hout : g.node? v = some (.simple out)) :
    ¬ (g.chainFrom marks next).1.isFree v := by
  fun_induction chainFrom g marks next generalizing prev e with
  | case1 marks next _ hnone =>
    obtain rfl : v = next := by simpa [Graph.targets_of_simple hnode] using hv
    simp [hout, Node.simpleOut?] at hnone
  | case2 marks next _ out' hout' tail =>
    rename_i ih
    rw [List.getLastD_cons] at hv
    have hnode' := Graph.bind_simpleOut?_eq_some.1 hout'
    exact ih hnode' hv
  | case3 marks next hstop =>
    obtain rfl : v = next := by simpa [Graph.targets_of_simple hnode] using hv
    simpa [hs, hone] using hstop

/-! ## The search -/

/-- What a search for chains has done so far.  Whatever a node with a mark leads to has a mark or is
on the stack, and something with a mark leads to whatever has a mark or is on the stack. -/
structure Searched (g : FlowGraph) (marks : Marks) (stack : List Nat) : Prop where
  stacked : ∀ x ∈ stack, g.Reachable x
  entry : ¬ marks.isFree g.source ∨ g.source ∈ stack
  closed : ∀ {x y : Nat}, g.Reachable x → ¬ marks.isFree x → y ∈ g.targets x →
    ¬ marks.isFree y ∨ y ∈ stack
  reached : ∀ {x : Nat}, g.Reachable x → x ≠ g.source → ¬ marks.isFree x ∨ x ∈ stack →
    ∃ m ∈ g.predecessors x, ¬ marks.isFree m

theorem searched_start (hg : Graph.Sound g) : g.Searched (.none g.size) [g.source] := by
  have hfree : ∀ {x : Nat}, g.Reachable x → (Marks.none g.size).isFree x := fun hx => by
    simpa using hx.lt_size
  refine ⟨fun x hx => ?_, .inr (by simp), fun hx hmark _ => absurd (hfree hx) hmark,
    fun hx hs hmark => ?_⟩
  · rw [List.mem_singleton.1 hx]
    exact hg.reachable_source
  · rcases hmark with hmark | hmem
    · exact absurd (hfree hx) hmark
    · exact absurd (List.mem_singleton.1 hmem) hs

theorem Searched.skip {start : Nat} (h : g.Searched marks (start :: stack))
    (hstart : ¬ marks.isFree start) : g.Searched marks stack := by
  have hrest : ∀ {x : Nat}, ¬ marks.isFree x ∨ x ∈ start :: stack →
      ¬ marks.isFree x ∨ x ∈ stack := by
    rintro x (hx | hx)
    · exact .inl hx
    · rcases List.mem_cons.1 hx with rfl | hx
      · exact .inl hstart
      · exact .inr hx
  refine ⟨fun x hx => h.stacked x (by simp [hx]), hrest h.entry,
    fun hx hmark hy => hrest (h.closed hx hmark hy), fun hx hs hmark => h.reached hx hs ?_⟩
  exact hmark.imp_right (List.mem_cons_of_mem _)

/-- The search goes on behind the last of some nodes in a row, which get a mark. -/
theorem Searched.advance {start last : Nat} {ns : List Nat} (h : g.Searched marks (start :: stack))
    (hg : Graph.Sound g)
    (hmarks : ∀ x, marks'.isFree x ↔ marks.isFree x ∧ x ∉ start :: ns)
    (hreach : ∀ x ∈ start :: ns, g.Reachable x) (hlast : last ∈ start :: ns)
    (honward : ∀ x ∈ start :: ns, ∀ y ∈ g.targets x, x = last ∨ y ∈ start :: ns)
    (hbefore : ∀ x ∈ ns, ∃ m ∈ start :: ns, m ∈ g.predecessors x) :
    g.Searched marks' ((g.targets last).reverse ++ stack) := by
  have hmark : ∀ {x : Nat}, ¬ marks'.isFree x ↔ ¬ marks.isFree x ∨ x ∈ start :: ns := fun {x} => by
    rw [hmarks, not_and_or, not_not]
  have hold : ∀ {x : Nat}, ¬ marks.isFree x ∨ x ∈ start :: stack →
      ¬ marks'.isFree x ∨ x ∈ (g.targets last).reverse ++ stack := by
    rintro x (hx | hx)
    · exact .inl (hmark.2 (.inl hx))
    · rcases List.mem_cons.1 hx with rfl | hx
      · exact .inl (hmark.2 (.inr (by simp)))
      · exact .inr (List.mem_append_right _ hx)
  have hpred : ∀ {x : Nat}, g.Reachable x → x ≠ g.source →
      ¬ marks.isFree x ∨ x ∈ start :: stack → ∃ m ∈ g.predecessors x, ¬ marks'.isFree m := by
    intro x hx hs hmem
    obtain ⟨m, hm, hmarked⟩ := h.reached hx hs hmem
    exact ⟨m, hm, hmark.2 (.inl hmarked)⟩
  refine ⟨fun x hx => ?_, hold h.entry, fun {x y} hx hxm hy => ?_, fun {x} hx hs hxm => ?_⟩
  · rcases List.mem_append.1 hx with hx | hx
    · exact hg.reachable_target (hreach last hlast) (List.mem_reverse.1 hx)
    · exact h.stacked x (by simp [hx])
  · rcases hmark.1 hxm with hxm | hxm
    · exact hold (h.closed hx hxm hy)
    · rcases honward x hxm y hy with rfl | hy'
      · exact .inr (List.mem_append_left _ (List.mem_reverse.2 hy))
      · exact .inl (hmark.2 (.inr hy'))
  · rcases hxm with hxm | hxm
    · rcases hmark.1 hxm with hxm | hxm
      · exact hpred hx hs (.inl hxm)
      · rcases List.mem_cons.1 hxm with rfl | hxm
        · exact hpred hx hs (.inr (by simp))
        · obtain ⟨m, hm, hmx⟩ := hbefore x hxm
          exact ⟨m, hmx, hmark.2 (.inr hm)⟩
    · rcases List.mem_append.1 hxm with hxm | hxm
      · exact ⟨last, hg.index.2 ⟨hreach last hlast, List.mem_reverse.1 hxm⟩, hmark.2 (.inr hlast)⟩
      · exact hpred hx hs (.inr (by simp [hxm]))

/-! ## Chains at the time they are made -/

/-- A chain that a search makes, from the node on top of its stack on.  Its nodes were free and get
a mark, and it stops before a node that would continue it only if that has a mark. -/
structure Makes (g : FlowGraph) (marks : Marks) (start : Nat) (stack ns : List Nat)
    (marks' : Marks) : Prop where
  searched : g.Searched marks (start :: stack)
  chain : ∃ dest es, g.IsChain dest (start :: ns) es
  free : ∀ x ∈ start :: ns, marks.isFree x
  marked : ∀ x, marks'.isFree x ↔ marks.isFree x ∧ x ∉ start :: ns
  stops : ∀ {v : Nat} {out : Link Edge}, v ∈ g.targets (ns.getLastD start) → v ≠ g.source →
    g.inDegree v = 1 → g.node? v = some (.simple out) → ¬ marks'.isFree v

theorem makes_chainFrom {start x : Nat} (hg : Graph.Sound g) (h : g.Searched marks (start :: stack))
    (hfree : marks.isFree start) (hnode : g.node? start = some (.simple ⟨e, x⟩)) :
    g.Makes marks start stack (g.chainFrom (marks.mark start) x).2
      (g.chainFrom (marks.mark start) x).1 := by
  obtain ⟨dest, es, hchain, hfree, hmarked⟩ :=
    isChain_chainFrom hg (h.stacked start (by simp)) hnode hfree
  exact ⟨h, ⟨dest, es, hchain⟩, hfree, hmarked, chainFrom_stop hnode⟩

/-- The search goes on behind the last node of the chain. -/
theorem Makes.advance {start : Nat} {ns : List Nat} (h : g.Makes marks start stack ns marks')
    (hg : Graph.Sound g) :
    g.Searched marks' ((g.targets (ns.getLastD start)).reverse ++ stack) := by
  obtain ⟨dest, es, hchain⟩ := h.chain
  refine h.searched.advance hg h.marked (hchain.reachable hg) List.getLastD_mem_cons ?_ ?_
  all_goals cases hchain with | mk hn hnode hlane hnd => ?_
  · intro y hy z hz
    refine (hlane.eq_last_or_within (Graph.targets_of_simple hnode) hy).imp_right ?_
    rintro ⟨z', hmem, htarget, -⟩
    obtain rfl : z = z' := by simpa [htarget] using hz
    exact List.mem_cons_of_mem _ hmem
  · exact fun y hy => hlane.exists_pred hy

/-- A node that continues a chain comes next in it. -/
theorem Makes.consecutive {start : Nat} {ns : List Nat} (h : g.Makes marks start stack ns marks')
    (hg : Graph.Sound g) (hc : g.Continues u v e e') (hu : u ∈ start :: ns) :
    [u, v] <:+: start :: ns := by
  obtain ⟨dest, es, hchain⟩ := h.chain
  cases hchain with
  | mk hn hnode hlane hnd =>
    rcases hlane.eq_last_or_within (Graph.targets_of_simple hnode) hu with
      hlast | ⟨y, -, hy, hwithin⟩
    swap
    · obtain rfl : v = y := by simpa [Graph.targets_of_simple hc.node] using hy
      exact hwithin
    exfalso
    have huv : v ∈ g.targets u := by simp [Graph.targets_of_simple hc.node]
    have hv : g.Reachable v := hg.reachable_target hc.reachable huv
    -- only `u` leads to `v`, and it had no mark before
    have hunmarked : ¬ (¬ marks.isFree v ∨ v ∈ start :: stack) := by
      intro hmem
      obtain ⟨m, hm, hmarked⟩ := h.searched.reached hv hc.ne_source hmem
      rw [(hc.mem_predecessors hg).1 hm] at hmarked
      exact hmarked (h.free u hu)
    rw [not_or, not_not, List.mem_cons, not_or] at hunmarked
    have hmem : v ∈ start :: ns := by
      by_contra hout
      obtain ⟨w, hw⟩ := hc.next
      exact h.stops (hlast ▸ huv) hc.ne_source hc.alone hw ((h.marked v).2 ⟨hunmarked.1, hout⟩)
    refine (List.mem_cons.1 hmem).elim hunmarked.2.1 fun hmem => ?_
    have hdest : v = dest := by
      have := targets_last hlane (Graph.targets_of_simple hnode)
      rw [← hlast, Graph.targets_of_simple hc.node] at this
      exact (List.cons.inj this).1
    refine hlane.dest_not_mem hnd ?_ (hdest ▸ hmem)
    rw [← hdest, ← hlast]
    exact (hc.mem_predecessors hg).2 rfl

/-- A search makes a chain with each node that it finds without a mark and that has one way out. -/
theorem Searched.exists_makes {out : Link Edge} (h : g.Searched marks stack) (hg : Graph.Sound g)
    (hreach : g.Reachable u) (hnode : g.node? u = some (.simple out)) (hu : marks.isFree u) :
    ∃ marks₀ start stack₀ ns marks₁, g.Makes marks₀ start stack₀ ns marks₁ ∧
      start :: ns ∈ g.chainsFrom marks stack ∧ u ∈ start :: ns := by
  fun_induction chainsFrom g marks stack with
  | case1 marks =>
    have hmark : ¬ marks.isFree u := by
      refine hreach.mem_of_closed (p := fun x => g.Reachable x ∧ ¬ marks.isFree x)
        ⟨hg.reachable_source, h.entry.resolve_right (by simp)⟩ (fun x hx y hy _ => ?_) |>.2
      exact ⟨hg.reachable_target hx.1 hy, (h.closed hx.1 hx.2 hy).resolve_right (by simp)⟩
    exact absurd hu hmark
  | case2 marks start stack hfree hout ih =>
    have hne : u ≠ start := by
      rintro rfl
      simp [hnode, Node.simpleOut?] at hout
    have hmarks : ∀ x, (marks.mark start).isFree x ↔ marks.isFree x ∧ x ∉ [start] := fun x => by
      rw [Marks.isFree_mark, Bool.and_eq_true, bne_iff_ne, List.mem_singleton, ne_comm]
    refine ih (h.advance hg hmarks (fun x hx => ?_) (by simp) ?_ (by simp)) ?_
    · exact h.stacked x (List.mem_singleton.1 hx ▸ List.mem_cons_self)
    · exact fun x hx _ _ => .inl (by simpa using hx)
    · simpa using ⟨hu, Ne.symm hne⟩
  | case3 marks start stack hfree out' hout' tail last ih =>
    have hmakes := makes_chainFrom hg h hfree (Graph.bind_simpleOut?_eq_some.1 hout')
    by_cases hmem : u ∈ start :: tail.2
    · exact ⟨marks, start, stack, tail.2, tail.1, hmakes, List.mem_cons_self, hmem⟩
    · obtain ⟨marks₀, start₀, stack₀, ns, marks₁, hfound, hin, hu⟩ :=
        ih (hmakes.advance hg) ((hmakes.marked u).2 ⟨hu, hmem⟩)
      exact ⟨marks₀, start₀, stack₀, ns, marks₁, hfound, List.mem_cons_of_mem _ hin, hu⟩
  | case4 marks start stack hfree ih => exact ih (h.skip hfree) hu

/-- A reachable node with one way out is in a chain, which was made at some time. -/
theorem exists_makes_chains {out : Link Edge} (hg : Graph.Sound g) (hreach : g.Reachable u)
    (hnode : g.node? u = some (.simple out)) :
    ∃ marks start stack ns marks', g.Makes marks start stack ns marks' ∧
      start :: ns ∈ g.chains ∧ u ∈ start :: ns :=
  (searched_start hg).exists_makes hg hreach hnode (by simpa using hreach.lt_size)

/-- Two nodes of which one continues the other are neighbours in a chain. -/
theorem chains_complete (hg : Graph.Sound g) (hc : g.Continues u v e e') :
    ∃ chain ∈ g.chains, [u, v] <:+: chain := by
  obtain ⟨_, start, _, ns, _, hmakes, hmem, hu⟩ := exists_makes_chains hg hc.reachable hc.node
  exact ⟨start :: ns, hmem, hmakes.consecutive hg hc hu⟩

end FlowGraph

end ScriptRecovery
