import ScriptRecovery.Proofs.Graph.Diamonds
import ScriptRecovery.Proofs.Graph.Ownership
import ScriptRecovery.Proofs.Reduce.Search
import ScriptRecovery.Proofs.Reduce.Spent

/-!
# Chains partition the nodes with one way out

The chains of a graph hold each reachable node with one way out at exactly one position, and no
other node (`FlowGraph.mem_flatten_chains`, `FlowGraph.nodup_flatten_chains`).  They can be replaced
in any order and by any rows (`FlowGraph.replaceable_chains`): the splice of one chain does not meet
another, so the nodes of that one are linked as before, with the same ways in.  And a chain cannot
be made longer.

`FlowGraph.chains_partition` says all this of every graph that is accepted, together with the end of
the search.
-/

namespace ScriptRecovery

namespace FlowGraph

variable {g : FlowGraph} {dest : Nat} {chain : List Nat} {es : List Edge}

/-! ## One chain -/

theorem IsChain.node_simple (h : g.IsChain dest chain es) :
    ∀ n ∈ chain, ∃ out, g.node? n = some (.simple out) := by
  cases h with
  | mk _ hnode hlane _ =>
    exact List.forall_mem_cons.2 ⟨⟨_, hnode⟩, fun m hm => hlane.node_simple hm⟩

/-- Each node of a chain leads to the next one. -/
theorem IsChain.linked (h : g.IsChain dest chain es) :
    chain.IsChain fun a b => ∃ e, g.node? a = some (.simple ⟨e, b⟩) := by
  cases h with
  | @mk n x e ns es _ hnode hlane _ =>
    clear * - hnode hlane
    induction hlane generalizing e with
    | done => exact .singleton _
    | step _ _ hnext _ ih => exact .cons_cons ⟨e, hnode⟩ (ih hnext)

/-- A chain has its nodes but the first to itself. -/
theorem IsChain.owned (h : g.IsChain dest chain es) :
    ∀ n ∈ chain.tail, g.inDegree n = 1 ∧ n ≠ g.source := by
  cases h with
  | mk _ _ hlane _ =>
    exact fun n hn => ⟨Graph.inDegree_of_chainTarget hlane.chainTarget_eq_ok n hn,
      hlane.ne_source hn⟩

/-! ## All chains -/

/-- The chains hold the reachable nodes with one way out. -/
theorem mem_flatten_chains (hg : Graph.Sound g) {n : Nat} : n ∈ g.chains.flatten ↔
    g.Reachable n ∧ ∃ out, g.node? n = some (.simple out) := by
  rw [List.mem_flatten]
  constructor
  · rintro ⟨chain, hmem, hn⟩
    obtain ⟨dest, es, hchain⟩ := (chains_cases hg).1 chain hmem
    exact ⟨hchain.reachable hg n hn, hchain.node_simple n hn⟩
  · rintro ⟨hreach, out, hnode⟩
    obtain ⟨_, start, _, ns, _, -, hmem, hn⟩ := exists_makes_chains hg hreach hnode
    exact ⟨start :: ns, hmem, hn⟩

/-- No node is in the chains twice. -/
theorem nodup_flatten_chains (hg : Graph.Sound g) : g.chains.flatten.Nodup := by
  obtain ⟨hchains, hdisjoint⟩ := chains_cases hg
  refine List.nodup_flatten.2 ⟨fun chain hmem => ?_, hdisjoint⟩
  obtain ⟨dest, es, hchain⟩ := hchains chain hmem
  exact hchain.nodup

/-- Nothing continues a chain. -/
theorem maximal_of_mem_chains (hg : Graph.Sound g) (hmem : chain ∈ g.chains) :
    ∃ last ∈ chain.getLast?, ∃ e dest, g.node? last = some (.simple ⟨e, dest⟩) ∧
      (dest = g.source ∨ (∀ out, g.node? dest ≠ some (.simple out)) ∨ g.inDegree dest ≠ 1) := by
  obtain ⟨dest, es, hchain⟩ := (chains_cases hg).1 chain hmem
  have hbarred := hchain.dest_eq ▸ (barred_of_mem_chains hg hmem).2
  cases hchain with
  | @mk n x e ns es hn hnode hlane hnd =>
    obtain ⟨e', hlast⟩ := node?_last_of_lane hlane hnode
    have hreach : g.Reachable (ns.getLastD n) :=
      hlane.last_reachable hg hn (by simp [Graph.targets_of_simple hnode])
    refine ⟨ns.getLastD n, by simp [List.getLast?_cons], e', dest, hlast, ?_⟩
    by_contra hcontinues
    simp only [not_or, not_forall, ne_eq, not_not] at hcontinues
    obtain ⟨hsource, ⟨⟨e'', w⟩, hw⟩, hone⟩ := hcontinues
    exact hbarred.stops _ e' e'' ⟨hreach, hlast, hsource, hone, w, hw⟩

/-- Chains in any order give way to any rows. -/
theorem spliceChains_of_mem (hg : Graph.Sound g) {rs : List (List Nat × List Edge)}
    (hmem : ∀ r ∈ rs, r.1 ∈ g.chains) (hnd : (rs.map Prod.fst).Nodup) :
    ∃ g', Outcome.applyAll (fun g r => g.spliceChain r.1 r.2) g rs = ⟨g', .ok true⟩ := by
  have hchains : ∀ r ∈ rs, ∃ es, g.IsChain (g.chainDest r.1) r.1 es := fun r hr => by
    obtain ⟨dest, es, hchain⟩ := (chains_cases hg).1 r.1 (hmem r hr)
    exact ⟨es, hchain.dest_eq ▸ hchain⟩
  obtain ⟨g', happly, -⟩ := spliceChains_eq_ok hg hchains <|
    (List.pairwise_map.1 hnd).imp_of_mem fun {p q} hp hq hne => by
      obtain ⟨es, hp'⟩ := hchains p hp
      obtain ⟨es', hq'⟩ := hchains q hq
      refine hp'.apart hg hq' fun x hx hx' => hne ?_
      exact chain_unique hg (hmem p hp) (hmem q hq) hx hx'
  exact ⟨g', happly⟩

/-- A chain can be replaced by any row, also after other chains were. -/
theorem replaceable_chains (hg : Graph.Sound g) (hmem : chain ∈ g.chains)
    {others : List (List Nat × List Edge)} (hnd : (others.map Prod.fst).Nodup)
    (hothers : ∀ r ∈ others, r.1 ∈ g.chains ∧ r.1 ≠ chain) :
    ∃ g₁, Outcome.applyAll (fun g r => g.spliceChain r.1 r.2) g others = ⟨g₁, .ok true⟩ ∧
      ∀ row, ∃ g₂, g₁.spliceChain chain row = .ok g₂ := by
  obtain ⟨g₁, happly⟩ := spliceChains_of_mem hg (fun r hr => (hothers r hr).1) hnd
  refine ⟨g₁, happly, fun row => ?_⟩
  have hlast : ∀ r ∈ others ++ [(chain, row)], r.1 ∈ g.chains := fun r hr => by
    rcases List.mem_append.1 hr with hr | hr
    · exact (hothers r hr).1
    · exact List.mem_singleton.1 hr ▸ hmem
  have hdistinct : ((others ++ [(chain, row)]).map Prod.fst).Nodup := by
    rw [List.map_append, List.nodup_append_comm]
    refine List.nodup_cons.2 ⟨fun hin => ?_, hnd⟩
    obtain ⟨r, hr, hrc⟩ := List.mem_map.1 hin
    exact (hothers r hr).2 hrc
  obtain ⟨g₂, hall⟩ := spliceChains_of_mem hg hlast hdistinct
  rw [Outcome.applyAll_append, happly] at hall
  simp only [Outcome.applyAll] at hall
  cases hsplice : g₁.spliceChain chain row with
  | error fault => simp [hsplice, Outcome.failed] at hall
  | ok g₂ => exact ⟨g₂, rfl⟩

/-! ## The partition -/

/-- Chains that share out the nodes of a graph with one way out, each as long as possible. -/
structure Partitioned (g : FlowGraph) (chains : List (List Nat)) : Prop where
  /-- Together they hold the reachable nodes with one way out. -/
  mem_iff : ∀ n, n ∈ chains.flatten ↔ g.Reachable n ∧ ∃ out, g.node? n = some (.simple out)
  /-- No node is in two of them, or twice in one. -/
  nodup : chains.flatten.Nodup
  /-- A node leads to the next one of its chain. -/
  linked : ∀ chain ∈ chains, chain.IsChain fun a b => ∃ e, g.node? a = some (.simple ⟨e, b⟩)
  /-- A node after the first has one way in and is not the entry. -/
  owned : ∀ chain ∈ chains, ∀ n ∈ chain.tail, g.inDegree n = 1 ∧ n ≠ g.source
  /-- A chain can be replaced by any row, also after any others were replaced by any rows. -/
  replaceable : ∀ chain ∈ chains, ∀ others : List (List Nat × List Edge),
    (others.map Prod.fst).Nodup → (∀ r ∈ others, r.1 ∈ chains ∧ r.1 ≠ chain) →
    ∃ g₁, Outcome.applyAll (fun g r => g.spliceChain r.1 r.2) g others = ⟨g₁, .ok true⟩ ∧
      ∀ row, ∃ g₂, g₁.spliceChain chain row = .ok g₂
  /-- The last node of a chain leads to the entry, to a node without exactly one way out, or to one
  without exactly one way in. -/
  maximal : ∀ chain ∈ chains, ∃ last ∈ chain.getLast?, ∃ e dest,
    g.node? last = some (.simple ⟨e, dest⟩) ∧
      (dest = g.source ∨ (∀ out, g.node? dest ≠ some (.simple out)) ∨ g.inDegree dest ≠ 1)

/-- The search for the chains of an accepted graph ends, without a fault, and they partition the
reachable nodes with one way out. -/
theorem chains_partition {nodes : Array (Node Edge)} {source : Nat}
    (h : Graph.ofNodes nodes source = .ok g) :
    (∃ s, ChainSearch.run g (2 * g.size + 1) (.start g) = .ok s ∧ s.Ended ∧ s.found = g.chains) ∧
      g.Partitioned g.chains := by
  have hg := (Graph.sound_of_ofNodes h).1
  obtain ⟨hchains, -⟩ := chains_cases hg
  refine ⟨ChainSearch.run_start hg, ⟨fun n => mem_flatten_chains hg, nodup_flatten_chains hg,
    fun chain hmem => ?_, fun chain hmem => ?_,
    fun chain hmem others hnd hothers => replaceable_chains hg hmem hnd hothers,
    fun chain hmem => maximal_of_mem_chains hg hmem⟩⟩
  · obtain ⟨dest, es, hchain⟩ := hchains chain hmem
    exact hchain.linked
  · obtain ⟨dest, es, hchain⟩ := hchains chain hmem
    exact hchain.owned

/-- The arms of a test lead into a loop of their own and back to the entry.  The entry, which is on
a loop too, starts a chain that ends at the test.  The other chains end before the entry, and before
the node where the inner loop is entered.  What the entry does not reach is in no chain, not even a
node that leads out of the arena. -/
theorem chains_partition_loops :
    let nodes : Array (Node Edge) := #[.simple ⟨.plain, 1⟩, .simple ⟨.plain, 2⟩,
      .branch ⟨.ifTrue, 3⟩ ⟨.ifFalse, 5⟩, .simple ⟨.plain, 4⟩, .simple ⟨.plain, 3⟩,
      .simple ⟨.plain, 0⟩, .pending, .simple ⟨.plain, 99⟩]
    let g : FlowGraph := Graph.indexed nodes 0
    Graph.ofNodes nodes 0 = .ok g ∧ g.chains = [[0, 1], [5], [3, 4]] ∧
      (∃ s, ChainSearch.run g 17 (.start g) = .ok s ∧ s.Ended ∧
        s.found = [[0, 1], [5], [3, 4]]) ∧
      (∀ n, n ∈ [0, 1, 5, 3, 4] ↔ g.Reachable n ∧ ∃ out, g.node? n = some (.simple out)) ∧
      ∃ g₁, Outcome.applyAll (fun g r => g.spliceChain r.1 r.2) g
          [([3, 4], [.ifTest, .ifTest, .ifTest]), ([0, 1], [])] = ⟨g₁, .ok true⟩ ∧
        ∀ row, ∃ g₂, g₁.spliceChain [5] row = .ok g₂ := by
  intro nodes g
  have h : Graph.ofNodes nodes 0 = .ok (Graph.indexed nodes 0) := by cbv
  have hchains : g.chains = [[0, 1], [5], [3, 4]] := by cbv
  obtain ⟨⟨s, hrun, hends, hfound⟩, hparts⟩ := chains_partition h
  rw [hchains] at hfound hparts
  exact ⟨h, hchains, ⟨s, hrun, hends, hfound⟩, hparts.mem_iff,
    hparts.replaceable [5] (by simp) _ (by simp) (by simp)⟩

end FlowGraph

end ScriptRecovery
