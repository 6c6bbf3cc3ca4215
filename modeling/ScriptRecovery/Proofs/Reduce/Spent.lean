import Mathlib.Data.List.Chain
import Mathlib.Data.List.Pairwise
import ScriptRecovery.Proofs.Reduce.Longest

/-!
# Graphs on which nothing merges

Merging a row ends with neighbours that refuse each other, and a row of such neighbours is left
alone (`Edge.reduceRow_eq_none_iff`).  The same holds of graphs.  A graph is spent
(`FlowGraph.Spent`) when a node and the one that continues its chain have edges that refuse each
other.  Merging chains leaves a spent graph (`mergeChains_spent`) and leaves a spent graph alone
(`Spent.mergeChains_idle`), so it has nothing to do a second time.

While chains give way to rows one after another, the only neighbours that may still merge are on a
chain that is left.  A chain starts at a node that continues nothing, and ends before another such
node.  So what is laid in its place has no neighbours but its own, and no splice makes a node
continue another that did not before.
-/

namespace ScriptRecovery

namespace Edge

/-- Whether two edges in a row stay two. -/
abbrev Refuses (a b : Edge) : Prop := a.merge b = .ok none

/-- Neighbours that refuse each other still do when an edge is put on them.  If nothing merges, the
edge goes on top. -/
theorem mergeOnto_refuses {edge : Edge} {merged merged' : List Edge} {grew : Bool}
    (h : edge.mergeOnto merged = .ok (merged', grew))
    (hm : merged.IsChain fun b a => Refuses a b) :
    (merged'.IsChain fun b a => Refuses a b) ∧ (grew = false → merged' = edge :: merged) := by
  induction merged generalizing edge merged' grew with
  | nil =>
    cases h
    exact ⟨.singleton edge, fun _ => rfl⟩
  | cons last merged ih =>
    rw [mergeOnto] at h
    obtain ⟨both?, hmerge, h⟩ := bind_eq_ok.1 h
    cases both? with
    | none =>
      obtain ⟨rfl, rfl⟩ := Prod.mk.inj (Except.ok.inj h)
      exact ⟨.cons_cons hmerge hm, fun _ => rfl⟩
    | some both =>
      obtain ⟨⟨rest, grew'⟩, honto, h⟩ := bind_eq_ok.1 h
      obtain ⟨rfl, rfl⟩ := Prod.mk.inj (Except.ok.inj h)
      exact ⟨(ih honto hm.tail).1, fun hgrew => by cases hgrew⟩

theorem mergeRow_refuses {row merged merged' : List Edge} {changed changed' : Bool}
    (h : mergeRow merged changed row = .ok (merged', changed'))
    (hm : merged.IsChain fun b a => Refuses a b) :
    (merged'.IsChain fun b a => Refuses a b) ∧
      (changed' = false → changed = false ∧ merged' = row.reverse ++ merged) := by
  induction row generalizing merged changed with
  | nil =>
    cases h
    exact ⟨hm, fun h => ⟨h, rfl⟩⟩
  | cons edge row ih =>
    rw [mergeRow] at h
    obtain ⟨⟨rest, grew⟩, honto, h⟩ := bind_eq_ok.1 h
    obtain ⟨hrest, hgrew⟩ := mergeOnto_refuses honto hm
    obtain ⟨hmerged, hsame⟩ := ih h hrest
    refine ⟨hmerged, fun hchanged => ?_⟩
    obtain ⟨hidle, rfl⟩ := hsame hchanged
    obtain ⟨hchanged, hidle⟩ := Bool.or_eq_false_iff.1 hidle
    exact ⟨hchanged, by simp [hgrew hidle]⟩

/-- A row whose neighbours refuse each other is put on others as it is. -/
theorem mergeRow_of_refuses {row merged : List Edge} {changed : Bool}
    (h : (row.reverse ++ merged).IsChain fun b a => Refuses a b) :
    mergeRow merged changed row = .ok (row.reverse ++ merged, changed) := by
  induction row generalizing merged with
  | nil => rfl
  | cons edge row ih =>
    rw [List.reverse_cons, List.append_assoc, List.singleton_append] at h ⊢
    have honto : edge.mergeOnto merged = .ok (edge :: merged, false) := by
      cases merged with
      | nil => rfl
      | cons last merged =>
        have hrefuses : last.merge edge = .ok none :=
          (List.isChain_append.1 h).2.1.rel
        simp [mergeOnto, hrefuses, bind, Except.bind, pure, Except.pure]
    simp only [mergeRow, honto, bind, Except.bind, Bool.or_false]
    exact ih h

/-- Neighbours in a row that was merged refuse each other. -/
theorem refuses_of_reduceRow {row row' : List Edge} (h : reduceRow row = .ok (some row')) :
    row'.IsChain Refuses := by
  obtain ⟨⟨merged, changed⟩, hrow, h⟩ := bind_eq_ok.1 h
  obtain ⟨-, rfl⟩ := by simpa using Except.ok.inj h
  exact List.isChain_reverse.2 (mergeRow_refuses hrow .nil).1

/-- Nothing merges in a row if all neighbours refuse each other. -/
theorem reduceRow_eq_none_iff {row : List Edge} :
    reduceRow row = .ok none ↔ row.IsChain Refuses := by
  constructor
  · intro h
    obtain ⟨⟨merged, changed⟩, hrow, h⟩ := bind_eq_ok.1 h
    obtain ⟨hmerged, hsame⟩ := mergeRow_refuses hrow .nil
    obtain rfl : merged = row.reverse := by
      simpa using (hsame (by simpa using Except.ok.inj h)).2
    exact List.isChain_reverse.1 hmerged
  · intro h
    have hrow : mergeRow [] false row = .ok (row.reverse ++ [], false) :=
      mergeRow_of_refuses (by simpa [List.isChain_reverse] using h)
    rw [reduceRow, hrow]
    rfl

end Edge

namespace Graph

variable {ε : Type} {g g' : Graph ε} {n dest : Nat} {gone : Nat → Prop} {row : List ε}

/-- Something at the end of a row, or before it, leads to where the row does. -/
theorem Row.exists_last {low next prev : Nat} {es : List ε} (h : g.Row low dest next es)
    (hg : g.Sound) (hp : g.Reachable prev) (hnext : next ∈ g.targets prev) :
    ∃ w, (w = prev ∨ low ≤ w) ∧ g.Reachable w ∧ dest ∈ g.targets w := by
  induction h generalizing prev with
  | nil => exact ⟨prev, .inl rfl, hp, hnext⟩
  | cons hlow hnode _ ih =>
    obtain ⟨w, hw, hlast⟩ := ih (hg.reachable_target hp hnext) (by simp [targets_of_simple hnode])
    refine ⟨w, .inr ?_, hlast⟩
    rcases hw with rfl | hw
    · exact hlow
    · exact hw

/-- After a splice its first node or a new one leads to its exit. -/
theorem Spliced.exists_last (h : g.Spliced g' n dest gone row) (hr : g.Region n dest gone)
    (hg' : g'.Sound) : ∃ w, (w = n ∨ g.size ≤ w) ∧ w ∈ g'.predecessors dest := by
  obtain ⟨e, es, next, -, hnode, hlaid⟩ := h.laid
  have hn : g'.Reachable n := h.reachable.2 (.inl ⟨hr.entry, hr.entry_kept⟩)
  obtain ⟨w, hw, hreach, hdest⟩ := hlaid.exists_last hg' hn (by simp [targets_of_simple hnode])
  exact ⟨w, hw, hg'.index.2 ⟨hreach, hdest⟩⟩

end Graph

namespace FlowGraph

variable {g g₁ g₂ : FlowGraph} {u v n dest : Nat} {e e' : Edge} {ns : List Nat} {es row : List Edge}

/-- Whether the edges of a node and of the one that continues its chain always refuse each
other. -/
def Spent (g : FlowGraph) : Prop :=
  ∀ ⦃u v : Nat⦄ ⦃e e' : Edge⦄, g.Continues u v e e' → e.Refuses e'

/-! ## Graphs on which nothing merges -/

/-- Along a chain of a spent graph neighbours refuse each other. -/
theorem Spent.refuses_of_lane {prev x : Nat} {e₀ : Edge} (h : g.Spent)
    (hlane : g.Lane dest prev x ns es) (hg : Graph.Sound g) (hp : g.Reachable prev)
    (hnode : g.node? prev = some (.simple ⟨e₀, x⟩)) : (e₀ :: es).IsChain Edge.Refuses := by
  induction hlane generalizing e₀ with
  | done => exact .singleton e₀
  | @step x prev e' y ns es hs hx hnode' _ ih =>
    have hc : g.Continues prev x e₀ e' :=
      ⟨hp, hnode, hs, Graph.inDegree_eq_one_iff.2 ⟨prev, hx⟩, y, hnode'⟩
    refine .cons_cons (h hc) (ih (hg.reachable_target hp ?_) hnode')
    simp [Graph.targets_of_simple hnode]

/-- Merging chains leaves a spent graph alone. -/
theorem Spent.mergeChains_idle (h : g.Spent) (hg : Graph.Sound g) (iteration : Nat) :
    Pass.mergeChains.run iteration g = .unchanged g := by
  have hnone : ∀ chains : List (List Nat), (∀ chain ∈ chains, ∃ dest es, g.IsChain dest chain es) →
      g.mergedChains chains = .ok [] := by
    intro chains hchains
    induction chains with
    | nil => rfl
    | cons chain chains ih =>
      obtain ⟨⟨dest, es, hchain⟩, hchains⟩ := List.forall_mem_cons.1 hchains
      have hrow : Edge.reduceRow es = .ok none := by
        rw [Edge.reduceRow_eq_none_iff]
        cases hchain with
        | mk hn hnode hlane _ => exact h.refuses_of_lane hlane hg hn hnode
      simp [mergedChains, hchain.edges_eq, hrow, ih hchains, bind, Except.bind, pure, Except.pure]
  simp only [Pass.mergeChains, hnone _ (chains_cases hg).1, Outcome.ofEdits]

/-! ## One splice -/

/-- A node before which every chain ends. -/
structure Barred (g : FlowGraph) (v : Nat) : Prop where
  lt_size : v < g.size
  stops : ∀ u e e', ¬ g.Continues u v e e'

/-- The last node of a chain leads to its exit. -/
theorem node?_last_of_lane {prev x : Nat} {e₀ : Edge} (h : g.Lane dest prev x ns es)
    (hnode : g.node? prev = some (.simple ⟨e₀, x⟩)) :
    ∃ e, g.node? (ns.getLastD prev) = some (.simple ⟨e, dest⟩) := by
  induction h generalizing e₀ with
  | done => exact ⟨e₀, hnode⟩
  | step _ _ hnode' _ ih =>
    rw [List.getLastD_cons]
    exact ih hnode'

/-- If only what was laid leads to the exit of a chain, then only the chain led there before. -/
theorem predecessors_exit_of_splice (hg₁ : Graph.Sound g₁) (hg₂ : Graph.Sound g₂)
    (hchain : g₁.IsChain dest (n :: ns) es) (hr : g₁.Region n dest (· ∈ ns))
    (hs : g₁.Spliced g₂ n dest (· ∈ ns) row) {w : Nat} (hw : w = n ∨ g₁.size ≤ w)
    (hall : ∀ m ∈ g₂.predecessors dest, m = w) {m : Nat} (hm : m ∈ g₁.predecessors dest) :
    m = ns.getLastD n := by
  cases hchain with
  | mk hn hnode hlane hnd =>
    obtain ⟨hm, hmdest⟩ := hg₁.index.1 hm
    by_cases hin : m ∈ n :: ns
    · rcases hlane.eq_last_or_within (Graph.targets_of_simple hnode) hin with
        hlast | ⟨y, hy, htarget, -⟩
      · exact hlast
      · obtain rfl : dest = y := by simpa [htarget] using hmdest
        exact absurd hy hr.exit_kept
    · rw [List.mem_cons, not_or] at hin
      have hsame := hs.kept hm.lt_size hin.1 hin.2
      have hm' : m ∈ g₂.predecessors dest := hg₂.index.2
        ⟨hs.reachable.2 (.inl ⟨hm, hin.2⟩), by rwa [Graph.targets_congr hsame]⟩
      rcases hw with rfl | hw
      · exact absurd (hall m hm') hin.1
      · exact absurd hm.lt_size (Nat.not_lt.2 (hall m hm' ▸ hw))

/-- What continues a chain after the splice of a chain did so before. -/
theorem Continues.of_splice (hc : g₂.Continues u v e e') (hg₁ : Graph.Sound g₁)
    (hg₂ : Graph.Sound g₂) (hchain : g₁.IsChain dest (n :: ns) es)
    (hr : g₁.Region n dest (· ∈ ns)) (hs : g₁.Spliced g₂ n dest (· ∈ ns) row)
    (hv : v < g₁.size) : ∃ u₀ e₀ e₀', g₁.Continues u₀ v e₀ e₀' := by
  have hsource : v ≠ g₁.source := hs.source ▸ hc.ne_source
  -- a node that stays has one way out if it has one afterwards
  have hnext : v ∉ ns → ∃ e₀' z, g₁.node? v = some (.simple ⟨e₀', z⟩) := by
    intro hgone
    obtain ⟨z, hz⟩ := hc.next
    by_cases hvn : v = n
    · cases hchain with
      | mk _ hnode _ _ => exact ⟨_, _, hvn ▸ hnode⟩
    · exact ⟨e', z, hs.kept hv hvn hgone ▸ hz⟩
  obtain ⟨w, hw, hwdest⟩ := hs.exists_last hr hg₂
  cases hs.site hg₁ hr hc.reachable with
  | kept hu hgone hun hsame =>
    have hnode := hsame ▸ hc.node
    have huv : v ∈ g₁.targets u := by simp [Graph.targets_of_simple hnode]
    have hvgone : v ∉ ns := fun hmem => (hr.enclosed hmem hu huv).elim hun hgone
    have hvd : v ≠ dest := by
      rintro rfl
      obtain rfl : w = u := (hc.mem_predecessors hg₂).1 hwdest
      exact hw.elim hun fun hle => absurd hu.lt_size (Nat.not_lt.2 hle)
    have hone : g₁.inDegree v = 1 := Graph.inDegree_eq_one_iff.2 ⟨u, fun m =>
      (hs.mem_predecessors hg₁ hg₂ hr hv hvd hvgone).symm.trans (hc.mem_predecessors hg₂)⟩
    obtain ⟨e₀', z, hz⟩ := hnext hvgone
    exact ⟨u, e, e₀', hu, hnode, hsource, hone, z, hz⟩
  | laid _ _ hnode hpost =>
    cases hc.node.symm.trans hnode
    cases hpost with
    | cons hlow _ _ => exact absurd hv (Nat.not_lt.2 hlow)
    | nil =>
      have hexit := fun {m} => predecessors_exit_of_splice (m := m) hg₁ hg₂ hchain hr hs hw
        fun m hm => ((hc.mem_predecessors hg₂).1 hm).trans ((hc.mem_predecessors hg₂).1 hwdest).symm
      cases hchain with
      | @mk _ x _ _ _ hn hnode hlane _ =>
        obtain ⟨e₀, hlast⟩ := node?_last_of_lane hlane hnode
        have hreach := hlane.last_reachable hg₁ hn (by simp [Graph.targets_of_simple hnode])
        have hmem : ns.getLastD n ∈ g₁.predecessors v :=
          hg₁.index.2 ⟨hreach, Graph.targets_of_simple hlast ▸ List.mem_singleton_self v⟩
        obtain ⟨e₀', z, hz⟩ := hnext hr.exit_kept
        exact ⟨_, e₀, e₀', hreach, hlast, hsource,
          Graph.inDegree_eq_one_iff.2 ⟨_, fun m => ⟨hexit, fun h => h ▸ hmem⟩⟩, z, hz⟩

/-- The splice of a chain leaves chains ending where they ended. -/
theorem Barred.splice (h : g₁.Barred v) (hg₁ : Graph.Sound g₁) (hg₂ : Graph.Sound g₂)
    (hchain : g₁.IsChain dest (n :: ns) es) (hr : g₁.Region n dest (· ∈ ns))
    (hs : g₁.Spliced g₂ n dest (· ∈ ns) row) : g₂.Barred v := by
  refine ⟨Nat.lt_of_lt_of_le h.lt_size hs.size_le, fun u e e' hc => ?_⟩
  obtain ⟨u₀, e₀, e₀', hold⟩ := hc.of_splice hg₁ hg₂ hchain hr hs h.lt_size
  exact h.stops u₀ e₀ e₀' hold

/-- After the splice of a chain that starts at one bar and ends before another, neighbours are
neighbours from before, away from the chain, or they are in the row. -/
theorem Continues.splice_cases (hc : g₂.Continues u v e e') (hg₁ : Graph.Sound g₁)
    (hg₂ : Graph.Sound g₂) (hchain : g₁.IsChain dest (n :: ns) es)
    (hr : g₁.Region n dest (· ∈ ns)) (hs : g₁.Spliced g₂ n dest (· ∈ ns) row)
    (hfirst : g₁.Barred n) (hexit : g₁.Barred dest) (hrow : row.IsChain Edge.Refuses) :
    g₁.Continues u v e e' ∧ u ∉ n :: ns ∨ e.Refuses e' := by
  have hvn : v ≠ n := by
    rintro rfl
    exact (hfirst.splice hg₁ hg₂ hchain hr hs).stops u e e' hc
  have hvd : v ≠ dest := by
    rintro rfl
    exact (hexit.splice hg₁ hg₂ hchain hr hs).stops u e e' hc
  obtain ⟨w, hw⟩ := hc.next
  cases hs.site hg₁ hr hc.reachable with
  | kept hu hgone hun hsame =>
    have hnode := hsame ▸ hc.node
    have huv : v ∈ g₁.targets u := by simp [Graph.targets_of_simple hnode]
    have hv : g₁.Reachable v := hg₁.reachable_target hu huv
    have hvgone : v ∉ ns := fun hmem => (hr.enclosed hmem hu huv).elim hun hgone
    refine .inl ⟨⟨hu, hnode, hs.source ▸ hc.ne_source, ?_, w, ?_⟩, by simp [hun, hgone]⟩
    · exact Graph.inDegree_eq_one_iff.2 ⟨u, fun m =>
        (hs.mem_predecessors hg₁ hg₂ hr hv.lt_size hvd hvgone).symm.trans
          (hc.mem_predecessors hg₂)⟩
    · rw [← hs.kept hv.lt_size hvn hvgone, hw]
  | laid hpre _ hnode hpost =>
    cases hc.node.symm.trans hnode
    cases hpost with
    | nil => exact absurd rfl hvd
    | cons _ hnext _ =>
      cases hw.symm.trans hnext
      rw [hpre] at hrow
      exact .inr (List.isChain_append.1 hrow).2.1.rel

/-! ## The pass -/

/-- While chains that were found in a graph give way to rows: those that are left start at a bar and
end before one, and what does not refuse what it comes next to is on one of them. -/
structure Spending (g g₁ : FlowGraph) (rest : List (List Nat × List Edge)) : Prop where
  sound : Graph.Sound g₁
  first : ∀ r ∈ rest, g₁.Barred (r.1.headD 0)
  exit : ∀ r ∈ rest, g₁.Barred (g.chainDest r.1)
  pairs : ∀ {u v : Nat} {e e' : Edge}, g₁.Continues u v e e' →
    e.Refuses e' ∨ ∃ r ∈ rest, [u, v] <:+: r.1

theorem isChain_rowOf {row : List Edge} (h : row.IsChain Edge.Refuses) :
    (Graph.rowOf row).IsChain Edge.Refuses := by
  cases row with
  | nil => exact .singleton _
  | cons _ _ => exact h

theorem Spending.splice {r : List Nat × List Edge} {rest : List (List Nat × List Edge)}
    (h : g.Spending g₁ (r :: rest)) (hr : g.StillChain g₁ r) (hg₂ : Graph.Sound g₂)
    (hc : (g.chainPatch r).Carried g₁ g₂) : g.Spending g₂ rest := by
  obtain ⟨hregion, hspliced⟩ := hc
  obtain ⟨chain, row⟩ := r
  obtain ⟨es, hchain, hrow⟩ := hr
  obtain ⟨hfirst, hfirsts⟩ := List.forall_mem_cons.1 h.first
  obtain ⟨hexit, hexits⟩ := List.forall_mem_cons.1 h.exit
  obtain ⟨n, ns, rfl⟩ : ∃ n ns, chain = n :: ns := by
    cases hchain with
    | mk => exact ⟨_, _, rfl⟩
  simp only [chainPatch, List.headD_cons, List.tail_cons] at hchain hregion hspliced hfirst hexit
  refine ⟨hg₂, fun r hr => ?_, fun r hr => ?_, fun {u v e e'} hc => ?_⟩
  · exact (hfirsts r hr).splice h.sound hg₂ hchain hregion hspliced
  · exact (hexits r hr).splice h.sound hg₂ hchain hregion hspliced
  · rcases hc.splice_cases h.sound hg₂ hchain hregion hspliced hfirst hexit
      (isChain_rowOf (Edge.refuses_of_reduceRow hrow)) with ⟨hc, hout⟩ | hrefuses
    · refine (h.pairs hc).imp_right ?_
      rintro ⟨r, hr, hwithin⟩
      refine ⟨r, (List.mem_cons.1 hr).resolve_left ?_, hwithin⟩
      rintro rfl
      exact hout (hwithin.subset (by simp))
    · exact .inl hrefuses

/-- A chain of a graph is among those that are merged, or its neighbours refuse each other. -/
theorem mem_mergedChains {chains : List (List Nat)} {rs : List (List Nat × List Edge)}
    (h : g.mergedChains chains = .ok rs) {chain : List Nat} (hc : chain ∈ chains) :
    (∃ row, (chain, row) ∈ rs) ∨ (g.chainEdges chain).IsChain Edge.Refuses := by
  induction chains generalizing rs with
  | nil => cases hc
  | cons first chains ih =>
    rw [mergedChains] at h
    obtain ⟨reduced, hreduced, h⟩ := bind_eq_ok.1 h
    obtain ⟨rest, hrest, h⟩ := bind_eq_ok.1 h
    obtain rfl := Except.ok.inj h
    rcases List.mem_cons.1 hc with rfl | hc
    · cases reduced with
      | none => exact .inr (Edge.reduceRow_eq_none_iff.1 hreduced)
      | some row => exact .inl ⟨row, by simp⟩
    · exact (ih hrest hc).imp_left (Exists.imp fun row hrow => List.mem_append_right _ hrow)

/-- The edges of two neighbours in a chain are neighbours. -/
theorem Continues.consecutive_chainEdges (hc : g.Continues u v e e') {chain : List Nat}
    (h : [u, v] <:+: chain) : [e, e'] <:+: g.chainEdges chain := by
  obtain ⟨pre, post, rfl⟩ := h
  obtain ⟨w, hw⟩ := hc.next
  refine ⟨g.chainEdges pre, g.chainEdges post, ?_⟩
  simp [chainEdges, hc.node, hw, Node.simpleOut?]

theorem mem_of_consecutive {α : Type} {a b x : α} {l : List α} (h : [a, b] <:+: x :: l) :
    b ∈ l := by
  obtain ⟨pre, post, heq⟩ := h
  cases pre with
  | nil => simp [← (List.cons.inj heq).2]
  | cons y pre => simp [← (List.cons.inj heq).2]

/-- Chains that share a node are the same. -/
theorem chain_unique (hg : Graph.Sound g) {c c' : List Nat} {x : Nat} (hc : c ∈ g.chains)
    (hc' : c' ∈ g.chains) (hx : x ∈ c) (hx' : x ∈ c') : c = c' := by
  have hsymm : Std.Symm (List.Disjoint (α := Nat)) := ⟨fun _ _ h _ hx hx' => h hx' hx⟩
  by_contra hne
  exact (chains_cases hg).2.forall hc hc' hne hx hx'

/-- A chain starts at a bar and ends before one. -/
theorem barred_of_mem_chains (hg : Graph.Sound g) {chain : List Nat} (hmem : chain ∈ g.chains) :
    g.Barred (chain.headD 0) ∧ g.Barred (g.chainDest chain) := by
  obtain ⟨dest, es, hchain⟩ := (chains_cases hg).1 chain hmem
  rw [hchain.dest_eq]
  cases hchain with
  | @mk n x e ns es hn hnode hlane hnd =>
    have hx : x ∈ g.targets n := by simp [Graph.targets_of_simple hnode]
    refine ⟨⟨hn.lt_size, fun u e e' hc => ?_⟩,
      ⟨(hlane.reachable hg (hg.reachable_target hn hx)).2.lt_size, fun u e e' hc => ?_⟩⟩
    · obtain ⟨chain, hchain, hwithin⟩ := chains_complete hg hc
      obtain rfl := chain_unique hg hchain hmem (hwithin.subset (by simp)) List.mem_cons_self
      exact (List.nodup_cons.1 hnd).1 (mem_of_consecutive hwithin)
    · obtain ⟨chain, hchain, hwithin⟩ := chains_complete hg hc
      have hlast : ns.getLastD n ∈ g.predecessors dest :=
        hg.index.2 ⟨hlane.last_reachable hg hn hx, hlane.dest_mem_targets hx⟩
      obtain rfl := (hc.mem_predecessors hg).1 hlast
      obtain rfl :=
        chain_unique hg hchain hmem (hwithin.subset (by simp)) List.getLastD_mem_cons
      exact hlane.dest_not_mem hnd hlast (mem_of_consecutive hwithin)

/-- Merging chains leaves a graph on which nothing merges. -/
theorem mergeChains_spent (hg : Graph.Sound g) {iteration : Nat} {changed : Bool}
    (hrun : Pass.mergeChains.run iteration g = ⟨g₁, .ok changed⟩) : g₁.Spent := by
  obtain ⟨hchains, -⟩ := chains_cases hg
  rcases mergedChains_cases hchains with h | ⟨rs, h, hsub, hrs⟩
  · simp [Pass.mergeChains, h, Outcome.ofEdits, Outcome.failed] at hrun
  have hmem : ∀ r ∈ rs, r.1 ∈ g.chains := fun r hr => hsub.subset (List.mem_map_of_mem hr)
  have hstart : g.Spending g rs := by
    refine ⟨hg, fun r hr => (barred_of_mem_chains hg (hmem r hr)).1,
      fun r hr => (barred_of_mem_chains hg (hmem r hr)).2, fun hc => ?_⟩
    obtain ⟨chain, hchain, hwithin⟩ := chains_complete hg hc
    rcases mem_mergedChains h hchain with ⟨row, hrow⟩ | hrefuses
    · exact .inr ⟨_, hrow, hwithin⟩
    · have hrow := List.IsChain.infix hrefuses (hc.consecutive_chainEdges hwithin)
      exact .inl hrow.rel
  obtain ⟨rs', h', -, hapart⟩ := (merged_cases hg).resolve_left (by simp [h])
  obtain rfl := Except.ok.inj (h.symm.trans h')
  obtain ⟨g₂, happly, hspent, -⟩ := applyAll_along (p := g.chainPatch) (V := g.StillChain)
    (I := fun rest g₁ => g.Spending g₁ rest) (R := fun _ _ => True) (fun h => h.sound)
    (fun {_ g₁ r} h hr => by
      obtain ⟨g₂, -, -, hcarried⟩ := hr.splice h.sound
      exact hcarried.region.entry)
    StillChain.gone_lt_size StillChain.keeps (fun {g₁ r rest} h hr => by
      obtain ⟨g₂, hsplice, hsound, hcarried⟩ := hr.splice h.sound
      exact ⟨g₂, hsplice, h.splice hr hsound hcarried, hcarried, trivial⟩) hstart hrs hapart
  obtain ⟨changed', hchanged⟩ := Outcome.ofEdits_eq_of_applyAll happly
  have hstate : Pass.mergeChains.run iteration g = ⟨g₂, .ok changed'⟩ := by
    rw [← hchanged]
    simp [Pass.mergeChains, h]
  obtain ⟨rfl, -⟩ := Outcome.mk.inj (hrun.symm.trans hstate)
  exact fun _ _ _ _ hc => (hspent.pairs hc).resolve_right (by simp)

end FlowGraph

end ScriptRecovery
