import ScriptRecovery.Proofs.Flow.Pools

/-!
# The least solution of an analysis

An assignment of states solves an analysis (`Analysis.Solves`) when the state of every reachable
node is the least one above what its in-edges from reachable nodes carry to it, or that of the
boundary if there is no such edge.  This speaks of the order of the states and of the edges of the
graph only, neither of the index nor of how states are joined.

The solver repeats its passes until one changes nothing (`Analysis.Passes`), and its fuel is never
what ends them.  The states it ends with solve the analysis, since no visit would change one.  They
are the least ones that do: whatever solves the analysis is above the initial states, and stays
above the states of the table when one of them is replaced by what is carried to its node.  The
least assignment does not depend on the order of the visits, so neither do the states.

In the order of the states of pools a place that was not reached is below all sets of pools, these
are ordered by inclusion, and below all is that nothing is known (`PoolState.le_iff`).
-/

namespace ScriptRecovery

namespace Analysis

variable {σ : Type} {a : Analysis σ} {g : FlowGraph} {order : List Nat}

/-! ## Passes without a bound -/

/-- Passes over some states that end with the first one that changes nothing, by their number and
the states at the end. -/
inductive Passes [DecidableEq σ] (a : Analysis σ) (g : FlowGraph) (order : List Nat) :
    Array (Option σ) → Nat → Array (Option σ) → Prop
  | last {states final : Array (Option σ)} : a.pass g order states = (final, false) →
      Passes a g order states 1 final
  | more {states states' final : Array (Option σ)} {passes : Nat} :
      a.pass g order states = (states', true) → Passes a g order states' passes final →
      Passes a g order states (passes + 1) final

/-! ## Solutions -/

/-- What the edges from reachable nodes carry to a node. -/
def carried (a : Analysis σ) (g : FlowGraph) (st : Nat → σ) (n : Nat) : Set σ :=
  {s | ∃ e : BoundEdge Edge, g.Reachable e.source ∧ e ∈ g.outEdges e.source ∧ e.dest = n ∧
    s = a.transfer e.edge (st e.source)}

/-- States that agree with what is carried to their nodes, at every reachable node. -/
structure Solves [Preorder σ] (a : Analysis σ) (g : FlowGraph) (st : Nat → σ) : Prop where
  /-- A state is the join of what is carried to its node. -/
  isLUB : ∀ {n}, g.Reachable n → (a.carried g st n).Nonempty → IsLUB (a.carried g st n) (st n)
  /-- A node that nothing is carried to has the state of the boundary. -/
  boundary : ∀ {n}, g.Reachable n → a.carried g st n = ∅ → st n = a.boundary

variable [SemilatticeSup σ] {fits : σ → Prop} {rank : σ → Nat} {height : Nat}
  {states : Array (Option σ)} {st : Nat → σ}

/-- States climb in any order with the same nodes. -/
theorem Climbs.congr {order' : List Nat} (h : a.Climbs g order fits rank height)
    (hmem : ∀ n, n ∈ order' → n ∈ order) : a.Climbs g order' fits rank height where
  join_eq := h.join_eq
  initial_le := h.initial_le
  transfer_mono := h.transfer_mono
  fits_initial := h.fits_initial
  fits_boundary := h.fits_boundary
  fits_sup := h.fits_sup
  fits_transfer he hsource := h.fits_transfer he (hmem _ hsource)
  rank_lt := h.rank_lt
  rank_le := h.rank_le

omit [SemilatticeSup σ] in
theorem incoming_eq_boundary {n : Nat}
    (h : ((g.inEdges n).filterMap fun e => states[e.source]?.join.map (a.transfer e.edge)) = []) :
    a.incoming g states n = a.boundary := by
  rw [incoming, h]
  rfl

omit [SemilatticeSup σ] in
/-- What is carried to a node, read off a table of states. -/
theorem mem_carried (hg : Graph.Sound g)
    (hstate : ∀ n, g.Reachable n → states[n]?.join = some (st n))
    (hnone : ∀ n, ¬ g.Reachable n → states[n]?.join = none) {n : Nat} {s : σ} :
    s ∈ a.carried g st n ↔
      s ∈ (g.inEdges n).filterMap fun e => states[e.source]?.join.map (a.transfer e.edge) := by
  rw [List.mem_filterMap]
  constructor
  · rintro ⟨e, hreach, he, rfl, rfl⟩
    exact ⟨e, hg.mem_inEdges_of_reachable hreach he, by rw [hstate _ hreach]; rfl⟩
  · rintro ⟨e, he, hs⟩
    obtain ⟨t, ht, rfl⟩ := Option.map_eq_some_iff.1 hs
    have hreach : g.Reachable e.source := by
      by_contra hout
      simp [hnone _ hout] at ht
    obtain rfl : st e.source = t := by simpa [hstate _ hreach] using ht
    obtain ⟨-, hout, hdest⟩ := Graph.mem_inEdges.1 he
    exact ⟨e, hreach, hout, hdest, rfl⟩

/-- The states of a table that no visit would change solve the analysis. -/
theorem solves_of_settled (h : a.Climbs g order fits rank height) (hg : Graph.Sound g)
    (hstate : ∀ n, g.Reachable n → states[n]?.join = some (st n))
    (hnone : ∀ n, ¬ g.Reachable n → states[n]?.join = none)
    (hsettled : ∀ n, g.Reachable n → a.Settled g states n) : a.Solves g st := by
  have hincoming : ∀ n, g.Reachable n → st n = a.incoming g states n := fun n hn =>
    Option.some.inj ((hstate n hn).symm.trans (congrArg Option.join (hsettled n hn)))
  have hmem := fun n s => mem_carried (a := a) hg hstate hnone (n := n) (s := s)
  refine ⟨fun {n} hn hne => ?_, fun {n} hn hempty => ?_⟩
  · rw [hincoming n hn, Set.ext (hmem n)]
    obtain ⟨s, hs⟩ := hne
    exact isLUB_joinAll h.join_eq (List.ne_nil_of_mem ((hmem n s).1 hs))
  · rw [hincoming n hn]
    refine incoming_eq_boundary (List.eq_nil_iff_forall_not_mem.2 fun s hs => ?_)
    exact Set.eq_empty_iff_forall_notMem.1 hempty s ((hmem n s).2 hs)

/-- While the states of a table are below a solution, so is what they carry to a node. -/
theorem Table.incoming_le_of_solves (h : a.Climbs g order fits rank height) (hg : Graph.Sound g)
    (horder : ∀ n, n ∈ order ↔ g.Reachable n) (htable : a.Table g order fits states)
    (hst : a.Solves g st) {n : Nat} (hn : n ∈ order)
    (hle : ∀ (m : Nat) (s : σ), states[m]?.join = some s → s ≤ st m) :
    a.incoming g states n ≤ st n := by
  have hreach := (horder n).1 hn
  have hcarried : ∀ e ∈ g.inEdges n, a.transfer e.edge (st e.source) ∈ a.carried g st n := by
    intro e he
    obtain ⟨hsource, hout, hdest⟩ := Graph.mem_inEdges.1 he
    exact ⟨e, (hg.index.1 hsource).1, hout, hdest, rfl⟩
  rcases (a.carried g st n).eq_empty_or_nonempty with hempty | hne
  · rw [hst.boundary hreach hempty]
    refine (incoming_eq_boundary (List.eq_nil_iff_forall_not_mem.2 fun u hu => ?_)).le
    obtain ⟨e, he, -⟩ := List.mem_filterMap.1 hu
    exact Set.eq_empty_iff_forall_notMem.1 hempty _ (hcarried e he)
  · refine joinAll_le h.join_eq (fun hnil => ?_) fun u hu => ?_
    · -- the table has a state for every reachable node, so the edge is not passed over
      obtain ⟨u, e, hsource, hout, rfl, -⟩ := hne
      obtain ⟨v, hv, -⟩ := htable.visited _ ((horder _).2 hsource)
      refine List.eq_nil_iff_forall_not_mem.1 hnil (a.transfer e.edge v) ?_
      exact List.mem_filterMap.2
        ⟨e, hg.mem_inEdges_of_reachable hsource hout, by rw [hv]; rfl⟩
    · obtain ⟨e, he, hstate⟩ := List.mem_filterMap.1 hu
      obtain ⟨v, hv, rfl⟩ := Option.map_eq_some_iff.1 hstate
      calc a.transfer e.edge v ≤ a.transfer e.edge (st e.source) :=
            h.transfer_mono e.edge (hle _ _ hv)
        _ ≤ st n := (hst.isLUB hreach hne).1 (hcarried e he)

/-! ## Runs of the solver -/

variable [DecidableEq σ]

/-- What holds at the start and stays when the state of a node is replaced by what is carried to it
holds of the states at the end. -/
theorem Climbs.solveIn_induction (h : a.Climbs g order fits rank height)
    (hlt : ∀ n ∈ order, n < g.size) {p : Array (Option σ) → Prop}
    (hstart : p (a.start g.size order))
    (hraise : ∀ {states : Array (Option σ)} {n : Nat}, n ∈ order →
      a.Table g order fits states → p states →
      p (states.setIfInBounds n (some (a.incoming g states n)))) :
    p (a.solveIn g height order).states := by
  have hvisit : ∀ acc : Array (Option σ) × Bool, a.Table g order fits acc.1 ∧ p acc.1 →
      ∀ n ∈ order, a.Table g order fits (a.visit g acc n).1 ∧ p (a.visit g acc n).1 := by
    intro acc hacc n hn
    by_cases hsettled : a.Settled g acc.1 n
    · rwa [show a.visit g acc n = acc from if_pos hsettled]
    · rw [show a.visit g acc n = (acc.1.setIfInBounds n (some (a.incoming g acc.1 n)), true)
        from if_neg hsettled]
      exact ⟨hacc.1.raise h hn, hraise hn hacc.1 hacc.2⟩
  have hpass : ∀ states, a.Table g order fits states ∧ p states →
      a.Table g order fits (a.pass g order states).1 ∧ p (a.pass g order states).1 :=
    fun states hstates => List.foldlRecOn order (a.visit g) (b := (states, false)) hstates hvisit
  have hiterate : ∀ (fuel passes : Nat) (states), a.Table g order fits states ∧ p states →
      p (a.iterate g order states passes fuel).states := by
    intro fuel
    induction fuel with
    | zero => exact fun _ _ hstates => hstates.2
    | succ fuel ih =>
      intro passes states hstates
      have hnext := hpass states hstates
      unfold Analysis.iterate
      split
      · next states' heq => exact ih _ _ (by rwa [heq] at hnext)
      · next states' heq =>
        rw [heq] at hnext
        exact hnext.2
  exact hiterate _ _ _ ⟨h.table_start hlt, hstart⟩

/-- What holds of the initial state at every node, and of what is carried to a node while it holds
of all states, holds of the states at the end. -/
theorem Climbs.solveIn_forall (h : a.Climbs g order fits rank height)
    (hlt : ∀ n ∈ order, n < g.size) {p : Nat → σ → Prop} (hinitial : ∀ n, p n a.initial)
    (hincoming : ∀ {states : Array (Option σ)} {n : Nat}, n ∈ order →
      a.Table g order fits states → (∀ (m : Nat) (s : σ), states[m]?.join = some s → p m s) →
      p n (a.incoming g states n))
    {n : Nat} {s : σ} (hs : (a.solveIn g height order).state? n = some s) : p n s := by
  refine h.solveIn_induction hlt
    (p := fun states => ∀ (n : Nat) (s : σ), states[n]?.join = some s → p n s)
    (fun n s hs => ?_) (fun {states m} hm htable hall n s hs => ?_) n s hs
  · rw [getElem?_start hlt] at hs
    split at hs
    · exact Option.some.inj hs ▸ hinitial n
    · cases hs
  · by_cases hmn : m = n
    · subst hmn
      obtain ⟨t, ht, -⟩ := htable.visited m hm
      obtain ⟨hsize, -⟩ := Array.getElem?_eq_some_iff.1 ht
      rw [Array.getElem?_setIfInBounds_self_of_lt hsize, Option.join_some] at hs
      exact Option.some.inj hs ▸ hincoming hm htable hall
    · rw [Array.getElem?_setIfInBounds_ne hmn] at hs
      exact hall n s hs

/-- With enough fuel the passes end with one that changes nothing. -/
theorem Table.passes (h : a.Climbs g order fits rank height) {states : Array (Option σ)}
    (ht : a.Table g order fits states) {fuel : Nat}
    (hfuel : order.length * height < climbed rank order states + fuel) (done : Nat) :
    ∃ passes ≤ fuel, (a.iterate g order states done fuel).passes = done + passes ∧
      a.Passes g order states passes (a.iterate g order states done fuel).states := by
  induction fuel generalizing states done with
  | zero => exact absurd (ht.climbed_le h) (Nat.not_le.2 hfuel)
  | succ fuel ih =>
    unfold Analysis.iterate
    rcases ht.visits h (fun n hn => hn) false with ⟨hpass, -⟩ | ⟨states', hpass, ht', hlt⟩
    · rw [show a.pass g order states = (states, false) from hpass]
      exact ⟨1, by omega, rfl, .last hpass⟩
    · rw [show a.pass g order states = (states', true) from hpass]
      obtain ⟨passes, hle, hcount, hpasses⟩ := ih ht' (by omega) (done + 1)
      exact ⟨passes + 1, by omega, by simp only [hcount]; omega, .more hpass hpasses⟩

/-- The solver ends with a pass that changes nothing, not with its fuel. -/
theorem Climbs.passes_solveIn (h : a.Climbs g order fits rank height)
    (hlt : ∀ n ∈ order, n < g.size) :
    a.Passes g order (a.start g.size order) (a.solveIn g height order).passes
      (a.solveIn g height order).states := by
  have hfuel : order.length * height <
      climbed rank order (a.start g.size order) + (order.length * height + 1) := by omega
  obtain ⟨passes, -, hcount, hpasses⟩ := (h.table_start hlt).passes h hfuel 0
  rw [Nat.zero_add] at hcount
  exact hcount ▸ hpasses

/-- Whatever solves the analysis is above the states of the solver. -/
theorem Climbs.le_of_solves (h : a.Climbs g order fits rank height) (hg : Graph.Sound g)
    (horder : ∀ n, n ∈ order ↔ g.Reachable n) (hst : a.Solves g st) {n : Nat} {s : σ}
    (hs : (a.solveIn g height order).state? n = some s) : s ≤ st n :=
  h.solveIn_forall (fun n hn => ((horder n).1 hn).lt_size) (p := fun n s => s ≤ st n)
    (fun n => h.initial_le (st n))
    (fun hn htable hle => htable.incoming_le_of_solves h hg horder hst hn hle) hs

/-- The states of the solver are the least that solve the analysis. -/
theorem Climbs.exists_least (h : a.Climbs g order fits rank height) (hg : Graph.Sound g)
    (horder : ∀ n, n ∈ order ↔ g.Reachable n) :
    ∃ st, (∀ n, g.Reachable n → (a.solveIn g height order).state? n = some (st n)) ∧
      a.Solves g st ∧ ∀ st', a.Solves g st' → ∀ n, g.Reachable n → st n ≤ st' n := by
  obtain ⟨htable, hsettled⟩ := h.solveIn fun n hn => ((horder n).1 hn).lt_size
  have hstate : ∀ n, g.Reachable n → (a.solveIn g height order).state? n =
      some (a.incoming g (a.solveIn g height order).states n) := fun n hn =>
    congrArg Option.join (hsettled n ((horder n).2 hn))
  refine ⟨_, hstate, ?_, fun st' hst' n hn => h.le_of_solves hg horder hst' (hstate n hn)⟩
  exact solves_of_settled h hg hstate (fun n hn => htable.others n (hn ∘ (horder n).1))
    fun n hn => hsettled n ((horder n).2 hn)

/-- The states at the end do not depend on the order of the visits. -/
theorem Climbs.states_eq (h : a.Climbs g order fits rank height) {order' : List Nat}
    (h' : a.Climbs g order' fits rank height) (hg : Graph.Sound g)
    (horder : ∀ n, n ∈ order ↔ g.Reachable n) (horder' : ∀ n, n ∈ order' ↔ g.Reachable n) :
    (a.solveIn g height order').states = (a.solveIn g height order).states := by
  have hsize : ∀ {order : List Nat}, a.Climbs g order fits rank height →
      (∀ n, n ∈ order ↔ g.Reachable n) → (a.solveIn g height order).states.size = g.size :=
    fun h horder => h.solveIn_induction (p := fun states => states.size = g.size)
      (fun n hn => ((horder n).1 hn).lt_size) (by rw [size_start]) fun _ _ hsize => by simpa
  obtain ⟨st, hstate, hsolves, hleast⟩ := h.exists_least hg horder
  obtain ⟨st', hstate', hsolves', hleast'⟩ := h'.exists_least hg horder'
  obtain ⟨htable, -⟩ := h.solveIn fun n hn => ((horder n).1 hn).lt_size
  obtain ⟨htable', -⟩ := h'.solveIn fun n hn => ((horder' n).1 hn).lt_size
  have hjoin : ∀ n : Nat, (a.solveIn g height order').states[n]?.join =
      (a.solveIn g height order).states[n]?.join := by
    intro n
    by_cases hn : g.Reachable n
    · have heq : st' n = st n :=
        le_antisymm (hleast' st hsolves n hn) (hleast st' hsolves' n hn)
      exact (hstate' n hn).trans ((congrArg some heq).trans (hstate n hn).symm)
    · rw [htable.others n (hn ∘ (horder n).1), htable'.others n (hn ∘ (horder' n).1)]
  refine Array.ext ((hsize h' horder').trans (hsize h horder).symm) fun n hn hn' => ?_
  simpa [hn, hn'] using hjoin n

/-! ## Counts -/

/-- Counts climb no higher than the cap and the number at the boundary. -/
theorem climbs_counting (g : FlowGraph) (counts : Edge → Bool) (cap boundary : Nat)
    (order : List Nat) :
    (counting counts cap boundary).Climbs g order (· ≤ max cap boundary) id (max cap boundary) where
  join_eq _ _ := rfl
  initial_le := Nat.zero_le
  transfer_mono e m n hmn := by
    simp only [counting]
    split
    · omega
    · exact hmn
  fits_initial := Nat.zero_le _
  fits_boundary := Nat.le_max_right _ _
  fits_sup := Nat.max_le_of_le_of_le
  fits_transfer {n e m} _ _ hm := by
    simp only [counting]
    split
    · exact Nat.le_trans (Nat.min_le_right _ _) (Nat.le_max_left _ _)
    · exact hm
  rank_lt _ _ := id
  rank_le := id

/-- The counts of a sound graph are the least that add up along its edges. -/
theorem counts_least (hg : Graph.Sound g) (counts : Edge → Bool) (cap boundary : Nat) :
    ∃ st, (∀ n, g.Reachable n → (g.counts counts cap boundary).state? n = some (st n)) ∧
      (counting counts cap boundary).Solves g st ∧
      ∀ st', (counting counts cap boundary).Solves g st' → ∀ n, g.Reachable n → st n ≤ st' n :=
  (climbs_counting g counts cap boundary _).exists_least hg fun _ => Graph.mem_list

end Analysis

/-! ## Constant pools -/

namespace PoolState

/-- The order of the states. -/
theorem le_iff {s t : PoolState} : s ≤ t ↔ s = uninitialized ∨ t = any ∨
    ∃ ps qs, s = oneOf ps ∧ t = oneOf qs ∧ ∀ p ∈ ps, p ∈ qs := by
  constructor
  · intro hle
    cases s with
    | uninitialized => exact .inl rfl
    | any => exact .inr (.inl (le_antisymm (le_any t) hle))
    | oneOf ps =>
      cases t with
      | any => exact .inr (.inl rfl)
      | uninitialized => cases le_iff_join.1 hle
      | oneOf qs => exact .inr (.inr ⟨ps, qs, rfl, rfl, oneOf_le_oneOf.1 hle⟩)
  · rintro (rfl | rfl | ⟨ps, qs, rfl, rfl, hsub⟩)
    · exact uninitialized_le t
    · exact le_any s
    · exact oneOf_le_oneOf.2 hsub

/-- The states of a graph climb in any order of its reachable nodes. -/
theorem climbs_in (g : FlowGraph) (strict : Bool) {order : List Nat}
    (horder : ∀ n, n ∈ order ↔ g.Reachable n) :
    (analysis strict).Climbs g order (Names g.pools) (rank g.pools.length)
      (g.pools.length + 2) :=
  (climbs g strict).congr fun n hn => Graph.mem_list.2 ((horder n).1 hn)

end PoolState

namespace FlowGraph

/-- The analysis of constant pools ends by itself, in any order of the reachable nodes.  It gives
no state to other nodes, and the states it gives are the least that solve it.  They are the same in
every order; only the number of passes may not be. -/
theorem poolStates_least {nodes : Array (Node Edge)} {source : Nat} {g : FlowGraph}
    (h : Graph.ofNodes nodes source = .ok g) (strict : Bool) :
    (∀ s t : PoolState, s ≤ t ↔ s = .uninitialized ∨ t = .any ∨
      ∃ ps qs, s = .oneOf ps ∧ t = .oneOf qs ∧ ∀ p ∈ ps, p ∈ qs) ∧
    (∀ n, ¬ g.Reachable n → (g.poolStates strict).state? n = none) ∧
    (∃ st, (∀ n, g.Reachable n → (g.poolStates strict).state? n = some (st n)) ∧
      (PoolState.analysis strict).Solves g st ∧
      ∀ st', (PoolState.analysis strict).Solves g st' → ∀ n, g.Reachable n → st n ≤ st' n) ∧
    (PoolState.analysis strict).Passes g (g.list .reversePostorder)
      ((PoolState.analysis strict).start g.size (g.list .reversePostorder))
      (g.poolStates strict).passes (g.poolStates strict).states ∧
    ∀ order : List Nat, order.Perm (g.list .reversePostorder) →
      ∃ passes, (PoolState.analysis strict).Passes g order
        ((PoolState.analysis strict).start g.size order) passes (g.poolStates strict).states := by
  have hg := (Graph.sound_of_ofNodes h).1
  have hlist : ∀ n, n ∈ g.list .reversePostorder ↔ g.Reachable n := fun n => Graph.mem_list
  have hclimbs := PoolState.climbs g strict
  have hpasses : ∀ {order : List Nat}, (∀ n, n ∈ order ↔ g.Reachable n) → _ := fun horder =>
    (PoolState.climbs_in g strict horder).passes_solveIn fun n hn => ((horder n).1 hn).lt_size
  obtain ⟨htable, -⟩ := hclimbs.solveIn fun n hn => ((hlist n).1 hn).lt_size
  refine ⟨fun _ _ => PoolState.le_iff, fun n hn => htable.others n (hn ∘ (hlist n).1),
    hclimbs.exists_least hg hlist, hpasses hlist, fun order hperm => ?_⟩
  have horder : ∀ n, n ∈ order ↔ g.Reachable n := fun n => hperm.mem_iff.trans (hlist n)
  have heq : ((PoolState.analysis strict).solveIn g (g.pools.length + 2) order).states =
      (g.poolStates strict).states :=
    hclimbs.states_eq (PoolState.climbs_in g strict horder) hg hlist horder
  exact ⟨_, heq ▸ hpasses horder⟩

/-- Both arms of a test lead back to the entry, and one of them defines a pool.  An edge leads to
the entry, so the boundary does not count there and the least state names that pool only.  In
reverse postorder this takes two passes, and in another order three. -/
theorem poolStates_least_loop :
    let nodes : Array (Node Edge) := #[.branch ⟨.ifTrue, 1⟩ ⟨.ifFalse, 2⟩,
      .simple ⟨.action (.constantPool ["a"]), 0⟩, .simple ⟨.plain, 0⟩, .pending]
    let g : FlowGraph := Graph.indexed nodes 0
    Graph.ofNodes nodes 0 = .ok g ∧ (g.poolStates false).passes = 2 ∧
      (g.poolStates false).state? 0 = some (.defined ["a"]) ∧
      (g.poolStates false).state? 3 = none ∧
      ((PoolState.analysis false).solveIn g 3 [2, 0, 1]).passes = 3 ∧
      ∃ passes, (PoolState.analysis false).Passes g [2, 0, 1]
        ((PoolState.analysis false).start 4 [2, 0, 1]) passes (g.poolStates false).states := by
  intro nodes g
  have h : Graph.ofNodes nodes 0 = .ok (Graph.indexed nodes 0) := by cbv
  have hlist : g.list .reversePostorder = [0, 2, 1] := by cbv
  obtain ⟨-, hnone, -, -, horder⟩ := poolStates_least h false
  refine ⟨h, by cbv, by cbv, hnone 3 fun hreach => ?_, by cbv,
    horder [2, 0, 1] (hlist ▸ by decide)⟩
  have := (@Graph.mem_list _ _ .reversePostorder _).2 hreach
  rw [hlist] at this
  exact absurd this (by decide)

end FlowGraph

end ScriptRecovery
