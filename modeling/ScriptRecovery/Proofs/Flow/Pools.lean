import ScriptRecovery.Flow.Pool
import ScriptRecovery.Proofs.Flow.Solving
import ScriptRecovery.Proofs.Graph.Paths

/-!
# Pools in force along paths

The states of pools form a semilattice that edges respect (`PoolState.join_laws`).  A state that
names pools of one graph climbs at most two steps more than there are pools (`PoolState.climbs`).
So the analysis settles, and what it says of a node holds on every path to it
(`PoolState.covers_of_path`): the last definition on the path is one of the pools of the state, and
nothing after it touches the pool.

There is one exception.  The state of a node is the join over its in-edges, and the boundary counts
only where there are none.  If an edge leads back to the entry, a path on which nothing touches the
pool is not covered.
-/

namespace ScriptRecovery

namespace PoolState

/-! ## The semilattice -/

theorem join_comm (s t : PoolState) : s.join t = t.join s := by
  cases s <;> cases t <;> simp only [join]
  exact congrArg oneOf (Ascending.ext_mem fun p => by simp [or_comm])

theorem join_assoc (s t u : PoolState) : (s.join t).join u = s.join (t.join u) := by
  cases s <;> cases t <;> cases u <;> simp only [join]
  exact congrArg oneOf (Ascending.ext_mem fun p => by simp [or_assoc])

theorem join_self (s : PoolState) : s.join s = s := by
  cases s <;> simp only [join]
  exact congrArg oneOf (Ascending.ext_mem fun p => by simp)

theorem uninitialized_join (s : PoolState) : uninitialized.join s = s := by
  cases s <;> rfl

theorem any_join (s : PoolState) : any.join s = any := by
  cases s <;> rfl

theorem isTop_iff {s : PoolState} : s.isTop = true ↔ s = any := by
  cases s <;> simp [isTop]

instance : Max PoolState := ⟨join⟩

instance : SemilatticeSup PoolState := SemilatticeSup.mk' join_comm join_assoc join_self

theorem le_iff_join {s t : PoolState} : s ≤ t ↔ s.join t = t := Iff.rfl

theorem uninitialized_le (s : PoolState) : uninitialized ≤ s := uninitialized_join s

theorem le_any (s : PoolState) : s ≤ any := (join_comm s any).trans (any_join s)

theorem oneOf_le_oneOf {ps qs : Ascending Pool} : oneOf ps ≤ oneOf qs ↔ ∀ p ∈ ps, p ∈ qs := by
  rw [le_iff_join, join, oneOf.injEq]
  constructor
  · intro h p hp
    rw [← h]
    simp [hp]
  · intro h
    refine Ascending.ext_mem fun p => ?_
    rw [Ascending.mem_union]
    exact ⟨fun hp => hp.elim (h p) id, .inr⟩

end PoolState

/-! ## Edges -/

/-- Whether an edge leaves the pool in force alone.  In the strict mode no action does. -/
def Edge.keepsPool (strict : Bool) : Edge → Bool
  | .action (.constantPool _) => false
  | .action _ => !strict
  | .plain | .ifTrue | .ifFalse | .ifTest => true
  | .template _ | .conditional .. | .marker _ | .sub => false

namespace PoolState

section Transfer

variable {strict : Bool} {e : Edge} {s : PoolState}

/-- An edge that leaves the pool alone leaves the state alone. -/
theorem transfer_of_keepsPool (he : e.keepsPool strict) : transfer strict e s = s := by
  cases e with
  | action a => cases a <;> cases strict <;> first | rfl | cases he
  | plain | ifTrue | ifFalse | ifTest => rfl
  | template _ | conditional _ _ | marker _ | sub => cases he

/-- An edge that touches the pool defines one, or nothing is known after it. -/
theorem transfer_of_not_keepsPool (he : ¬ e.keepsPool strict) :
    (∃ pool, e = .action (.constantPool pool) ∧ ∀ s, transfer strict e s = defined pool) ∨
      ((∀ pool, e ≠ .action (.constantPool pool)) ∧ ∀ s, transfer strict e s = any) := by
  cases e with
  | action a =>
    cases a <;> cases strict <;>
      first
        | exact .inl ⟨_, rfl, fun _ => rfl⟩
        | exact .inr ⟨nofun, fun _ => rfl⟩
        | exact absurd rfl he
  | plain | ifTrue | ifFalse | ifTest => exact absurd rfl he
  | template _ | conditional _ _ | marker _ | sub => exact .inr ⟨nofun, fun _ => rfl⟩

end Transfer

/-- What an edge carries of a join is the join of what it carries. -/
theorem transfer_join (strict : Bool) (e : Edge) (s t : PoolState) :
    transfer strict e (s.join t) = (transfer strict e s).join (transfer strict e t) := by
  by_cases he : e.keepsPool strict
  · simp only [transfer_of_keepsPool he]
  · -- the same is carried of every state
    rcases transfer_of_not_keepsPool he with ⟨pool, -, htransfer⟩ | ⟨-, htransfer⟩ <;>
      simp only [htransfer, join_self]

theorem transfer_mono (strict : Bool) (e : Edge) : Monotone (transfer strict e) := by
  intro s t hst
  rw [le_iff_join] at hst ⊢
  rw [← transfer_join, hst]

/-- The states of pools are a join semilattice that edges respect.  A place that was not reached
adds nothing to a join, and nothing is known of a join with a place where nothing is known; no other
state absorbs all others.  A join of some states depends on which they are, and not on their order or
number.  What an edge carries of a join is the join of what it carries, so that a state below another
one is carried below it. -/
theorem join_laws :
    (∀ s t : PoolState, s.join t = t.join s) ∧
    (∀ s t u : PoolState, (s.join t).join u = s.join (t.join u)) ∧
    (∀ s : PoolState, s.join s = s) ∧
    (∀ s : PoolState, uninitialized.join s = s ∧ s.join uninitialized = s) ∧
    (∀ s : PoolState, any.join s = any ∧ s.join any = any) ∧
    (∀ s : PoolState, (s.isTop = true ↔ s = any) ∧ (s.isTop = true ↔ ∀ t, s.join t = s)) ∧
    ∀ strict : Bool,
      (∀ ss ts : List PoolState, ss ≠ [] → (∀ s, s ∈ ss ↔ s ∈ ts) →
        (analysis strict).joinAll ss = (analysis strict).joinAll ts) ∧
      (∀ (e : Edge) (s t : PoolState),
        transfer strict e (s.join t) = (transfer strict e s).join (transfer strict e t)) ∧
      ∀ (e : Edge) (s t : PoolState), s.join t = t →
        (transfer strict e s).join (transfer strict e t) = transfer strict e t := by
  refine ⟨join_comm, join_assoc, join_self, fun s => ⟨uninitialized_join s, ?_⟩,
    fun s => ⟨any_join s, le_any s⟩, fun s => ⟨isTop_iff, ?_⟩, fun strict => ⟨?_, ?_, ?_⟩⟩
  · rw [join_comm, uninitialized_join]
  · rw [isTop_iff]
    constructor
    · rintro rfl t
      exact any_join t
    · intro habsorbs
      rw [← habsorbs any]
      exact le_any s
  · exact fun ss ts hne hmem => Analysis.joinAll_congr (fun _ _ => rfl) hne hmem
  · exact transfer_join strict
  · exact fun e s t hst => transfer_mono strict e hst

/-- Two pools in another order, one of them twice, and an edge that keeps them. -/
theorem join_laws_repeated :
    let a : PoolState := defined ["a"]
    let b : PoolState := defined ["b"]
    let both : PoolState := oneOf (.ofList [["a"], ["b"]])
    ([a, b, a] ≠ [] ∧ ∀ s, s ∈ [a, b, a] ↔ s ∈ [b, a]) ∧
      (analysis true).joinAll [a, b, a] = (analysis true).joinAll [b, a] ∧
      (analysis true).joinAll [b, a] = both ∧
      a.join both = both ∧
      (transfer true .ifTest a).join (transfer true .ifTest both) = transfer true .ifTest both := by
  intro a b both
  have hmem : ∀ s, s ∈ [a, b, a] ↔ s ∈ [b, a] := by
    simp only [List.mem_cons, List.not_mem_nil, or_false]
    grind
  have hboth : a.join both = both := by cbv
  obtain ⟨-, -, -, -, -, -, h⟩ := join_laws
  exact ⟨⟨by simp, hmem⟩, (h true).1 _ _ (by simp) hmem, by cbv, hboth, (h true).2.2 _ _ _ hboth⟩

/-- The state after edges in a row. -/
def after (strict : Bool) (es : List Edge) (s : PoolState) : PoolState :=
  es.foldl (fun s e => transfer strict e s) s

theorem after_snoc {strict : Bool} {es : List Edge} {e : Edge} {s : PoolState} :
    after strict (es ++ [e]) s = transfer strict e (after strict es s) := by
  simp [after]

theorem after_mono {strict : Bool} {es : List Edge} : Monotone (after strict es) := by
  induction es with
  | nil => exact monotone_id
  | cons e es ih => exact ih.comp (transfer_mono strict e)

/-! ## Climbing -/

/-- Whether a state names pools of a list only. -/
def Names (pools : List Pool) : PoolState → Prop
  | oneOf ps => ∀ p ∈ ps, p ∈ pools
  | any | uninitialized => True

/-- How often a state rose that names pools of a list of some length. -/
def rank (length : Nat) : PoolState → Nat
  | uninitialized => 0
  | oneOf ps => ps.size + 1
  | any => length + 2

theorem size_le_of_subset {ps : Ascending Pool} {pools : List Pool} (h : ∀ p ∈ ps, p ∈ pools) :
    ps.size ≤ pools.length :=
  (List.subperm_of_subset ps.nodup_toList h).length_le

theorem rank_le {pools : List Pool} {s : PoolState} (hs : s.Names pools) :
    s.rank pools.length ≤ pools.length + 2 := by
  cases s with
  | any | uninitialized => simp [rank]
  | oneOf ps =>
    have := size_le_of_subset hs
    simp only [rank]
    omega

theorem rank_lt {pools : List Pool} {s t : PoolState} (hs : s.Names pools) (hst : s < t) :
    s.rank pools.length < t.rank pools.length := by
  cases s with
  | any => exact absurd (le_any t) (not_le_of_gt hst)
  | uninitialized =>
    cases t with
    | uninitialized => exact absurd rfl hst.ne
    | any | oneOf _ => simp [rank]
  | oneOf ps =>
    have hsize := size_le_of_subset hs
    cases t with
    | uninitialized => exact absurd (uninitialized_le _) (not_le_of_gt hst)
    | any =>
      simp only [rank]
      omega
    | oneOf qs =>
      have hsub := oneOf_le_oneOf.1 hst.le
      have hle : ps.size ≤ qs.size := size_le_of_subset hsub
      -- a set that is not smaller has the same members
      by_contra hrank
      simp only [rank] at hrank
      refine hst.ne (congrArg oneOf (Ascending.ext_mem fun p => ⟨hsub p, fun hp => ?_⟩))
      have hperm := (List.subperm_of_subset ps.nodup_toList hsub).perm_of_length_le
        (show qs.size ≤ ps.size by omega)
      exact hperm.mem_iff.2 hp

/-- The states of a graph climb to where the analysis settles. -/
theorem climbs (g : FlowGraph) (strict : Bool) :
    (analysis strict).Climbs g (g.list .reversePostorder) (Names g.pools) (rank g.pools.length)
      (g.pools.length + 2) where
  join_eq _ _ := rfl
  initial_le := uninitialized_le
  transfer_mono := transfer_mono strict
  fits_initial := trivial
  fits_boundary := trivial
  fits_sup {s t} hs ht := by
    change (s.join t).Names g.pools
    cases s <;> cases t <;> simp only [join] <;> first | trivial | assumption | skip
    intro p hp
    rcases Ascending.mem_union.1 hp with hp | hp
    · exact hs p hp
    · exact ht p hp
  fits_transfer {n e s} he hsource hs := by
    change (transfer strict e.edge s).Names g.pools
    by_cases hkeep : e.edge.keepsPool strict
    · rwa [transfer_of_keepsPool hkeep]
    · rcases transfer_of_not_keepsPool hkeep with ⟨pool, hpool, htransfer⟩ | ⟨-, htransfer⟩ <;>
        rw [htransfer]
      · intro p hp
        obtain rfl := Ascending.mem_singleton.1 hp
        have hedge : e ∈ Graph.edges g :=
          List.mem_flatMap.2 ⟨_, hsource, (Graph.mem_inEdges.1 he).2.1⟩
        exact List.mem_filterMap.2 ⟨e, hedge, by rw [hpool]⟩
      · trivial
  rank_lt hs _ := rank_lt hs
  rank_le := rank_le

end PoolState

/-! ## Paths -/

/-- Whether a pool is in force after some edges: it is the last one defined, and nothing after that
touches it. -/
def Pool.InForce (strict : Bool) (pool : Pool) (es : List Edge) : Prop :=
  ∃ pre post, es = pre ++ .action (.constantPool pool) :: post ∧ ∀ e ∈ post, e.keepsPool strict

namespace PoolState

/-- Whether a state is right after some edges. -/
def Covers (strict : Bool) (es : List Edge) : PoolState → Prop
  | any => True
  | uninitialized => False
  | oneOf pools => ∃ pool ∈ pools, Pool.InForce strict pool es

variable {strict : Bool} {es : List Edge} {s t : PoolState}

theorem Covers.mono (h : s.Covers strict es) (hst : s ≤ t) : t.Covers strict es := by
  cases t with
  | any => trivial
  | uninitialized =>
    obtain rfl : s = uninitialized := le_antisymm hst (uninitialized_le s)
    exact h
  | oneOf qs =>
    cases s with
    | any => cases le_iff_join.1 hst
    | uninitialized => exact h.elim
    | oneOf ps =>
      obtain ⟨pool, hpool, hforce⟩ := h
      exact ⟨pool, oneOf_le_oneOf.1 hst pool hpool, hforce⟩

theorem covers_transfer (e : Edge) (h : e.keepsPool strict → s.Covers strict es) :
    (transfer strict e s).Covers strict (es ++ [e]) := by
  by_cases he : e.keepsPool strict
  · rw [transfer_of_keepsPool he]
    have hs := h he
    cases s with
    | any => trivial
    | uninitialized => exact hs
    | oneOf pools =>
      obtain ⟨pool, hpool, pre, post, rfl, hpost⟩ := hs
      refine ⟨pool, hpool, pre, post ++ [e], by simp, fun e' he' => ?_⟩
      rcases List.mem_append.1 he' with he' | he'
      · exact hpost e' he'
      · exact List.mem_singleton.1 he' ▸ he
  · rcases transfer_of_not_keepsPool he with ⟨pool, rfl, htransfer⟩ | ⟨-, htransfer⟩ <;>
      rw [htransfer]
    · exact ⟨pool, by simp, es, [], rfl, by simp⟩
    · trivial

/-- The states that the analysis ends with: what an edge carries is below the state of the node it
leads to, and nothing is known at an entry that no edge leads to. -/
theorem exists_states {g : FlowGraph} (hg : Graph.Sound g) (strict : Bool) :
    ∃ st : Nat → PoolState, (∀ n, g.Reachable n → (g.poolStates strict).state? n = some (st n)) ∧
      (∀ e : BoundEdge Edge, g.Reachable e.source → e ∈ g.outEdges e.source →
        transfer strict e.edge (st e.source) ≤ st e.dest) ∧
      (g.inEdges g.source = [] → st g.source = any) := by
  have hclimbs := climbs g strict
  obtain ⟨htable, hsettled⟩ := hclimbs.solveIn fun n hn => (Graph.mem_list.1 hn).lt_size
  have hstate : ∀ n, g.Reachable n → (g.poolStates strict).state? n =
      some ((analysis strict).incoming g (g.poolStates strict).states n) := fun n hn =>
    congrArg Option.join (hsettled n (Graph.mem_list.2 hn))
  refine ⟨_, hstate, fun e hreach he => ?_, fun hin => ?_⟩
  · refine Analysis.le_joinAll hclimbs.join_eq (List.mem_filterMap.2
      ⟨e, hg.mem_inEdges_of_reachable hreach he, ?_⟩)
    exact congrArg (Option.map _) (hstate _ hreach)
  · simp only [Analysis.incoming, hin]
    rfl

/-- The states that the analysis ends with are right on every path, but for paths on which nothing
touches the pool when an edge leads back to the entry. -/
theorem covers_of_path {g : FlowGraph} (hg : Graph.Sound g) (strict : Bool) {n : Nat}
    (hpath : Graph.Path g es n) : ∃ s, (g.poolStates strict).state? n = some s ∧
      (s.Covers strict es ∨
        (∃ m, g.Reachable m ∧ g.source ∈ g.targets m) ∧ ∀ e ∈ es, e.keepsPool strict) := by
  obtain ⟨st, hstate, hle, hentry⟩ := exists_states hg strict
  refine ⟨_, hstate n (hpath.reachable hg), ?_⟩
  induction hpath with
  | nil =>
    cases hin : g.inEdges g.source with
    | nil =>
      left
      rw [hentry hin]
      trivial
    | cons e es =>
      have he : e ∈ g.inEdges g.source := hin ▸ List.mem_cons_self
      exact .inr ⟨⟨e.source, hg.index.1 (Graph.mem_inEdges.1 he).1⟩, by simp⟩
  | @snoc es e hpath he ih =>
    have hcarried := hle e (hpath.reachable hg) he
    rcases ih with ih | ⟨hback, hkeeps⟩
    · exact .inl ((covers_transfer e.edge fun _ => ih).mono hcarried)
    · by_cases hkeep : e.edge.keepsPool strict
      · refine .inr ⟨hback, fun e' he' => ?_⟩
        rcases List.mem_append.1 he' with he' | he'
        · exact hkeeps e' he'
        · exact List.mem_singleton.1 he' ▸ hkeep
      · exact .inl ((covers_transfer e.edge fun h => absurd h hkeep).mono hcarried)

theorem single?_eq_some {pool : Pool} (h : s.single? = some pool) :
    ∃ pools, s = oneOf pools ∧ ∀ p ∈ pools, p = pool := by
  cases s with
  | any | uninitialized => cases h
  | oneOf pools =>
    simp only [single?, Ascending.single?] at h
    split at h
    · next hq =>
      cases h
      exact ⟨pools, rfl, fun p hp => by simpa [Ascending.mem_def, hq] using hp⟩
    · cases h

/-- A state with one pool that is right says which pool is in force. -/
theorem Covers.inForce {pool : Pool} (h : s.Covers strict es) (hs : s.single? = some pool) :
    Pool.InForce strict pool es := by
  obtain ⟨pools, rfl, hall⟩ := single?_eq_some hs
  obtain ⟨p, hp, hforce⟩ := h
  exact hall p hp ▸ hforce

end PoolState

end ScriptRecovery
