import Mathlib.Data.List.Induction
import ScriptRecovery.Proofs.Flow.Least

/-!
# Pool states are exact over paths

One path says that some pool is in force at its end or that nothing is known there
(`PoolState.answer`).  A state stands for several such answers (`PoolState.Allows`), and in a graph
whose entry no edge leads to, the analysis allows at a node exactly what the paths to it say
(`FlowGraph.poolStates_exact`).

Nothing is missing, because a state is above what each in-edge carries to its node.  Nothing is too
much, because every answer that a state of the table allows is that of a path: a join allows no more
than its parts do, and an edge either takes every answer of a state to one of the new state or gives
the same answer to all.  A node whose state is that of the boundary is the entry, where the empty
path says that nothing is known.
-/

namespace ScriptRecovery

namespace PoolState

variable {strict : Bool} {e : Edge} {es : List Edge} {pool : Pool} {s t u : PoolState}

/-! ## The answer of a path -/

/-- The state after some edges when nothing is known before them. -/
def answer (strict : Bool) (es : List Edge) : PoolState := after strict es any

theorem answer_snoc : answer strict (es ++ [e]) = transfer strict e (answer strict es) := after_snoc

theorem inForce_snoc : Pool.InForce strict pool (es ++ [e]) ↔
    e = .action (.constantPool pool) ∨ e.keepsPool strict ∧ Pool.InForce strict pool es := by
  constructor
  · rintro ⟨pre, post, heq, hpost⟩
    rcases post.eq_nil_or_concat' with rfl | ⟨post, e', rfl⟩
    · exact .inl (List.cons.inj (List.append_inj' heq rfl).2).1
    · rw [← List.cons_append, ← List.append_assoc] at heq
      obtain ⟨rfl, hlast⟩ := List.append_inj' heq rfl
      obtain rfl := (List.cons.inj hlast).1
      obtain ⟨hpost, he⟩ := List.forall_mem_append.1 hpost
      exact .inr ⟨he e (List.mem_singleton_self e), pre, post, rfl, hpost⟩
  · rintro (rfl | ⟨he, pre, post, rfl, hpost⟩)
    · exact ⟨es, [], rfl, by simp⟩
    · refine ⟨pre, post ++ [e], by simp, List.forall_mem_append.2 ⟨hpost, ?_⟩⟩
      simpa using he

/-- A pool is known after some edges when it is in force there. -/
theorem answer_eq_defined : answer strict es = defined pool ↔ Pool.InForce strict pool es := by
  induction es using List.reverseRecOn with
  | nil =>
    refine iff_of_false nofun ?_
    rintro ⟨pre, post, heq, -⟩
    simp at heq
  | append_singleton es e ih =>
    rw [answer_snoc, inForce_snoc]
    by_cases he : e.keepsPool strict
    · rw [transfer_of_keepsPool he, ih]
      refine ⟨fun h => .inr ⟨he, h⟩, fun h => h.elim (fun h => ?_) And.right⟩
      subst h
      cases he
    · rcases transfer_of_not_keepsPool he with ⟨p, rfl, htransfer⟩ | ⟨hne, htransfer⟩
      · simp [htransfer, he, defined, Ascending.singleton]
      · simp [htransfer, he, hne, defined]

/-- One path says that nothing is known, or it says which pool is in force. -/
theorem answer_cases (strict : Bool) (es : List Edge) :
    answer strict es = any ∨ ∃ pool, answer strict es = defined pool := by
  induction es using List.reverseRecOn with
  | nil => exact .inl rfl
  | append_singleton es e ih =>
    rw [answer_snoc]
    by_cases he : e.keepsPool strict
    · rwa [transfer_of_keepsPool he]
    · rcases transfer_of_not_keepsPool he with ⟨p, rfl, htransfer⟩ | ⟨-, htransfer⟩
      · exact .inr ⟨p, htransfer _⟩
      · exact .inl (htransfer _)

theorem answer_eq_any : answer strict es = any ↔ ∀ pool, ¬ Pool.InForce strict pool es := by
  constructor
  · intro h pool hforce
    cases h.symm.trans (answer_eq_defined.2 hforce)
  · intro h
    refine (answer_cases strict es).resolve_right ?_
    rintro ⟨pool, hpool⟩
    exact h pool (answer_eq_defined.1 hpool)

/-! ## The answers of a state -/

/-- The answers of single paths that a state stands for. -/
inductive Allows : PoolState → PoolState → Prop
  | any : Allows any any
  | oneOf {pools : Ascending Pool} {pool : Pool} : pool ∈ pools →
      Allows (oneOf pools) (defined pool)

theorem allows_any : any.Allows s ↔ s = any :=
  ⟨fun h => by cases h; rfl, fun h => h ▸ .any⟩

theorem allows_oneOf {pools : Ascending Pool} :
    (oneOf pools).Allows s ↔ ∃ pool ∈ pools, s = defined pool :=
  ⟨fun h => by cases h with | oneOf h => exact ⟨_, h, rfl⟩,
    fun ⟨_, hpool, hs⟩ => hs ▸ .oneOf hpool⟩

/-- A join stands for what its parts stand for. -/
theorem Allows.of_sup (h : (s ⊔ t).Allows u) : s.Allows u ∨ t.Allows u := by
  change (s.join t).Allows u at h
  cases s <;> cases t <;> simp only [join] at h <;> first | exact .inl h | exact .inr h | skip
  obtain ⟨pool, hpool, rfl⟩ := allows_oneOf.1 h
  exact (Ascending.mem_union.1 hpool).imp .oneOf .oneOf

/-- An answer after an edge comes from one before it, or from the edge. -/
theorem Allows.of_transfer (h : (transfer strict e s).Allows u) :
    (∃ t, s.Allows t ∧ u = transfer strict e t) ∨ ∀ t, u = transfer strict e t := by
  by_cases he : e.keepsPool strict
  · rw [transfer_of_keepsPool he] at h
    exact .inl ⟨u, h, (transfer_of_keepsPool he).symm⟩
  · right
    rcases transfer_of_not_keepsPool he with ⟨p, rfl, htransfer⟩ | ⟨-, htransfer⟩
    · rw [htransfer] at h
      obtain ⟨pool, hpool, rfl⟩ := allows_oneOf.1 h
      obtain rfl := Ascending.mem_singleton.1 hpool
      exact fun t => (htransfer t).symm
    · rw [htransfer] at h
      exact fun t => (allows_any.1 h).trans (htransfer t).symm

/-- A state is below whatever was reached and is above the answers it stands for. -/
theorem le_of_allows (ht : t ≠ uninitialized) (hle : ∀ u, s.Allows u → u ≤ t) : s ≤ t := by
  cases s with
  | uninitialized => exact uninitialized_le t
  | any => exact hle any .any
  | oneOf pools =>
    cases t with
    | any => exact le_any _
    | uninitialized => exact absurd rfl ht
    | oneOf others =>
      refine oneOf_le_oneOf.2 fun p hp => ?_
      exact oneOf_le_oneOf.1 (hle _ (.oneOf hp)) p (Ascending.mem_singleton.2 rfl)

theorem answer_ne_uninitialized : answer strict es ≠ uninitialized := by
  rcases answer_cases strict es with h | ⟨pool, h⟩ <;> rw [h] <;> nofun

/-- A state that is above the answer of a path is not silent. -/
theorem ne_uninitialized_of_answer_le (h : answer strict es ≤ s) : s ≠ uninitialized := by
  rintro rfl
  exact answer_ne_uninitialized (le_antisymm h (uninitialized_le _))

/-! ## Answers along paths -/

variable {g : FlowGraph}

/-- Whether everything that a state stands for is the answer of a path to a node. -/
def Attained (g : FlowGraph) (strict : Bool) (n : Nat) (s : PoolState) : Prop :=
  ∀ u, s.Allows u → ∃ es, Graph.Path g es n ∧ u = answer strict es

theorem Attained.transfer {e : BoundEdge Edge} (hpath : ∃ es, Graph.Path g es e.source)
    (he : e ∈ g.outEdges e.source) (h : Attained g strict e.source s) :
    Attained g strict e.dest (transfer strict e.edge s) := by
  intro u hu
  rcases hu.of_transfer with ⟨t, ht, rfl⟩ | hconst
  · obtain ⟨es, hes, rfl⟩ := h t ht
    exact ⟨es ++ [e.edge], hes.snoc he, answer_snoc.symm⟩
  · obtain ⟨es, hes⟩ := hpath
    exact ⟨es ++ [e.edge], hes.snoc he, (hconst _).trans answer_snoc.symm⟩

theorem attained_joinAll {n : Nat} {ss : List PoolState} (hne : ss ≠ [])
    (h : ∀ s ∈ ss, Attained g strict n s) :
    Attained g strict n ((analysis strict).joinAll ss) := by
  cases ss with
  | nil => exact absurd rfl hne
  | cons s ss =>
    obtain ⟨hs, hss⟩ := List.forall_mem_cons.1 h
    refine List.foldlRecOn ss join (motive := Attained g strict n) hs fun t ht t' ht' u hu => ?_
    exact (Allows.of_sup hu).elim (ht u) (hss t' ht' u)

/-- While the states of a table are attained, so is what they carry to a node. -/
theorem attained_incoming (hg : Graph.Sound g) {states : Array (Option PoolState)}
    (htable : (analysis strict).Table g (g.list .reversePostorder) (Names g.pools) states)
    (h : ∀ (m : Nat) (s : PoolState), states[m]?.join = some s → Attained g strict m s)
    {n : Nat} (hn : g.Reachable n) :
    Attained g strict n ((analysis strict).incoming g states n) := by
  by_cases hnil : ((g.inEdges n).filterMap fun e =>
      states[e.source]?.join.map ((analysis strict).transfer e.edge)) = []
  · -- every reachable node has a state, so only the entry is left
    rw [Analysis.incoming_eq_boundary hnil]
    by_cases hentry : n = g.source
    · subst hentry
      exact fun u hu => ⟨[], .nil, allows_any.1 hu⟩
    · obtain ⟨m, hm, hmn⟩ := hn.exists_pred hentry
      obtain ⟨e, he, rfl⟩ := Graph.mem_outEdges_of_targets hmn
      obtain rfl := Graph.source_of_mem_outEdges he
      obtain ⟨s, hs, -⟩ := htable.visited _ (Graph.mem_list.2 hm)
      refine absurd (List.mem_filterMap.2 ⟨e, hg.mem_inEdges_of_reachable hm he, ?_⟩)
        (List.eq_nil_iff_forall_not_mem.1 hnil (transfer strict e.edge s))
      rw [hs]
      rfl
  · refine attained_joinAll hnil fun t ht => ?_
    obtain ⟨e, he, hstate⟩ := List.mem_filterMap.1 ht
    obtain ⟨s, hs, rfl⟩ := Option.map_eq_some_iff.1 hstate
    obtain ⟨hsource, hout, rfl⟩ := Graph.mem_inEdges.1 he
    exact (h _ s hs).transfer (Graph.exists_path (hg.index.1 hsource).1) hout

/-- Everything that the state of a node stands for is the answer of a path. -/
theorem attained_of_state? (hg : Graph.Sound g) (strict : Bool) {n : Nat}
    (hs : (g.poolStates strict).state? n = some s) : Attained g strict n s :=
  (climbs g strict).solveIn_forall (fun _ hn => (Graph.mem_list.1 hn).lt_size)
    (p := Attained g strict) (fun _ => nofun)
    (fun hn htable hall => attained_incoming hg htable hall (Graph.mem_list.1 hn)) hs

/-- The states are above the answers of all paths, if no edge leads to the entry. -/
theorem exists_state_ge_answer (hg : Graph.Sound g) (hin : g.inEdges g.source = [])
    (strict : Bool) {n : Nat} (hn : g.Reachable n) :
    ∃ s, (g.poolStates strict).state? n = some s ∧
      ∀ es, Graph.Path g es n → answer strict es ≤ s := by
  obtain ⟨st, hstate, hle, hentry⟩ := exists_states hg strict
  refine ⟨st n, hstate n hn, fun es hes => ?_⟩
  induction hes with
  | nil => exact (hentry hin).ge
  | @snoc es e hpath he ih =>
    have hreach := hpath.reachable hg
    calc answer strict (es ++ [e.edge]) = transfer strict e.edge (answer strict es) := answer_snoc
      _ ≤ transfer strict e.edge (st e.source) := transfer_mono strict e.edge (ih hreach)
      _ ≤ st e.dest := hle e hreach he

end PoolState

namespace FlowGraph

/-- In a graph whose entry no edge leads to, the state of a node is the join of what the paths to it
say.  Nothing is known there if that is so at the end of some path, and otherwise the state names
the pools that are in force at the end of a path. -/
theorem poolStates_exact {nodes : Array (Node Edge)} {source : Nat} {g : FlowGraph}
    (h : Graph.ofNodes nodes source = .ok g) (hin : g.inEdges g.source = []) (strict : Bool)
    {n : Nat} (hn : g.Reachable n) :
    ∃ s, (g.poolStates strict).state? n = some s ∧
      IsLUB {t | ∃ es, Graph.Path g es n ∧ t = PoolState.answer strict es} s ∧
      (s = .any ↔ ∃ es, Graph.Path g es n ∧ ∀ pool, ¬ Pool.InForce strict pool es) ∧
      (∀ pools, s = .oneOf pools → ∀ pool,
        pool ∈ pools ↔ ∃ es, Graph.Path g es n ∧ Pool.InForce strict pool es) ∧
      s ≠ .uninitialized := by
  have hg := (Graph.sound_of_ofNodes h).1
  obtain ⟨s, hs, hle⟩ := PoolState.exists_state_ge_answer hg hin strict hn
  have hattained := PoolState.attained_of_state? hg strict hs
  obtain ⟨es₀, hes₀⟩ := Graph.exists_path hn
  refine ⟨s, hs, ⟨?_, fun t ht => ?_⟩, ⟨?_, ?_⟩, ?_,
    PoolState.ne_uninitialized_of_answer_le (hle es₀ hes₀)⟩
  · rintro _ ⟨es, hes, rfl⟩
    exact hle es hes
  · refine PoolState.le_of_allows
      (PoolState.ne_uninitialized_of_answer_le (ht ⟨es₀, hes₀, rfl⟩)) fun u hu => ?_
    exact ht (hattained u hu)
  · rintro rfl
    obtain ⟨es, hes, hanswer⟩ := hattained .any .any
    exact ⟨es, hes, PoolState.answer_eq_any.1 hanswer.symm⟩
  · rintro ⟨es, hes, hnone⟩
    exact le_antisymm (PoolState.le_any s) (PoolState.answer_eq_any.2 hnone ▸ hle es hes)
  · rintro pools rfl pool
    constructor
    · intro hpool
      obtain ⟨es, hes, hanswer⟩ := hattained _ (.oneOf hpool)
      exact ⟨es, hes, PoolState.answer_eq_defined.1 hanswer.symm⟩
    · rintro ⟨es, hes, hforce⟩
      have hbelow := PoolState.answer_eq_defined.2 hforce ▸ hle es hes
      exact PoolState.oneOf_le_oneOf.1 hbelow pool (Ascending.mem_singleton.2 rfl)

/-- A loop whose body defines another pool than what comes before it: both pools may be in force at
its head, and there is a path through the body. -/
theorem poolStates_exact_loop :
    let nodes : Array (Node Edge) := #[.simple ⟨.action (.constantPool ["a"]), 1⟩,
      .branch ⟨.ifTrue, 2⟩ ⟨.ifFalse, 3⟩, .simple ⟨.action (.constantPool ["b"]), 1⟩, .done]
    let g : FlowGraph := Graph.indexed nodes 0
    Graph.ofNodes nodes 0 = .ok g ∧ g.inEdges g.source = [] ∧ g.Reachable 1 ∧
      (g.poolStates true).state? 1 = some (.oneOf (.ofList [["a"], ["b"]])) ∧
      ∃ es, Graph.Path g es 1 ∧ Pool.InForce true ["b"] es := by
  intro nodes g
  have h : Graph.ofNodes nodes 0 = .ok (Graph.indexed nodes 0) := by cbv
  have hin : g.inEdges g.source = [] := by cbv
  have hreach : g.Reachable 1 :=
    (@Graph.mem_list _ _ .preorder _).1 (List.mem_of_elem_eq_true (by cbv))
  have hstate : (g.poolStates true).state? 1 = some (.oneOf (.ofList [["a"], ["b"]])) := by cbv
  obtain ⟨s, hs, -, -, hpools, -⟩ := poolStates_exact h hin true hreach
  obtain rfl : PoolState.oneOf (.ofList [["a"], ["b"]]) = s :=
    Option.some.inj (hstate.symm.trans hs)
  exact ⟨h, hin, hreach, hstate, (hpools _ rfl ["b"]).1 (by simp)⟩

end FlowGraph

end ScriptRecovery
