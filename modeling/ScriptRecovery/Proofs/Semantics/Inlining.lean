import ScriptRecovery.Proofs.Reduce.Pools
import ScriptRecovery.Proofs.Semantics.Reductions

/-!
# Runs of graphs with texts in place of pool entries

A push of texts does what a push of pool entries does when the texts are those of the pool in force
(`Interpretation.act_resolve`).  So here it matters how a run came to the push.  The pool that a run
has in force where it is at a node is below the state of that node (`runs_of_retouched`), when it is
so at the entry.  And there it is when nothing leads back to the entry, for then nothing is known of
the pool there.

Without that premise the texts can be of a pool that is defined after them.  But a graph with a way
back to its entry is not said in statements.
-/

namespace ScriptRecovery

namespace PoolState

variable {strict : Bool} {es : List Edge} {s t : PoolState}

/-- The pool that an edge leaves in force is below the state after the edge. -/
theorem defined_le_transfer {V σ : Type} {I : Interpretation V σ} {e : Edge} {c c' : Core V σ}
    (h : I.pass? e c = some (.done (), c')) :
    defined c'.pool ≤ transfer strict e (defined c.pool) := by
  cases e with
  | action a =>
    have hpool : c'.pool = a.poolAfter c.pool := Interpretation.pool_of_act h
    rw [hpool]
    cases a <;> cases strict <;> first | exact le_rfl | exact le_any _
  | plain | ifTrue | ifFalse | ifTest =>
    cases h
    exact le_rfl
  | template _ => exact le_any _
  | conditional _ _ | marker _ | sub => cases h

/-- A pool below a state with one pool is that pool. -/
theorem eq_of_single? {pool pool' : Pool} (hs : s.single? = some pool) (h : defined pool' ≤ s) :
    pool' = pool := by
  obtain ⟨pools, rfl, hall⟩ := single?_eq_some hs
  exact hall pool' (oneOf_le_oneOf.1 h pool' (by simp))

end PoolState

namespace FlowGraph

open PoolState

variable {V σ : Type} {I : Interpretation V σ} {g g' : FlowGraph} {strict : Bool}

/-- A push of texts is run like the push of entries whose place it takes, when the texts are those
of the pool in force. -/
theorem runs_resolve {values : List Operand} {pool : Pool} {n : Nat} {c : Core V σ} {r : Effect V σ}
    (hpool : c.pool = pool)
    (h : g.Runs I [.action (.push (values.map (Operand.resolve pool)))] n c r) :
    g.Runs I [.action (.push values)] n c r := by
  subst hpool
  have hact : I.pass? (.action (.push (values.map (Operand.resolve c.pool)))) c =
    I.pass? (.action (.push values)) c := Interpretation.act_resolve values c
  cases h with
  | pass he h => exact .pass (hact ▸ he) h
  | stop he hne => exact .stop (hact ▸ he) hne

/-- What a graph does with texts in place of pool entries it did before, from a place where the pool
in force is below the state. -/
theorem runs_of_retouched (hg : g.Sound) {st : Nat → PoolState}
    (hstate : ∀ n, g.Reachable n → (g.poolStates strict).state? n = some (st n))
    (hle : ∀ e : BoundEdge Edge, g.Reachable e.source → e ∈ g.outEdges e.source →
      transfer strict e.edge (st e.source) ≤ st e.dest)
    (h : g.Retouched (pickPush (g.poolStates strict)) g') {es : List Edge} {n : Nat} {c : Core V σ}
    {r : Effect V σ} (hruns : g'.Runs I es n c r) (hn : g.Reachable n)
    (hpool : after strict es (defined c.pool) ≤ st n) : g.Runs I es n c r := by
  -- what a run has in force where it leaves a node is below what is carried to the next
  have honward : ∀ {n : Nat} {node : Node Edge} {l : Link Edge} {pool : Pool}, g.Reachable n →
      g.node? n = some node → l ∈ node.links → defined pool ≤ st n →
      g.Reachable l.dest ∧ after strict [l.edge] (defined pool) ≤ st l.dest := by
    intro n node l pool hn hnode hl hpool
    have hout : (⟨n, l.dest, l.edge⟩ : BoundEdge Edge) ∈ g.outEdges n :=
      Graph.mem_outEdges.2 ⟨node, l, hnode, hl, rfl⟩
    exact ⟨hg.reachable_target hn (Graph.dest_mem_targets hout),
      (transfer_mono strict l.edge hpool).trans (hle _ hn hout)⟩
  induction hruns with
  | @ended n c hnode =>
    rcases h n with hsame | ⟨e, dest, e', -, -, hnode'⟩
    · exact .ended (hsame ▸ hnode)
    · cases hnode.symm.trans hnode'
  | @simple n l c r hnode _ ih =>
    rcases h n with hsame | ⟨e, dest, e', hold, hpicked, hnode'⟩
    · have hold := hsame ▸ hnode
      obtain ⟨hdest, hcarried⟩ := honward hn hold (List.mem_singleton.2 rfl) hpool
      exact .simple hold (ih hdest hcarried)
    · cases hnode.symm.trans hnode'
      obtain ⟨hdest, hcarried⟩ := honward hn hold (List.mem_singleton.2 rfl) hpool
      obtain ⟨-, e₁, dest₁, hnode₁, hpick⟩ := mem_pickEdges hpicked
      cases hold.symm.trans hnode₁
      obtain ⟨s, pool, values, hs, hsingle, rfl, rfl⟩ := pickPush_eq_some hpick
      obtain rfl := Option.some.inj (hs.symm.trans (hstate n hn))
      exact .simple hold (runs_resolve (eq_of_single? hsingle hpool) (ih hdest hcarried))
  | @branch n a b l c r hnode hl _ ih =>
    rcases h n with hsame | ⟨e, dest, e', -, -, hnode'⟩
    · have hold := hsame ▸ hnode
      have hmem : l ∈ (Node.branch a b).links := by
        rw [hl]
        split <;> simp [Node.links]
      obtain ⟨hdest, hcarried⟩ := honward hn hold hmem hpool
      exact .branch hold hl (ih hdest hcarried)
    · cases hnode.symm.trans hnode'
  | pass he _ ih => exact .pass he (ih hn ((after_mono (defined_le_transfer he)).trans hpool))
  | stop he hne => exact .stop he hne
  | @choose t f es n c r _ ih =>
    refine .choose (ih hn ?_)
    refine le_trans ?_ hpool
    simp only [after, List.foldl_append, List.foldl_cons]
    exact after_mono (le_any _)

/-- Texts in place of pool entries refine a graph. -/
theorem Regular.refines_inlinePools {traceName : String} (hg : g.Regular traceName)
    {iteration : Nat} {changed : Bool}
    (hrun : (Pass.inlinePools strict).run iteration g = ⟨g', .ok changed⟩) : Refines I g g' := by
  obtain ⟨g₁, _, hrun₁, -, hreduces⟩ := hg.inlinePools strict iteration
  cases hrun.symm.trans hrun₁
  obtain ⟨g₂, happly, hg₂⟩ := retouched_spliceEdges hg.sound (pickPush (g.poolStates strict))
  obtain ⟨_, hrun₂⟩ := Outcome.ofEdits_eq_of_applyAll happly
  cases hrun.symm.trans hrun₂
  refine ⟨noReturn_of_reduces hreduces, fun hg' {c r} hruns => ?_⟩
  obtain ⟨st, hstate, hle, hentry⟩ := exists_states hg.sound strict
  rw [source_of_reduces hreduces] at hruns
  refine runs_of_retouched hg.sound hstate hle hg₂ hruns hg.sound.reachable_source ?_
  rw [hentry]
  · exact le_any _
  · refine List.eq_nil_iff_forall_not_mem.2 fun e he => ?_
    obtain ⟨hpred, hout, hdest⟩ := Graph.mem_inEdges.1 he
    exact noReturn_of_reduces hreduces hg' e.source (hg.sound.index.1 hpred).1
      (hdest ▸ Graph.dest_mem_targets hout)

/-! ## The pipeline -/

/-- The pipeline refines a graph. -/
theorem Regular.refines_pipeline (hg : g.Regular I.names.trace) {fixpoint : Bool}
    {maxIterations : Nat} {changed : Bool}
    (hrun : (Schedule.pipeline I.names.trace strict fixpoint maxIterations).run g =
      ⟨g', .ok changed⟩) : g'.Regular I.names.trace ∧ Refines I g g' := by
  have hpass : ∀ p ∈ (Schedule.pipeline I.names.trace strict fixpoint maxIterations).passes,
      ∀ iteration g₁, g₁.Regular I.names.trace ∧ Refines I g g₁ →
        (p.run iteration g₁).Leaves fun g₁ => g₁.Regular I.names.trace ∧ Refines I g g₁ :=
    fun p hp iteration g₁ => leaves_each
      (fun hg₁ hrun _ h => h.trans (hg₁.refines_inlinePools hrun))
      (fun hreduces h => h.trans (refines_formTemplates hreduces))
      (fun hreduces h => h.trans (refines_mergeChains hreduces))
      (fun hreduces h => h.trans (refines_formConditionals hreduces)) hp iteration
  rcases Schedule.run_cases hpass ⟨hg, Refines.refl g⟩ with h | ⟨-, h⟩
  · rw [hrun] at h
    cases h
  · rwa [hrun] at h

end FlowGraph

end ScriptRecovery
