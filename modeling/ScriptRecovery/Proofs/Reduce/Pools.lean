import ScriptRecovery.Proofs.Flow.Pools
import ScriptRecovery.Proofs.Graph.Linear
import ScriptRecovery.Proofs.Reduce.Edges

/-!
# Texts on every path

Where a push of pool entries becomes a push of texts, the texts are those of one pool, and that pool
is in force on every path to the push, with one exception (`inlined_on_paths`).  If an edge leads
back to the entry, then a path from the entry on which nothing touches the pool was not looked at.
The push at the start of a loop around a whole program shows it: its entries are replaced by texts
of a pool that is defined after it (`inlined_before_definition`).
-/

namespace ScriptRecovery

namespace FlowGraph

variable {g : FlowGraph}

/-- A push is replaced at a node that has a state with one pool. -/
theorem pickPush_eq_some {states : Solution PoolState} {n : Nat} {e e' : Edge}
    (h : pickPush states n e = some e') : ∃ s pool values, states.state? n = some s ∧
      s.single? = some pool ∧ e = .action (.push values) ∧
        e' = .action (.push (values.map (Operand.resolve pool))) := by
  simp only [pickPush, Option.bind_eq_bind, Option.bind_eq_some_iff] at h
  obtain ⟨s, hs, pool, hpool, he⟩ := h
  obtain ⟨values, he, he'⟩ := inlinePool?_eq_some he
  exact ⟨s, pool, values, hs, hpool, he, he'⟩

/-- Putting texts in place of pool entries changes nothing but pushes.  On every path to a push it
changes, the pool that the texts are from is the last one defined and still in force, unless an edge
leads back to the entry and nothing on the path touches the pool. -/
theorem inlined_on_paths (ho : Origin g) (strict : Bool) (iteration : Nat) :
    ∃ g' changed, (Pass.inlinePools strict).run iteration g = ⟨g', .ok changed⟩ ∧
      ∀ n, g'.node? n = g.node? n ∨ ∃ values dest pool,
        g.node? n = some (.simple ⟨.action (.push values), dest⟩) ∧
        g'.node? n =
          some (.simple ⟨.action (.push (values.map (Operand.resolve pool))), dest⟩) ∧
        ∀ es, Graph.Path g es n → Pool.InForce strict pool es ∨
          (∃ m, g.Reachable m ∧ g.source ∈ g.targets m) ∧ ∀ e ∈ es, e.keepsPool strict := by
  obtain ⟨g', happly, hg'⟩ := retouched_spliceEdges ho.sound (pickPush (g.poolStates strict))
  obtain ⟨changed, hrun⟩ := Outcome.ofEdits_eq_of_applyAll happly
  refine ⟨g', changed, hrun, fun n => (hg' n).imp_right ?_⟩
  rintro ⟨e, dest, e', hnode, hpicked, hnode'⟩
  obtain ⟨-, e₁, dest₁, hnode₁, hpick⟩ := mem_pickEdges hpicked
  cases hnode.symm.trans hnode₁
  obtain ⟨s, pool, values, hs, hpool, rfl, rfl⟩ := pickPush_eq_some hpick
  refine ⟨values, dest, pool, hnode, hnode', fun es hpath => ?_⟩
  obtain ⟨t, ht, hcovers⟩ := PoolState.covers_of_path ho.sound strict hpath
  obtain rfl : s = t := Option.some.inj (hs.symm.trans ht)
  exact hcovers.imp_left fun h => h.inForce hpool

/-- A definition and a push: the texts are from a pool that is in force at the push. -/
theorem inlined_on_paths_after_definition :
    let s : Stream := [⟨0, .constantPool ["a"], 7⟩, ⟨7, .push [.constant 0], 13⟩]
    let es : List Edge := [.action (.constantPool ["a"])]
    ∃ g g' pool, ofStream s = .ok g ∧ (Pass.inlinePools true).run 0 g = ⟨g', .ok true⟩ ∧
      g'.node? 1 = some (.simple ⟨.action (.push [(Operand.constant 0).resolve pool]), 2⟩) ∧
      Graph.Path g es 1 ∧ Pool.InForce true pool es := by
  intro s es
  let e : BoundEdge Edge := ⟨0, 1, .action (.constantPool ["a"])⟩
  obtain ⟨g, hg, hsource, hedge, hnode, htrue, hnode'⟩ : ∃ g, ofStream s = .ok g ∧
      e.source = g.source ∧ g.outEdges 0 = [e] ∧
      g.node? 1 = some (.simple ⟨.action (.push [.constant 0]), 2⟩) ∧
      ((Pass.inlinePools true).run 0 g).changed = .ok true ∧
      ((Pass.inlinePools true).run 0 g).state.node? 1 =
        some (.simple ⟨.action (.push [.string "a"]), 2⟩) :=
    ⟨_, by cbv, by cbv, by cbv, by cbv, by cbv, by cbv⟩
  have hstart : Graph.Path g [] e.source := by
    rw [hsource]
    exact .nil
  have hpath : Graph.Path g es 1 := hstart.snoc (show e ∈ g.outEdges 0 by simp [hedge])
  obtain ⟨g', changed, hrun, hall⟩ := inlined_on_paths (.built hg) true 0
  rw [hrun] at htrue hnode'
  obtain rfl : changed = true := Except.ok.inj htrue
  rcases hall 1 with hsame | ⟨values, dest, pool, hat, hat', hpaths⟩
  · cases hnode'.symm.trans (hsame.trans hnode)
  · cases hnode.symm.trans hat
    refine ⟨g, g', pool, hg, hrun, hat', hpath, (hpaths es hpath).resolve_right fun h => ?_⟩
    cases h.2 _ List.mem_cons_self

/-- A push, a definition and a jump back to the push: the push becomes one of a text of the pool,
which is not defined when the program starts. -/
theorem inlined_before_definition :
    let s : Stream := [⟨0, .push [.constant 0], 6⟩, ⟨6, .constantPool ["a"], 13⟩,
      ⟨13, .jump (-18), 18⟩]
    ∃ g, ofStream s = .ok g ∧ ∀ strict, ∃ g', (Pass.inlinePools strict).run 0 g = ⟨g', .ok true⟩ ∧
      g.node? g.source = some (.simple ⟨.action (.push [.constant 0]), 1⟩) ∧
      g'.node? g.source = some (.simple ⟨.action (.push [.string "a"]), 1⟩) ∧
      Graph.Path g [] g.source ∧ ∀ pool, ¬ Pool.InForce strict pool [] := by
  have hnever : ∀ strict pool, ¬ Pool.InForce strict pool [] := by
    rintro strict pool ⟨pre, post, h, -⟩
    simp at h
  refine ⟨_, by cbv, fun strict => ?_⟩
  cases strict
  · exact ⟨_, by cbv, by cbv, by cbv, .nil, hnever false⟩
  · exact ⟨_, by cbv, by cbv, by cbv, .nil, hnever true⟩

end FlowGraph

end ScriptRecovery
