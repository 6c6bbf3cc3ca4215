import ScriptRecovery.Proofs.Reduce.Chains
import ScriptRecovery.Reduce.Search

/-!
# The search for chains ends

The loop that finds chains meets no fault on a sound graph and ends with the chains of the graph
(`ChainSearch.run_start`).  It takes at most one step for the entry and two for each node: every
step lowers `ChainSearch.work`, which counts the free nodes twice, the stack, and two for a chain
that is being made.

What a search has found and will find does not change on the way (`ChainSearch.foreseen`).  The
recursion that says what it will find puts all targets of a node on its stack and not only those
without a mark, which makes no difference, since a node with a mark is passed over
(`FlowGraph.chainsFrom_filter`).
-/

namespace ScriptRecovery

namespace Marks

variable {m : Marks} {i : Nat}

theorem seen_eq_ok (h : i < m.flags.size) : m.seen i = .ok !m.isFree i := by
  unfold seen isFree
  rw [Array.getElem?_eq_getElem h]
  cases m.flags[i] <;> rfl

theorem pile_eq_ok {stack is : List Nat} (h : ∀ i ∈ is, i < m.flags.size) :
    m.pile stack is = .ok ((is.filter m.isFree).reverse ++ stack) := by
  induction is generalizing stack with
  | nil => rfl
  | cons i is ih =>
    obtain ⟨hi, his⟩ := List.forall_mem_cons.1 h
    rw [pile, seen_eq_ok hi]
    cases hfree : m.isFree i <;> simp [hfree, ih his, bind, Except.bind]

end Marks

namespace FlowGraph

variable {g : FlowGraph} {marks : Marks} {stack : List Nat}

theorem isFree_of_chainFrom {next x : Nat} (h : (g.chainFrom marks next).1.isFree x) :
    marks.isFree x := by
  fun_induction chainFrom g marks next with
  | case1 => exact h
  | case2 marks next _ out _ tail ih =>
    have := ih h
    simp only [Marks.isFree_mark, Bool.and_eq_true] at this
    exact this.1
  | case3 => exact h

/-- It makes no difference whether a node with a mark is on the stack. -/
theorem chainsFrom_of_marked {pre : List Nat} {x : Nat} (hx : ¬ marks.isFree x) :
    g.chainsFrom marks (pre ++ x :: stack) = g.chainsFrom marks (pre ++ stack) := by
  generalize hrest : pre ++ x :: stack = rest
  fun_induction chainsFrom g marks rest generalizing pre with
  | case1 => simp at hrest
  | case2 marks start rest hfree hout ih =>
    cases pre with
    | nil =>
      obtain rfl : x = start := (List.cons.inj hrest).1
      exact absurd hfree hx
    | cons p pre =>
      obtain ⟨rfl, rfl⟩ := List.cons.inj hrest
      rw [List.cons_append, chainsFrom, if_pos hfree, hout, ← List.append_assoc]
      exact ih (by simp_all) (by simp)
  | case3 marks start rest hfree out hout tail last =>
    rename_i ih
    cases pre with
    | nil =>
      obtain rfl : x = start := (List.cons.inj hrest).1
      exact absurd hfree hx
    | cons p pre =>
      obtain ⟨rfl, rfl⟩ := List.cons.inj hrest
      have hx' : ¬ tail.1.isFree x := fun h => by simpa [hx] using isFree_of_chainFrom h
      rw [List.cons_append, chainsFrom, if_pos hfree, hout]
      simp only [← List.append_assoc]
      exact congrArg _ (ih hx' (by simp [last, tail]))
  | case4 marks start rest hfree ih =>
    cases pre with
    | nil =>
      obtain ⟨rfl, rfl⟩ := List.cons.inj hrest
      rfl
    | cons p pre =>
      obtain ⟨rfl, rfl⟩ := List.cons.inj hrest
      rw [List.cons_append, chainsFrom, if_neg hfree]
      exact ih hx rfl

/-- It makes no difference whether nodes with a mark are on the stack. -/
theorem chainsFrom_filter {is : List Nat} :
    g.chainsFrom marks ((is.filter marks.isFree).reverse ++ stack) =
      g.chainsFrom marks (is.reverse ++ stack) := by
  induction is generalizing stack with
  | nil => rfl
  | cons i is ih =>
    rw [List.reverse_cons, List.append_assoc, List.filter_cons]
    split
    · rw [List.reverse_cons, List.append_assoc, ih]
    · next hi => rw [ih, List.singleton_append, chainsFrom_of_marked hi]

end FlowGraph

namespace ChainSearch

variable {g : FlowGraph} {s : ChainSearch} {c : PartialChain} {n : Nat}

/-! ## One step -/

/-- What a search will have found in the end. -/
def foreseen (g : FlowGraph) (s : ChainSearch) : List (List Nat) :=
  match s.making with
  | none => s.found ++ g.chainsFrom s.marks s.stack
  | some c =>
      let tail := g.chainFrom s.marks c.next
      s.found ++ (c.nodes ++ tail.2) ::
        g.chainsFrom tail.1 ((g.targets (tail.2.getLastD c.last)).reverse ++ s.stack)

/-- A bound on the number of steps that are left. -/
def work (s : ChainSearch) : Nat :=
  2 * s.marks.free + s.stack.length + if s.making.isSome then 2 else 0

/-- A search of a graph that will find its chains. -/
structure Fit (g : FlowGraph) (s : ChainSearch) : Prop where
  flags : s.marks.flags.size = g.size
  stacked : ∀ x ∈ s.stack, g.Reachable x
  making : ∀ {c : PartialChain}, s.making = some c →
    g.Reachable c.last ∧ g.targets c.last = [c.next]
  finds : s.foreseen g = g.chains

theorem fit_start (hg : Graph.Sound g) : (start g).Fit g where
  flags := by simp [start, Marks.none]
  stacked x hx := by
    rw [List.mem_singleton.1 hx]
    exact hg.reachable_source
  making := nofun
  finds := by simp [foreseen, start, FlowGraph.chains]

theorem leave_eq_ok (hflags : s.marks.flags.size = g.size) (hg : Graph.Sound g)
    (hn : g.Reachable n) : s.leave g n =
      .ok { s with stack := ((g.targets n).filter s.marks.isFree).reverse ++ s.stack } := by
  have hlt : ∀ x ∈ g.targets n, x < s.marks.flags.size := fun x hx =>
    hflags ▸ (hg.reachable_target hn hx).lt_size
  rw [leave, Marks.pile_eq_ok hlt]
  rfl

/-- A chain that nothing continues is ended. -/
theorem Fit.close (h : s.Fit g) (hg : Graph.Sound g) (hc : s.making = some c)
    (hstop : g.chainFrom s.marks c.next = (s.marks, [])) :
    ∃ s', s.close g c = .ok s' ∧ s'.Fit g ∧ s'.work < s.work := by
  obtain ⟨hlast, htargets⟩ := h.making hc
  refine ⟨_, leave_eq_ok h.flags hg hlast, ⟨h.flags, fun x hx => ?_, nofun, ?_⟩, ?_⟩
  · rcases List.mem_append.1 hx with hx | hx
    · exact hg.reachable_target hlast (List.mem_of_mem_filter (List.mem_reverse.1 hx))
    · exact h.stacked x hx
  · rw [← h.finds]
    simp [foreseen, hc, hstop, FlowGraph.chainsFrom_filter]
  · have := List.length_filter_le s.marks.isFree (g.targets c.last)
    rw [htargets, List.length_singleton] at this
    simp only [work, hc, htargets, List.length_append, List.length_reverse, Option.isSome_none,
      Option.isSome_some, Bool.false_eq_true, if_true, if_false]
    omega

/-- A chain that is being made grows or ends. -/
theorem Fit.extend (h : s.Fit g) (hg : Graph.Sound g) (hc : s.making = some c) :
    ∃ s', s.extend g c = .ok s' ∧ s'.Fit g ∧ s'.work < s.work := by
  obtain ⟨hlast, htargets⟩ := h.making hc
  have hnext : g.Reachable c.next := hg.reachable_target hlast (by simp [htargets])
  unfold ChainSearch.extend
  split
  · next hcond =>
    refine h.close hg hc ?_
    rw [FlowGraph.chainFrom, if_neg]
    simp only [Bool.and_eq_true, bne_iff_ne, beq_iff_eq]
    tauto
  · next hcond =>
    simp only [not_or, Decidable.not_not] at hcond
    rw [Marks.seen_eq_ok (h.flags ▸ hnext.lt_size)]
    cases hfree : s.marks.isFree c.next with
    | false =>
      refine h.close hg hc ?_
      rw [FlowGraph.chainFrom, if_neg (by simp [hfree])]
    | true =>
      have hgrows : s.marks.isFree c.next && c.next != g.source && g.inDegree c.next == 1 := by
        simp [hfree, hcond.1, hcond.2]
      cases hout : (g.node? c.next).bind Node.simpleOut? with
      | none =>
        refine h.close hg hc ?_
        rw [FlowGraph.chainFrom, if_pos hgrows, hout]
      | some out =>
        have hnode := Graph.bind_simpleOut?_eq_some.1 hout
        refine ⟨_, rfl, ⟨by simpa using h.flags, h.stacked, fun hc' => ?_, ?_⟩, ?_⟩
        · cases hc'
          exact ⟨hnext, Graph.targets_of_simple hnode⟩
        · rw [← h.finds]
          simp only [foreseen, hc]
          rw [FlowGraph.chainFrom.eq_def g s.marks, if_pos hgrows, hout]
          simp only [List.getLastD_cons, List.append_assoc, List.singleton_append]
        · have := Marks.free_mark hfree
          simp only [work, hc, Option.isSome_some, if_true]
          omega

/-- A node taken off the stack is passed over, passed through, or starts a chain. -/
theorem Fit.visit {stack : List Nat} (h : s.Fit g) (hg : Graph.Sound g) (hmaking : s.making = none)
    (hstack : s.stack = n :: stack) :
    ∃ s', visit g { s with stack } n = .ok s' ∧ s'.Fit g ∧ s'.work < s.work := by
  have hn : g.Reachable n := h.stacked n (by simp [hstack])
  have hrest : ∀ x ∈ stack, g.Reachable x := fun x hx => h.stacked x (by simp [hstack, hx])
  have hfinds := h.finds
  simp only [foreseen, hmaking, hstack] at hfinds
  unfold ChainSearch.visit
  rw [Marks.seen_eq_ok (h.flags ▸ hn.lt_size)]
  cases hfree : s.marks.isFree n with
  | false =>
    rw [FlowGraph.chainsFrom, if_neg (by simp [hfree])] at hfinds
    refine ⟨_, rfl, ⟨h.flags, hrest, h.making, ?_⟩, ?_⟩
    · simpa only [foreseen, hmaking] using hfinds
    · simp [work, hstack]
  | true =>
    have hlower := Marks.free_mark hfree
    rw [FlowGraph.chainsFrom, if_pos hfree] at hfinds
    cases hout : (g.node? n).bind Node.simpleOut? with
    | none =>
      have hleave := @leave_eq_ok g { s with marks := s.marks.mark n, stack } n
        (by simpa using h.flags) hg hn
      refine ⟨_, hleave, ⟨by simpa using h.flags, fun x hx => ?_, h.making, ?_⟩, ?_⟩
      · rcases List.mem_append.1 hx with hx | hx
        · exact hg.reachable_target hn (List.mem_of_mem_filter (List.mem_reverse.1 hx))
        · exact hrest x hx
      · rw [hout] at hfinds
        simpa only [foreseen, hmaking, FlowGraph.chainsFrom_filter] using hfinds
      · have := List.length_filter_le (s.marks.mark n).isFree (g.targets n)
        have := Graph.length_targets_le (g := g) (n := n)
        simp only [work, hmaking, hstack, List.length_append, List.length_reverse,
          List.length_cons, Option.isSome_none, Bool.false_eq_true, if_false]
        omega
    | some out =>
      have hnode := Graph.bind_simpleOut?_eq_some.1 hout
      refine ⟨_, rfl, ⟨by simpa using h.flags, hrest, fun hc => ?_, ?_⟩, ?_⟩
      · cases hc
        exact ⟨hn, Graph.targets_of_simple hnode⟩
      · rw [hout] at hfinds
        simpa only [foreseen, List.singleton_append] using hfinds
      · simp only [work, hmaking, hstack, List.length_cons, Option.isSome_some,
          Option.isSome_none, Bool.false_eq_true, if_true, if_false]
        omega

/-- A step of a search that has not ended leads on, without a fault. -/
theorem Fit.step (h : s.Fit g) (hg : Graph.Sound g) (hends : ¬ s.Ended) :
    ∃ s', s.step g = .ok s' ∧ s'.Fit g ∧ s'.work < s.work := by
  unfold ChainSearch.step
  cases hc : s.making with
  | some c => exact h.extend hg hc
  | none =>
    cases hstack : s.stack with
    | nil => exact absurd ⟨hstack, hc⟩ hends
    | cons n stack =>
      have hvisit := h.visit hg hc hstack
      rw [hc] at hvisit
      exact hvisit

/-! ## The run -/

/-- A search that has ended stays as it is. -/
theorem run_of_ended (h : s.Ended) (steps : Nat) : run g steps s = .ok s := by
  induction steps with
  | zero => rfl
  | succ steps ih => simpa [run, ChainSearch.step, h.1, h.2, bind, Except.bind] using ih

theorem Fit.found_of_ended (h : s.Fit g) (hends : s.Ended) : s.found = g.chains := by
  simpa [foreseen, hends.1, hends.2, FlowGraph.chainsFrom] using h.finds

/-- A search has ended after as many steps as there can be. -/
theorem Fit.run (h : s.Fit g) (hg : Graph.Sound g) {steps : Nat} (hwork : s.work ≤ steps) :
    ∃ s', run g steps s = .ok s' ∧ s'.Ended ∧ s'.found = g.chains := by
  induction steps generalizing s with
  | zero =>
    by_cases hends : s.Ended
    · exact ⟨s, rfl, hends, h.found_of_ended hends⟩
    · obtain ⟨s₁, -, -, hless⟩ := h.step hg hends
      omega
  | succ steps ih =>
    by_cases hends : s.Ended
    · exact ⟨s, run_of_ended hends _, hends, h.found_of_ended hends⟩
    · obtain ⟨s₁, hstep, h₁, hless⟩ := h.step hg hends
      obtain ⟨s', hrun, hs'⟩ := ih h₁ (by omega)
      refine ⟨s', ?_, hs'⟩
      rw [ChainSearch.run, hstep]
      exact hrun

/-- The search for the chains of a sound graph ends. -/
theorem run_start (hg : Graph.Sound g) :
    ∃ s, run g (2 * g.size + 1) (start g) = .ok s ∧ s.Ended ∧ s.found = g.chains :=
  (fit_start hg).run hg (by simp [work, start, Marks.none, Marks.free])

end ChainSearch

end ScriptRecovery
