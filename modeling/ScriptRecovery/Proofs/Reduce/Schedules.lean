import ScriptRecovery.Proofs.Reduce.Conditionals
import ScriptRecovery.Recovery

/-!
# Schedules of passes

What every pass of a schedule keeps, the schedule keeps (`Schedule.run_cases`), in the row it runs
once as in the rows it repeats, and without a fault when no pass has one (`Schedule.run_gives`).
The passes of the pipeline keep graphs regular.  The one fault they can end with is a counter at the
end of its range.
-/

namespace ScriptRecovery

/-- Whether a run ends with a counter at the end of its range, or leaves a graph with a property. -/
def Outcome.Leaves (P : FlowGraph → Prop) (o : Outcome FlowGraph) : Prop :=
  o.changed = .error .counterOverflow ∨ (∃ changed, o.changed = .ok changed) ∧ P o.state

/-- Whether a run ends without a fault and leaves a graph with a property. -/
def Outcome.Gives (P : FlowGraph → Prop) (o : Outcome FlowGraph) : Prop :=
  (∃ changed, o.changed = .ok changed) ∧ P o.state

/-- A run that does not end with a counter at the end of its range gives what it leaves. -/
theorem Outcome.Leaves.gives {P : FlowGraph → Prop} {o : Outcome FlowGraph} (h : o.Leaves P)
    (hne : o.changed ≠ .error .counterOverflow) : o.Gives P := h.resolve_left hne

namespace Schedule

variable {P Q : FlowGraph → Prop}

theorem runRow_cons {p : Pass} {passes : List Pass} {iteration : Nat} {g : FlowGraph}
    (hp : (p.run iteration g).Leaves P)
    (hpasses : ∀ g', P g' → (runRow iteration g' passes).Leaves Q) :
    (runRow iteration g (p :: passes)).Leaves Q := by
  unfold runRow
  split
  · next g' fault hrun =>
    rw [hrun] at hp
    rcases hp with hp | ⟨⟨_, hp⟩, -⟩
    · exact .inl hp
    · cases hp
  · next g' changed hrun =>
    rw [hrun] at hp
    rcases hp with hp | ⟨-, hg'⟩
    · cases hp
    · rcases hpasses g' hg' with h | ⟨⟨c, h⟩, hg''⟩
      · exact .inl (by simp [h, Except.map])
      · exact .inr ⟨⟨changed || c, by simp only [h, Except.map]⟩, hg''⟩

theorem runRow_cases {passes : List Pass} (iteration : Nat)
    (hpass : ∀ p ∈ passes, ∀ g, P g → (p.run iteration g).Leaves P) {g : FlowGraph} (hg : P g) :
    (runRow iteration g passes).Leaves P := by
  induction passes generalizing g with
  | nil => exact .inr ⟨⟨_, rfl⟩, hg⟩
  | cons p ps ih =>
    exact runRow_cons (hpass p (by simp) g hg) fun _ => ih fun p hp => hpass p (by simp [hp])

/-- The last pass of a row leaves what it makes of graphs that the others keep. -/
theorem runRow_last {passes : List Pass} {last : Pass} (iteration : Nat)
    (hpass : ∀ p ∈ passes, ∀ g, P g → (p.run iteration g).Leaves P)
    (hlast : ∀ g, P g → (last.run iteration g).Leaves Q) {g : FlowGraph} (hg : P g) :
    (runRow iteration g (passes ++ [last])).Leaves Q := by
  induction passes generalizing g with
  | nil => exact runRow_cons (hlast g hg) fun _ hg' => .inr ⟨⟨_, rfl⟩, hg'⟩
  | cons p ps ih =>
    exact runRow_cons (hpass p (by simp) g hg) fun _ => ih fun p hp => hpass p (by simp [hp])

theorem runRows_succ {passes : List Pass} {iteration left : Nat} {g : FlowGraph}
    (hrow : (runRow iteration g passes).Leaves P)
    (hrows : ∀ g', P g' → (runRows passes (iteration + 1) g' left).Leaves P) :
    (runRows passes iteration g (left + 1)).Leaves P := by
  unfold runRows
  split
  · next g' fault hrun =>
    rw [hrun] at hrow
    rcases hrow with hrow | ⟨⟨_, hrow⟩, -⟩
    · exact .inl hrow
    · cases hrow
  · next g' hrun =>
    rw [hrun] at hrow
    rcases hrow with hrow | ⟨-, hg'⟩
    · cases hrow
    · exact .inr ⟨⟨_, rfl⟩, hg'⟩
  · next g' hrun =>
    rw [hrun] at hrow
    rcases hrow with hrow | ⟨-, hg'⟩
    · cases hrow
    · rcases hrows g' hg' with h | ⟨⟨c, h⟩, hg''⟩
      · exact .inl (by simp [h, Except.map])
      · exact .inr ⟨⟨true, by simp only [h, Except.map]⟩, hg''⟩

theorem runRows_cases {passes : List Pass}
    (hpass : ∀ p ∈ passes, ∀ iteration g, P g → (p.run iteration g).Leaves P) {g : FlowGraph}
    (hg : P g) (iteration left : Nat) : (runRows passes iteration g left).Leaves P := by
  induction left generalizing g iteration with
  | zero => exact .inr ⟨⟨_, rfl⟩, hg⟩
  | succ left ih =>
    exact runRows_succ (runRow_cases iteration (fun p hp => hpass p hp iteration) hg)
      fun _ hg' => ih hg' (iteration + 1)

/-- What a row makes of graphs to which it can be applied again is left by rows, if there are
any. -/
theorem runRows_last {passes : List Pass}
    (hrow : ∀ iteration g, P g → (runRow iteration g passes).Leaves Q) (hkeep : ∀ g, Q g → P g)
    {g : FlowGraph} (hg : P g) (iteration left : Nat) :
    (runRows passes iteration g (left + 1)).Leaves Q := by
  induction left generalizing g iteration with
  | zero => exact runRows_succ (hrow iteration g hg) fun _ hg' => .inr ⟨⟨_, rfl⟩, hg'⟩
  | succ left ih =>
    exact runRows_succ (hrow iteration g hg) fun g' hg' => ih (hkeep g' hg') (iteration + 1)

/-- What every pass keeps, the schedule keeps. -/
theorem run_cases {s : Schedule}
    (hpass : ∀ p ∈ s.passes, ∀ iteration g, P g → (p.run iteration g).Leaves P) {g : FlowGraph}
    (hg : P g) : (s.run g).Leaves P := by
  unfold run
  split
  · exact runRows_cases hpass hg 0 _
  · exact runRow_cases 0 (fun p hp => hpass p hp 0) hg

/-- What the last pass makes of graphs that the others keep, a schedule leaves that runs at all. -/
theorem run_last {s : Schedule} (passes : List Pass) (last : Pass)
    (hs : s.passes = passes ++ [last]) (hiter : s.fixpoint = true → 1 ≤ s.maxIterations)
    (hpass : ∀ p ∈ passes, ∀ iteration g, P g → (p.run iteration g).Leaves P)
    (hlast : ∀ iteration g, P g → (last.run iteration g).Leaves Q) (hkeep : ∀ g, Q g → P g)
    {g : FlowGraph} (hg : P g) : (s.run g).Leaves Q := by
  have hrow : ∀ iteration g, P g → (runRow iteration g s.passes).Leaves Q := by
    intro iteration g hg
    rw [hs]
    exact runRow_last iteration (fun p hp => hpass p hp iteration) (hlast iteration) hg
  unfold run
  split
  · next hfix =>
    obtain ⟨left, hleft⟩ := Nat.exists_eq_add_of_le' (hiter hfix)
    rw [hleft]
    exact runRows_last hrow hkeep hg 0 left
  · exact hrow 0 g hg

/-! ### Schedules without a fault -/

theorem runRow_gives {passes : List Pass} (iteration : Nat)
    (hpass : ∀ p ∈ passes, ∀ g, P g → (p.run iteration g).Gives P) {g : FlowGraph} (hg : P g) :
    (runRow iteration g passes).Gives P := by
  induction passes generalizing g with
  | nil => exact ⟨⟨_, rfl⟩, hg⟩
  | cons p ps ih =>
    rw [List.forall_mem_cons] at hpass
    obtain ⟨⟨changed, hchanged⟩, hg'⟩ := hpass.1 g hg
    obtain ⟨⟨changed', hchanged'⟩, hg''⟩ := ih hpass.2 hg'
    have hrun : p.run iteration g = ⟨(p.run iteration g).state, .ok changed⟩ := by rw [← hchanged]
    rw [runRow, hrun]
    exact ⟨⟨changed || changed', by simp only [hchanged', Except.map]⟩, hg''⟩

theorem runRows_gives {passes : List Pass}
    (hpass : ∀ p ∈ passes, ∀ iteration g, P g → (p.run iteration g).Gives P) {g : FlowGraph}
    (hg : P g) (iteration left : Nat) : (runRows passes iteration g left).Gives P := by
  induction left generalizing g iteration with
  | zero => exact ⟨⟨_, rfl⟩, hg⟩
  | succ left ih =>
    obtain ⟨⟨changed, hchanged⟩, hg'⟩ :=
      runRow_gives iteration (fun p hp => hpass p hp iteration) hg
    obtain ⟨⟨changed', hchanged'⟩, hg''⟩ := ih hg' (iteration + 1)
    have hrow : runRow iteration g passes = ⟨(runRow iteration g passes).state, .ok changed⟩ := by
      rw [← hchanged]
    rw [runRows, hrow]
    cases changed with
    | false => exact ⟨⟨_, rfl⟩, hg'⟩
    | true => exact ⟨⟨true, by simp only [hchanged', Except.map]⟩, hg''⟩

/-- What every pass keeps without a fault, the schedule keeps without one. -/
theorem run_gives {s : Schedule}
    (hpass : ∀ p ∈ s.passes, ∀ iteration g, P g → (p.run iteration g).Gives P) {g : FlowGraph}
    (hg : P g) : (s.run g).Gives P := by
  unfold run
  split
  · exact runRows_gives hpass hg 0 _
  · exact runRow_gives 0 (fun p hp => hpass p hp 0) hg

end Schedule

open FlowGraph

variable {traceName : String}

/-- What every splice keeps, splices one after another keep. -/
theorem keeps_of_reduces {P : FlowGraph → Prop} {α : Type} {p : α → Patch}
    {V : FlowGraph → α → Prop}
    (hP : ∀ {p : Patch} {g g' : FlowGraph}, g.Regular traceName → p.Applied traceName g g' →
      P g → P g')
    {g g' : FlowGraph} (h : Reduces traceName p V g g') (hg : P g) : P g' := by
  induction h with
  | refl => exact hg
  | tail _ hlast ih =>
    obtain ⟨hregular, a, -, happlied⟩ := hlast
    exact hP hregular happlied ih

/-- The passes of the pipeline keep graphs regular, and keep what the splices of each of them
keep. -/
theorem leaves_each {P : FlowGraph → Prop} {strict fixpoint : Bool} {maxIterations : Nat}
    (hinline : ∀ {g g' : FlowGraph} {iteration : Nat} {changed : Bool}, g.Regular traceName →
      (Pass.inlinePools strict).run iteration g = ⟨g', .ok changed⟩ →
      Reduces traceName (g.edgePatch fun e => [e])
        (g.StillPicked (pickPush (g.poolStates strict)) fun e => [e]) g g' → P g → P g')
    (htemplates : ∀ {g g' : FlowGraph}, Reduces traceName (g.edgePatch id)
      (g.StillPicked (fun _ => Edge.toTemplates? traceName) id) g g' → P g → P g')
    (hchains : ∀ {g g' : FlowGraph}, Reduces traceName g.chainPatch g.StillChain g g' →
      P g → P g')
    (hconditionals : ∀ {g g' : FlowGraph}, Reduces traceName g.regionPatch g.StillDiamond g g' →
      P g → P g')
    {p : Pass} (hp : p ∈ (Schedule.pipeline traceName strict fixpoint maxIterations).passes)
    (iteration : Nat) {g : FlowGraph} (hg : g.Regular traceName ∧ P g) :
    (p.run iteration g).Leaves fun g => g.Regular traceName ∧ P g := by
  simp only [Schedule.pipeline, List.mem_cons, List.not_mem_nil, or_false] at hp
  rcases hp with rfl | rfl | rfl | rfl
  · obtain ⟨g', changed, hrun, hg', h⟩ := hg.1.inlinePools strict iteration
    exact .inr (by rw [hrun]; exact ⟨⟨_, rfl⟩, hg', hinline hg.1 hrun h hg.2⟩)
  · obtain ⟨g', changed, hrun, hg', h⟩ := hg.1.formTemplates iteration
    exact .inr (by rw [hrun]; exact ⟨⟨_, rfl⟩, hg', htemplates h hg.2⟩)
  · rcases hg.1.mergeChains iteration with h | ⟨g', changed, hrun, hg', h⟩
    · exact .inl h
    · exact .inr (by rw [hrun]; exact ⟨⟨_, rfl⟩, hg', hchains h hg.2⟩)
  · obtain ⟨g', changed, hrun, hg', h⟩ := hg.1.formConditionals iteration
    exact .inr (by rw [hrun]; exact ⟨⟨_, rfl⟩, hg', hconditionals h hg.2⟩)

/-- The passes of the pipeline keep graphs regular, and keep what every splice keeps. -/
theorem leaves_passes {P : FlowGraph → Prop}
    (hP : ∀ {p : Patch} {g g' : FlowGraph}, g.Regular traceName → p.Applied traceName g g' →
      P g → P g')
    {strict fixpoint : Bool} {maxIterations : Nat} {p : Pass}
    (hp : p ∈ (Schedule.pipeline traceName strict fixpoint maxIterations).passes)
    (iteration : Nat) {g : FlowGraph} (hg : g.Regular traceName ∧ P g) :
    (p.run iteration g).Leaves fun g => g.Regular traceName ∧ P g :=
  leaves_each (fun _ _ => keeps_of_reduces hP) (keeps_of_reduces hP) (keeps_of_reduces hP)
    (keeps_of_reduces hP) hp iteration hg

/-- The pipeline leaves a regular graph. -/
theorem leaves_pipeline {strict fixpoint : Bool} {maxIterations : Nat} {g : FlowGraph}
    (hg : g.Regular traceName) :
    ((Schedule.pipeline traceName strict fixpoint maxIterations).run g).Leaves
      (Regular traceName) := by
  have hpass : ∀ p ∈ (Schedule.pipeline traceName strict fixpoint maxIterations).passes,
      ∀ iteration g, g.Regular traceName ∧ True →
        (p.run iteration g).Leaves fun g => g.Regular traceName ∧ True :=
    fun p hp iteration g => leaves_passes (fun _ _ _ => trivial) hp iteration
  exact (Schedule.run_cases hpass ⟨hg, trivial⟩).imp_right fun h => ⟨h.1, h.2.1⟩

end ScriptRecovery
