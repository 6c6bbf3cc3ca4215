import ScriptRecovery.Proofs.Reduce.Demand
import ScriptRecovery.Proofs.Reduce.Pools
import ScriptRecovery.Proofs.Reduce.Settled
import ScriptRecovery.Proofs.Reduce.Spent

/-!
# How soon a schedule settles

A row of the pipeline leaves a graph without actions that amount to templates
(`FlowGraph.Translated`), on which nothing merges any more.  So the first three passes are idle from
then on, until conditionals are formed.  Each conditional that is formed takes a test out of the
graph, and no splice adds one.  So a row either lowers the number of tests or leaves a graph on
which the whole pipeline is idle (`runRow_pipeline`).

If a graph has `k` tests, then at most `k + 1` rows have a pass that reports a change, and the
pipeline settles in `k + 2` rows (`pipeline_converges`).
-/

namespace ScriptRecovery

namespace Schedule

/-- Whether a pass of a row reports a change. -/
def reportsChange (iteration : Nat) (g : FlowGraph) : List Pass → Bool
  | [] => false
  | p :: ps =>
      match p.run iteration g with
      | ⟨_, .error _⟩ => false
      | ⟨g, .ok changed⟩ => changed || reportsChange iteration g ps

/-- The number of rows in which a pass reports a change, among those that are left. -/
def changingIn (passes : List Pass) (iteration : Nat) (g : FlowGraph) : Nat → Nat
  | 0 => 0
  | left + 1 =>
      (reportsChange iteration g passes).toNat +
        match runRow iteration g passes with
        | ⟨g, .ok true⟩ => changingIn passes (iteration + 1) g left
        | _ => 0

/-- The number of rows of a run in fixpoint mode in which a pass reports a change. -/
def changingRows (s : Schedule) (g : FlowGraph) : Nat := changingIn s.passes 0 g s.maxIterations

variable {passes : List Pass} {g : FlowGraph} {iteration : Nat}

/-- A row of passes that have nothing to do. -/
theorem runRow_of_idle (h : ∀ p ∈ passes, p.run iteration g = .unchanged g) :
    runRow iteration g passes = .unchanged g ∧ reportsChange iteration g passes = false := by
  induction passes with
  | nil => exact ⟨rfl, rfl⟩
  | cons p ps ih =>
    obtain ⟨hp, hps⟩ := List.forall_mem_cons.1 h
    obtain ⟨hrow, hreports⟩ := ih hps
    constructor
    · simp only [runRow, hp, Outcome.unchanged, hrow, Except.map, Bool.or_self]
    · simp only [reportsChange, hp, Outcome.unchanged, hreports, Bool.or_self]

theorem changingIn_of_idle (h : ∀ p ∈ passes, ∀ iteration, p.run iteration g = .unchanged g)
    (iteration left : Nat) : changingIn passes iteration g left = 0 := by
  cases left with
  | zero => rfl
  | succ left =>
    obtain ⟨hrow, hreports⟩ := runRow_of_idle fun p hp => h p hp iteration
    simp only [changingIn, hrow, hreports, Outcome.unchanged, Bool.toNat_false]

end Schedule

namespace FlowGraph

variable {g g' : FlowGraph} {traceName : String} {strict : Bool}

/-! ## Tests -/

/-- The reachable branching nodes. -/
def branches (g : FlowGraph) : List Nat :=
  (g.list .reversePostorder).filter fun n =>
    match g.node? n with
    | some (.branch _ _) => true
    | _ => false

theorem mem_branches {n : Nat} :
    n ∈ g.branches ↔ g.Reachable n ∧ ∃ a b, g.node? n = some (.branch a b) := by
  rw [branches, List.mem_filter, Graph.mem_list]
  refine and_congr_right fun _ => ?_
  constructor
  · intro h
    split at h
    · next a b hnode => exact ⟨a, b, hnode⟩
    · cases h
  · rintro ⟨a, b, hnode⟩
    rw [hnode]

theorem nodup_branches (g : FlowGraph) : g.branches.Nodup :=
  (Graph.nodup_reversePostorder g).filter _

/-- Splices add no tests. -/
theorem branches_subset {α : Type} {p : α → Patch} {V : FlowGraph → α → Prop}
    (h : Reduces traceName p V g g') : g'.branches ⊆ g.branches := by
  refine keeps_of_reduces (P := fun g' => g'.branches ⊆ g.branches) (fun hg hp hsub => ?_) h
    (List.Subset.refl _)
  intro n hn
  obtain ⟨hreach, a, b, hbranch⟩ := mem_branches.1 hn
  obtain ⟨hold, -, hbranch⟩ := hp.branch hg hreach hbranch
  exact hsub (mem_branches.2 ⟨hold, a, b, hbranch⟩)

theorem length_branches_le (h : g'.branches ⊆ g.branches) :
    g'.branches.length ≤ g.branches.length :=
  ((nodup_branches g').subperm h).length_le

/-- A graph has fewer tests than one whose tests include its own and another. -/
theorem length_branches_lt (h : g'.branches ⊆ g.branches) {n : Nat} (hn : n ∈ g.branches)
    (hn' : n ∉ g'.branches) : g'.branches.length < g.branches.length := by
  have hnodup : (n :: g'.branches).Nodup := List.nodup_cons.2 ⟨hn', nodup_branches g'⟩
  exact (hnodup.subperm (List.cons_subset.2 ⟨hn, h⟩)).length_le

/-- Forming conditionals takes a test out of the graph, or finds nothing. -/
theorem Regular.formConditionals_lt (hg : g.Regular traceName) (iteration : Nat) :
    ∃ g' changed, Pass.formConditionals.run iteration g = ⟨g', .ok changed⟩ ∧
      g'.Regular traceName ∧ Reduces traceName g.regionPatch g.StillDiamond g g' ∧
      (g'.branches.length < g.branches.length ∨
        Pass.formConditionals.run iteration g = .unchanged g) := by
  obtain ⟨cs, g', changed, hcs, hrun, hg', hreduces, hout⟩ := hg.formConditionals_found iteration
  refine ⟨g', changed, hrun, hg', hreduces, ?_⟩
  cases cs with
  | nil =>
    right
    simp only [Pass.formConditionals, conditionals, hcs.found, Outcome.ofEdits]
  | cons c cs =>
    left
    obtain ⟨p, a, b, ns, ns', es, es', hdiamond, -, hgone⟩ := hcs.diamond c (by simp)
    have hp : p ∈ (g.regionPatch c).gone := (hgone p).2 (by simp [Graph.between])
    refine length_branches_lt (branches_subset hreduces) (n := p) ?_ fun hmem => ?_
    · exact mem_branches.2 ⟨hdiamond.reachable_branch hg.sound, a, b, hdiamond.branch⟩
    · exact hout c (by simp) p hp (mem_branches.1 hmem).1

/-! ## Actions -/

/-- Whether no action is left that amounts to templates. -/
def Translated (g : FlowGraph) (traceName : String) : Prop :=
  ∀ ⦃n dest : Nat⦄ ⦃e : Edge⦄, g.Reachable n → g.node? n = some (.simple ⟨e, dest⟩) →
    e.toTemplates? traceName = none

/-- The splice of a row without such actions leaves none. -/
theorem Translated.splice {p : Patch} (h : g.Translated traceName) (hg : Graph.Sound g)
    (hp : p.Carried g g') (hrow : ∀ e ∈ p.row, e.toTemplates? traceName = none) :
    g'.Translated traceName := by
  intro n dest e hn hnode
  cases hp.spliced.site hg hp.region hn with
  | kept hold _ _ hsame => exact h hold (hsame ▸ hnode)
  | laid hpre _ hnode' _ =>
    cases hnode.symm.trans hnode'
    exact hrow e (by simp [hpre])

/-- While templates take the places of actions: an action that amounts to templates is at a node
that is left. -/
structure Translating (g : FlowGraph) (traceName : String) (rest : List (Nat × List Edge)) :
    Prop where
  sound : Graph.Sound g
  left : ∀ {n dest : Nat} {e : Edge}, g.Reachable n → g.node? n = some (.simple ⟨e, dest⟩) →
    e.toTemplates? traceName = none ∨ ∃ r ∈ rest, r.1 = n

theorem Translating.splice {g₁ g₂ : FlowGraph} {r : Nat × List Edge}
    {rest : List (Nat × List Edge)} (h : g₁.Translating traceName (r :: rest))
    (hr : g.StillPicked (fun _ => Edge.toTemplates? traceName) id g₁ r) (hg₂ : Graph.Sound g₂)
    (hc : (g.edgePatch id r).Carried g₁ g₂) : g₂.Translating traceName rest := by
  obtain ⟨e₀, -, hpick⟩ := hr.node
  obtain ⟨_, ts, -, -, hrow⟩ := toTemplates?_eq_some hpick
  have hlaid : ∀ e ∈ (g.edgePatch id r).row, e.toTemplates? traceName = none := by
    refine Graph.forall_mem_rowOf rfl fun e he => ?_
    rw [id_eq, hrow] at he
    obtain ⟨t, -, rfl⟩ := List.mem_map.1 he
    rfl
  refine ⟨hg₂, fun {n dest e} hn hnode => ?_⟩
  cases hc.spliced.site h.sound hc.region hn with
  | kept hold _ hne hsame =>
    refine (h.left hold (hsame ▸ hnode)).imp_right fun ⟨r', hr', hn'⟩ => ⟨r', ?_, hn'⟩
    refine (List.mem_cons.1 hr').resolve_left ?_
    rintro rfl
    exact hne hn'.symm
  | laid hpre _ hnode' _ =>
    cases hnode.symm.trans hnode'
    exact .inl (hlaid e (by simp [hpre]))

/-- Putting templates in place of actions leaves none that amounts to templates. -/
theorem translated_formTemplates (hg : Graph.Sound g) {iteration : Nat} {changed : Bool}
    (hrun : (Pass.formTemplates traceName).run iteration g = ⟨g', .ok changed⟩) :
    g'.Translated traceName := by
  have hstart : g.Translating traceName
      (g.pickEdges fun _ => Edge.toTemplates? traceName) := by
    refine ⟨hg, fun {n dest e} hn hnode => ?_⟩
    cases hpick : e.toTemplates? traceName with
    | none => exact .inl rfl
    | some row => exact .inr ⟨(n, row), mem_pickEdges_of hn hnode hpick, rfl⟩
  obtain ⟨g₂, happly, htranslated, -⟩ := applyAll_along (p := g.edgePatch id)
    (V := g.StillPicked (fun _ => Edge.toTemplates? traceName) id)
    (I := fun rest g₁ => g₁.Translating traceName rest) (R := fun _ _ => True)
    (fun h => h.sound) (fun _ hr => hr.reachable) (fun _ => by simp [edgePatch]) StillPicked.keeps
    (fun {g₁ r rest} h hr => by
      obtain ⟨g₂, hsplice, hsound, hcarried⟩ := hr.splice h.sound
      exact ⟨g₂, hsplice, h.splice hr hsound hcarried, hcarried, trivial⟩)
    hstart stillPicked_pickEdges apart_pickEdges
  obtain ⟨changed', hchanged⟩ := Outcome.ofEdits_eq_of_applyAll happly
  obtain ⟨rfl, -⟩ := Outcome.mk.inj (hrun.symm.trans hchanged)
  exact fun _ _ _ hn hnode => (htranslated.left hn hnode).resolve_right (by simp)

/-- Merging neighbours brings no action. -/
theorem toTemplates?_of_merges {row row' : List Edge}
    (h : Relation.ReflTransGen Edge.MergesTo row row')
    (hrow : ∀ e ∈ row, e.toTemplates? traceName = none) :
    ∀ e ∈ row', e.toTemplates? traceName = none := by
  induction h with
  | refl => exact hrow
  | tail _ hmerge ih =>
    cases hmerge with
    | @mk a b both pre post hmerge =>
      intro e he
      have hpart : ∀ e', e' ∈ pre ++ a :: b :: post → e'.toTemplates? traceName = none := ih
      rcases List.mem_append.1 he with he | he
      · exact hpart e (by simp [he])
      rcases List.mem_cons.1 he with rfl | he
      · rcases Edge.merge_eq_ok hmerge with ⟨-, rfl⟩ | ⟨-, rfl⟩ | ⟨t₁, t₂, t, -, -, -, rfl⟩
        · exact hpart e (by simp)
        · exact hpart e (by simp)
        · rfl
      · exact hpart e (by simp [he])

/-- The edges along a lane are none of the actions that amount to templates. -/
theorem Translated.of_lane (h : g.Translated traceName) {dest prev x : Nat} {ns : List Nat}
    {e₀ : Edge} {es : List Edge} (hlane : g.Lane dest prev x ns es) (hg : Graph.Sound g)
    (hp : g.Reachable prev) (hnode : g.node? prev = some (.simple ⟨e₀, x⟩)) :
    ∀ e ∈ e₀ :: es, e.toTemplates? traceName = none := by
  induction hlane generalizing e₀ with
  | done => exact List.forall_mem_singleton.2 (h hp hnode)
  | step _ _ hnode' _ ih =>
    refine List.forall_mem_cons.2 ⟨h hp hnode, ih (hg.reachable_target hp ?_) hnode'⟩
    simp [Graph.targets_of_simple hnode]

/-- Merging chains brings no action. -/
theorem Translated.mergeChains {g₁ : FlowGraph} (h : g.Translated traceName)
    (hreduces : Reduces traceName g₁.chainPatch g₁.StillChain g g') :
    g'.Translated traceName := by
  induction hreduces with
  | refl => exact h
  | @tail g₂ g₃ _ hlast ih =>
    obtain ⟨hg₂, ⟨chain, row⟩, ⟨es, hchain, hrow⟩, happlied⟩ := hlast
    refine ih.splice hg₂.sound ⟨happlied.region, happlied.spliced⟩ ?_
    refine Graph.forall_mem_rowOf rfl (toTemplates?_of_merges (Edge.reduceRow_merges hrow) ?_)
    cases hchain with
    | mk hn hnode hlane _ => exact ih.of_lane hlane hg₂.sound hn hnode

/-- Forming conditionals brings no action. -/
theorem Translated.formConditionals {g₁ : FlowGraph} (h : g.Translated traceName)
    (hreduces : Reduces traceName g₁.regionPatch g₁.StillDiamond g g') :
    g'.Translated traceName := by
  induction hreduces with
  | refl => exact h
  | tail _ hlast ih =>
    obtain ⟨hg₂, c, ⟨p, a, b, ns, ns', es, es', -, hedge, -⟩, happlied⟩ := hlast
    refine ih.splice hg₂.sound ⟨happlied.region, happlied.spliced⟩ ?_
    simp [regionPatch, hedge, Edge.toTemplates?]

/-- Where no action amounts to templates, there is none to translate, and no push to put texts
into. -/
theorem Translated.idle (h : g.Translated traceName) (strict : Bool) (iteration : Nat) :
    (Pass.inlinePools strict).run iteration g = .unchanged g ∧
      (Pass.formTemplates traceName).run iteration g = .unchanged g := by
  have hpicked : ∀ {α : Type} {pick : Nat → Edge → Option α}, (∀ {n : Nat} {e : Edge} {a : α},
      pick n e = some a → e.toTemplates? traceName ≠ none) → g.pickEdges pick = [] := by
    intro α pick hpick
    refine List.eq_nil_iff_forall_not_mem.2 fun ⟨n, a⟩ ha => ?_
    obtain ⟨hn, e, dest, hnode, hp⟩ := mem_pickEdges ha
    exact hpick hp (h hn hnode)
  have hpools : g.poolPushes strict = [] := by
    have hpush : ∀ {n : Nat} {e e' : Edge}, pickPush (g.poolStates strict) n e = some e' →
        e.toTemplates? traceName ≠ none := fun hp => by
      obtain ⟨_, _, _, -, -, rfl, -⟩ := pickPush_eq_some hp
      nofun
    exact hpicked hpush
  constructor
  · simp only [Pass.inlinePools, hpools, Outcome.ofEdits]
  · have hnone : (g.pickEdges fun _ => Edge.toTemplates? traceName) = [] :=
      hpicked fun hp => by simp [hp]
    simp only [Pass.formTemplates, hnone, Outcome.ofEdits]

/-! ## Rows of the pipeline -/

/-- The passes of the pipeline. -/
abbrev pipelineRow (traceName : String) (strict : Bool) : List Pass :=
  [.inlinePools strict, .formTemplates traceName, .mergeChains, .formConditionals]

/-- Whether no pass of the pipeline has anything to do. -/
def Idle (g : FlowGraph) (traceName : String) (strict : Bool) : Prop :=
  ∀ p ∈ pipelineRow traceName strict, ∀ iteration, p.run iteration g = .unchanged g

/-- A row of the pipeline takes a test out of the graph, or it leaves a graph on which the pipeline
is idle. -/
theorem Regular.runRow_pipeline (hg : g.Regular traceName) (strict : Bool)
    (iteration : Nat) :
    (Schedule.runRow iteration g (pipelineRow traceName strict)).changed = .error .counterOverflow ∨
      ∃ g' changed, Schedule.runRow iteration g (pipelineRow traceName strict) =
        ⟨g', .ok changed⟩ ∧ g'.Regular traceName ∧
        (g'.branches.length < g.branches.length ∨ g'.Idle traceName strict) := by
  obtain ⟨g₁, changed₁, hrun₁, hg₁, hreduces₁⟩ := hg.inlinePools strict iteration
  obtain ⟨g₂, changed₂, hrun₂, hg₂, hreduces₂⟩ := hg₁.formTemplates iteration
  have htranslated₂ := translated_formTemplates hg₁.sound hrun₂
  rcases hg₂.mergeChains iteration with hfault | ⟨g₃, changed₃, hrun₃, hg₃, hreduces₃⟩
  · left
    rcases hrun₃ : Pass.mergeChains.run iteration g₂ with ⟨g₃, changed₃⟩
    obtain rfl : changed₃ = .error .counterOverflow := by rw [hrun₃] at hfault; exact hfault
    simp only [Schedule.runRow, hrun₁, hrun₂, hrun₃, Except.map]
  right
  have htranslated₃ := htranslated₂.mergeChains hreduces₃
  have hspent := mergeChains_spent hg₂.sound hrun₃
  obtain ⟨g₄, changed₄, hrun₄, hg₄, hreduces₄, hfewer⟩ := hg₃.formConditionals_lt iteration
  refine ⟨g₄, changed₁ || (changed₂ || (changed₃ || (changed₄ || false))), by
    simp only [Schedule.runRow, hrun₁, hrun₂, hrun₃, hrun₄, Outcome.unchanged, Except.map],
    hg₄, ?_⟩
  refine hfewer.imp (fun hlt => ?_) fun hidle => ?_
  · calc g₄.branches.length < g₃.branches.length := hlt
      _ ≤ g₂.branches.length := length_branches_le (branches_subset hreduces₃)
      _ ≤ g₁.branches.length := length_branches_le (branches_subset hreduces₂)
      _ ≤ g.branches.length := length_branches_le (branches_subset hreduces₁)
  · obtain ⟨rfl, -⟩ := Outcome.mk.inj (hrun₄.symm.trans hidle)
    intro p hp i
    simp only [List.mem_cons, List.not_mem_nil, or_false] at hp
    rcases hp with rfl | rfl | rfl | rfl
    · exact (htranslated₃.idle strict i).1
    · exact (htranslated₃.idle strict i).2
    · exact hspent.mergeChains_idle hg₃.sound i
    · exact hidle

/-- A schedule with nothing to do changes nothing. -/
theorem Idle.run_pipeline (h : g.Idle traceName strict) (maxIterations : Nat) :
    (Schedule.pipeline traceName strict true maxIterations).run g = .unchanged g := by
  cases maxIterations with
  | zero => rfl
  | succ left =>
    have hrow := (Schedule.runRow_of_idle fun p hp => h p hp 0).1
    simp only [Schedule.run, Schedule.pipeline, if_true, Schedule.runRows, hrow, Outcome.unchanged]

/-- Rows of the pipeline in which a pass reports a change are at most one more than there are
tests. -/
theorem Regular.changingIn_le (hg : g.Regular traceName) (strict : Bool)
    (iteration left : Nat) :
    Schedule.changingIn (pipelineRow traceName strict) iteration g left ≤
      g.branches.length + 1 := by
  induction left generalizing g iteration with
  | zero => exact Nat.zero_le _
  | succ left ih =>
    have hone := Bool.toNat_le
      (Schedule.reportsChange iteration g (pipelineRow traceName strict))
    rw [Schedule.changingIn]
    rcases hg.runRow_pipeline strict iteration with
      hfault | ⟨g', changed, hrow, hg', hfewer⟩
    · split
      · next hrow =>
        rw [hrow] at hfault
        cases hfault
      · omega
    · rw [hrow]
      cases changed with
      | false => simp only; omega
      | true =>
        rcases hfewer with hlt | hidle
        · have := ih hg' (iteration + 1)
          simp only
          omega
        · simp only [Schedule.changingIn_of_idle hidle]
          omega

/-- Two more rows than there are tests are enough for the pipeline to settle. -/
theorem Regular.settledIn_of_le (hg : g.Regular traceName) (strict : Bool)
    (iteration : Nat) {left : Nat} (hleft : g.branches.length + 2 ≤ left) :
    (Schedule.runRows (pipelineRow traceName strict) iteration g left).changed =
        .error .counterOverflow ∨
      ∃ g', Schedule.settledIn? (pipelineRow traceName strict) iteration g left = some g' ∧
        g'.Idle traceName strict := by
  induction left generalizing g iteration with
  | zero => omega
  | succ left ih =>
    rw [Schedule.runRows, Schedule.settledIn?]
    rcases hg.runRow_pipeline strict iteration with
      hfault | ⟨g', changed, hrow, hg', hfewer⟩
    · left
      split
      · next hrow =>
        rw [hrow] at hfault
        exact hfault
      · next hrow =>
        rw [hrow] at hfault
        cases hfault
      · next hrow =>
        rw [hrow] at hfault
        cases hfault
    · rw [hrow]
      cases changed with
      | false =>
        right
        -- the row left the graph as it was, with all its tests
        obtain ⟨rfl, -⟩ := Schedule.runRow_idle (fun p hp =>
          @careful_pipeline _ hg.sound traceName strict true 0 p hp iteration) hrow
        exact ⟨g', rfl, hfewer.resolve_left (Nat.lt_irrefl _)⟩
      | true =>
        rcases hfewer with hlt | hidle
        · refine (ih hg' (iteration + 1) (by omega)).imp (fun h => ?_) id
          simp only [h, Except.map]
        · right
          obtain ⟨left, rfl⟩ := Nat.exists_eq_add_of_le' (show 1 ≤ left by omega)
          obtain ⟨hrow', -⟩ := Schedule.runRow_of_idle fun p hp => hidle p hp (iteration + 1)
          exact ⟨g', by simp only [Schedule.settledIn?, hrow', Outcome.unchanged], hidle⟩

/-- On the graph of a stream with `k` reachable tests, at most `k + 1` rows of the pipeline have a
pass that reports a change.  If it may run `k + 2` rows, it ends with a row that changes nothing,
and to run it again changes nothing.  Only a stream whose actions demand more than a counter can
tell may end at the end of the range of one. -/
theorem pipeline_converges {s : Stream} (hg : ofStream s = .ok g) (traceName : String)
    (strict : Bool) (maxIterations : Nat) :
    (Schedule.pipeline traceName strict true maxIterations).changingRows g ≤
      g.branches.length + 1 ∧
    (g.branches.length + 2 ≤ maxIterations →
      (counterBound ≤ s.demand ∧
        ((Schedule.pipeline traceName strict true maxIterations).run g).changed =
          .error .counterOverflow) ∨
      ∃ g' changed, (Schedule.pipeline traceName strict true maxIterations).settled? g = some g' ∧
        (Schedule.pipeline traceName strict true maxIterations).run g = ⟨g', .ok changed⟩ ∧
        (Schedule.pipeline traceName strict true maxIterations).run g' = ⟨g', .ok false⟩) := by
  have hregular : g.Regular traceName := regular_ofStream hg
  refine ⟨hregular.changingIn_le strict 0 maxIterations, fun hmax => ?_⟩
  rcases hregular.settledIn_of_le strict _ hmax with hfault | ⟨g', hsettled, hidle⟩
  · refine .inl ⟨?_, hfault⟩
    by_contra hroom
    have hdemand : g.demand < counterBound :=
      Nat.lt_of_le_of_lt (demand_le_of_ofStream hg) (Nat.not_le.1 hroom)
    obtain ⟨⟨changed, hrun⟩, -⟩ := hregular.gives_pipeline hdemand strict true maxIterations
    cases hrun.symm.trans hfault
  · obtain ⟨changed, hrun⟩ := Schedule.runRows_of_settledIn hsettled
    exact .inr ⟨g', changed, hsettled, hrun, hidle.run_pipeline maxIterations⟩

/-- A value that is negated and then decides between nested branches. -/
def negatedBranches : Stream :=
  [⟨0, .push [.boolean true], 1⟩, ⟨1, .not, 2⟩, ⟨2, .branch 3, 3⟩, ⟨3, .branch 1, 4⟩,
    ⟨4, .trace, 5⟩, ⟨5, .pop, 6⟩]

/-- Four rows are enough for the two nested branches, and merge the value with its negation. -/
theorem pipeline_converges_negated : ∃ g g', ofStream negatedBranches = .ok g ∧
    Stream.demand negatedBranches = 6 ∧ g.branches.length = 2 ∧
    (Pass.mergeChains.run 0 ((Pass.formTemplates "trace").run 0 g).state).changed = .ok true ∧
    (Schedule.pipeline "trace" false true 4).changingRows g ≤ 3 ∧
    (Schedule.pipeline "trace" false true 4).settled? g = some g' ∧
    (Schedule.pipeline "trace" false true 4).run g' = ⟨g', .ok false⟩ := by
  have hgraph : ∃ g, ofStream negatedBranches = .ok g ∧ g.branches.length = 2 ∧
      (Pass.mergeChains.run 0 ((Pass.formTemplates "trace").run 0 g).state).changed = .ok true :=
    ⟨_, by cbv, by cbv, by cbv⟩
  obtain ⟨g, hg, htests, hmerged⟩ := hgraph
  have hdemand : Stream.demand negatedBranches = 6 := by cbv
  obtain ⟨hrows, hsettles⟩ := pipeline_converges hg "trace" false 4
  rcases hsettles (by omega) with ⟨hfull, -⟩ | ⟨g', -, hsettled, -, hagain⟩
  · rw [hdemand] at hfull
    exact absurd hfull (by decide)
  · exact ⟨g, g', hg, hdemand, htests, hmerged, by omega, hsettled, hagain⟩

end FlowGraph

end ScriptRecovery
