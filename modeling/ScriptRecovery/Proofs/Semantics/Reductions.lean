import ScriptRecovery.Proofs.Reduce.Schedules
import ScriptRecovery.Proofs.Semantics.Graphs

/-!
# Runs of reduced graphs

A splice does not add runs, when to pass the row that is laid is a way to run the old graph from the
node where the row starts (`Spliced.runs`).  That is so for the splices of every pass that looks at
one place of a graph: for templates in place of actions, for merged edges along a chain and for a
conditional edge in place of a diamond.
-/

namespace ScriptRecovery

variable {V σ : Type} {I : Interpretation V σ}

namespace FlowGraph

variable {traceName : String} {g g' : FlowGraph} {n dest : Nat} {gone : Nat → Prop}
  {row : List Edge}

/-! ## Splices -/

/-- From a place in the row that is laid the rest of the row is passed, and from a node that is kept
nothing more. -/
theorem runs_along_spliced (h : g.Spliced g' n dest gone row) (hg : g.Sound)
    (hr : g.Region n dest gone)
    (hrow : ∀ {c : Core V σ} {r : Effect V σ}, g.Runs I row dest c r → g.Runs I [] n c r)
    {es : List Edge} {x : Nat} {c : Core V σ} {r : Effect V σ} (hruns : g'.Runs I es x c r)
    {y : Nat} {post : List Edge} (hpost : g'.Row g.size y x post) (hy : g.Reachable y)
    (hgone : ¬ gone y) : g.Runs I (es ++ post) y c r := by
  obtain ⟨e, es', next, rfl, hnode, hlaid⟩ := h.laid
  induction hruns generalizing y post with
  | @ended x c hx =>
    cases hpost with
    | nil =>
      refine .ended ?_
      rw [← h.kept hy.lt_size _ hgone, hx]
      rintro rfl
      cases hx.symm.trans hnode
    | cons _ hx' _ => cases hx.symm.trans hx'
  | @simple x l c r hx _ ih =>
    cases hpost with
    | nil =>
      by_cases hxn : x = n
      · subst hxn
        cases hx.symm.trans hnode
        exact hrow (ih hlaid hr.exit hr.exit_kept)
      · obtain ⟨hsame, htargets⟩ := h.onward hg hr hy hgone hxn
        rw [hx] at hsame
        obtain ⟨hl, hgl⟩ := htargets l.dest (by simp [Graph.targets_of_simple hsame])
        have hnext := ih .nil hl hgl
        rw [List.append_nil] at hnext ⊢
        exact .simple hsame hnext
    | cons _ hx' hpost =>
      cases hx.symm.trans hx'
      exact ih hpost hy hgone
  | @branch x a b l c r hx hl _ ih =>
    cases hpost with
    | nil =>
      obtain ⟨hsame, htargets⟩ := h.onward hg hr hy hgone fun hxn => by
        cases (hxn ▸ hx).symm.trans hnode
      rw [hx] at hsame
      obtain ⟨hd, hgd⟩ := htargets l.dest (by
        rw [Graph.targets_of_node? hsame, hl]
        split <;> simp [Node.targets, Node.links])
      have hnext := ih .nil hd hgd
      rw [List.append_nil] at hnext ⊢
      exact .branch hsame hl hnext
    | cons _ hx' _ => cases hx.symm.trans hx'
  | pass he _ ih => exact .pass he (ih hpost hy hgone)
  | stop he hne => exact .stop he hne
  | choose _ ih =>
    have hrest := ih hpost hy hgone
    rw [List.append_assoc] at hrest
    exact .choose hrest

/-- What a graph does after a splice it did before, when that is so for the row that is laid. -/
theorem runs_of_spliced (h : g.Spliced g' n dest gone row) (hg : g.Sound)
    (hr : g.Region n dest gone)
    (hrow : ∀ {c : Core V σ} {r : Effect V σ}, g.Runs I row dest c r → g.Runs I [] n c r)
    {c : Core V σ} {r : Effect V σ} (hruns : g'.Runs I [] g'.source c r) :
    g.Runs I [] g.source c r := by
  rw [h.source] at hruns
  exact runs_along_spliced h hg hr hrow hruns .nil hg.reachable_source hr.source_kept

/-! ## Ways back to the entry -/

/-- Whether nothing leads back to the entry. -/
def NoReturn (g : FlowGraph) : Prop := ∀ m, g.Reachable m → g.source ∉ g.targets m

/-- The last edge of a row leads on to where the row ends. -/
theorem exists_last {low x k : Nat} {es : List Edge} (h : g.Row low dest x es)
    (hk : g.Reachable k) (hx : x ∈ g.targets k) : ∃ m, g.Reachable m ∧ dest ∈ g.targets m := by
  induction h generalizing k with
  | nil => exact ⟨k, hk, hx⟩
  | @cons x _ _ _ _ hnode _ ih =>
    exact ih (hk.step hx (Graph.lt_size_of_node? hnode)) (by simp [Graph.targets_of_simple hnode])

/-- A splice does not cut off a way back to the entry. -/
theorem noReturn_of_spliced (h : g.Spliced g' n dest gone row) (hr : g.Region n dest gone)
    (hg' : g'.NoReturn) : g.NoReturn := by
  intro m hm hback
  by_cases hin : m = n ∨ gone m
  · obtain rfl : g.source = dest := (hr.leads hin hback).resolve_left hr.source_kept
    obtain ⟨e, es, next, -, hnode, hlaid⟩ := h.laid
    obtain ⟨k, hk, hkd⟩ := exists_last hlaid (h.reachable.2 (.inl ⟨hr.entry, hr.entry_kept⟩))
      (by simp [Graph.targets_of_simple hnode])
    exact hg' k hk (h.source ▸ hkd)
  · rw [not_or] at hin
    refine hg' m (h.reachable.2 (.inl ⟨hm, hin.2⟩)) ?_
    rwa [h.source, Graph.targets_congr (h.kept hm.lt_size hin.1 hin.2)]

/-! ## Rows that do the same -/

/-- Templates in a row are applied one after another. -/
theorem runs_templates {ts : List Template} {es : List Edge} {c : Core V σ} {r : Effect V σ}
    (h : g.Runs I (ts.map .template ++ es) n c r) :
    g.Runs I es n (ts.foldl (fun c t => I.apply t c) c) r := by
  induction ts generalizing c with
  | nil => exact h
  | cons t ts ih => exact ih (h.passed rfl)

/-- The edge that stands for an empty row is passed like the empty row. -/
theorem runs_rowOf {es : List Edge} {c : Core V σ} {r : Effect V σ}
    (h : g.Runs I (Graph.rowOf es) n c r) : g.Runs I es n c r := by
  cases es with
  | nil => exact h.passed rfl
  | cons e es => exact h

/-- An action is passed like its templates. -/
theorem runs_action {a : Action} {ts : List Template} (ha : a.templates? I.names.trace = some ts)
    {c : Core V σ} {r : Effect V σ} (h : g.Runs I (Graph.rowOf (ts.map .template)) n c r) :
    g.Runs I [.action a] n c r := by
  refine .pass (I.act_templates ha c) (runs_templates ?_)
  rw [List.append_nil]
  exact runs_rowOf h

/-- A merged edge is lawful, and passed like its two parts. -/
theorem runs_merge {a b e : Edge} (ha : a.Lawful traceName) (hb : b.Lawful traceName)
    (h : a.merge b = .ok (some e)) :
    e.Lawful traceName ∧ ∀ {es : List Edge} {c : Core V σ} {r : Effect V σ},
      g.Runs I (e :: es) n c r → g.Runs I (a :: b :: es) n c r := by
  have plain_left : ∀ {e : Edge} {es : List Edge} {c : Core V σ} {r : Effect V σ},
      g.Runs I (e :: es) n c r → g.Runs I (.plain :: e :: es) n c r := fun h => .pass rfl h
  have plain_right : ∀ {e : Edge} {es : List Edge} {c : Core V σ} {r : Effect V σ},
      g.Runs I (e :: es) n c r → g.Runs I (e :: .plain :: es) n c r := by
    intro e es c r h
    refine (show g.Runs I ([e] ++ es) n c r from h).append fun h => .pass rfl h
  obtain ⟨rfl, rfl⟩ | ⟨rfl, rfl⟩ | ⟨t₁, t₂, t, rfl, rfl, hmerge, rfl⟩ := Edge.merge_eq_ok h
  · exact ⟨hb, plain_left⟩
  · exact ⟨ha, plain_right⟩
  · have ht₁ : t₁.Formed traceName := by cases ha; assumption
    have ht₂ : t₂.Formed traceName := by cases hb; assumption
    refine ⟨.template (ht₁.merge ht₂ hmerge), fun {es c r} h => ?_⟩
    refine .pass rfl (.pass rfl ?_)
    rw [← I.apply_merge ht₁ ht₂ hmerge]
    exact h.passed rfl

/-- A row is passed like the row it is merged into. -/
theorem runs_reduceRow {row row' : List Edge} (hr : ∀ e ∈ row, e.Lawful traceName)
    (h : Edge.reduceRow row = .ok (some row')) {c : Core V σ} {r : Effect V σ}
    (hruns : g.Runs I row' n c r) : g.Runs I row n c r := by
  replace h := Edge.reduceRow_merges h
  induction h using Relation.ReflTransGen.head_induction_on with
  | refl => exact hruns
  | head hfirst _ ih =>
    obtain ⟨pre, post, hmerge⟩ := hfirst
    simp only [List.forall_mem_append, List.forall_mem_cons] at hr
    obtain ⟨hpre, ha, hb, hpost⟩ := hr
    obtain ⟨hboth, hpass⟩ := runs_merge (g := g) (n := n) ha hb hmerge
    refine (ih ?_).append hpass
    simp only [List.forall_mem_append, List.forall_mem_cons]
    exact ⟨hpre, hboth, hpost⟩

/-! ## Passes -/

/-- Whether a graph without a way back to the entry comes of another such graph, and does nothing
that the other one does not do. -/
structure Refines (I : Interpretation V σ) (g g' : FlowGraph) : Prop where
  noReturn : g'.NoReturn → g.NoReturn
  runs : g'.NoReturn → ∀ {c : Core V σ} {r : Effect V σ}, g'.Runs I [] g'.source c r →
    g.Runs I [] g.source c r

theorem Refines.refl (g : FlowGraph) : Refines I g g := ⟨id, fun _ _ _ => id⟩

theorem Refines.trans {g'' : FlowGraph} (h : Refines I g g') (h' : Refines I g' g'') :
    Refines I g g'' :=
  ⟨fun hg => h.noReturn (h'.noReturn hg), fun hg _ _ hr =>
    h.runs (h'.noReturn hg) (h'.runs hg hr)⟩

/-- Splices do not cut off a way back to the entry. -/
theorem noReturn_of_reduces {α : Type} {p : α → Patch} {P : FlowGraph → α → Prop}
    (h : Reduces traceName p P g g') (hg' : g'.NoReturn) : g.NoReturn := by
  induction h with
  | refl => exact hg'
  | tail _ hlast ih =>
    obtain ⟨-, a, -, happlied⟩ := hlast
    exact ih (noReturn_of_spliced happlied.spliced happlied.region hg')

theorem source_of_reduces {α : Type} {p : α → Patch} {P : FlowGraph → α → Prop}
    (h : Reduces traceName p P g g') : g'.source = g.source := by
  induction h with
  | refl => rfl
  | tail _ hlast ih =>
    obtain ⟨-, _, -, happlied⟩ := hlast
    exact happlied.spliced.source.trans ih

/-- Splices refine a graph when to pass the row of each is a way to run the graph it is laid in. -/
theorem refines_of_reduces {α : Type} {p : α → Patch} {P : FlowGraph → α → Prop}
    (hrow : ∀ {g : FlowGraph} {a : α}, g.Regular traceName → P g a →
      ∀ {c : Core V σ} {r : Effect V σ},
      g.Runs I (p a).row (p a).dest c r → g.Runs I [] (p a).source c r)
    (h : Reduces traceName p P g g') : Refines I g g' := by
  refine ⟨noReturn_of_reduces h, fun hg' => ?_⟩
  clear hg'
  induction h with
  | refl => exact id
  | tail _ hlast ih =>
    obtain ⟨hg, a, hv, happlied⟩ := hlast
    intro c r hruns
    exact ih (runs_of_spliced happlied.spliced hg.sound happlied.region (hrow hg hv) hruns)

/-- Templates in place of actions refine a graph. -/
theorem refines_formTemplates
    (h : Reduces traceName (g.edgePatch id)
      (g.StillPicked (fun _ => Edge.toTemplates? I.names.trace) id) g g') : Refines I g g' := by
  refine refines_of_reduces (fun {g₁ a} _ hv {c r} hruns => ?_) h
  obtain ⟨e, hnode, hpick⟩ := hv.node
  obtain ⟨act, ts, rfl, hts, hrow⟩ := toTemplates?_eq_some hpick
  refine .simple hnode (runs_action hts ?_)
  rw [← hrow]
  exact hruns

/-- Merged edges along chains refine a graph. -/
theorem refines_mergeChains (h : Reduces traceName g.chainPatch g.StillChain g g') :
    Refines I g g' := by
  refine refines_of_reduces (fun {g₁ a} hg hv {c r} hruns => ?_) h
  obtain ⟨chain, row⟩ := a
  obtain ⟨es, hchain, hrow⟩ := hv
  simp only [chainPatch] at hchain hrow hruns ⊢
  generalize g.chainDest chain = dest at hchain hruns ⊢
  cases hchain with
  | @mk n x e ns es hn hnode hlane hnd =>
    have hlawful := (hg.fits_of_lane hlane hn hnode).lawful
    have hpassed := runs_reduceRow hlawful hrow (runs_rowOf hruns)
    refine .simple hnode ((runs_row hlane.row).1 ?_)
    exact hpassed

/-- Conditional edges in place of diamonds refine a graph. -/
theorem refines_formConditionals (h : Reduces traceName g.regionPatch g.StillDiamond g g') :
    Refines I g g' := by
  refine refines_of_reduces (fun {g₁ cond} hg hv {c r} hruns => ?_) h
  obtain ⟨p, a, b, ns, ns', es, es', hdiamond, hedge, -⟩ := hv
  rw [show (g.regionPatch cond).row = [cond.edge] from rfl, hedge] at hruns
  refine .simple hdiamond.way (.pass rfl ?_)
  cases hruns with
  | pass he _ => cases he
  | stop he _ => cases he
  | choose h =>
    rw [List.append_nil] at h
    refine .branch hdiamond.branch rfl ?_
    cases hholds : I.holds (I.peek c.stack 0) with
    | true =>
      rw [hholds, if_pos rfl, Graph.path_linear] at h
      refine (runs_row hdiamond.onTrue.row).1 ?_
      exact h
    | false =>
      rw [hholds, if_neg (by simp), Graph.path_linear] at h
      refine (runs_row hdiamond.onFalse.row).1 ?_
      exact h

end FlowGraph

end ScriptRecovery
