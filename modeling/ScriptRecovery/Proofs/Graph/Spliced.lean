import ScriptRecovery.Proofs.Graph.Splicing

/-!
# Graphs after a splice

What is reachable after a splice is an old node that was kept, or a place in the row that was laid
(`Spliced.site`).  Everything that is to be shown of a spliced graph, of its nodes or of its runs,
goes by these two cases.

A splice changes nothing at a distance (`Spliced.keeps`): a region apart from the one that was cut
out has the same nodes as before, and the same ways lead into it.  So splices that were planned
together can be carried out one after another.
-/

namespace ScriptRecovery

namespace Graph

variable {ε : Type} {g g' g'' : Graph ε} {n dest : Nat} {gone : Nat → Prop} {row : List ε}

/-! ## Walking along rows -/

theorem Row.mono {low low' n : Nat} {es : List ε} (h : g.Row low dest n es) (hl : low' ≤ low) :
    g.Row low' dest n es := by
  induction h with
  | nil => exact .nil
  | cons hlow hn _ ih => exact .cons (Nat.le_trans hl hlow) hn ih

/-- A row can be made longer at its end. -/
theorem Row.snoc {n m : Nat} {es : List ε} {e : ε} (h : g.Row 0 m n es)
    (hm : g.node? m = some (.simple ⟨e, dest⟩)) : g.Row 0 dest n (es ++ [e]) := by
  induction h with
  | nil => exact .cons (Nat.zero_le _) hm .nil
  | cons hlow hn _ ih => exact .cons hlow hn ih

/-- A row leads to one place. -/
theorem Row.unique {low low' m m' n : Nat} {es : List ε} (h : g.Row low m n es)
    (h' : g.Row low' m' n es) : m = m' := by
  induction h with
  | nil =>
    cases h'
    rfl
  | cons _ hn _ ih =>
    cases h' with
    | cons _ hn' hrow' =>
      cases hn.symm.trans hn'
      exact ih hrow'

/-! ## The nodes after a splice -/

/-- What a node is after a splice: one that was kept, or a place in the row. -/
inductive Site (g g' : Graph ε) (n dest : Nat) (gone : Nat → Prop) (row : List ε) (m : Nat) : Prop
  | kept : g.Reachable m → ¬ gone m → m ≠ n → g'.node? m = g.node? m →
      Site g g' n dest gone row m
  | laid {pre : List ε} {e : ε} {next : Nat} {post : List ε} : row = pre ++ e :: post →
      g'.Row 0 m n pre → g'.node? m = some (.simple ⟨e, next⟩) → g'.Row g.size dest next post →
      Site g g' n dest gone row m

/-- An old node that is not cut out has its site. -/
theorem Spliced.site_of_kept (h : g.Spliced g' n dest gone row) {m : Nat} (hm : g.Reachable m)
    (hgone : ¬ gone m) : g.Site g' n dest gone row m := by
  by_cases hmn : m = n
  · obtain ⟨e, es, next, hrow, hnode, hlaid⟩ := h.laid
    have hnil : g'.Row 0 m n [] := hmn ▸ .nil
    exact .laid hrow hnil (hmn ▸ hnode) hlaid
  · exact .kept hm hgone hmn (h.kept hm.lt_size hmn hgone)

/-- A node that is reachable after a splice has its site. -/
theorem Spliced.site (h : g.Spliced g' n dest gone row) (hg : g.Sound)
    (hr : g.Region n dest gone) {m : Nat} (hm : g'.Reachable m) : g.Site g' n dest gone row m := by
  refine hm.mem_of_closed (p := g.Site g' n dest gone row) ?_ fun x hx y hy _ => ?_
  · rw [h.source]
    exact h.site_of_kept hg.reachable_source hr.source_kept
  · cases hx with
    | kept hx hgone hxn hsame =>
      rw [targets_congr hsame] at hy
      exact h.site_of_kept (hg.reachable_target hx hy) fun hgy =>
        (hr.enclosed hgy hx hy).elim hxn hgone
    | laid hrow hpre hx hpost =>
      rw [targets_of_simple hx, List.mem_singleton] at hy
      subst hy
      cases hpost with
      | nil => exact h.site_of_kept hr.exit hr.exit_kept
      | cons _ hnext hpost =>
        exact .laid (by rw [hrow, List.append_cons]) (hpre.snoc hx) hnext hpost

/-- A node that is kept leads on to nodes that are kept. -/
theorem Spliced.onward (h : g.Spliced g' n dest gone row) (hg : g.Sound)
    (hr : g.Region n dest gone) {y : Nat} (hy : g.Reachable y) (hgone : ¬ gone y) (hyn : y ≠ n) :
    g.node? y = g'.node? y ∧ ∀ d ∈ g.targets y, g.Reachable d ∧ ¬ gone d := by
  refine ⟨(h.kept hy.lt_size hyn hgone).symm, fun d hd => ⟨hg.reachable_target hy hd, ?_⟩⟩
  exact fun hgd => (hr.enclosed hgd hy hd).elim hyn hgone

/-- What holds of all edges of a graph and of those of the row holds of all edges after a splice. -/
theorem Spliced.forall_edges {P : ε → Prop} (h : g.Spliced g' n dest gone row) (hg : g.Sound)
    (hr : g.Region n dest gone)
    (hold : ∀ {m : Nat} {node : Node ε} {l : Link ε}, g.Reachable m → g.node? m = some node →
      l ∈ node.links → P l.edge)
    (hrow : ∀ e ∈ row, P e) {m : Nat} {node : Node ε} {l : Link ε} (hm : g'.Reachable m)
    (hnode : g'.node? m = some node) (hl : l ∈ node.links) : P l.edge := by
  cases h.site hg hr hm with
  | kept hm _ _ hsame => exact hold hm (hsame ▸ hnode) hl
  | laid hpre _ hnode' _ =>
    obtain rfl := Option.some.inj (hnode.symm.trans hnode')
    obtain rfl : l = _ := by simpa [Node.links] using hl
    exact hrow _ (by simp [hpre])

/-- The ways into a node that is neither cut out nor the exit are the same as before. -/
theorem Spliced.mem_predecessors (h : g.Spliced g' n dest gone row) (hg : g.Sound)
    (hg' : g'.Sound) (hr : g.Region n dest gone) {x m : Nat} (hx : x < g.size) (hxd : x ≠ dest)
    (hgone : ¬ gone x) : m ∈ g'.predecessors x ↔ m ∈ g.predecessors x := by
  rw [hg'.index, hg.index]
  constructor
  · rintro ⟨hm, hmx⟩
    cases h.site hg hr hm with
    | kept hold _ _ hsame => exact ⟨hold, by rwa [targets_congr hsame] at hmx⟩
    | laid _ _ hnode hpost =>
      rw [targets_of_simple hnode, List.mem_singleton] at hmx
      subst hmx
      cases hpost with
      | nil => exact absurd rfl hxd
      | cons hlow _ _ => exact absurd hx (Nat.not_lt.2 hlow)
  · rintro ⟨hm, hmx⟩
    have hout : ¬ (m = n ∨ gone m) := fun hin => (hr.leads hin hmx).elim hgone hxd
    rw [not_or] at hout
    refine ⟨h.reachable.2 (.inl ⟨hm, hout.2⟩), ?_⟩
    rwa [targets_congr (h.kept hm.lt_size hout.1 hout.2)]

/-! ## Regions that are left alone -/

/-- A graph that has the nodes of a region as another one has them, and the ways into it. -/
structure Keeps (g g' : Graph ε) (n : Nat) (gone : Nat → Prop) : Prop where
  source : g'.source = g.source
  reachable : g.Reachable n → g'.Reachable n
  node : ∀ {x : Nat}, x = n ∨ gone x → g'.node? x = g.node? x
  preds : ∀ {x m : Nat}, gone x → (m ∈ g'.predecessors x ↔ m ∈ g.predecessors x)

/-- A splice keeps every region that does not meet the one cut out or contain its exit. -/
theorem Spliced.keeps (h : g.Spliced g' n dest gone row) (hg : g.Sound) (hg' : g'.Sound)
    (hr : g.Region n dest gone) {n₂ : Nat} {gone₂ : Nat → Prop} (hn : g.Reachable n₂)
    (hsize : ∀ x, gone₂ x → x < g.size)
    (hout : ∀ x, x = n₂ ∨ gone₂ x → x ≠ n ∧ ¬ gone x) (hexit : ¬ gone₂ dest) :
    g.Keeps g' n₂ gone₂ := by
  have hlt : ∀ x, x = n₂ ∨ gone₂ x → x < g.size := by
    rintro x (rfl | hx)
    · exact hn.lt_size
    · exact hsize x hx
  refine ⟨h.source, fun _ => h.reachable.2 (.inl ⟨hn, (hout _ (.inl rfl)).2⟩), fun hx => ?_,
    fun hx => ?_⟩
  · exact h.kept (hlt _ hx) (hout _ hx).1 (hout _ hx).2
  · refine h.mem_predecessors hg hg' hr (hlt _ (.inr hx)) (fun hxd => hexit (hxd ▸ hx)) ?_
    exact (hout _ (.inr hx)).2

/-- A lane through kept nodes is a lane still. -/
theorem Lane.keeps {prev x : Nat} {ns : List Nat} {es : List ε} (h : g.Lane dest prev x ns es)
    (hk : g.Keeps g' n gone) (hns : ∀ y ∈ ns, gone y) : g'.Lane dest prev x ns es := by
  induction h with
  | done => exact .done
  | @step x _ _ _ _ _ hs hp hx _ ih =>
    have hgx : gone x := hns x (by simp)
    refine .step (hk.source ▸ hs) (fun m => (hk.preds hgx).trans (hp m)) ?_
      (ih fun y hy => hns y (by simp [hy]))
    rw [hk.node (.inr hgx), hx]

end Graph

end ScriptRecovery
