import ScriptRecovery.Graph.Splice
import ScriptRecovery.Proofs.Graph.Sound

/-!
# Splices keep graphs sound

A splice cuts a region out of a graph and lays a row of edges in its place.  A region has one way
in, its first node, and one way out (`Graph.Region`).  The graph after the cut is described by
`Graph.Cut`, and the graph after the row is laid by `Graph.Spliced`.  All three splices go through
`Region.layEdges_eq_ok`: laying a row in place of a region of a sound graph succeeds and gives a
sound graph.

In between a graph is not sound.  `Graph.Tended` is what is true of it there: the nodes that are to
be reachable again, and among them those whose links are recorded.
-/

namespace ScriptRecovery

namespace Graph

variable {ε : Type} {g g' : Graph ε} {live laid : Nat → Prop}

/-! ## Graphs in the middle of a splice -/

/-- A graph in which the `live` nodes are to be reachable and the links of the `laid` ones are
recorded. -/
structure Tended (g : Graph ε) (live laid : Nat → Prop) : Prop where
  width : g.preds.size = g.size
  source : live g.source
  lt_size : ∀ {n : Nat}, live n → n < g.size
  live_of_laid : ∀ {n : Nat}, laid n → live n
  complete : ∀ {n : Nat}, laid n → g.node? n ≠ some .pending
  closed : ∀ {n d : Nat}, laid n → d ∈ g.targets n → live d
  index : ∀ {m d : Nat}, m ∈ g.predecessors d ↔ laid m ∧ d ∈ g.targets m

/-- A graph whose live nodes are laid and reachable is sound. -/
theorem Tended.sound (h : g.Tended live live) (hr : ∀ n, live n → g.Reachable n) : g.Sound := by
  have hlive : ∀ n, g.Reachable n ↔ live n := fun n =>
    ⟨fun hn => hn.mem_of_closed h.source fun x hx y hy _ => h.closed hx hy, hr n⟩
  refine ⟨h.width, h.lt_size h.source, fun hn => h.complete ((hlive _).1 hn), ?_, ?_⟩
  · exact fun hn hd => h.lt_size (h.closed ((hlive _).1 hn) hd)
  · intro m d
    rw [h.index, hlive]

theorem targets_congr {n : Nat} (h : g'.node? n = g.node? n) : g'.targets n = g.targets n := by
  unfold targets
  rw [show g'.nodes[n]? = g.nodes[n]? from h]

/-! ## Adding nodes and links -/

theorem node?_grow {m : Nat} (h : m < g.size) : g.grow.node? m = g.node? m := by
  simp only [node?, grow, size] at h ⊢
  rw [Array.getElem?_push_lt h, Array.getElem?_eq_getElem h]

@[simp] theorem size_grow : g.grow.size = g.size + 1 := by
  simp [grow, size]

theorem predecessors_grow (d : Nat) (hw : g.preds.size = g.size) :
    g.grow.predecessors d = g.predecessors d := by
  simp only [predecessors, grow]
  rcases Nat.lt_trichotomy d g.preds.size with h | h | h
  · rw [Array.getElem?_push_lt h, Array.getElem?_eq_getElem h]
  · subst h
    simp
  · rw [Array.getElem?_eq_none (by simp; omega), Array.getElem?_eq_none (by omega)]

theorem Tended.grow (h : g.Tended live laid) : g.grow.Tended live laid := by
  have htargets : ∀ n, laid n → g.grow.targets n = g.targets n := fun n hn =>
    targets_congr (node?_grow (h.lt_size (h.live_of_laid hn)))
  refine ⟨by simp [Graph.grow, size, h.width], h.source, ?_, h.live_of_laid, ?_, ?_, ?_⟩
  · intro n hn
    have := h.lt_size hn
    simp
    omega
  · intro n hn
    rw [node?_grow (h.lt_size (h.live_of_laid hn))]
    exact h.complete hn
  · intro n d hn hd
    rw [htargets n hn] at hd
    exact h.closed hn hd
  · intro m d
    rw [predecessors_grow d h.width, h.index]
    constructor
    · rintro ⟨hm, hd⟩
      exact ⟨hm, by rwa [htargets m hm]⟩
    · rintro ⟨hm, hd⟩
      exact ⟨hm, by rwa [htargets m hm] at hd⟩

/-- A node that is not laid yet can be linked to a live node. -/
theorem Tended.link (h : g.Tended live laid) {n dest : Nat} (edge : ε) (hn : n < g.size)
    (hl : ¬ laid n) (hd : live dest) :
    ∃ g', g.link n edge dest = .ok g' ∧
      g'.Tended (fun x => live x ∨ x = n) (fun x => laid x ∨ x = n) ∧
      g'.node? n = some (.simple ⟨edge, dest⟩) ∧
      (∀ m, m ≠ n → g'.node? m = g.node? m) ∧ g'.source = g.source ∧ g'.size = g.size := by
  have hdest : dest < g.preds.size := h.width ▸ h.lt_size hd
  refine ⟨_, if_pos hdest, ?_⟩
  set g' : Graph ε := { g with
    nodes := g.nodes.setIfInBounds n (.simple ⟨edge, dest⟩)
    preds := g.preds.modify dest (·.insert n) } with hg'
  have hnode : g'.node? n = some (.simple ⟨edge, dest⟩) := by
    simp [hg', node?, show n < g.nodes.size from hn]
  have hother : ∀ m, m ≠ n → g'.node? m = g.node? m := by
    intro m hm
    simp [hg', node?, Ne.symm hm]
  have hsize : g'.size = g.size := by simp [hg', size]
  have hne : ∀ m, laid m → m ≠ n := fun m hm hmn => hl (hmn ▸ hm)
  refine ⟨⟨?_, .inl h.source, ?_, ?_, ?_, ?_, ?_⟩, hnode, hother, rfl, hsize⟩
  · rw [hsize, ← h.width]
    simp [hg']
  · rintro m (hm | rfl)
    · exact hsize ▸ h.lt_size hm
    · exact hsize ▸ hn
  · exact fun hm => hm.imp h.live_of_laid id
  · rintro m (hm | rfl)
    · rw [hother m (hne m hm)]
      exact h.complete hm
    · rw [hnode]
      simp
  · rintro m d (hm | rfl) hmd
    · rw [targets_congr (hother m (hne m hm))] at hmd
      exact .inl (h.closed hm hmd)
    · rw [targets_of_simple hnode, List.mem_singleton] at hmd
      exact .inl (hmd ▸ hd)
  · intro m d
    have hpreds : m ∈ g'.predecessors d ↔ m ∈ g.predecessors d ∨ m = n ∧ d = dest := by
      refine mem_modify_insert.trans (or_congr_right (and_congr_right fun _ => ?_))
      exact ⟨And.left, fun hdd => ⟨hdd, hdd ▸ hdest⟩⟩
    rw [hpreds, h.index]
    constructor
    · rintro (⟨hm, hmd⟩ | ⟨rfl, rfl⟩)
      · exact ⟨.inl hm, by rwa [targets_congr (hother m (hne m hm))]⟩
      · exact ⟨.inr rfl, by rw [targets_of_simple hnode]; simp⟩
    · rintro ⟨hm | rfl, hmd⟩
      · exact .inl ⟨hm, by rwa [targets_congr (hother m (hne m hm))] at hmd⟩
      · rw [targets_of_simple hnode, List.mem_singleton] at hmd
        exact .inr ⟨rfl, hmd⟩

/-! ## Rows -/

/-- A row of edges over nodes from `low` on, that starts at one node and ends at another. -/
inductive Row (g : Graph ε) (low : Nat) (dest : Nat) : Nat → List ε → Prop where
  | nil : Row g low dest dest []
  | cons : low ≤ n → g.node? n = some (.simple ⟨e, next⟩) → Row g low dest next es →
      Row g low dest n (e :: es)

theorem Row.congr {low dest n : Nat} {es : List ε} (h : g.Row low dest n es)
    (hk : ∀ m node, low ≤ m → g.node? m = some node → g'.node? m = some node) :
    g'.Row low dest n es := by
  induction h with
  | nil => exact .nil
  | cons hlow hn _ ih => exact .cons hlow (hk _ _ hlow hn) ih

/-- The row of edges that is laid for a list of edges. -/
def rowOf [PlainEdge ε] : List ε → List ε
  | [] => [PlainEdge.plain]
  | e :: es => e :: es

theorem mem_rowOf [PlainEdge ε] {row : List ε} {e : ε} (h : e ∈ row) : e ∈ rowOf row := by
  cases row with
  | nil => simp at h
  | cons _ _ => exact h

theorem forall_mem_rowOf [PlainEdge ε] {P : ε → Prop} {row : List ε} (hp : P PlainEdge.plain)
    (h : ∀ e ∈ row, P e) : ∀ e ∈ rowOf row, P e := by
  cases row with
  | nil => simpa [rowOf] using hp
  | cons e es => exact h

/-- Paving lays a row of edges over new nodes. -/
theorem Tended.pave (h : g.Tended live laid) {dest : Nat} (hd : live dest) (edges : List ε) :
    ∃ g' next, g.pave dest edges = .ok (g', next) ∧
      g'.Tended (fun x => live x ∨ g.size ≤ x ∧ x < g'.size)
        (fun x => laid x ∨ g.size ≤ x ∧ x < g'.size) ∧
      (live next ∨ g.size ≤ next ∧ next < g'.size) ∧ g'.Row g.size dest next edges ∧
      (∀ x, g.size ≤ x → x < g'.size → ∃ es, g'.Row g.size x next es) ∧
      (∀ m, m < g.size → g'.node? m = g.node? m) ∧ g'.source = g.source ∧ g.size ≤ g'.size := by
  induction edges with
  | nil =>
    have hfresh : ∀ x, ¬ (g.size ≤ x ∧ x < g.size) := by omega
    exact ⟨g, dest, rfl, by simpa [hfresh] using h, .inl hd, .nil, by omega, fun _ _ => rfl, rfl,
      Nat.le_refl _⟩
  | cons edge edges ih =>
    obtain ⟨g₁, next, hpave, ht, hnext, hrow, hcover, hkept, hsource, hsize⟩ := ih
    obtain ⟨g₂, hlink, ht₂, hnode, hother, hsource₂, hsize₂⟩ :=
      ht.grow.link (n := g₁.size) edge (by simp) (by
        rintro (hl | hl)
        · have := h.lt_size (h.live_of_laid hl)
          omega
        · omega) hnext
    have hgrown : g₂.size = g₁.size + 1 := by rw [hsize₂, size_grow]
    have hold : ∀ m, m < g₁.size → g₂.node? m = g₁.node? m := fun m hm => by
      rw [hother m (by omega), node?_grow hm]
    have hlast : ∀ x, (g.size ≤ x ∧ x < g₁.size) ∨ x = g₁.size ↔ g.size ≤ x ∧ x < g₂.size := by
      omega
    have hstill : ∀ m node, g.size ≤ m → g₁.node? m = some node → g₂.node? m = some node :=
      fun m node _ hm => by rw [hold m (lt_size_of_node? hm), hm]
    refine ⟨g₂, g₁.size, ?_, ?_, ?_, ?_, ?_, ?_, ?_, ?_⟩
    · simp only [Graph.pave, hpave, bind, Except.bind, hlink]
      rw [hgrown]
      rfl
    · simpa only [or_assoc, hlast] using ht₂
    · exact .inr (by omega)
    · exact .cons hsize hnode (hrow.congr hstill)
    · intro x hge hlt
      by_cases hx : x = g₁.size
      · exact ⟨[], hx ▸ .nil⟩
      · obtain ⟨es, hes⟩ := hcover x hge (by omega)
        exact ⟨edge :: es, .cons hsize hnode (hes.congr hstill)⟩
    · exact fun m hm => by rw [hold m (by omega), hkept m hm]
    · rw [hsource₂]
      exact hsource
    · omega

/-! ## Regions and cuts -/

/-- Nodes that only `n` leads into and that only lead to each other and to `dest`. -/
structure Region (g : Graph ε) (n dest : Nat) (gone : Nat → Prop) : Prop where
  entry : g.Reachable n
  exit : g.Reachable dest
  entry_kept : ¬ gone n
  exit_kept : ¬ gone dest
  source_kept : ¬ gone g.source
  enclosed : ∀ {m d : Nat}, gone d → g.Reachable m → d ∈ g.targets m → m = n ∨ gone m
  leads : ∀ {m d : Nat}, m = n ∨ gone m → d ∈ g.targets m → gone d ∨ d = dest

/-- The graph after the links of `n` and of what is gone are forgotten. -/
structure Cut (g g' : Graph ε) (n : Nat) (gone : Nat → Prop) : Prop where
  width : g'.preds.size = g'.size
  size : g'.size = g.size
  source : g'.source = g.source
  kept : ∀ {m : Nat}, ¬ gone m → g'.node? m = g.node? m
  index : ∀ {m d : Nat}, m ∈ g'.predecessors d ↔ m ∈ g.predecessors d ∧ m ≠ n ∧ ¬ gone m

/-- A graph with a row of edges in place of a region. -/
structure Spliced (g g' : Graph ε) (n dest : Nat) (gone : Nat → Prop) (row : List ε) : Prop where
  source : g'.source = g.source
  size_le : g.size ≤ g'.size
  laid : ∃ e es next, row = e :: es ∧ g'.node? n = some (.simple ⟨e, next⟩) ∧
    g'.Row g.size dest next es
  kept : ∀ {m : Nat}, m < g.size → m ≠ n → ¬ gone m → g'.node? m = g.node? m
  reachable : ∀ {m : Nat}, g'.Reachable m ↔
    g.Reachable m ∧ ¬ gone m ∨ g.size ≤ m ∧ m < g'.size

variable {n dest : Nat} {gone : Nat → Prop}

theorem Cut.tended (hg : g.Sound) (hr : g.Region n dest gone) (hc : g.Cut g' n gone) :
    g'.Tended (fun x => g.Reachable x ∧ ¬ gone x)
      (fun x => (g.Reachable x ∧ ¬ gone x) ∧ x ≠ n) := by
  have htargets : ∀ x, ¬ gone x → g'.targets x = g.targets x := fun x hx =>
    targets_congr (hc.kept hx)
  refine ⟨hc.width, ?_, fun hx => hc.size ▸ hx.1.lt_size, And.left, ?_, ?_, ?_⟩
  · rw [hc.source]
    exact ⟨hg.reachable_source, hr.source_kept⟩
  · rintro x ⟨⟨hx, hgone⟩, -⟩
    rw [hc.kept hgone]
    exact hg.complete hx
  · rintro x d ⟨⟨hx, hgone⟩, hne⟩ hd
    rw [htargets x hgone] at hd
    exact ⟨hg.reachable_target hx hd, fun hd' => (hr.enclosed hd' hx hd).elim hne hgone⟩
  · intro m d
    rw [hc.index, hg.index]
    constructor
    · rintro ⟨⟨hm, hd⟩, hne, hgone⟩
      exact ⟨⟨⟨hm, hgone⟩, hne⟩, by rwa [htargets m hgone]⟩
    · rintro ⟨⟨⟨hm, hgone⟩, hne⟩, hd⟩
      exact ⟨⟨hm, by rwa [htargets m hgone] at hd⟩, hne, hgone⟩

/-! ## Reachability after a splice -/

theorem Row.reachable {low n : Nat} {es : List ε} (h : g.Row low dest n es)
    (hn : g.Reachable n) (hd : dest < g.size) :
    g.Reachable dest := by
  induction h with
  | nil => exact hn
  | cons hlow hnode hrow ih =>
    refine ih (hn.step (by rw [targets_of_simple hnode]; simp) ?_)
    cases hrow with
    | nil => exact hd
    | cons _ hnext _ => exact lt_size_of_node? hnext

/-- What is not gone stays reachable when the region's entry leads to its exit. -/
theorem Region.reachable_of_kept (hr : g.Region n dest gone) (hsource : g'.source = g.source)
    (hsize : g.size ≤ g'.size) (hrow : g'.Reachable n → g'.Reachable dest)
    (hkept : ∀ {m}, m < g.size → m ≠ n → ¬ gone m → g'.node? m = g.node? m) {m : Nat}
    (hm : g.Reachable m) (hgone : ¬ gone m) : g'.Reachable m := by
  -- in the region, what counts is that its entry can be reached
  have key : g.Reachable m ∧ (gone m → g'.Reachable n) ∧ (¬ gone m → g'.Reachable m) := by
    refine Reachable.mem_of_closed (p := fun m => g.Reachable m ∧
      (gone m → g'.Reachable n) ∧ (¬ gone m → g'.Reachable m)) hm ?_ ?_
    · have hlt : g.source < g.size := hm.start_lt
      refine ⟨reachable_source hlt, fun h => absurd h hr.source_kept, fun _ => ?_⟩
      rw [← hsource]
      exact reachable_source (hsource ▸ Nat.lt_of_lt_of_le hlt hsize)
    · rintro x ⟨hx, hxg, hxk⟩ y hy hlt
      refine ⟨hx.step hy hlt, ?_⟩
      by_cases hin : x = n ∨ gone x
      · have hxn : g'.Reachable n := by
          rcases hin with rfl | hin
          · exact hxk hr.entry_kept
          · exact hxg hin
        rcases hr.leads hin hy with hgy | rfl
        · exact ⟨fun _ => hxn, fun h => absurd hgy h⟩
        · exact ⟨fun h => absurd h hr.exit_kept, fun _ => hrow hxn⟩
      · have hne : x ≠ n := fun h => hin (.inl h)
        have hgx : ¬ gone x := fun h => hin (.inr h)
        refine ⟨fun h => absurd (hr.enclosed h hx hy) hin, fun _ => ?_⟩
        refine (hxk hgx).step ?_ (Nat.lt_of_lt_of_le hlt hsize)
        rwa [targets_congr (hkept hx.lt_size hne hgx)]
  exact key.2.2 hgone

/-- Laying a row is paving all of it but its first edge, and linking that one. -/
theorem layEdges_eq [PlainEdge ε] (g : Graph ε) (n dest : Nat) (edges : List ε) :
    ∃ e es, rowOf edges = e :: es ∧
      g.layEdges n dest edges = g.pave dest es >>= fun r => r.1.link n e r.2 := by
  cases edges with
  | nil => exact ⟨_, _, rfl, rfl⟩
  | cons e es => exact ⟨_, _, rfl, rfl⟩

/-- A row of edges is laid in place of a region, and the graph is sound again. -/
theorem Region.layEdges_eq_ok [PlainEdge ε] (hg : g.Sound) (hr : g.Region n dest gone)
    {cut : Graph ε} (hc : g.Cut cut n gone) (edges : List ε) :
    ∃ g', cut.layEdges n dest edges = .ok g' ∧ g'.Sound ∧
      g.Spliced g' n dest gone (rowOf edges) := by
  obtain ⟨e, es, hrow, hlay⟩ := cut.layEdges_eq n dest edges
  have ht := hc.tended hg hr
  obtain ⟨g₁, next, hpave, ht₁, hnext, hlaid, hcover, hkept₁, hsource₁, hsize₁⟩ :=
    ht.pave ⟨hr.exit, hr.exit_kept⟩ es
  rw [hc.size] at hlaid hcover hsize₁
  obtain ⟨g₂, hlink, ht₂, hnode, hother, hsource₂, hsize₂⟩ :=
    ht₁.link e (Nat.lt_of_lt_of_le hr.entry.lt_size hsize₁) (by
      rintro (⟨_, hne⟩ | ⟨hge, _⟩)
      · exact hne rfl
      · exact absurd hr.entry.lt_size (by rw [← hc.size]; omega)) hnext
  have hsource : g₂.source = g.source := by rw [hsource₂, hsource₁, hc.source]
  have hsize : g.size ≤ g₂.size := hsize₂ ▸ hsize₁
  have hkept : ∀ {m}, m < g.size → m ≠ n → ¬ gone m → g₂.node? m = g.node? m := by
    intro m hm hne hgone
    rw [hother m hne, hkept₁ m (hc.size ▸ hm), hc.kept hgone]
  have hstill : ∀ m node, g.size ≤ m → g₁.node? m = some node → g₂.node? m = some node := by
    intro m node hm hmn
    have := hr.entry.lt_size
    rw [hother m (by omega), hmn]
  have hnext₂ : g₂.Reachable n → g₂.Reachable next := fun hn =>
    hn.step (by rw [targets_of_simple hnode]; simp) (hsize₂ ▸ ht₁.lt_size hnext)
  have hold : ∀ {m}, g.Reachable m → ¬ gone m → g₂.Reachable m := fun hm hgone =>
    hr.reachable_of_kept hsource hsize
      (fun hn => (hlaid.congr hstill).reachable (hnext₂ hn)
        (Nat.lt_of_lt_of_le hr.exit.lt_size hsize)) hkept hm hgone
  have hfresh : ∀ {m}, g.size ≤ m → m < g₂.size → g₂.Reachable m := by
    intro m hge hlt
    obtain ⟨es', hes'⟩ := hcover m hge (hsize₂ ▸ hlt)
    exact (hes'.congr hstill).reachable (hnext₂ (hold hr.entry hr.entry_kept)) hlt
  have hlive : ∀ x, ((g.Reachable x ∧ ¬ gone x) ∨ cut.size ≤ x ∧ x < g₁.size) ∨ x = n ↔
      g.Reachable x ∧ ¬ gone x ∨ g.size ≤ x ∧ x < g₂.size := by
    intro x
    rw [hc.size, hsize₂]
    constructor
    · rintro (h | rfl)
      · exact h
      · exact .inl ⟨hr.entry, hr.entry_kept⟩
    · exact .inl
  have hlaid' : ∀ x, (((g.Reachable x ∧ ¬ gone x) ∧ x ≠ n) ∨ cut.size ≤ x ∧ x < g₁.size) ∨
      x = n ↔ g.Reachable x ∧ ¬ gone x ∨ g.size ≤ x ∧ x < g₂.size := by
    intro x
    rw [← hlive x]
    by_cases hx : x = n <;> simp [hx]
  simp only [hlive, hlaid'] at ht₂
  have hsound : g₂.Sound := ht₂.sound fun m hm =>
    hm.elim (fun h => hold h.1 h.2) fun h => hfresh h.1 h.2
  refine ⟨g₂, ?_, hsound, hsource, hsize, ⟨e, es, next, hrow, hnode, hlaid.congr hstill⟩, hkept,
    ?_⟩
  · simp only [hlay, hpave, bind, Except.bind, hlink]
  · intro m
    refine ⟨fun hm => ?_, fun hm => hm.elim (fun h => hold h.1 h.2) fun h => hfresh h.1 h.2⟩
    exact hm.mem_of_closed ht₂.source fun x hx y hy _ => ht₂.closed hx hy

/-! ## Forgetting links and giving up nodes -/

theorem mem_predecessors_unlink {n dest m d : Nat} :
    m ∈ (g.unlink n dest).predecessors d ↔ m ∈ g.predecessors d ∧ ¬ (m = n ∧ d = dest) := by
  unfold predecessors unlink
  rw [Array.getElem?_modify]
  by_cases h : dest = d
  · subst h
    by_cases hlt : dest < g.preds.size <;> simp [hlt]
  · simp [h, Ne.symm h]

@[simp] theorem size_preds_unlink {n dest : Nat} :
    (g.unlink n dest).preds.size = g.preds.size := by
  simp [unlink]

theorem node?_vacate {ns : List Nat} {m : Nat} (h : m ∉ ns) :
    (g.vacate ns).node? m = g.node? m := by
  unfold node? vacate
  simp only
  generalize g.nodes = nodes
  induction ns generalizing nodes with
  | nil => rfl
  | cons k ks ih =>
    rw [List.foldl_cons, ih (fun hm => h (by simp [hm]))]
    exact Array.getElem?_setIfInBounds_ne (fun hk => h (by simp [hk]))

@[simp] theorem size_vacate {ns : List Nat} : (g.vacate ns).size = g.size := by
  unfold size vacate
  simp only
  generalize g.nodes = nodes
  induction ns generalizing nodes with
  | nil => rfl
  | cons k ks ih => rw [List.foldl_cons, ih, Array.size_setIfInBounds]

@[simp] theorem predecessors_vacate {ns : List Nat} {d : Nat} :
    (g.vacate ns).predecessors d = g.predecessors d := rfl

/-! ## Lanes -/

/-- Nodes that can only be passed in one way: from `prev` through each of them to `dest`.  The
first node is `x`, or `dest` if there is none. -/
inductive Lane (g : Graph ε) (dest : Nat) : Nat → Nat → List Nat → List ε → Prop where
  | done : Lane g dest prev dest [] []
  | step : x ≠ g.source → (∀ m, m ∈ g.predecessors x ↔ m = prev) →
      g.node? x = some (.simple ⟨e, y⟩) → Lane g dest x y ns es →
      Lane g dest prev x (x :: ns) (e :: es)

namespace Lane

variable {dest prev x : Nat} {ns : List Nat} {es : List ε}

theorem head_mem (h : g.Lane dest prev x ns es) : x ∈ ns ∨ x = dest := by
  cases h with
  | done => exact .inr rfl
  | step _ _ _ _ => exact .inl (by simp)

theorem lt_size (h : g.Lane dest prev x ns es) {m : Nat} (hm : m ∈ ns) : m < g.size := by
  induction h with
  | done => simp at hm
  | step _ _ hx _ ih =>
    rcases List.mem_cons.1 hm with rfl | hm
    · exact lt_size_of_node? hx
    · exact ih hm

theorem ne_source (h : g.Lane dest prev x ns es) {d : Nat} (hd : d ∈ ns) : d ≠ g.source := by
  induction h with
  | done => simp at hd
  | step hs _ _ _ ih =>
    rcases List.mem_cons.1 hd with rfl | hd
    · exact hs
    · exact ih hd

theorem targets_mem (h : g.Lane dest prev x ns es) {m d : Nat} (hm : m ∈ ns)
    (hd : d ∈ g.targets m) : d ∈ ns ∨ d = dest := by
  induction h with
  | done => simp at hm
  | step _ _ hx hrest ih =>
    rcases List.mem_cons.1 hm with rfl | hm
    · rw [targets_of_simple hx, List.mem_singleton] at hd
      exact hd ▸ hrest.head_mem.imp (List.mem_cons_of_mem _) id
    · exact (ih hm).imp (List.mem_cons_of_mem _) id

theorem pred_mem (h : g.Lane dest prev x ns es) {m d : Nat} (hd : d ∈ ns)
    (hm : m ∈ g.predecessors d) : m = prev ∨ m ∈ ns := by
  induction h with
  | done => simp at hd
  | step _ hp _ _ ih =>
    rcases List.mem_cons.1 hd with rfl | hd
    · exact .inl ((hp m).1 hm)
    · rcases ih hd with rfl | h
      · exact .inr (by simp)
      · exact .inr (by simp [h])

/-- One node leads to each node of a lane. -/
theorem lone (h : g.Lane dest prev x ns es) {m : Nat} (hm : m ∈ ns) :
    ∃ u, ∀ k ∈ g.predecessors m, k = u := by
  induction h with
  | done => simp at hm
  | @step x prev _ _ _ _ _ hx _ _ ih =>
    rcases List.mem_cons.1 hm with rfl | hm
    · exact ⟨prev, fun k => (hx k).1⟩
    · exact ih hm

/-- A lane that does not pass the node before it passes no node twice. -/
theorem nodup (h : g.Lane dest prev x ns es) (hprev : prev ∉ ns) : ns.Nodup := by
  induction h with
  | done => exact .nil
  | @step x prev _ _ ns _ _ hp _ hrest ih =>
    rw [List.mem_cons, not_or] at hprev
    have hx : x ∉ ns := by
      intro hx
      rcases hrest.pred_mem hx ((hp prev).2 rfl) with h | h
      · exact hprev.1 h
      · exact hprev.2 h
    exact List.nodup_cons.2 ⟨hx, ih hx⟩

theorem reachable (h : g.Lane dest prev x ns es) (hg : g.Sound) (hx : g.Reachable x) :
    (∀ d ∈ ns, g.Reachable d) ∧ g.Reachable dest := by
  induction h with
  | done => exact ⟨by simp, hx⟩
  | step _ _ hnode _ ih =>
    obtain ⟨hns, hdest⟩ := ih (hg.reachable_target hx (by rw [targets_of_simple hnode]; simp))
    refine ⟨fun d hd => ?_, hdest⟩
    rcases List.mem_cons.1 hd with rfl | hd
    · exact hx
    · exact hns d hd

/-- The last node leads to the destination. -/
theorem dest_mem_targets (h : g.Lane dest prev x ns es) (hp : x ∈ g.targets prev) :
    dest ∈ g.targets (ns.getLastD prev) := by
  induction h with
  | done => exact hp
  | step _ _ hnode _ ih =>
    rw [List.getLastD_cons]
    exact ih (by rw [targets_of_simple hnode]; simp)

/-- A lane does not come back to itself. -/
theorem dest_not_mem (h : g.Lane dest prev x ns es) (hn : (prev :: ns).Nodup)
    (hl : ns.getLastD prev ∈ g.predecessors dest) : dest ∉ ns := by
  induction h with
  | done => simp
  | @step x prev e y ns es _ hp _ _ ih =>
    obtain ⟨hprev, hns⟩ := List.nodup_cons.1 hn
    rw [List.getLastD_cons] at hl
    intro hd
    rcases List.mem_cons.1 hd with rfl | hd
    · exact hprev ((hp _).1 hl ▸ List.getLastD_mem_cons)
    · exact ih hns hl hd

/-- The edges of a lane are a row. -/
theorem row (h : g.Lane dest prev x ns es) : g.Row 0 dest x es := by
  induction h with
  | done => exact .nil
  | step _ _ hnode _ ih => exact .cons (Nat.zero_le _) hnode ih

theorem last_reachable (h : g.Lane dest prev x ns es) (hg : g.Sound) (hp : g.Reachable prev)
    (hx : x ∈ g.targets prev) : g.Reachable (ns.getLastD prev) := by
  rcases List.mem_cons.1 (List.getLastD_mem_cons (l := ns) (a := prev)) with hl | hl
  · rwa [hl]
  · exact (h.reachable hg (hg.reachable_target hp hx)).1 _ hl

/-- The nodes of a lane after its first node are a region. -/
theorem region (h : g.Lane dest prev x ns es) (hg : g.Sound) (hp : g.Reachable prev) {e : ε}
    (hnode : g.node? prev = some (.simple ⟨e, x⟩)) (hn : (prev :: ns).Nodup) :
    g.Region prev dest (· ∈ ns) := by
  have hx : x ∈ g.targets prev := by rw [targets_of_simple hnode]; simp
  obtain ⟨hns, hdest⟩ := h.reachable hg (hg.reachable_target hp hx)
  refine ⟨hp, hdest, (List.nodup_cons.1 hn).1, ?_, fun hs => h.ne_source hs rfl, ?_, ?_⟩
  · exact h.dest_not_mem hn (hg.index.2 ⟨h.last_reachable hg hp hx, h.dest_mem_targets hx⟩)
  · exact fun hd hm hmd => h.pred_mem hd (hg.index.2 ⟨hm, hmd⟩)
  · rintro m d (rfl | hm) hd
    · rw [targets_of_simple hnode, List.mem_singleton] at hd
      exact hd ▸ h.head_mem
    · exact h.targets_mem hm hd

end Lane

/-! ## One edge -/

theorem outTarget_of_simple {n : Nat} {out : Link ε} (h : g.node? n = some (.simple out)) :
    g.outTarget n = .ok out.dest := by
  unfold outTarget
  rw [show g.nodes[n]? = _ from h]

/-- The one way out of a node can be replaced by any row. -/
theorem Sound.spliceEdge_eq_ok [PlainEdge ε] (hg : g.Sound) {n dest : Nat} {e : ε}
    (hn : g.Reachable n) (hnode : g.node? n = some (.simple ⟨e, dest⟩)) (edges : List ε) :
    g.Region n dest (· ∈ ([] : List Nat)) ∧ ∃ g', g.spliceEdge n edges = .ok g' ∧ g'.Sound ∧
      g.Spliced g' n dest (· ∈ ([] : List Nat)) (rowOf edges) := by
  have htargets : g.targets n = [dest] := targets_of_simple hnode
  have hl : g.Lane dest n dest [] [] := .done
  have hr := hl.region hg hn hnode (by simp)
  have hc : g.Cut (g.unlink n dest) n (· ∈ ([] : List Nat)) := by
    refine ⟨size_preds_unlink.trans hg.width, rfl, rfl, fun _ => rfl, ?_⟩
    intro m d
    rw [mem_predecessors_unlink]
    refine and_congr_right fun hm => ?_
    constructor
    · refine fun h => ⟨fun hmn => h ⟨hmn, ?_⟩, by simp⟩
      have := (hg.index.1 hm).2
      rw [hmn, htargets] at this
      simpa using this
    · exact fun h hmn => h.1 hmn.1
  obtain ⟨g', hlay, h⟩ := hr.layEdges_eq_ok hg hc edges
  exact ⟨hr, g', by rw [spliceEdge, outTarget_of_simple hnode]; exact hlay, h⟩

/-! ## Chains -/

theorem inDegree_eq_one_iff {n : Nat} :
    g.inDegree n = 1 ↔ ∃ m, ∀ k, k ∈ g.predecessors n ↔ k = m := by
  unfold inDegree Ascending.size
  constructor
  · intro h
    obtain ⟨m, hm⟩ := List.length_eq_one_iff.1 h
    exact ⟨m, fun k => by rw [Ascending.mem_def, hm, List.mem_singleton]⟩
  · rintro ⟨m, hm⟩
    have : g.predecessors n = .singleton m := Ascending.ext_mem fun k => by
      rw [hm, Ascending.mem_singleton]
    rw [this]
    rfl

theorem Lane.chainTarget_eq_ok {dest prev x : Nat} {ns : List Nat} {es : List ε}
    (h : g.Lane dest prev x ns es) : g.chainTarget x ns = .ok dest := by
  induction h with
  | done => rfl
  | step hs hp hnode _ ih =>
    rw [chainTarget, if_neg, outTarget_of_simple hnode]
    · exact ih
    · have : g.inDegree _ = 1 := inDegree_eq_one_iff.2 ⟨_, hp⟩
      simp [hs, this]

theorem unlinkChain_nodes {n dest : Nat} {ns : List Nat} :
    (g.unlinkChain n dest ns).nodes = g.nodes ∧
      (g.unlinkChain n dest ns).source = g.source ∧
      (g.unlinkChain n dest ns).preds.size = g.preds.size := by
  induction ns generalizing g n with
  | nil => exact ⟨rfl, rfl, size_preds_unlink⟩
  | cons m ms ih =>
    obtain ⟨h₁, h₂, h₃⟩ := @ih (g.unlink n m) m
    exact ⟨h₁, h₂, h₃.trans size_preds_unlink⟩

/-- Forgetting the one link of a node forgets the node as a predecessor. -/
theorem mem_predecessors_unlink_of_single {cut : Graph ε} {prev x : Nat}
    (hp : g.targets prev = [x]) (hcut : ∀ {m d}, m ∈ cut.predecessors d → d ∈ g.targets m)
    {m d : Nat} :
    m ∈ (cut.unlink prev x).predecessors d ↔ m ∈ cut.predecessors d ∧ m ≠ prev := by
  rw [mem_predecessors_unlink]
  refine and_congr_right fun hm => ⟨fun hne hmp => hne ⟨hmp, ?_⟩, fun hne hm => hne hm.1⟩
  have := hcut hm
  rwa [hmp, hp, List.mem_singleton] at this

theorem outTarget_eq_ok {n dest : Nat} :
    g.outTarget n = .ok dest ↔ ∃ e, g.node? n = some (.simple ⟨e, dest⟩) := by
  constructor
  · intro h
    unfold outTarget at h
    split at h
    case h_2 out hnode =>
      cases h
      exact ⟨out.edge, hnode⟩
    all_goals cases h
  · rintro ⟨e, hnode⟩
    exact outTarget_of_simple hnode

/-- Each further node of a chain is the one it leads to, is not the entry, has one predecessor and
leads on. -/
theorem chainTarget_cons_eq_ok {next n dest : Nat} {ns : List Nat}
    (h : g.chainTarget next (n :: ns) = .ok dest) :
    next = n ∧ (n ≠ g.source ∧ g.inDegree n = 1) ∧
      ∃ e y, g.node? n = some (.simple ⟨e, y⟩) ∧ g.chainTarget y ns = .ok dest := by
  rw [chainTarget] at h
  split at h
  · cases h
  · next hcond =>
    simp only [not_or, Decidable.not_not] at hcond
    split at h
    · next y hy =>
      obtain ⟨e, hnode⟩ := outTarget_eq_ok.1 hy
      exact ⟨hcond.2.2, ⟨hcond.1, hcond.2.1⟩, e, y, hnode, h⟩
    · cases h

/-- Forgetting the links of a chain forgets its nodes as predecessors. -/
theorem mem_predecessors_unlinkChain {dest prev x : Nat} {ns : List Nat}
    (hns : g.chainTarget x ns = .ok dest) (hp : g.targets prev = [x]) {cut : Graph ε}
    (hcut : ∀ {m d}, m ∈ cut.predecessors d → d ∈ g.targets m) {m d : Nat} :
    m ∈ (cut.unlinkChain prev dest ns).predecessors d ↔
      m ∈ cut.predecessors d ∧ m ≠ prev ∧ m ∉ ns := by
  induction ns generalizing cut prev x with
  | nil =>
    cases hns
    simpa [unlinkChain] using mem_predecessors_unlink_of_single hp hcut
  | cons n ns ih =>
    obtain ⟨rfl, -, e, y, hnode, hrest⟩ := chainTarget_cons_eq_ok hns
    rw [unlinkChain, ih hrest (targets_of_simple hnode)
      (fun hm => hcut (mem_predecessors_unlink.1 hm).1), mem_predecessors_unlink_of_single hp hcut]
    simp only [List.mem_cons, not_or]
    tauto

/-- A chain can be replaced by any row. -/
theorem Sound.spliceChain_eq_ok [PlainEdge ε] (hg : g.Sound) {n x dest : Nat} {e : ε}
    {ns : List Nat} {es : List ε} (hn : g.Reachable n)
    (hnode : g.node? n = some (.simple ⟨e, x⟩)) (hl : g.Lane dest n x ns es)
    (hnd : (n :: ns).Nodup) (edges : List ε) :
    ∃ g', g.spliceChain (n :: ns) edges = .ok g' ∧ g'.Sound ∧
      g.Spliced g' n dest (· ∈ ns) (rowOf edges) := by
  obtain ⟨hnodes, hsource, hwidth⟩ := @unlinkChain_nodes _ g n dest ns
  have hcut : g.Cut ((g.unlinkChain n dest ns).vacate ns) n (· ∈ ns) := by
    refine ⟨?_, ?_, hsource, fun hm => ?_, ?_⟩
    · rw [size_vacate, size, hnodes]
      exact hwidth.trans hg.width
    · rw [size_vacate, size, hnodes]
      rfl
    · rw [node?_vacate hm, node?, hnodes]
      rfl
    · intro m d
      rw [predecessors_vacate]
      exact mem_predecessors_unlinkChain hl.chainTarget_eq_ok (targets_of_simple hnode)
        fun hm => (hg.index.1 hm).2
  obtain ⟨g', hlay, h⟩ := (hl.region hg hn hnode hnd).layEdges_eq_ok hg hcut edges
  refine ⟨g', ?_, h⟩
  simp only [spliceChain, outTarget_of_simple hnode, hl.chainTarget_eq_ok, bind, Except.bind]
  exact hlay

/-! ## Regions -/

/-- The nodes that are reachable from `n` before `dest`. -/
theorem mem_region {n dest m : Nat} :
    m ∈ g.region n dest ↔
      (⟨g.size, fun n => (g.targets n).filter (· != dest)⟩ : Adjacency).Reach n m :=
  Adjacency.mem_preorder

theorem Region.mem_region_iff {n dest : Nat} {gone : Nat → Prop} (hr : g.Region n dest gone)
    (hin : ∀ m, gone m → m ∈ g.region n dest) {m : Nat} :
    m ∈ g.region n dest ↔ m = n ∨ gone m := by
  constructor
  · rw [mem_region]
    refine fun h => h.mem_of_closed (p := fun x => x = n ∨ gone x) (.inl rfl)
      fun x hx y hy _ => .inr ?_
    obtain ⟨hy, hne⟩ := List.mem_filter.1 hy
    exact (hr.leads hx hy).resolve_right (by simpa using hne)
  · rintro (rfl | h)
    · exact mem_region.2 (.start hr.entry.lt_size)
    · exact hin m h

theorem unlinkAll_nodes {ns : List Nat} :
    (g.unlinkAll ns).nodes = g.nodes ∧ (g.unlinkAll ns).source = g.source ∧
      (g.unlinkAll ns).preds.size = g.preds.size := by
  have hone : ∀ (g : Graph ε) (n : Nat) (ds : List Nat),
      (ds.foldl (fun g dest => g.unlink n dest) g).nodes = g.nodes ∧
        (ds.foldl (fun g dest => g.unlink n dest) g).source = g.source ∧
        (ds.foldl (fun g dest => g.unlink n dest) g).preds.size = g.preds.size := by
    intro g n ds
    induction ds generalizing g with
    | nil => exact ⟨rfl, rfl, rfl⟩
    | cons d ds ih =>
      obtain ⟨h₁, h₂, h₃⟩ := ih (g.unlink n d)
      exact ⟨h₁, h₂, h₃.trans size_preds_unlink⟩
  unfold unlinkAll
  induction ns generalizing g with
  | nil => exact ⟨rfl, rfl, rfl⟩
  | cons n ns ih =>
    obtain ⟨h₁, h₂, h₃⟩ := @ih ((g.targets n).foldl (fun g dest => g.unlink n dest) g)
    obtain ⟨k₁, k₂, k₃⟩ := hone g n (g.targets n)
    exact ⟨h₁.trans k₁, h₂.trans k₂, h₃.trans k₃⟩

theorem mem_predecessors_unlinkAll {ns : List Nat} {m d : Nat} :
    m ∈ (g.unlinkAll ns).predecessors d ↔
      m ∈ g.predecessors d ∧ ¬ (m ∈ ns ∧ d ∈ g.targets m) := by
  have hone : ∀ (g : Graph ε) (n : Nat) (ds : List Nat),
      m ∈ (ds.foldl (fun g dest => g.unlink n dest) g).predecessors d ↔
        m ∈ g.predecessors d ∧ ¬ (m = n ∧ d ∈ ds) := by
    intro g n ds
    induction ds generalizing g with
    | nil => simp
    | cons d' ds ih =>
      rw [List.foldl_cons, ih, mem_predecessors_unlink, List.mem_cons]
      tauto
  have htargets : ∀ (g : Graph ε) (n : Nat) (ds : List Nat) (k : Nat),
      (ds.foldl (fun g dest => g.unlink n dest) g).targets k = g.targets k := by
    intro g n ds k
    induction ds generalizing g with
    | nil => rfl
    | cons d' ds ih => exact ih _
  unfold unlinkAll
  induction ns generalizing g with
  | nil => simp
  | cons n ns ih =>
    rw [List.foldl_cons]
    refine ih.trans ?_
    rw [hone, htargets, List.mem_cons]
    constructor
    · rintro ⟨⟨hm, hn⟩, hns⟩
      refine ⟨hm, ?_⟩
      rintro ⟨rfl | hmn, hd⟩
      · exact hn ⟨rfl, hd⟩
      · exact hns ⟨hmn, hd⟩
    · rintro ⟨hm, h⟩
      exact ⟨⟨hm, fun hn => h ⟨.inl hn.1, hn.1 ▸ hn.2⟩⟩, fun hn => h ⟨.inr hn.1, hn.2⟩⟩

/-- A region that is found by the search for it can be replaced by any row. -/
theorem Region.spliceRegion_eq_ok [PlainEdge ε] {n dest : Nat} {gone : Nat → Prop}
    (hr : g.Region n dest gone) (hg : g.Sound) (hin : ∀ m, gone m → m ∈ g.region n dest)
    (hout : ∃ m, (m = n ∨ gone m) ∧ g.Reachable m ∧ dest ∈ g.targets m) (edges : List ε) :
    ∃ g', g.spliceRegion n dest edges = .ok g' ∧ g'.Sound ∧
      g.Spliced g' n dest gone (rowOf edges) := by
  have hmem : ∀ {m}, m ∈ g.region n dest ↔ m = n ∨ gone m := hr.mem_region_iff hin
  have hreach : ∀ m, m ∈ g.region n dest → g.Reachable m := by
    intro m hm
    refine (mem_region.1 hm).mem_of_closed hr.entry fun x hx y hy hlt => ?_
    exact hx.step (List.mem_filter.1 hy).1 hlt
  obtain ⟨hnodes, hsource, hwidth⟩ := @unlinkAll_nodes _ g (g.region n dest)
  have hcut : g.Cut ((g.unlinkAll (g.region n dest)).vacate
      ((g.region n dest).filter (· != n))) n gone := by
    refine ⟨?_, ?_, hsource, fun hm => ?_, ?_⟩
    · rw [size_vacate, size, hnodes]
      exact hwidth.trans hg.width
    · rw [size_vacate, size, hnodes]
      rfl
    · rw [node?_vacate, node?, hnodes]
      · rfl
      · rw [List.mem_filter, hmem]
        rintro ⟨rfl | h, hne⟩
        · simp at hne
        · exact hm h
    · intro m d
      rw [predecessors_vacate, mem_predecessors_unlinkAll, hmem]
      refine and_congr_right fun hm => ?_
      have := (hg.index.1 hm).2
      tauto
  obtain ⟨g', hlay, h⟩ := hr.layEdges_eq_ok hg hcut edges
  refine ⟨g', ?_, h⟩
  have hinside : ((g.region n dest).flatMap g.targets).any (g.size ≤ ·) = false := by
    rw [List.any_eq_false]
    intro d hd
    obtain ⟨m, hm, hd⟩ := List.mem_flatMap.1 hd
    simpa using hg.closed (hreach m hm) hd
  have hmeets : ((g.region n dest).flatMap g.targets).contains dest = true := by
    obtain ⟨m, hm, -, hd⟩ := hout
    rw [List.contains_iff_mem]
    exact List.mem_flatMap.2 ⟨m, hmem.2 hm, hd⟩
  simp only [spliceRegion, Nat.not_le.2 hr.entry.lt_size, Nat.not_le.2 hr.exit.lt_size, if_false,
    hinside, hmeets, Bool.false_eq_true, Bool.not_true]
  exact hlay

end Graph

end ScriptRecovery
