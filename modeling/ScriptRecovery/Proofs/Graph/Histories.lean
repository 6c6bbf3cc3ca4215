import Mathlib.Data.Finset.Card
import ScriptRecovery.Proofs.Graph.Linear
import ScriptRecovery.Proofs.Graph.Paths
import ScriptRecovery.Proofs.Graph.Rows

/-!
# The index over histories of splices

A splice that is asked for may be of any nodes: of nodes that nothing leads to, of a chain that
comes back to its start, of a region that is entered from the side.  Then the graph need not stay
sound, but its index stays right (`Graph.Tracked`): what it records are links, and it records every
link of a reachable node.  What makes this work is that a splice leads nowhere new.  It forgets
every link of the nodes it gives up, and the row it lays goes where the old way went, so no old node
becomes reachable by it (`Tracked.splice`).

`index_of_history` says what follows for the edges into a node, after any calls on any graph that
there is a way to get (`FlowGraph.Origin`).
-/

namespace ScriptRecovery

namespace Graph

variable {ε : Type} {g g' cut : Graph ε}

/-! ## Reading nodes -/

theorem lt_size_of_mem_targets {n d : Nat} (h : d ∈ g.targets n) : n < g.size := by
  by_contra hn
  have hnone : g.nodes[n]? = none := Array.getElem?_eq_none (Nat.not_lt.1 hn)
  simp [targets, hnone] at h

/-- A node that is given up is pending. -/
theorem node?_vacate_of_mem {ns : List Nat} {m : Nat} (h : m ∈ ns) (hlt : m < g.size) :
    (g.vacate ns).node? m = some .pending := by
  unfold node? vacate
  simp only
  rw [size] at hlt
  generalize g.nodes = nodes at hlt
  induction ns generalizing nodes with
  | nil => simp at h
  | cons k ks ih =>
    rw [List.foldl_cons]
    by_cases hm : m ∈ ks
    · exact ih hm _ (by simpa using hlt)
    · obtain rfl : m = k := by simpa [hm] using h
      -- nothing is put at the place after it was given up
      have hkept : ∀ nodes : Array (Node ε),
          (ks.foldl (fun nodes n => nodes.setIfInBounds n .pending) nodes)[m]? = nodes[m]? :=
        fun nodes => node?_vacate (g := ⟨nodes, 0, #[]⟩) hm
      rw [hkept, Array.getElem?_setIfInBounds]
      simp [hlt]

/-! ## Calls -/

/-- A call of one of the splices. -/
inductive Call (ε : Type)
  | edge (node : Nat) (edges : List ε)
  | chain (nodes : List Nat) (edges : List ε)
  | region (start dest : Nat) (edges : List ε)

/-- The splice that is called. -/
def Call.splice [PlainEdge ε] (g : Graph ε) : Call ε → Except Fault (Graph ε)
  | edge node edges => g.spliceEdge node edges
  | chain nodes edges => g.spliceChain nodes edges
  | region start dest edges => g.spliceRegion start dest edges

/-- The nodes that a call gives up. -/
def Call.vacated (g : Graph ε) : Call ε → List Nat
  | edge _ _ => []
  | chain nodes _ => nodes.tail
  | region start dest _ => (g.region start dest).filter (· != start)

/-- The nodes whose links a call replaces. -/
def Call.taken (g : Graph ε) : Call ε → List Nat
  | edge node _ => [node]
  | chain nodes _ => nodes
  | region start dest _ => g.region start dest

/-- The graph after a call.  A call that is refused leaves the graph as it was, and only a link that
had to be followed out of the arena ends the history. -/
def perform [PlainEdge ε] (g : Graph ε) (call : Call ε) : Except Fault (Graph ε) :=
  match call.splice g with
  | .ok g' => .ok g'
  | .error fault => if fault.isFatal then .error fault else .ok g

/-! ## The index -/

/-- A graph whose index records links only, and every link of a reachable node. -/
structure Tracked (g : Graph ε) : Prop where
  width : g.preds.size = g.size
  source_lt : g.source < g.size
  linked : ∀ {m d : Nat}, m ∈ g.predecessors d → d ∈ g.targets m
  closed : ∀ {n d : Nat}, g.Reachable n → d ∈ g.targets n → d < g.size
  recorded : ∀ {m d : Nat}, g.Reachable m → d ∈ g.targets m → m ∈ g.predecessors d

theorem Sound.tracked (h : g.Sound) : g.Tracked :=
  ⟨h.width, h.source_lt, fun hm => (h.index.1 hm).2, h.closed, fun hm hd => h.index.2 ⟨hm, hd⟩⟩

/-! ## Laying rows -/

/-- A graph in which some nodes have been given one way out each, which leads to each other or to
`dest`.  They are new nodes, but for those below the old size. -/
structure Laid (g g' : Graph ε) (dest : Nat) (given : Nat → Prop) : Prop where
  width : g'.preds.size = g'.size
  source : g'.source = g.source
  size_le : g.size ≤ g'.size
  kept : ∀ {m : Nat}, m < g.size → ¬ given m → g'.node? m = g.node? m
  fresh : ∀ {m : Nat}, g.size ≤ m → m < g'.size → given m
  leads : ∀ {m : Nat}, given m → ∃ e t, g'.node? m = some (.simple ⟨e, t⟩) ∧
    (t = dest ∨ g.size ≤ t ∧ t < g'.size)
  index : ∀ {m d : Nat}, m ∈ g'.predecessors d ↔
    m ∈ g.predecessors d ∨ given m ∧ d ∈ g'.targets m

/-- One more node is given a way out. -/
theorem Laid.link {g₁ : Graph ε} {given : Nat → Prop} {dest n t : Nat} {e : ε}
    (h : g.Laid g₁ dest given) (hn : n < g₁.size) (hnew : ¬ given n)
    (ht : t = dest ∨ g.size ≤ t ∧ t < g₁.size) (hl : g₁.link n e t = .ok g') :
    g.Laid g' dest (fun m => given m ∨ m = n) ∧ g'.size = g₁.size := by
  obtain ⟨hpreds, rfl⟩ := link_eq_ok hl
  set g' : Graph ε := { g₁ with
    nodes := g₁.nodes.setIfInBounds n (.simple ⟨e, t⟩)
    preds := g₁.preds.modify t (·.insert n) } with hg'
  have hsize : g'.size = g₁.size := by simp [hg', size]
  have hnode : g'.node? n = some (.simple ⟨e, t⟩) := by
    simp [hg', node?, show n < g₁.nodes.size from hn]
  have hother : ∀ {m}, m ≠ n → g'.node? m = g₁.node? m := by
    intro m hm
    simp [hg', node?, Ne.symm hm]
  have hne : ∀ {m}, given m → m ≠ n := fun hm hmn => hnew (hmn ▸ hm)
  refine ⟨⟨?_, h.source, hsize ▸ h.size_le, ?_, ?_, ?_, ?_⟩, hsize⟩
  · rw [hsize, ← h.width]
    simp [hg']
  · intro m hm hgiven
    rw [not_or] at hgiven
    rw [hother hgiven.2, h.kept hm hgiven.1]
  · exact fun hm hlt => .inl (h.fresh hm (hsize ▸ hlt))
  · rintro m (hm | rfl)
    · rw [hother (hne hm), hsize]
      exact h.leads hm
    · exact ⟨e, t, hnode, hsize ▸ ht⟩
  · intro m d
    have hmem : m ∈ g'.predecessors d ↔ m ∈ g₁.predecessors d ∨ m = n ∧ d = t := by
      refine mem_modify_insert.trans (or_congr_right (and_congr_right fun _ => ?_))
      exact ⟨And.left, fun hd => ⟨hd, hd ▸ hpreds⟩⟩
    rw [hmem, h.index]
    constructor
    · rintro ((hm | ⟨hm, hd⟩) | ⟨rfl, rfl⟩)
      · exact .inl hm
      · exact .inr ⟨.inl hm, by rwa [targets_congr (hother (hne hm))]⟩
      · exact .inr ⟨.inr rfl, by simp [targets_of_simple hnode]⟩
    · rintro (hm | ⟨hm | rfl, hd⟩)
      · exact .inl (.inl hm)
      · exact .inl (.inr ⟨hm, by rwa [targets_congr (hother (hne hm))] at hd⟩)
      · rw [targets_of_simple hnode, List.mem_singleton] at hd
        exact .inr ⟨rfl, hd⟩

theorem Laid.refl (hw : g.preds.size = g.size) (dest : Nat) : g.Laid g dest fun _ => False :=
  ⟨hw, rfl, Nat.le_refl _, fun _ _ => rfl, fun h h' => absurd h (Nat.not_le.2 h'), nofun,
    by simp⟩

theorem Laid.congr {given given' : Nat → Prop} {dest : Nat} (h : g.Laid g' dest given)
    (hg : ∀ m, given m ↔ given' m) : g.Laid g' dest given' := by
  obtain rfl : given = given' := funext fun m => propext (hg m)
  exact h

/-- Paving gives a way out to new nodes. -/
theorem laid_pave {dest next : Nat} {edges : List ε} (hw : g.preds.size = g.size)
    (h : g.pave dest edges = .ok (g', next)) :
    g.Laid g' dest (fun m => g.size ≤ m ∧ m < g'.size) ∧
      (next = dest ∨ g.size ≤ next ∧ next < g'.size) := by
  induction edges generalizing g' next with
  | nil =>
    cases h
    exact ⟨(Laid.refl hw _).congr fun m => ⟨False.elim, fun h => Nat.not_lt.2 h.1 h.2⟩, .inl rfl⟩
  | cons edge edges ih =>
    obtain ⟨⟨g₁, next₁⟩, hpave, h⟩ := bind_eq_ok.1 h
    obtain ⟨h₁, hnext₁⟩ := ih hpave
    obtain ⟨g₂, hlink, h⟩ := bind_eq_ok.1 h
    obtain ⟨rfl, rfl⟩ := Prod.mk.inj (Except.ok.inj h)
    -- the node that is added stands outside what has been laid
    have hold : ∀ {m}, m < g₁.size → g₁.grow.node? m = g₁.node? m := node?_grow
    obtain ⟨hpreds, hg₂⟩ := link_eq_ok hlink
    have hsize : g₂.size = g₁.size + 1 := by simp [hg₂, size, grow]
    have hnode : g₂.node? g₁.size = some (.simple ⟨edge, next₁⟩) := by
      simp [hg₂, node?, grow, size]
    have hother : ∀ {m}, m < g₁.size → g₂.node? m = g₁.node? m := by
      intro m hm
      rw [← hold hm, hg₂]
      simp [node?, Nat.ne_of_gt hm]
    have hle := h₁.size_le
    refine ⟨⟨?_, ?_, by omega, ?_, fun hm hlt => ⟨hm, hlt⟩, ?_, ?_⟩, .inr (by omega)⟩
    · rw [hsize, hg₂]
      simp [grow, h₁.width]
    · rw [← h₁.source, hg₂]
      rfl
    · intro m hm _
      rw [hother (by omega), h₁.kept hm (by omega)]
    · rintro m ⟨hm, hlt⟩
      by_cases hlast : m = g₁.size
      · exact ⟨edge, next₁, hlast ▸ hnode, hnext₁.imp id (by omega)⟩
      · rw [hother (by omega)]
        obtain ⟨e, t, hmt, ht⟩ := h₁.leads ⟨hm, by omega⟩
        exact ⟨e, t, hmt, ht.imp id (by omega)⟩
    · intro m d
      have hmem : m ∈ g₂.predecessors d ↔ m ∈ g₁.predecessors d ∨ m = g₁.size ∧ d = next₁ := by
        rw [← predecessors_grow d h₁.width, hg₂]
        refine mem_modify_insert.trans (or_congr_right (and_congr_right fun _ => ?_))
        exact ⟨And.left, fun hd => ⟨hd, hd ▸ hpreds⟩⟩
      rw [hmem, h₁.index]
      constructor
      · rintro ((hm | ⟨⟨hm, hlt⟩, hd⟩) | ⟨rfl, rfl⟩)
        · exact .inl hm
        · exact .inr ⟨⟨hm, by omega⟩, by rwa [targets_congr (hother hlt)]⟩
        · exact .inr ⟨⟨hle, by omega⟩, by simp [targets_of_simple hnode]⟩
      · rintro (hm | ⟨⟨hm, hlt⟩, hd⟩)
        · exact .inl (.inl hm)
        · by_cases hlast : m = g₁.size
          · rw [hlast, targets_of_simple hnode, List.mem_singleton] at hd
            exact .inr ⟨hlast, hd⟩
          · rw [targets_congr (hother (by omega))] at hd
            exact .inl (.inr ⟨⟨hm, by omega⟩, hd⟩)

/-- Laying a row gives a way out to its first node and to new nodes. -/
theorem laid_layEdges [PlainEdge ε] {n dest : Nat} {edges : List ε} (hw : g.preds.size = g.size)
    (hn : n < g.size) (h : g.layEdges n dest edges = .ok g') :
    g.Laid g' dest fun m => (g.size ≤ m ∧ m < g'.size) ∨ m = n := by
  obtain ⟨e, es, -, hlay⟩ := g.layEdges_eq n dest edges
  rw [hlay] at h
  obtain ⟨⟨g₁, next⟩, hpave, h⟩ := bind_eq_ok.1 h
  obtain ⟨h₁, hnext⟩ := laid_pave hw hpave
  obtain ⟨hlaid, hsize⟩ := h₁.link (Nat.lt_of_lt_of_le hn h₁.size_le) (by omega) hnext h
  exact hlaid.congr fun m => by rw [hsize]

/-! ## Splices lead nowhere new -/

/-- A graph that is open between `n` and `dest`: the links of `n` and of the nodes that are given up
are forgotten, and they led to each other or to `dest`. -/
structure Opened (g cut : Graph ε) (n dest : Nat) (gone : List Nat) : Prop
    extends g.Cut cut n (· ∈ gone) where
  lt_size : n < g.size
  vacated : ∀ {m : Nat}, m ∈ gone → m < g.size ∧ cut.node? m = some .pending
  leads : ∀ {m d : Nat}, m = n ∨ m ∈ gone → d ∈ g.targets m → d ∈ gone ∨ d = n ∨ d = dest
  exit : g.Reachable n → g.Reachable dest

/-- A graph whose nodes are still there is open after some of them are given up. -/
theorem opened_vacate {bare : Graph ε} {n dest : Nat} {gone : List Nat}
    (hw : g.preds.size = g.size) (hnodes : bare.nodes = g.nodes) (hsource : bare.source = g.source)
    (hwidth : bare.preds.size = g.preds.size)
    (hindex : ∀ {m d : Nat}, m ∈ bare.predecessors d ↔ m ∈ g.predecessors d ∧ m ≠ n ∧ m ∉ gone)
    (hn : n < g.size) (hgone : ∀ m ∈ gone, m < g.size)
    (hleads : ∀ {m d : Nat}, m = n ∨ m ∈ gone → d ∈ g.targets m → d ∈ gone ∨ d = n ∨ d = dest)
    (hexit : g.Reachable n → g.Reachable dest) :
    g.Opened (bare.vacate gone) n dest gone := by
  have hsize : bare.size = g.size := by rw [size, hnodes, size]
  refine ⟨⟨?_, size_vacate.trans hsize, hsource, fun hm => ?_, ?_⟩, hn,
    fun hm => ⟨hgone _ hm, node?_vacate_of_mem hm (hsize ▸ hgone _ hm)⟩, hleads, hexit⟩
  · rw [size_vacate, hsize, ← hw]
    exact hwidth
  · rw [node?_vacate hm, node?, hnodes]
    rfl
  · intro m d
    rw [predecessors_vacate]
    exact hindex

/-- How a graph is linked after a splice: old nodes lead where they led or nowhere, and the node
that is spliced leads along new nodes to the end of the row. -/
structure Relinked (g g' : Graph ε) (n dest : Nat) (gone : List Nat) : Prop where
  source : g'.source = g.source
  size_le : g.size ≤ g'.size
  old : ∀ {m d : Nat}, m < g.size → m ≠ n → d ∈ g'.targets m → m ∉ gone ∧ d ∈ g.targets m
  row : ∀ {m d : Nat}, g.size ≤ m ∧ m < g'.size ∨ m = n → d ∈ g'.targets m →
    d = dest ∨ g.size ≤ d ∧ d < g'.size

/-- A row that is laid in an open graph links the graph in this way. -/
theorem Opened.relinked {n dest : Nat} {gone : List Nat} (ho : g.Opened cut n dest gone)
    (hlaid : cut.Laid g' dest fun m => (g.size ≤ m ∧ m < g'.size) ∨ m = n) :
    g.Relinked g' n dest gone := by
  have hsize : cut.size = g.size := ho.size
  refine ⟨hlaid.source.trans ho.source, hsize ▸ hlaid.size_le, fun {m d} hm hne hd => ?_,
    fun {m d} hm hd => ?_⟩
  · have hkept : g'.node? m = cut.node? m := hlaid.kept (hsize ▸ hm) (by omega)
    rw [targets_congr hkept] at hd
    have hin : m ∉ gone := fun hg => by
      simp [targets_of_node? (ho.vacated hg).2, Node.targets, Node.links] at hd
    exact ⟨hin, by rwa [targets_congr (ho.kept hin)] at hd⟩
  · obtain ⟨e, t, hnode, ht⟩ := hlaid.leads hm
    rw [targets_of_simple hnode, List.mem_singleton] at hd
    exact hd ▸ hsize ▸ ht

/-- What is reached after a splice was reached before, or is new and reached through the node that
is spliced. -/
theorem Tracked.reachable_relinked (h : g.Tracked) {n dest : Nat} {gone : List Nat}
    (hl : g.Relinked g' n dest gone) (hn : n < g.size)
    (hexit : g.Reachable n → g.Reachable dest) {m : Nat} (hm : g'.Reachable m) :
    m < g'.size ∧ (m < g.size → g.Reachable m) ∧ (g.size ≤ m → g.Reachable n) := by
  have hle := hl.size_le
  refine hm.mem_of_closed (p := fun m => m < g'.size ∧ (m < g.size → g.Reachable m) ∧
    (g.size ≤ m → g.Reachable n)) ?_ ?_
  · rw [hl.source]
    exact ⟨Nat.lt_of_lt_of_le h.source_lt hle, reachable_source,
      fun hge => absurd h.source_lt (Nat.not_lt.2 hge)⟩
  · rintro x ⟨hlt, hxold, hxnew⟩ y hy hylt
    by_cases hx : g.size ≤ x ∧ x < g'.size ∨ x = n
    · have hreachn : g.Reachable n := by
        rcases hx with hx | rfl
        · exact hxnew hx.1
        · exact hxold hn
      refine ⟨hylt, fun hyold => ?_, fun _ => hreachn⟩
      rcases hl.row hx hy with rfl | hge
      · exact hexit hreachn
      · omega
    · have hxlt : x < g.size := by omega
      obtain ⟨-, hd⟩ := hl.old hxlt (by omega) hy
      have hyold := h.closed (hxold hxlt) hd
      exact ⟨hylt, fun _ => (hxold hxlt).step hd hyold, by omega⟩

/-- A row is laid in an open graph, and the index is right again. -/
theorem Tracked.splice [PlainEdge ε] (h : g.Tracked) {n dest : Nat} {gone : List Nat}
    {edges : List ε} (ho : g.Opened cut n dest gone) (hl : cut.layEdges n dest edges = .ok g') :
    g'.Tracked := by
  have hlaid := laid_layEdges ho.width (ho.size ▸ ho.lt_size) hl
  rw [ho.size] at hlaid
  have hsize : cut.size = g.size := ho.size
  have hlinked := ho.relinked hlaid
  have hreach := @Tracked.reachable_relinked _ _ _ h _ _ _ hlinked ho.lt_size ho.exit
  have hle := hlinked.size_le
  refine ⟨hlaid.width, hlinked.source ▸ Nat.lt_of_lt_of_le h.source_lt hle, ?_, ?_, ?_⟩
  · intro m d hm
    rcases hlaid.index.1 hm with hm | ⟨-, hd⟩
    · obtain ⟨hm, hne, hin⟩ := ho.index.1 hm
      have hd := h.linked hm
      have hlt := lt_size_of_mem_targets hd
      rw [targets_congr (hlaid.kept (hsize ▸ hlt) (by omega)), targets_congr (ho.kept hin)]
      exact hd
    · exact hd
  · intro m d hm hd
    obtain ⟨hlt, hmold, hmnew⟩ := hreach hm
    by_cases hx : g.size ≤ m ∧ m < g'.size ∨ m = n
    · have hreachn : g.Reachable n := by
        rcases hx with hx | rfl
        · exact hmnew hx.1
        · exact hmold ho.lt_size
      rcases hlinked.row hx hd with rfl | hge
      · exact Nat.lt_of_lt_of_le (ho.exit hreachn).lt_size hle
      · exact hge.2
    · obtain ⟨-, hd⟩ := hlinked.old (by omega) (by omega) hd
      exact Nat.lt_of_lt_of_le (h.closed (hmold (by omega)) hd) hle
  · intro m d hm hd
    obtain ⟨hlt, hmold, -⟩ := hreach hm
    rw [hlaid.index]
    by_cases hx : g.size ≤ m ∧ m < g'.size ∨ m = n
    · exact .inr ⟨hx, hd⟩
    · obtain ⟨hin, hd⟩ := hlinked.old (by omega) (by omega) hd
      exact .inl (ho.index.2 ⟨h.recorded (hmold (by omega)) hd, by omega, hin⟩)

/-! ## The three splices -/

theorem Tracked.reachable_chainTarget (h : g.Tracked) {prev x dest : Nat} {ns : List Nat}
    (hp : g.Reachable prev) (ht : g.targets prev = [x]) (hns : g.chainTarget x ns = .ok dest) :
    g.Reachable dest := by
  have hx : g.Reachable x := hp.step (by simp [ht]) (h.closed hp (by simp [ht]))
  induction ns generalizing prev x with
  | nil =>
    cases hns
    exact hx
  | cons n ns ih =>
    obtain ⟨rfl, -, e, y, hnode, hrest⟩ := chainTarget_cons_eq_ok hns
    have hy : g.targets x = [y] := targets_of_simple hnode
    exact ih hx hy hrest (hx.step (by simp [hy]) (h.closed hx (by simp [hy])))

/-- What a chain leads to, and that its nodes lead to each other and on to its end. -/
theorem chainTarget_leads {next dest : Nat} {ns : List Nat} (h : g.chainTarget next ns = .ok dest) :
    (next ∈ ns ∨ next = dest) ∧
      ∀ m ∈ ns, m < g.size ∧ ∀ d ∈ g.targets m, d ∈ ns ∨ d = dest := by
  induction ns generalizing next with
  | nil =>
    cases h
    simp
  | cons n ns ih =>
    obtain ⟨rfl, -, e, y, hnode, hrest⟩ := chainTarget_cons_eq_ok h
    obtain ⟨hy, hns⟩ := ih hrest
    refine ⟨.inl (by simp), fun m hm => ?_⟩
    rcases List.mem_cons.1 hm with rfl | hm
    · refine ⟨lt_size_of_node? hnode, fun d hd => ?_⟩
      rw [targets_of_simple hnode, List.mem_singleton] at hd
      exact hd ▸ hy.imp (List.mem_cons_of_mem _) id
    · exact ⟨(hns m hm).1, fun d hd => ((hns m hm).2 d hd).imp (List.mem_cons_of_mem _) id⟩

theorem Tracked.opened_edge [PlainEdge ε] (h : g.Tracked) {n : Nat} {edges : List ε}
    (hs : g.spliceEdge n edges = .ok g') :
    ∃ dest cut, g.Opened cut n dest [] ∧ cut.layEdges n dest edges = .ok g' := by
  obtain ⟨e, dest, hnode, hs⟩ := spliceEdge_eq_ok hs
  have htargets : g.targets n = [dest] := targets_of_simple hnode
  refine ⟨dest, _, ⟨⟨size_preds_unlink.trans h.width, rfl, rfl, fun _ => rfl, fun {m d} => ?_⟩,
    lt_size_of_node? hnode, by simp, fun {m d} hm hd => ?_, fun hn => ?_⟩, hs⟩
  · rw [mem_predecessors_unlink_of_single htargets h.linked]
    simp
  · obtain rfl : m = n := by simpa using hm
    simp_all
  · exact hn.step (by simp [htargets]) (h.closed hn (by simp [htargets]))

theorem Tracked.opened_chain [PlainEdge ε] (h : g.Tracked) {nodes : List Nat} {edges : List ε}
    (hs : g.spliceChain nodes edges = .ok g') :
    ∃ n ns x dest cut, nodes = n :: ns ∧ (g.targets n = [x] ∧ g.chainTarget x ns = .ok dest) ∧
      g.Opened cut n dest ns ∧ cut.layEdges n dest edges = .ok g' := by
  obtain ⟨n, ns, e, next, dest, rfl, hnode, hchain, hs⟩ := spliceChain_eq_ok hs
  have htargets : g.targets n = [next] := targets_of_simple hnode
  obtain ⟨hnodes, hsource, hwidth⟩ := @unlinkChain_nodes _ g n dest ns
  obtain ⟨hnext, hns⟩ := chainTarget_leads hchain
  refine ⟨n, ns, next, dest, _, rfl, ⟨htargets, hchain⟩,
    opened_vacate h.width hnodes hsource hwidth
      (mem_predecessors_unlinkChain hchain htargets h.linked) (lt_size_of_node? hnode)
      (fun m hm => (hns m hm).1) (fun {m d} hm hd => ?_)
      (fun hn => h.reachable_chainTarget hn htargets hchain), hs⟩
  rcases hm with rfl | hm
  · rw [htargets, List.mem_singleton] at hd
    exact hd ▸ hnext.imp id .inr
  · exact ((hns m hm).2 d hd).imp id .inr

theorem Tracked.opened_region [PlainEdge ε] (h : g.Tracked) {start dest : Nat} {edges : List ε}
    (hs : g.spliceRegion start dest edges = .ok g') :
    ∃ cut, g.Opened cut start dest ((g.region start dest).filter (· != start)) ∧
      start ∈ g.region start dest ∧ cut.layEdges start dest edges = .ok g' := by
  obtain ⟨⟨hstart, hdest⟩, hinside, ⟨u, hu, hud⟩, hs⟩ := spliceRegion_eq_ok hs
  have hin : start ∈ g.region start dest := mem_region.2 (.start hstart)
  obtain ⟨hnodes, hsource, hwidth⟩ := @unlinkAll_nodes _ g (g.region start dest)
  refine ⟨_, opened_vacate h.width hnodes hsource hwidth (fun {m d} => ?_) hstart
    (fun m hm => (mem_region.1 (List.mem_filter.1 hm).1).lt_size) (fun {m d} hm hd => ?_)
    (fun hr => ?_), hin, hs⟩
  · rw [mem_predecessors_unlinkAll]
    refine and_congr_right fun hm => ?_
    have hd := h.linked hm
    rw [List.mem_filter]
    constructor
    · refine fun hout => ⟨?_, fun hm => hout ⟨hm.1, hd⟩⟩
      rintro rfl
      exact hout ⟨hin, hd⟩
    · rintro ⟨hne, hout⟩ ⟨hm, -⟩
      exact hout ⟨hm, by simpa using hne⟩
  · -- what the search comes to is in the region, unless it is where the search stops
    have hm : m ∈ g.region start dest := by
      rcases hm with rfl | hm
      · exact hin
      · exact (List.mem_filter.1 hm).1
    by_cases hdd : d = dest
    · exact .inr (.inr hdd)
    · have hreg : d ∈ g.region start dest :=
        mem_region.2 (.step (mem_region.1 hm) (by simp [hd, hdd]) (hinside m hm d hd))
      by_cases hds : d = start
      · exact .inr (.inl hds)
      · exact .inl (by simp [hreg, hds])
  · have hreach : g.Reachable u := by
      refine (mem_region.1 hu).mem_of_closed hr fun x hx y hy hlt => ?_
      exact hx.step (List.mem_filter.1 hy).1 hlt
    exact hreach.step hud hdest

theorem mem_region_iff_filter {start dest : Nat} (hin : start ∈ g.region start dest) (m : Nat) :
    m ∈ g.region start dest ↔ m = start ∨ m ∈ (g.region start dest).filter (· != start) := by
  simp only [List.mem_filter, bne_iff_ne, ne_eq]
  by_cases hm : m = start <;> simp [hm, hin]

/-- A call that succeeds opens the graph at the nodes it takes and lays a row there. -/
theorem Tracked.opened [PlainEdge ε] (h : g.Tracked) {call : Call ε}
    (hs : call.splice g = .ok g') :
    ∃ n dest cut edges, g.Opened cut n dest (call.vacated g) ∧
      (∀ m, m ∈ call.taken g ↔ m = n ∨ m ∈ call.vacated g) ∧
      cut.layEdges n dest edges = .ok g' := by
  cases call with
  | edge n edges =>
    obtain ⟨dest, cut, ho, hl⟩ := h.opened_edge hs
    exact ⟨n, dest, cut, edges, ho, by simp [Call.taken, Call.vacated], hl⟩
  | chain nodes edges =>
    obtain ⟨n, ns, x, dest, cut, rfl, -, ho, hl⟩ := h.opened_chain hs
    exact ⟨n, dest, cut, edges, ho, by simp [Call.taken, Call.vacated], hl⟩
  | region start dest edges =>
    obtain ⟨cut, ho, hin, hl⟩ := h.opened_region hs
    exact ⟨start, dest, cut, edges, ho, mem_region_iff_filter hin, hl⟩

/-- A call keeps the index right. -/
theorem Tracked.perform [PlainEdge ε] (h : g.Tracked) {call : Call ε}
    (hp : g.perform call = .ok g') : g'.Tracked := by
  unfold Graph.perform at hp
  split at hp
  · next g₁ hsplice =>
    cases hp
    obtain ⟨n, dest, cut, edges, ho, -, hl⟩ := h.opened hsplice
    exact h.splice ho hl
  · split at hp
    · cases hp
    · cases hp
      exact h

/-- A history of calls keeps the index right. -/
theorem Tracked.history [PlainEdge ε] (h : g.Tracked) {calls : List (Call ε)}
    (hp : calls.foldlM Graph.perform g = .ok g') : g'.Tracked := by
  induction calls generalizing g with
  | nil =>
    cases hp
    exact h
  | cons call calls ih =>
    rw [List.foldlM_cons] at hp
    obtain ⟨g₁, hcall, hp⟩ := bind_eq_ok.1 hp
    exact ih (h.perform hcall) hp

/-! ## The edges into a node -/

/-- The edges from a recorded predecessor into a node are its edges to that node, in order. -/
theorem filter_inEdges {u v : Nat} (hu : u ∈ g.predecessors v) :
    (g.inEdges v).filter (·.source == u) = (g.outEdges u).filter (·.dest == v) := by
  have hone : ∀ m, ((g.outEdges m).filter (·.dest == v)).filter (·.source == u) =
      if m = u then (g.outEdges u).filter (·.dest == v) else [] := by
    intro m
    split
    · next hm =>
      subst hm
      rw [List.filter_eq_self]
      exact fun e he => by simp [source_of_mem_outEdges (List.mem_filter.1 he).1]
    · next hm =>
      rw [List.filter_eq_nil_iff]
      exact fun e he => by simpa [source_of_mem_outEdges (List.mem_filter.1 he).1] using hm
  have hnd := (g.predecessors v).nodup_toList
  have hu : u ∈ (g.predecessors v).toList := hu
  unfold inEdges
  generalize (g.predecessors v).toList = ms at hnd hu
  rw [List.filter_flatMap]
  simp only [hone]
  obtain ⟨before, after, rfl⟩ := List.append_of_mem hu
  obtain ⟨-, hafter, hne⟩ := List.nodup_append.1 hnd
  have hother : ∀ ms : List Nat, u ∉ ms →
      ms.flatMap (fun m => if m = u then (g.outEdges u).filter (·.dest == v) else []) = [] := by
    intro ms hms
    rw [List.flatMap_eq_nil_iff]
    exact fun m hm => if_neg fun (hmu : m = u) => hms (hmu ▸ hm)
  rw [List.flatMap_append, List.flatMap_cons, hother before, hother after, if_pos rfl]
  · simp
  · exact (List.nodup_cons.1 hafter).1
  · exact fun h => hne u h u (by simp) rfl

theorem pairwise_source_inEdges (v : Nat) :
    ((g.inEdges v).map BoundEdge.source).Pairwise (· ≤ ·) := by
  rw [List.pairwise_map]
  refine List.pairwise_flatMap.2 ⟨fun m _ => ?_, ?_⟩
  · refine List.pairwise_iff_forall_sublist.2 fun {e e'} h => ?_
    rw [source_of_mem_outEdges (List.mem_filter.1 (h.subset (by simp))).1,
      source_of_mem_outEdges (List.mem_filter.1 (h.subset (a := e') (by simp))).1]
  · refine (g.predecessors v).ascending.imp fun {m m'} hlt e he e' he' => ?_
    rw [source_of_mem_outEdges (List.mem_filter.1 he).1,
      source_of_mem_outEdges (List.mem_filter.1 he').1]
    exact Nat.le_of_lt hlt

theorem Tracked.mem_source_inEdges (h : g.Tracked) {u v : Nat} :
    u ∈ (g.inEdges v).map BoundEdge.source ↔ u ∈ g.predecessors v := by
  constructor
  · intro hu
    obtain ⟨e, he, rfl⟩ := List.mem_map.1 hu
    exact (mem_inEdges.1 he).1
  · intro hu
    obtain ⟨e, he, hd⟩ := mem_outEdges_of_targets (h.linked hu)
    obtain rfl := source_of_mem_outEdges he
    exact List.mem_map.2 ⟨e, mem_inEdges.2 ⟨hu, he, hd⟩, rfl⟩

/-- The number of recorded predecessors is that of the different nodes the edges come from. -/
theorem Tracked.inDegree_eq (h : g.Tracked) (v : Nat) :
    g.inDegree v = ((g.inEdges v).map BoundEdge.source).toFinset.card := by
  rw [inDegree, Ascending.size, ← List.toFinset_card_of_nodup (g.predecessors v).nodup_toList]
  congr 1
  ext u
  rw [List.mem_toFinset, List.mem_toFinset, h.mem_source_inEdges, Ascending.mem_def]

end Graph

/-! ## Histories -/

namespace FlowGraph

/-- After any calls of splices the index records links only, and every link of a reachable node.
So the edges into a node come grouped by ascending nodes, all the edges of a reachable node to it
among them, and its degree is the number of different nodes they come from. -/
theorem index_of_history {g g' : FlowGraph} (ho : Origin g) {calls : List (Graph.Call Edge)}
    (hc : calls.foldlM Graph.perform g = .ok g') :
    (∀ u v, u ∈ g'.predecessors v → v ∈ g'.targets u) ∧
    (∀ u v, g'.Reachable u → v ∈ g'.targets u → u ∈ g'.predecessors v) ∧
    (∀ v, ((g'.inEdges v).map BoundEdge.source).Pairwise (· ≤ ·)) ∧
    (∀ u v, g'.Reachable u → v ∈ g'.targets u →
      (g'.inEdges v).filter (·.source == u) = (g'.outEdges u).filter (·.dest == v)) ∧
    ∀ v, g'.inDegree v = ((g'.inEdges v).map BoundEdge.source).toFinset.card := by
  have h : g'.Tracked := ho.sound.tracked.history hc
  exact ⟨fun u v => h.linked, fun u v => h.recorded, Graph.pairwise_source_inEdges,
    fun u v hu hv => Graph.filter_inEdges (h.recorded hu hv), h.inDegree_eq⟩

/-- Both arms of a test lead to one place, another place is led to by nothing, and of three calls
the second is refused. -/
theorem index_of_history_shared_arms :
    let nodes : Array (Node Edge) := #[.branch ⟨.ifTrue, 1⟩ ⟨.ifFalse, 1⟩,
      .simple ⟨.action .trace, 3⟩, .simple ⟨.plain, 1⟩, .done]
    let calls : List (Graph.Call Edge) :=
      [.edge 2 [.sub, .sub], .chain [0, 1] [], .edge 1 [.sub, .plain]]
    ∃ g', Graph.ofNodes nodes 0 = .ok (Graph.indexed nodes 0) ∧
      calls.foldlM Graph.perform (Graph.indexed nodes 0) = .ok g' ∧
      g'.inDegree 1 = ((g'.inEdges 1).map BoundEdge.source).toFinset.card ∧
      (g'.inEdges 1).length = 3 := by
  intro nodes calls
  have ho : Graph.ofNodes nodes 0 = .ok (Graph.indexed nodes 0) := by cbv
  obtain ⟨g', hc, hlen⟩ : ∃ g', calls.foldlM Graph.perform (Graph.indexed nodes 0) = .ok g' ∧
      (g'.inEdges 1).length = 3 := by
    refine ⟨⟨#[.branch ⟨.ifTrue, 1⟩ ⟨.ifFalse, 1⟩, .simple ⟨.sub, 5⟩, .simple ⟨.sub, 4⟩, .done,
      .simple ⟨.sub, 1⟩, .simple ⟨.plain, 3⟩], 0, _⟩, by cbv, by cbv⟩
  exact ⟨g', ho, hc, (index_of_history (.accepted ho) hc).2.2.2.2 1, hlen⟩

end FlowGraph

end ScriptRecovery
