import ScriptRecovery.Proofs.Graph.Rows
import ScriptRecovery.Proofs.Reduce.Regular
import ScriptRecovery.Reduce.Templates

/-!
# Passes over single edges

Texts take the place of pool entries and templates that of actions one edge at a time.  Both passes
pick edges out of the nodes of one order (`FlowGraph.pickEdges`), which lists every node once, so
their splices are apart from each other.  Neither picks a test edge or lays one.
-/

namespace ScriptRecovery

theorem Outcome.ofEdits_eq_of_applyAll {σ α : Type} {f : σ → α → Except Fault σ} {s s' : σ}
    {as : List α} (h : Outcome.applyAll f s as = ⟨s', .ok true⟩) :
    ∃ changed, Outcome.ofEdits f s (.ok as) = ⟨s', .ok changed⟩ := by
  cases as with
  | nil =>
    cases h
    exact ⟨false, rfl⟩
  | cons a as => exact ⟨true, h⟩

namespace FlowGraph

variable {traceName : String} {g g' : FlowGraph} {α : Type} {pick : Nat → Edge → Option α}

/-- What is picked, and where. -/
theorem mem_pickEdges {n : Nat} {a : α} (h : (n, a) ∈ g.pickEdges pick) :
    g.Reachable n ∧ ∃ e dest, g.node? n = some (.simple ⟨e, dest⟩) ∧ pick n e = some a := by
  obtain ⟨m, hm, hpick⟩ := List.mem_filterMap.1 h
  rw [Graph.mem_list] at hm
  cases hnode : g.node? m with
  | none => simp [hnode] at hpick
  | some node =>
    cases node with
    | simple out =>
      obtain ⟨e, dest⟩ := out
      cases hp : pick m e with
      | none => simp [hnode, Node.simpleOut?, hp] at hpick
      | some b =>
        have : m = n ∧ b = a := by simpa [hnode, Node.simpleOut?, hp] using hpick
        obtain ⟨rfl, rfl⟩ := this
        exact ⟨hm, e, dest, hnode, hp⟩
    | pending | done | branch _ _ => simp [hnode, Node.simpleOut?] at hpick

/-- What is picked wherever an edge allows it. -/
theorem mem_pickEdges_of {n dest : Nat} {e : Edge} {a : α} (hn : g.Reachable n)
    (hnode : g.node? n = some (.simple ⟨e, dest⟩)) (hp : pick n e = some a) :
    (n, a) ∈ g.pickEdges pick := by
  refine List.mem_filterMap.2 ⟨n, Graph.mem_list.2 hn, ?_⟩
  simp [hnode, Node.simpleOut?, hp]

/-- No node is picked from twice. -/
theorem pairwise_pickEdges : (g.pickEdges pick).Pairwise fun a b => a.1 ≠ b.1 := by
  refine List.pairwise_filterMap.2 ((Graph.nodup_reversePostorder g).imp fun {m m'} hne => ?_)
  have hfst : ∀ {k : Nat} {b : Nat × α}, (do
      let out ← (← g.node? k).simpleOut?
      return (k, ← pick k out.edge)) = some b → b.1 = k := by
    intro k b hb
    simp only [Option.bind_eq_bind, Option.bind_eq_some_iff, pure, Option.some.injEq] at hb
    obtain ⟨_, -, _, -, _, -, rfl⟩ := hb
    rfl
  intro b hb b' hb'
  rw [hfst hb, hfst hb']
  exact hne

/-- The splice of a row in place of the one way out of a node. -/
def edgePatch (g : FlowGraph) (row : α → List Edge) (a : Nat × α) : Patch where
  source := a.1
  dest := (g.targets a.1).headD 0
  gone := []
  row := Graph.rowOf (row a.2)

/-- Whether an edge is still there to be picked in a graph. -/
structure StillPicked (g : FlowGraph) (pick : Nat → Edge → Option α) (row : α → List Edge)
    (g' : FlowGraph) (a : Nat × α) : Prop where
  reachable : g'.Reachable a.1
  node : ∃ e, g'.node? a.1 = some (.simple ⟨e, (g.edgePatch row a).dest⟩) ∧ pick a.1 e = some a.2

/-- What is picked is still there in the graph it is picked from. -/
theorem stillPicked_pickEdges {row : α → List Edge} :
    ∀ a ∈ g.pickEdges pick, g.StillPicked pick row g a := by
  rintro ⟨n, a⟩ ha
  obtain ⟨hn, e, dest, hnode, hp⟩ := mem_pickEdges ha
  exact ⟨hn, e, by simp [edgePatch, hnode], hp⟩

theorem StillPicked.keeps {row : α → List Edge} {g₁ g₂ : FlowGraph} {a : Nat × α}
    (h : g.StillPicked pick row g₁ a)
    (hk : g₁.Keeps g₂ (g.edgePatch row a).source (· ∈ (g.edgePatch row a).gone)) :
    g.StillPicked pick row g₂ a := by
  obtain ⟨hn, e, hnode, hp⟩ := h
  exact ⟨hk.reachable hn, e, (hk.node (.inl rfl)).trans hnode, hp⟩

/-- The splices of edges that are picked are apart from each other. -/
theorem apart_pickEdges {row : α → List Edge} : (g.pickEdges pick).Pairwise fun a b =>
    (g.edgePatch row a).Apart (g.edgePatch row b) := by
  refine pairwise_pickEdges.imp fun {a b} hne => ⟨?_, by simp [edgePatch]⟩
  rintro x (rfl | hx)
  · exact ⟨Ne.symm hne, by simp [edgePatch]⟩
  · simp [edgePatch] at hx

/-- An edge that is picked is spliced. -/
theorem StillPicked.splice {row : α → List Edge} {g₁ : FlowGraph} {a : Nat × α}
    (h : g.StillPicked pick row g₁ a) (hg : Graph.Sound g₁) :
    ∃ g₂, g₁.spliceEdge a.1 (row a.2) = .ok g₂ ∧ Graph.Sound g₂ ∧
      (g.edgePatch row a).Carried g₁ g₂ := by
  obtain ⟨hn, e, hnode, -⟩ := h
  obtain ⟨hregion, g₂, hsplice, hsound, hspliced⟩ := hg.spliceEdge_eq_ok hn hnode (row a.2)
  exact ⟨g₂, hsplice, hsound, hregion, hspliced⟩

/-- While rows take the places of edges that are picked.  A node is as it was, and if its edge is
picked it is left to be spliced, or a row that is picked is laid from the node over new ones. -/
structure Relaying (g : FlowGraph) (pick : Nat → Edge → Option α) (row : α → List Edge)
    (rest : List (Nat × α)) (g₁ : FlowGraph) : Prop where
  sound : Graph.Sound g₁
  source : g₁.source = g.source
  size_le : g.size ≤ g₁.size
  size_eq : (∀ a, (Graph.rowOf (row a)).length = 1) → g₁.size = g.size
  nodes : ∀ {n : Nat}, n < g.size →
    (g₁.node? n = g.node? n ∧ ∀ a, (n, a) ∈ g.pickEdges pick → (n, a) ∈ rest) ∨
    ∃ e dest a, g.node? n = some (.simple ⟨e, dest⟩) ∧ (n, a) ∈ g.pickEdges pick ∧
      ∃ e' es next, Graph.rowOf (row a) = e' :: es ∧ g₁.node? n = some (.simple ⟨e', next⟩) ∧
        g₁.Row g.size dest next es

theorem Relaying.splice {row : α → List Edge} {g₁ g₂ : FlowGraph} {a : Nat × α}
    {rest : List (Nat × α)} (h : g.Relaying pick row (a :: rest) g₁) (ha : a ∈ g.pickEdges pick)
    (hstill : g.StillPicked pick row g₁ a) (hs : g₁.spliceEdge a.1 (row a.2) = .ok g₂)
    (hg₂ : Graph.Sound g₂) : g.Relaying pick row rest g₂ := by
  obtain ⟨e₁, dest₁, hnode₁, hdone⟩ := Graph.replaced_of_spliceEdge hs
  obtain ⟨hreach, e, dest, hnode, -⟩ := mem_pickEdges ha
  have hdest : dest₁ = dest := by
    obtain ⟨e₀, hnode₀, -⟩ := hstill.node
    cases hnode₁.symm.trans hnode₀
    simp [edgePatch, hnode]
  have hlow := h.size_le
  refine ⟨hg₂, hdone.source.trans h.source, Nat.le_trans hlow hdone.size_le, fun hone => ?_,
    fun {n} hn => ?_⟩
  · have := hdone.size
    rw [hone, h.size_eq hone] at this
    omega
  · by_cases hna : n = a.1
    · subst hna
      obtain ⟨e', es, next, hrow, hfirst, hlaid⟩ := hdone.laid
      exact .inr ⟨e, dest, a.2, hnode, ha, e', es, next, hrow, hfirst,
        hdest ▸ hlaid.mono hlow⟩
    · rw [hdone.kept (Nat.lt_of_lt_of_le hn hlow) hna id]
      refine (h.nodes hn).imp ?_ ?_
      · rintro ⟨hsame, hleft⟩
        refine ⟨hsame, fun b hb => (List.mem_cons.1 (hleft b hb)).resolve_left ?_⟩
        rintro rfl
        exact hna rfl
      · rintro ⟨e, dest, b, hnode, hb, e', es, next, hrow, hfirst, hlaid⟩
        refine ⟨e, dest, b, hnode, hb, e', es, next, hrow, hfirst, ?_⟩
        -- the rows that are laid already are over new nodes, which the next splice leaves alone
        refine hlaid.congr fun m node hm hmnode => ?_
        have hne : m ≠ a.1 := fun hma => absurd hreach.lt_size (Nat.not_lt.2 (hma ▸ hm))
        exact (hdone.kept (Graph.lt_size_of_node? hmnode) hne id).trans hmnode

/-- Edges of a sound graph give way to any rows, at all nodes that are picked. -/
theorem relaying_spliceEdges (hg : Graph.Sound g) (pick : Nat → Edge → Option α)
    (row : α → List Edge) :
    ∃ g', Outcome.applyAll (fun g r => g.spliceEdge r.1 (row r.2)) g (g.pickEdges pick) =
      ⟨g', .ok true⟩ ∧ g.Relaying pick row [] g' := by
  obtain ⟨g', happly, hg', -⟩ := applyAll_along (p := g.edgePatch row)
    (V := fun g₁ a => g.StillPicked pick row g₁ a ∧ a ∈ g.pickEdges pick)
    (I := fun rest g₁ => g.Relaying pick row rest g₁) (R := fun _ _ => True)
    (fun h => h.sound) (fun _ ha => ha.1.reachable) (fun _ => by simp [edgePatch])
    (fun ha hk => ⟨ha.1.keeps hk, ha.2⟩)
    (fun {g₁ a rest} h ha => by
      obtain ⟨g₂, hsplice, hsound, hcarried⟩ := ha.1.splice h.sound
      exact ⟨g₂, hsplice, h.splice ha.2 ha.1 hsplice hsound, hcarried, trivial⟩)
    ⟨hg, rfl, Nat.le_refl _, fun _ => rfl, fun _ => .inl ⟨rfl, fun _ h => h⟩⟩
    (fun a ha => ⟨stillPicked_pickEdges a ha, ha⟩) apart_pickEdges
  exact ⟨g', happly, hg'⟩

theorem spliceEdges_eq_ok (hg : Graph.Sound g) (pick : Nat → Edge → Option α)
    (row : α → List Edge) :
    ∃ g', Outcome.applyAll (fun g r => g.spliceEdge r.1 (row r.2)) g (g.pickEdges pick) =
      ⟨g', .ok true⟩ ∧ Graph.Sound g' ∧ g'.source = g.source := by
  obtain ⟨g', happly, hg'⟩ := relaying_spliceEdges hg pick row
  exact ⟨g', happly, hg'.sound, hg'.source⟩

/-- Rows of one edge change the edges that are picked and nothing else. -/
theorem Relaying.single {pick : Nat → Edge → Option Edge} {rest : List (Nat × Edge)}
    (h : g.Relaying pick (fun e => [e]) rest g') (n : Nat) :
    (g'.node? n = g.node? n ∧ ∀ e', (n, e') ∈ g.pickEdges pick → (n, e') ∈ rest) ∨
      ∃ e dest e', g.node? n = some (.simple ⟨e, dest⟩) ∧ (n, e') ∈ g.pickEdges pick ∧
        g'.node? n = some (.simple ⟨e', dest⟩) := by
  by_cases hn : n < g.size
  · refine (h.nodes hn).imp_right ?_
    rintro ⟨e, dest, a, hnode, ha, e', es, next, hrow, hfirst, hlaid⟩
    obtain ⟨rfl, rfl⟩ := List.cons.inj (hrow : [a] = e' :: es)
    cases hlaid
    exact ⟨e, dest, a, hnode, ha, hfirst⟩
  · have hout : ∀ {h : FlowGraph}, h.size = g.size → h.node? n = none := fun hsize =>
      Array.getElem?_eq_none (Nat.le_trans (Nat.le_of_eq hsize) (Nat.not_lt.1 hn))
    refine .inl ⟨(hout (h.size_eq fun _ => rfl)).trans (hout rfl).symm, fun e' he' => ?_⟩
    exact absurd (mem_pickEdges he').1.lt_size hn

/-- Whether a graph differs from the one that edges are picked from only by single edges in the
places of some of them. -/
def Retouched (g : FlowGraph) (pick : Nat → Edge → Option Edge) (g' : FlowGraph) : Prop :=
  ∀ n, g'.node? n = g.node? n ∨ ∃ e dest e', g.node? n = some (.simple ⟨e, dest⟩) ∧
    (n, e') ∈ g.pickEdges pick ∧ g'.node? n = some (.simple ⟨e', dest⟩)

/-- Single edges take the places of those that are picked, and nothing else changes. -/
theorem retouched_spliceEdges (hg : Graph.Sound g) (pick : Nat → Edge → Option Edge) :
    ∃ g', Outcome.applyAll (fun g r => g.spliceEdge r.1 [r.2]) g (g.pickEdges pick) =
      ⟨g', .ok true⟩ ∧ g.Retouched pick g' := by
  obtain ⟨g', happly, hg'⟩ := relaying_spliceEdges hg pick fun e => [e]
  exact ⟨g', happly, fun n => (hg'.single n).imp_left And.left⟩

/-- A row without test edges fits in place of an edge that is not one. -/
theorem Regular.fits_of_edge (hg : g.Regular traceName) {n dest : Nat} {e : Edge}
    {row : List Edge}
    (hn : g.Reachable n) (hnode : g.node? n = some (.simple ⟨e, dest⟩)) (he : e ≠ .ifTest)
    (hrow : ∀ e ∈ row, e.Lawful traceName ∧ e ≠ .ifTest) : g.Fits traceName dest row := by
  refine ⟨fun e he => (hrow e he).1, fun h _ => (hrow _ (by simp [h])).2, fun h => ?_⟩
  refine iff_of_false (hrow _ (by simp [h])).2 ?_
  rintro ⟨a, b, hab⟩
  have := hg.tested.only hn (by rw [Graph.targets_of_simple hnode]; simp) hab
  cases hnode.symm.trans this
  exact he rfl

/-- Edges that are not test edges give way to rows without test edges. -/
theorem Regular.spliceEdges_eq_ok (hg : g.Regular traceName) (pick : Nat → Edge → Option α)
    (row : α → List Edge)
    (hpick : ∀ {n e a}, e.Lawful traceName → pick n e = some a →
      e ≠ .ifTest ∧ ∀ e' ∈ row a, e'.Lawful traceName ∧ e' ≠ .ifTest) :
    ∃ g' changed, Outcome.ofEdits (fun g r => g.spliceEdge r.1 (row r.2)) g
        (.ok (g.pickEdges pick)) = ⟨g', .ok changed⟩ ∧ g'.Regular traceName ∧
      Reduces traceName (g.edgePatch row) (g.StillPicked pick row) g g' := by
  have hstep : ∀ {g₁ : FlowGraph} {a : Nat × α}, g₁.Regular traceName →
      g.StillPicked pick row g₁ a → ∃ g₂, g₁.spliceEdge a.1 (row a.2) = .ok g₂ ∧
        (g.edgePatch row a).Applied traceName g₁ g₂ := by
    intro g₁ a hg₁ ha
    obtain ⟨g₂, hsplice, hsound, hregion, hspliced⟩ := ha.splice hg₁.sound
    obtain ⟨hn, e, hnode, hp⟩ := ha
    obtain ⟨he, hrow⟩ := hpick (hg₁.lawful hn hnode (List.mem_singleton.2 rfl)) hp
    have hlaid := Graph.forall_mem_rowOf ⟨.plain, by simp [PlainEdge.plain]⟩ hrow
    have hleads : ∃ u, (u = a.1 ∨ u ∈ []) ∧ g₁.Reachable u ∧
        (g.edgePatch row a).dest ∈ g₁.targets u :=
      ⟨_, .inl rfl, hn, (Graph.targets_of_simple hnode).symm ▸ List.mem_singleton.2 rfl⟩
    exact ⟨g₂, hsplice, hregion, hspliced, hg₁.splice hregion ⟨_, hnode⟩ hleads hspliced hsound
      (hg₁.fits_of_edge hn hnode he hlaid), hleads, by simp [edgePatch]⟩
  obtain ⟨g', happly, hg', hreduces, -⟩ := hg.applyAll_eq_ok (p := g.edgePatch row)
    (fun _ => by simp [edgePatch]) StillPicked.keeps hstep stillPicked_pickEdges apart_pickEdges
  obtain ⟨changed, hchanged⟩ := Outcome.ofEdits_eq_of_applyAll happly
  exact ⟨g', changed, hchanged, hg', hreduces⟩

/-! ## The two passes -/

theorem inlinePool?_eq_some {pool : Pool} {e e' : Edge} (h : e.inlinePool? pool = some e') :
    ∃ values, e = .action (.push values) ∧
      e' = .action (.push (values.map (Operand.resolve pool))) := by
  unfold Edge.inlinePool? at h
  split at h
  · next values =>
    split at h
    · exact ⟨values, rfl, (Option.some.inj h).symm⟩
    · cases h
  · cases h

theorem toTemplates?_eq_some {e : Edge} {row : List Edge}
    (h : e.toTemplates? traceName = some row) : ∃ a ts, e = .action a ∧
      a.templates? traceName = some ts ∧ row = ts.map .template := by
  cases e with
  | action a =>
    obtain ⟨ts, hts, hrow⟩ := Option.map_eq_some_iff.1 h
    exact ⟨a, ts, rfl, hts, hrow.symm⟩
  | _ => cases h

/-- The templates of an action draw their values in order. -/
theorem formed_templates {a : Action} {ts : List Template}
    (h : a.templates? traceName = some ts) : ∀ t ∈ ts, t.Formed traceName := by
  cases a with
  | not =>
    obtain rfl := Option.some.inj h
    exact List.forall_mem_singleton.2 (Expr.Draws.unary .input)
  | trace =>
    obtain rfl := Option.some.inj h
    exact List.forall_mem_singleton.2 (Expr.Draws.call .input)
  | binary op =>
    obtain rfl := Option.some.inj h
    exact List.forall_mem_singleton.2 (Expr.Draws.right .input)
  | push values =>
    obtain rfl := Option.some.inj h
    intro t ht
    obtain ⟨v, -, rfl⟩ := List.mem_map.1 ht
    exact Template.formed_value v
  | _ => cases h

/-- The push that takes the place of an edge when one pool can be in force at its node. -/
def pickPush (states : Solution PoolState) (n : Nat) (edge : Edge) : Option Edge := do
  let pool ← (← states.state? n).single?
  edge.inlinePool? pool

/-- Putting texts in place of pool entries does not fail. -/
theorem Regular.inlinePools (hg : g.Regular traceName) (strict : Bool) (iteration : Nat) :
    ∃ g' changed, (Pass.inlinePools strict).run iteration g = ⟨g', .ok changed⟩ ∧
      g'.Regular traceName ∧ Reduces traceName (g.edgePatch fun e => [e])
        (g.StillPicked (pickPush (g.poolStates strict)) fun e => [e]) g g' := by
  refine hg.spliceEdges_eq_ok (pickPush (g.poolStates strict)) (fun e => [e])
    fun {n e e'} _ hp => ?_
  simp only [pickPush, Option.bind_eq_bind, Option.bind_eq_some_iff] at hp
  obtain ⟨_, -, pool, -, hp⟩ := hp
  obtain ⟨values, rfl, rfl⟩ := inlinePool?_eq_some hp
  simpa using (.action _ : Edge.Lawful traceName _)

/-- Putting templates in place of actions does not fail. -/
theorem Regular.formTemplates (hg : g.Regular traceName) (iteration : Nat) :
    ∃ g' changed, (Pass.formTemplates traceName).run iteration g = ⟨g', .ok changed⟩ ∧
      g'.Regular traceName ∧ Reduces traceName (g.edgePatch id)
        (g.StillPicked (fun _ => Edge.toTemplates? traceName) id) g g' := by
  refine hg.spliceEdges_eq_ok (fun _ => Edge.toTemplates? traceName) id fun {n e row} _ hp => ?_
  obtain ⟨a, ts, rfl, hts, rfl⟩ := toTemplates?_eq_some hp
  refine ⟨by simp, fun e he => ?_⟩
  obtain ⟨t, ht, rfl⟩ := List.mem_map.1 he
  exact ⟨.template (formed_templates hts t ht), by simp⟩

end FlowGraph

end ScriptRecovery
