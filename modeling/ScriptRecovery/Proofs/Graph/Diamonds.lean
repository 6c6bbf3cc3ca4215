import ScriptRecovery.Proofs.Graph.Spliced

/-!
# Diamonds

A diamond is a branching node with one way in, whose two arms are lanes that lead to the same node
(`Graph.Diamond`).  What tells its lanes apart is that every node of a lane has one way in: followed
back, a node that both lanes pass would give them the same first node, and a node that one of them
passes twice would lead back to the branching node.

Everything between the ends of a diamond can be replaced by any row (`Diamond.spliceRegion_eq_ok`).
-/

namespace ScriptRecovery

namespace Graph

variable {ε : Type} {g g' : Graph ε}

namespace Lane

variable {dest dest' prev prev' x x' : Nat} {ns ns' : List Nat} {es es' : List ε}

theorem node_simple (h : g.Lane dest prev x ns es) {m : Nat} (hm : m ∈ ns) :
    ∃ out, g.node? m = some (.simple out) := by
  induction h with
  | done => simp at hm
  | step _ _ hx _ ih =>
    rcases List.mem_cons.1 hm with rfl | hm
    · exact ⟨_, hx⟩
    · exact ih hm

/-- A lane can go on with one more node. -/
theorem snoc {d : Nat} {e : ε} (h : g.Lane d prev x ns es) (hs : d ≠ g.source)
    (hp : ∀ m, m ∈ g.predecessors d ↔ m = ns.getLastD prev)
    (hd : g.node? d = some (.simple ⟨e, dest⟩)) :
    g.Lane dest prev x (ns ++ [d]) (es ++ [e]) := by
  induction h with
  | done => exact .step hs hp hd .done
  | step hx hpx hnode _ ih =>
    rw [List.getLastD_cons] at hp
    exact .step hx hpx hnode (ih hp)

/-- Two lanes that start at different nodes after the same one do not meet. -/
theorem disjoint (h : g.Lane dest prev x ns es) (h' : g.Lane dest' prev' x' ns' es')
    (hprev : prev ∉ ns') (hprev' : prev' ∉ ns) (hne : prev = prev' → x ≠ x') :
    ns.Disjoint ns' := by
  induction h with
  | done => exact List.disjoint_nil_left _
  | @step x prev _ _ ns _ _ hp _ _ ih =>
    rw [List.mem_cons, not_or] at hprev'
    have hx : x ∉ ns' := by
      intro hx
      have hfirst : ∀ y, y ∈ ns' → prev ∈ g.predecessors y → prev = prev' ∧ y = x' := by
        intro y hy hpy
        cases h' with
        | done => simp at hy
        | step _ hp' _ hrest' =>
          rcases List.mem_cons.1 hy with rfl | hy
          · exact ⟨(hp' prev).1 hpy, rfl⟩
          · rcases hrest'.pred_mem hy hpy with rfl | h
            · exact absurd (List.mem_cons_self) hprev
            · exact absurd (List.mem_cons_of_mem _ h) hprev
      obtain ⟨hpp, hxx⟩ := hfirst x hx ((hp prev).2 rfl)
      exact hne hpp hxx
    refine List.disjoint_cons_left.2 ⟨hx, ih hx hprev'.2 fun hxp => ?_⟩
    exact absurd hxp.symm hprev'.1

/-- What reaches the first node of a lane without passing a node off it reaches all of them. -/
theorem reach (h : g.Lane dest prev x ns es) {start d : Nat}
    (hp : (⟨g.size, fun n => (g.targets n).filter (· != d)⟩ : Adjacency).Reach start prev)
    (hx : x ∈ g.targets prev) (hd : d ∉ ns) : ∀ y ∈ ns,
    (⟨g.size, fun n => (g.targets n).filter (· != d)⟩ : Adjacency).Reach start y := by
  induction h with
  | done => simp
  | @step x prev _ _ ns _ _ _ hnode _ ih =>
    rw [List.mem_cons, not_or] at hd
    have hreach := hp.step (n := x) (List.mem_filter.2 ⟨hx, by simpa using Ne.symm hd.1⟩)
      (lt_size_of_node? hnode)
    intro y hy
    rcases List.mem_cons.1 hy with rfl | hy
    · exact hreach
    · exact ih hreach (by simp [targets_of_simple hnode]) hd.2 y hy

end Lane

/-! ## Diamonds -/

/-- A branching node with one way in, from `n`, and two arms that lead to `dest`. -/
structure Diamond (g : Graph ε) (n dest : Nat) (e : ε) (p : Nat) (a b : Link ε)
    (ns ns' : List Nat) (es es' : List ε) : Prop where
  entry : g.Reachable n
  way : g.node? n = some (.simple ⟨e, p⟩)
  branch : g.node? p = some (.branch a b)
  alone : ∀ m, m ∈ g.predecessors p ↔ m = n
  inner : p ≠ g.source
  onTrue : g.Lane dest p a.dest ns es
  onFalse : g.Lane dest p b.dest ns' es'
  outside : n ≠ p ∧ n ∉ ns ∧ n ∉ ns'
  apart : ns.Disjoint ns'

/-- The nodes between the ends of a diamond. -/
def between (p : Nat) (ns ns' : List Nat) : List Nat := p :: (ns ++ ns')

theorem mem_between {p m : Nat} {ns ns' : List Nat} :
    m ∈ between p ns ns' ↔ m = p ∨ m ∈ ns ∨ m ∈ ns' := by
  simp [between]

namespace Diamond

variable {n dest p : Nat} {e : ε} {a b : Link ε} {ns ns' : List Nat} {es es' : List ε}

theorem targets_branch (h : g.Diamond n dest e p a b ns ns' es es') :
    g.targets p = [a.dest, b.dest] := by
  simp [targets_of_node? h.branch, Node.targets, Node.links]

theorem reachable_branch (h : g.Diamond n dest e p a b ns ns' es es') (hg : g.Sound) :
    g.Reachable p :=
  hg.reachable_target h.entry (by simp [targets_of_simple h.way])

theorem exit (h : g.Diamond n dest e p a b ns ns' es es') (hg : g.Sound) : g.Reachable dest := by
  have hp := h.reachable_branch hg
  refine (h.onTrue.reachable hg (hg.reachable_target hp ?_)).2
  simp [targets_of_node? h.branch, Node.targets, Node.links]

/-- Everything between the ends is reachable. -/
theorem reachable_between (h : g.Diamond n dest e p a b ns ns' es es') (hg : g.Sound) :
    ∀ m ∈ between p ns ns', g.Reachable m := by
  have hp := h.reachable_branch hg
  have ha : a.dest ∈ g.targets p := by simp [h.targets_branch]
  have hb : b.dest ∈ g.targets p := by simp [h.targets_branch]
  intro m hm
  rcases mem_between.1 hm with rfl | hm | hm
  · exact hp
  · exact (h.onTrue.reachable hg (hg.reachable_target hp ha)).1 m hm
  · exact (h.onFalse.reachable hg (hg.reachable_target hp hb)).1 m hm

/-- The branching node is on no lane. -/
theorem not_mem (h : g.Diamond n dest e p a b ns ns' es es') : p ∉ ns ∧ p ∉ ns' := by
  constructor
  · intro hp
    obtain ⟨_, hp⟩ := h.onTrue.node_simple hp
    cases h.branch.symm.trans hp
  · intro hp
    obtain ⟨_, hp⟩ := h.onFalse.node_simple hp
    cases h.branch.symm.trans hp

/-- A lane that ends where it starts passes nothing. -/
theorem eq_nil_of_getLastD {ns : List Nat} (hp : p ∉ ns) (h : ns.getLastD p = p) : ns = [] := by
  cases ns with
  | nil => rfl
  | cons m ns =>
    rw [List.getLastD_cons] at h
    exact absurd (h ▸ List.getLastD_mem_cons) hp

theorem last_not_mem (h : g.Diamond n dest e p a b ns ns' es es') : ns'.getLastD p ∉ ns := by
  rcases List.mem_cons.1 (List.getLastD_mem_cons (l := ns') (a := p)) with hl | hl
  · rw [hl]
    exact h.not_mem.1
  · exact fun hn => h.apart hn hl

/-- The arms come to where they meet from different nodes. -/
theorem last_ne (h : g.Diamond n dest e p a b ns ns' es es') (hab : a.dest ≠ b.dest) :
    ns.getLastD p ≠ ns'.getLastD p := by
  intro heq
  rcases List.mem_cons.1 (List.getLastD_mem_cons (l := ns) (a := p)) with hl | hl
  · have hnil := eq_nil_of_getLastD h.not_mem.1 hl
    have hnil' := eq_nil_of_getLastD h.not_mem.2 (heq ▸ hl)
    have hT := h.onTrue.head_mem
    have hF := h.onFalse.head_mem
    simp only [hnil, hnil', List.not_mem_nil, false_or] at hT hF
    exact hab (hT.trans hF.symm)
  · exact h.last_not_mem (heq ▸ hl)

theorem last_mem {m : Nat} (hm : m = ns.getLastD p ∨ m = ns'.getLastD p) :
    m ∈ between p ns ns' := by
  rw [mem_between]
  rcases hm with rfl | rfl
  · exact (List.mem_cons.1 List.getLastD_mem_cons).imp_right .inl
  · exact (List.mem_cons.1 List.getLastD_mem_cons).imp_right .inr

theorem lt_size (h : g.Diamond n dest e p a b ns ns' es es') {m : Nat}
    (hm : m ∈ between p ns ns') : m < g.size := by
  rcases mem_between.1 hm with rfl | hm | hm
  · exact lt_size_of_node? h.branch
  · exact h.onTrue.lt_size hm
  · exact h.onFalse.lt_size hm

/-- The last node of each arm leads to where the arms meet. -/
theorem meet (h : g.Diamond n dest e p a b ns ns' es es') (hg : g.Sound) :
    ns.getLastD p ∈ g.predecessors dest ∧ ns'.getLastD p ∈ g.predecessors dest := by
  have hp := h.reachable_branch hg
  have ha : a.dest ∈ g.targets p := by simp [h.targets_branch]
  have hb : b.dest ∈ g.targets p := by simp [h.targets_branch]
  exact ⟨hg.index.2 ⟨h.onTrue.last_reachable hg hp ha, h.onTrue.dest_mem_targets ha⟩,
    hg.index.2 ⟨h.onFalse.last_reachable hg hp hb, h.onFalse.dest_mem_targets hb⟩⟩

/-- The arms do not meet at a node between the ends. -/
theorem dest_not_mem (h : g.Diamond n dest e p a b ns ns' es es') (hg : g.Sound) :
    dest ∉ between p ns ns' := by
  obtain ⟨hp, hp'⟩ := h.not_mem
  obtain ⟨hm, hm'⟩ := h.meet hg
  rw [mem_between]
  rintro (rfl | hd | hd)
  · have hn : n ∈ dest :: ns := (h.alone _).1 hm ▸ List.getLastD_mem_cons
    exact (List.mem_cons.1 hn).elim h.outside.1 h.outside.2.1
  · exact h.onTrue.dest_not_mem (List.nodup_cons.2 ⟨hp, h.onTrue.nodup hp⟩) hm hd
  · exact h.onFalse.dest_not_mem (List.nodup_cons.2 ⟨hp', h.onFalse.nodup hp'⟩) hm' hd

/-- What is between the ends of a diamond is a region. -/
theorem region (h : g.Diamond n dest e p a b ns ns' es es') (hg : g.Sound) :
    g.Region n dest (· ∈ between p ns ns') := by
  refine ⟨h.entry, h.exit hg, ?_, h.dest_not_mem hg, ?_, ?_, ?_⟩
  · rw [mem_between]
    rintro (hn | hn | hn)
    · exact h.outside.1 hn
    · exact h.outside.2.1 hn
    · exact h.outside.2.2 hn
  · rw [mem_between]
    rintro (hs | hs | hs)
    · exact h.inner hs.symm
    · exact h.onTrue.ne_source hs rfl
    · exact h.onFalse.ne_source hs rfl
  · intro m d hd hm hmd
    have hm : m ∈ g.predecessors d := hg.index.2 ⟨hm, hmd⟩
    simp only [mem_between] at hd ⊢
    rcases hd with rfl | hd | hd
    · exact .inl ((h.alone m).1 hm)
    · rcases h.onTrue.pred_mem hd hm with rfl | hm
      · exact .inr (.inl rfl)
      · exact .inr (.inr (.inl hm))
    · rcases h.onFalse.pred_mem hd hm with rfl | hm
      · exact .inr (.inl rfl)
      · exact .inr (.inr (.inr hm))
  · intro m d hm hd
    simp only [mem_between] at hm ⊢
    rcases hm with rfl | rfl | hm | hm
    · rw [targets_of_simple h.way, List.mem_singleton] at hd
      exact .inl (.inl hd)
    · have hd : d = a.dest ∨ d = b.dest := by simpa [h.targets_branch] using hd
      rcases hd with rfl | rfl
      · exact h.onTrue.head_mem.imp (fun h => .inr (.inl h)) id
      · exact h.onFalse.head_mem.imp (fun h => .inr (.inr h)) id
    · exact (h.onTrue.targets_mem hm hd).imp (fun h => .inr (.inl h)) id
    · exact (h.onFalse.targets_mem hm hd).imp (fun h => .inr (.inr h)) id

/-- The entry of a diamond reaches everything between the ends. -/
theorem mem_region (h : g.Diamond n dest e p a b ns ns' es es') (hg : g.Sound) :
    ∀ m ∈ between p ns ns', m ∈ g.region n dest := by
  have hd := h.dest_not_mem hg
  rw [mem_between, not_or, not_or] at hd
  have hstart : (⟨g.size, fun n => (g.targets n).filter (· != dest)⟩ : Adjacency).Reach n p :=
    .step (.start h.entry.lt_size)
      (List.mem_filter.2 ⟨by simp [targets_of_simple h.way], by simpa using Ne.symm hd.1⟩)
      (lt_size_of_node? h.branch)
  intro m hm
  rw [Graph.mem_region]
  rcases mem_between.1 hm with rfl | hm | hm
  · exact hstart
  · exact h.onTrue.reach hstart (by simp [h.targets_branch]) hd.2.1 m hm
  · exact h.onFalse.reach hstart (by simp [h.targets_branch]) hd.2.2 m hm

/-- A diamond through kept nodes is a diamond still. -/
theorem keeps (h : g.Diamond n dest e p a b ns ns' es es')
    (hk : g.Keeps g' n (· ∈ between p ns ns')) : g'.Diamond n dest e p a b ns ns' es es' := by
  have hp : p ∈ between p ns ns' := by simp [between]
  refine ⟨hk.reachable h.entry, (hk.node (.inl rfl)).trans h.way,
    (hk.node (.inr hp)).trans h.branch, fun m => (hk.preds hp).trans (h.alone m),
    hk.source ▸ h.inner, h.onTrue.keeps hk fun y hy => ?_, h.onFalse.keeps hk fun y hy => ?_,
    h.outside, h.apart⟩
  · simp [between, hy]
  · simp [between, hy]

/-- Everything between the ends of a diamond can be replaced by any row. -/
theorem spliceRegion_eq_ok [PlainEdge ε] (h : g.Diamond n dest e p a b ns ns' es es')
    (hg : g.Sound) (edges : List ε) :
    ∃ g', g.spliceRegion n dest edges = .ok g' ∧ g'.Sound ∧
      g.Spliced g' n dest (· ∈ between p ns ns') (rowOf edges) := by
  obtain ⟨hreach, hd⟩ := hg.index.1 (h.meet hg).1
  exact (h.region hg).spliceRegion_eq_ok hg (h.mem_region hg)
    ⟨_, .inr (last_mem (.inl rfl)), hreach, hd⟩ edges

end Diamond

end Graph

end ScriptRecovery
