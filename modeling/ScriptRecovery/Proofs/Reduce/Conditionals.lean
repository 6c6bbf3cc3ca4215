import ScriptRecovery.Proofs.Graph.Diamonds
import ScriptRecovery.Proofs.Graph.Paths
import ScriptRecovery.Proofs.Reduce.Chains
import ScriptRecovery.Reduce.Conditionals

/-!
# Forming conditionals

What the search for conditionals finds are diamonds, no two of which share a node but for their ends
(`conditionalsIn_cases`).

The arms of a test are followed edge by edge.  `Arms.Along` is what holds of them all the time: an
arm has not left the branching node yet, or it is a lane through nodes seen before.  An edge out of
the branching node starts an arm, and it is met once only (`Arms.Pending`); any other edge makes a
lane longer.  The search moves forward in an order that lists a node once, so what it finds later
lies behind what it has found.
-/

namespace ScriptRecovery

open FlowGraph

variable {traceName : String} {g : FlowGraph} {p : Nat} {a b : Link Edge}

/-! ## Edges into a node -/

theorem link_of_mem_inEdges {c : Nat} {e : BoundEdge Edge} (h : e ∈ Graph.inEdges g c) :
    ∃ node l, g.node? e.source = some node ∧ l ∈ node.links ∧ l.edge = e.edge ∧ l.dest = c := by
  obtain ⟨-, he, hc⟩ := Graph.mem_inEdges.1 h
  obtain ⟨node, l, hnode, hl, heq⟩ := Graph.mem_outEdges.1 he
  exact ⟨node, l, hnode, hl, (congrArg BoundEdge.edge heq).symm,
    hc ▸ congrArg BoundEdge.dest heq.symm⟩

/-- A branching node with two targets has one edge to each. -/
theorem pairwise_inEdges (hp : g.node? p = some (.branch a b)) (hne : a.dest ≠ b.dest) (c : Nat) :
    (Graph.inEdges g c).Pairwise fun e e' => ¬ (e.source = p ∧ e'.source = p) := by
  unfold Graph.inEdges
  refine List.pairwise_flatMap.2 ⟨fun m _ => ?_, ?_⟩
  · by_cases hmp : m = p
    · subst hmp
      have hout : Graph.outEdges g m = [⟨m, a.dest, a.edge⟩, ⟨m, b.dest, b.edge⟩] := by
        simp [Graph.outEdges, show g.nodes[m]? = _ from hp, Node.links]
      rw [hout]
      by_cases ha : a.dest = c
      · have hb : b.dest ≠ c := fun hb => hne (ha.trans hb.symm)
        simp [ha, hb]
      · by_cases hb : b.dest = c <;> simp [ha, hb]
    · refine List.Pairwise.imp_of_mem ?_ (List.pairwise_of_forall (R := fun _ _ => True)
        fun _ _ => trivial)
      rintro e e' he - - ⟨he', -⟩
      obtain ⟨l, -, rfl⟩ := List.mem_map.1 (List.mem_filter.1 he).1
      exact hmp he'
  · refine (Ascending.nodup_toList (g.predecessors c)).imp fun {m m'} hmm e he e' he' hboth => ?_
    obtain ⟨l, -, rfl⟩ := List.mem_map.1 (List.mem_filter.1 he).1
    obtain ⟨l', -, rfl⟩ := List.mem_map.1 (List.mem_filter.1 he').1
    exact hmm (hboth.1.trans hboth.2.symm)

/-! ## One arm -/

/-- How far one arm of a branching node has been followed: to a node, along edges that are listed
the last one first, through nodes.  Its first edge is given. -/
inductive Arm (g : FlowGraph) (p : Nat) (first : Link Edge) : Nat → List Edge → List Nat → Prop
  | waiting : Arm g p first p [] []
  | going {head : Nat} {es : List Edge} {ns : List Nat} : g.Lane head p first.dest ns es →
      Arm g p first head (first.edge :: es).reverse ns

/-- An arm that has left the branching node goes on from the node it has reached. -/
theorem Arm.extend (hg : Graph.Sound g) {first : Link Edge} {head c : Nat} {es : List Edge}
    {ns : List Nat} {e : BoundEdge Edge} (h : Arm g p first head es ns) (hp : g.Reachable p)
    (hfirst : first.dest ∈ g.targets p) (he : e ∈ Graph.inEdges g c) (hhead : e.source = head)
    (hout : head ≠ p) (hs : head ≠ g.source) (hsimple : (g.node? head).any Node.isSimple)
    (hone : g.inDegree head = 1) : Arm g p first c (e.edge :: es) (ns ++ [head]) := by
  cases h with
  | waiting => exact absurd rfl hout
  | @going head es ns hlane =>
    obtain ⟨node, l, hnode, hl, hedge, hdest⟩ := link_of_mem_inEdges he
    rw [hhead] at hnode
    have hl' : g.node? head = some (.simple ⟨e.edge, c⟩) := by
      rw [hnode] at hsimple ⊢
      cases node with
      | simple out =>
        obtain rfl : l = out := by simpa [Node.links] using hl
        rw [← hedge, ← hdest]
      | pending | done | branch _ _ => simp [Node.isSimple, Node.simpleOut?] at hsimple
    have hlast : ns.getLastD p ∈ g.predecessors head :=
      hg.index.2 ⟨hlane.last_reachable hg hp hfirst, hlane.dest_mem_targets hfirst⟩
    have hpreds : ∀ m, m ∈ g.predecessors head ↔ m = ns.getLastD p := by
      obtain ⟨k, hk⟩ := Graph.inDegree_eq_one_iff.1 hone
      rw [(hk _).1 hlast]
      exact hk
    have := Arm.going (g := g) (p := p) (hlane.snoc hs hpreds hl')
    simpa using this

/-! ## Both arms -/

namespace Arms

/-- The branching node of two links. -/
def point (p : Nat) (a b : Link Edge) : BranchPoint := ⟨p, a.dest, b.dest⟩

/-- An edge that continues an arm is one of the two first edges, or it goes on from the node that the
arm has reached. -/
theorem side?_cases {arms : Arms} {e : BoundEdge Edge} {side : Bool}
    (h : arms.side? g (point p a b) e = some side) :
    side = false ∧ (e.source = p ∧ e.dest = b.dest ∨
        e.source ≠ p ∧ (g.node? e.source).any Node.isSimple ∧ e.source = arms.falseHead) ∨
      side = true ∧ (e.source = p ∧ e.dest ≠ b.dest ∧ e.dest = a.dest ∨
        e.source ≠ p ∧ (g.node? e.source).any Node.isSimple ∧ e.source = arms.trueHead) := by
  unfold side? at h
  split at h
  · next hsource =>
    split at h
    · next hb =>
      cases h
      exact .inl ⟨rfl, .inl ⟨hsource, hb⟩⟩
    · next hb =>
      split at h
      · next ha =>
        cases h
        exact .inr ⟨rfl, .inl ⟨hsource, hb, ha⟩⟩
      · cases h
  · next hsource =>
    split at h
    · cases h
    · next hsimple =>
      have hsimple : (g.node? e.source).any Node.isSimple := by simpa using hsimple
      split at h
      · next hhead =>
        cases h
        exact .inl ⟨rfl, .inr ⟨hsource, hsimple, hhead⟩⟩
      · split at h
        · next hhead =>
          cases h
          exact .inr ⟨rfl, .inr ⟨hsource, hsimple, hhead⟩⟩
        · cases h

/-- What an edge does that continues one of two arms. -/
theorem extend_cases {arms arms' : Arms} {e : BoundEdge Edge}
    (h : arms.extend g (point p a b) e = some arms') :
    (e.source = p ∧ e.dest = b.dest ∨ e.source ≠ p ∧ (g.node? e.source).any Node.isSimple ∧
        e.source = arms.falseHead ∧ g.inDegree arms.falseHead = 1) ∧
      arms' = { arms with falseHead := e.dest, falseEdges := e.edge :: arms.falseEdges } ∨
    (e.source = p ∧ e.dest ≠ b.dest ∧ e.dest = a.dest ∨ e.source ≠ p ∧
        (g.node? e.source).any Node.isSimple ∧ e.source = arms.trueHead ∧
          g.inDegree arms.trueHead = 1) ∧
      arms' = { arms with trueHead := e.dest, trueEdges := e.edge :: arms.trueEdges } := by
  unfold extend at h
  split at h
  · cases h
  · next hside =>
    obtain ⟨hfalse, -⟩ | ⟨-, hcase⟩ := side?_cases hside
    · cases hfalse
    · split at h
      · next hone =>
        refine .inr ⟨hcase.imp_right ?_, (Option.some.inj h).symm⟩
        exact fun ⟨hsource, hsimple, hhead⟩ => ⟨hsource, hsimple, hhead, hone⟩
      · cases h
  · next hside =>
    obtain ⟨-, hcase⟩ | ⟨htrue, -⟩ := side?_cases hside
    · split at h
      · next hone =>
        refine .inl ⟨hcase.imp_right ?_, (Option.some.inj h).symm⟩
        exact fun ⟨hsource, hsimple, hhead⟩ => ⟨hsource, hsimple, hhead, hone⟩
      · cases h
    · cases htrue

/-- Two arms of a branching node that have been followed through nodes seen so far. -/
structure Along (g : FlowGraph) (p : Nat) (a b : Link Edge) (seen : List Nat) (arms : Arms)
    (ns ns' : List Nat) : Prop where
  onTrue : Arm g p a arms.trueHead arms.trueEdges ns
  onFalse : Arm g p b arms.falseHead arms.falseEdges ns'
  trueHead : arms.trueHead = p ∨ arms.trueHead ∈ seen
  falseHead : arms.falseHead = p ∨ arms.falseHead ∈ seen
  passed : ∀ x, x ∈ ns ∨ x ∈ ns' → x ∈ seen

/-- Whether the first edge of an arm that has been started is none of those to come. -/
def Pending (p : Nat) (a b : Link Edge) (arms : Arms) (es : List (BoundEdge Edge)) : Prop :=
  ∀ e ∈ es, e.source = p →
    (e.dest = a.dest → arms.trueEdges = []) ∧ (e.dest = b.dest → arms.falseEdges = [])

end Arms

/-- An arm that has no edges waits at the branching node. -/
theorem Arm.eq_of_nil {first : Link Edge} {head : Nat} {ns : List Nat}
    (h : Arm g p first head [] ns) : head = p ∧ ns = [] := by
  generalize hes : [] = es at h
  cases h with
  | waiting => exact ⟨rfl, rfl⟩
  | going _ => simp at hes

namespace Arms

/-- What the search for the place where two arms meet rests on, on its way through some nodes. -/
structure Setting (g : FlowGraph) (p : Nat) (a b : Link Edge) (rest : List Nat) : Prop where
  sound : Graph.Sound g
  reachable : g.Reachable p
  branch : g.node? p = some (.branch a b)
  differ : a.dest ≠ b.dest
  source : g.source ∉ rest
  fresh : p ∉ rest

theorem Setting.mem_targets {rest : List Nat} (h : Setting g p a b rest) :
    a.dest ∈ g.targets p ∧ b.dest ∈ g.targets p := by
  rw [Graph.targets_of_node? h.branch]
  simp [Node.targets, Node.links]

/-- The edge of the branching node to the start of an arm is the first one of the arm. -/
theorem Setting.edge_eq {rest : List Nat} (h : Setting g p a b rest) {c : Nat} {e : BoundEdge Edge}
    (he : e ∈ Graph.inEdges g c) (hsource : e.source = p) :
    (e.dest = a.dest → e.edge = a.edge) ∧ (e.dest = b.dest → e.edge = b.edge) := by
  obtain ⟨node, l, hnode, hl, hedge, hldest⟩ := link_of_mem_inEdges he
  obtain rfl := Option.some.inj ((hsource ▸ hnode).symm.trans h.branch)
  rw [(Graph.mem_inEdges.1 he).2.2, ← hldest, ← hedge]
  have hl : l = a ∨ l = b := by simpa [Node.links] using hl
  rcases hl with rfl | rfl
  · exact ⟨fun _ => rfl, fun hd => absurd hd h.differ⟩
  · exact ⟨fun hd => absurd hd.symm h.differ, fun _ => rfl⟩

/-- An edge that continues an arm starts it, or makes its lane longer. -/
theorem Setting.arm_extend {rest seen : List Nat} (hset : Setting g p a b rest)
    (hseen : ∀ x ∈ seen, x ∈ rest) {first : Link Edge} (hfirst : first.dest ∈ g.targets p)
    {head c : Nat} {es : List Edge} {ns : List Nat} (h : Arm g p first head es ns)
    (hhead : head = p ∨ head ∈ seen) (hns : ∀ x ∈ ns, x ∈ seen) {e : BoundEdge Edge}
    (he : e ∈ Graph.inEdges g c)
    (hcase : e.edge = first.edge ∧ e.dest = first.dest ∧ es = [] ∨ e.source ≠ p ∧
      (g.node? e.source).any Node.isSimple ∧ e.source = head ∧ g.inDegree head = 1) :
    ∃ ns', Arm g p first c (e.edge :: es) ns' ∧ ∀ x ∈ ns', x ∈ seen := by
  rcases hcase with ⟨hedge, hdest, rfl⟩ | ⟨hsource, hsimple, rfl, hone⟩
  · have hc : c = first.dest := (Graph.mem_inEdges.1 he).2.2.symm.trans hdest
    rw [hedge, hc]
    exact ⟨[], .going .done, by simp⟩
  · have hs := hhead.resolve_left hsource
    have hne : e.source ≠ g.source := fun h => hset.source (h ▸ hseen _ hs)
    refine ⟨_, h.extend hset.sound hset.reachable hfirst he rfl hsource hne hsimple hone,
      fun x hx => ?_⟩
    rcases List.mem_append.1 hx with hx | hx
    · exact hns x hx
    · exact List.mem_singleton.1 hx ▸ hs

/-- An edge that continues an arm keeps the arms along. -/
theorem Along.extend {rest seen : List Nat} (hset : Setting g p a b rest)
    (hseen : ∀ x ∈ seen, x ∈ rest) {arms arms' : Arms} {ns ns' : List Nat} {c : Nat}
    (hc : c ∈ seen) {e : BoundEdge Edge} {more : List (BoundEdge Edge)}
    (h : Along g p a b seen arms ns ns') (hpending : Pending p a b arms (e :: more))
    (he : e ∈ Graph.inEdges g c) (hext : arms.extend g (point p a b) e = some arms') :
    ∃ ns ns', Along g p a b seen arms' ns ns' := by
  have hdest := (Graph.mem_inEdges.1 he).2.2
  obtain ⟨ha, hb⟩ := hset.mem_targets
  have hpe := hpending e (by simp)
  rcases extend_cases hext with ⟨hcase, rfl⟩ | ⟨hcase, rfl⟩
  · obtain ⟨ns₁, harm, hns₁⟩ := hset.arm_extend hseen hb h.onFalse h.falseHead
      (fun x hx => h.passed x (.inr hx)) he (hcase.imp_left fun ⟨hsource, hd⟩ =>
        ⟨(hset.edge_eq he hsource).2 hd, hd, (hpe hsource).2 hd⟩)
    exact ⟨ns, ns₁, h.onTrue, hdest ▸ harm, h.trueHead, .inr (hdest ▸ hc),
      fun x hx => hx.elim (fun hx => h.passed x (.inl hx)) (hns₁ x)⟩
  · obtain ⟨ns₁, harm, hns₁⟩ := hset.arm_extend hseen ha h.onTrue h.trueHead
      (fun x hx => h.passed x (.inl hx)) he (hcase.imp_left fun ⟨hsource, _, hd⟩ =>
        ⟨(hset.edge_eq he hsource).1 hd, hd, (hpe hsource).1 hd⟩)
    exact ⟨ns₁, ns', hdest ▸ harm, h.onFalse, .inr (hdest ▸ hc), h.falseHead,
      fun x hx => hx.elim (hns₁ x) fun hx => h.passed x (.inr hx)⟩

/-- Whether two edges do not both lead from a node to the same other one. -/
def Once (p : Nat) (e e' : BoundEdge Edge) : Prop :=
  e.source = p → e'.source = p → e.dest ≠ e'.dest

/-- An edge that has continued an arm does not come again. -/
theorem Pending.extend {seen : List Nat} {arms arms' : Arms} {ns ns' : List Nat}
    {e : BoundEdge Edge} {more : List (BoundEdge Edge)} (h : Along g p a b seen arms ns ns')
    (hpending : Pending p a b arms (e :: more)) (honce : ∀ e' ∈ more, Once p e e')
    (hext : arms.extend g (point p a b) e = some arms') : Pending p a b arms' more := by
  intro e' he' hsource'
  obtain ⟨ha, hb⟩ := hpending e' (by simp [he']) hsource'
  rcases extend_cases hext with ⟨hcase, rfl⟩ | ⟨hcase, rfl⟩
  · refine ⟨ha, fun hdb => ?_⟩
    rcases hcase with ⟨hsource, hdb'⟩ | ⟨hsource, -, hhead, -⟩
    · exact absurd (hdb'.trans hdb.symm) (honce e' he' hsource hsource')
    · have harm := h.onFalse
      rw [hb hdb] at harm
      exact absurd (hhead.trans harm.eq_of_nil.1) hsource
  · refine ⟨fun hda => ?_, hb⟩
    rcases hcase with ⟨hsource, -, hda'⟩ | ⟨hsource, -, hhead, -⟩
    · exact absurd (hda'.trans hda.symm) (honce e' he' hsource hsource')
    · have harm := h.onTrue
      rw [ha hda] at harm
      exact absurd (hhead.trans harm.eq_of_nil.1) hsource

theorem extend_head {arms arms' : Arms} {e : BoundEdge Edge}
    (h : arms.extend g (point p a b) e = some arms') :
    arms'.trueHead = e.dest ∨ arms'.falseHead = e.dest := by
  rcases extend_cases h with ⟨-, rfl⟩ | ⟨-, rfl⟩
  · exact .inr rfl
  · exact .inl rfl

/-- Arms stay along when one more node is seen. -/
theorem Along.concat {seen ns ns' : List Nat} {arms : Arms} (h : Along g p a b seen arms ns ns')
    (c : Nat) : Along g p a b (seen ++ [c]) arms ns ns' where
  onTrue := h.onTrue
  onFalse := h.onFalse
  trueHead := h.trueHead.imp_right (List.mem_append_left _)
  falseHead := h.falseHead.imp_right (List.mem_append_left _)
  passed x hx := List.mem_append_left _ (h.passed x hx)

/-- Following the edges into a node keeps the arms along. -/
theorem Along.follow {rest seen : List Nat} (hset : Setting g p a b rest)
    (hseen : ∀ x ∈ seen, x ∈ rest) {arms : Arms} {ns ns' : List Nat} {c : Nat} (hc : c ∈ seen)
    {es more : List (BoundEdge Edge)} (hes : ∀ e ∈ es, e ∈ Graph.inEdges g c)
    (honce : (es ++ more).Pairwise (Once p)) (h : Along g p a b seen arms ns ns')
    (hpending : Pending p a b arms (es ++ more)) :
    (∀ arms', arms.follow g (point p a b) es = .going arms' →
      (∃ ns ns', Along g p a b seen arms' ns ns') ∧ Pending p a b arms' more) ∧
    ∀ arms', arms.follow g (point p a b) es = .met arms' →
      (∃ ns ns', Along g p a b seen arms' ns ns') ∧ arms'.trueHead = c ∧ arms'.falseHead = c := by
  induction es generalizing arms ns ns' with
  | nil =>
    refine ⟨fun arms' harms => ?_, fun arms' harms => by cases harms⟩
    cases harms
    exact ⟨⟨ns, ns', h⟩, hpending⟩
  | cons e es ih =>
    unfold Arms.follow
    cases hext : arms.extend g (point p a b) e with
    | none => exact ⟨fun _ h => (by cases h), fun _ h => (by cases h)⟩
    | some arms₁ =>
      rw [List.cons_append, List.pairwise_cons] at honce
      obtain ⟨ns₁, ns₁', h₁⟩ := h.extend hset hseen hc hpending (hes e (by simp)) hext
      have hpending₁ := Pending.extend h hpending honce.1 hext
      simp only
      split
      · next hmeet =>
        refine ⟨fun _ h => (by cases h), fun arms' harms => ?_⟩
        cases harms
        have hdest := (Graph.mem_inEdges.1 (hes e (by simp))).2.2
        refine ⟨⟨ns₁, ns₁', h₁⟩, ?_⟩
        rcases extend_head hext with hhead | hhead
        · exact ⟨hhead.trans hdest, hmeet ▸ hhead.trans hdest⟩
        · exact ⟨hmeet ▸ hhead.trans hdest, hhead.trans hdest⟩
      · exact ih (fun e he => hes e (by simp [he])) honce.2 h₁ hpending₁

/-- Following edges forward, arms meet at a node through nodes before it. -/
theorem Along.followAll {rest : List Nat} (hset : Setting g p a b rest) {arms : Arms}
    {seen todo ns ns' : List Nat} (hrest : rest = seen ++ todo)
    (honce : (todo.flatMap (Graph.inEdges g)).Pairwise (Once p))
    (h : Along g p a b seen arms ns ns')
    (hpending : Pending p a b arms (todo.flatMap (Graph.inEdges g))) :
    ∃ before, todo = before ++ (arms.followAll g (point p a b) todo).2 ∧
      ∀ arms', (arms.followAll g (point p a b) todo).1 = some arms' →
        ∃ c after ns ns', (arms.followAll g (point p a b) todo).2 = c :: after ∧
          Along g p a b (seen ++ before ++ [c]) arms' ns ns' ∧
          arms'.trueHead = c ∧ arms'.falseHead = c := by
  induction todo generalizing arms seen ns ns' with
  | nil => exact ⟨[], rfl, fun _ h => (by cases h)⟩
  | cons c todo ih =>
    obtain ⟨hgoing, hmet⟩ := (h.concat c).follow hset (fun x hx => by
        rw [hrest]
        rcases List.mem_append.1 hx with hx | hx <;> simp_all) (by simp)
      (fun e he => he) honce hpending
    unfold Arms.followAll
    split
    · exact ⟨[], rfl, fun _ h => (by cases h)⟩
    · next arms₁ hfollow =>
      refine ⟨[], rfl, fun arms' harms => ?_⟩
      cases harms
      obtain ⟨⟨ns₁, ns₁', h₁⟩, hheads⟩ := hmet _ hfollow
      exact ⟨c, todo, ns₁, ns₁', rfl, by simpa using h₁, hheads⟩
    · next arms₁ hfollow =>
      obtain ⟨⟨ns₁, ns₁', h₁⟩, hpending₁⟩ := hgoing _ hfollow
      rw [List.flatMap_cons] at honce
      obtain ⟨before, htodo, hfound⟩ := ih (by simp [hrest]) (List.pairwise_append.1 honce).2.1 h₁
        hpending₁
      refine ⟨c :: before, by rw [List.cons_append, ← htodo], fun arms' harms => ?_⟩
      obtain ⟨c', after, ns₂, ns₂', hrest', h₂, hheads⟩ := hfound arms' harms
      exact ⟨c', after, ns₂, ns₂', hrest', by simpa using h₂, hheads⟩

/-- When two arms start at one node, the edges to it are all taken for the second arm. -/
theorem extend_same (hab : a.dest = b.dest) {arms arms' : Arms} {e : BoundEdge Edge}
    (ht : arms.trueHead = p) (h : arms.extend g (point p a b) e = some arms') :
    arms'.trueHead = p ∧ arms'.falseHead = e.dest := by
  rcases extend_cases h with ⟨-, rfl⟩ | ⟨⟨-, hdb, hda⟩ | ⟨hsource, -, hhead, -⟩, rfl⟩
  · exact ⟨ht, rfl⟩
  · exact absurd (hda.trans hab) hdb
  · exact absurd (hhead.trans ht) hsource

theorem follow_same (hab : a.dest = b.dest) {es : List (BoundEdge Edge)} {arms : Arms}
    (ht : arms.trueHead = p) (hes : ∀ e ∈ es, e.dest ≠ p) :
    (∀ arms', arms.follow g (point p a b) es ≠ .met arms') ∧
      ∀ arms', arms.follow g (point p a b) es = .going arms' → arms'.trueHead = p := by
  induction es generalizing arms with
  | nil =>
    refine ⟨fun _ h => (by cases h), fun arms' h => ?_⟩
    cases h
    exact ht
  | cons e es ih =>
    unfold Arms.follow
    cases h : arms.extend g (point p a b) e with
    | none => exact ⟨fun _ h => (by cases h), fun _ h => (by cases h)⟩
    | some arms₁ =>
      obtain ⟨ht₁, hf₁⟩ := extend_same hab ht h
      simp only
      rw [if_neg (by rw [ht₁, hf₁]; exact Ne.symm (hes e (by simp)))]
      exact ih ht₁ fun e he => hes e (by simp [he])

/-- Two arms that start at one node do not meet. -/
theorem followAll_same (hab : a.dest = b.dest) {todo : List Nat} (hp : p ∉ todo) {arms : Arms}
    (ht : arms.trueHead = p) : (∃ before, todo = before ++
      (arms.followAll g (point p a b) todo).2) ∧
        (arms.followAll g (point p a b) todo).1 = none := by
  induction todo generalizing arms with
  | nil => exact ⟨⟨[], rfl⟩, rfl⟩
  | cons c todo ih =>
    rw [List.mem_cons, not_or] at hp
    have hdest : ∀ e ∈ Graph.inEdges g c, e.dest ≠ p := fun e he => by
      rw [(Graph.mem_inEdges.1 he).2.2]
      exact Ne.symm hp.1
    obtain ⟨hmet, hgoing⟩ := follow_same hab ht hdest
    unfold Arms.followAll
    split
    · exact ⟨⟨[], rfl⟩, rfl⟩
    · next arms₁ h => exact absurd h (hmet arms₁)
    · next arms₁ h =>
      obtain ⟨⟨before, hbefore⟩, hnone⟩ := ih hp.2 (hgoing arms₁ h)
      exact ⟨⟨c :: before, by rw [List.cons_append, ← hbefore]⟩, hnone⟩

/-- The edges into nodes that are listed once lead at most once from one node to another. -/
theorem pairwise_once (hp : g.node? p = some (.branch a b)) (hne : a.dest ≠ b.dest)
    {todo : List Nat} (hnd : todo.Nodup) :
    (todo.flatMap (Graph.inEdges g)).Pairwise (Once p) := by
  refine List.pairwise_flatMap.2 ⟨fun c _ => ?_, hnd.imp fun {c c'} hcc e he e' he' _ _ hdd => ?_⟩
  · exact (pairwise_inEdges hp hne c).imp fun h hs hs' => absurd ⟨hs, hs'⟩ h
  · exact hcc (by rw [← (Graph.mem_inEdges.1 he).2.2, ← (Graph.mem_inEdges.1 he').2.2, hdd])

/-- Arms that have met behind the branching node are lanes to the place where they met. -/
theorem Along.lanes {seen ns ns' : List Nat} {arms : Arms} (h : Along g p a b seen arms ns ns')
    {c : Nat} (hc : c ≠ p) (htrue : arms.trueHead = c) (hfalse : arms.falseHead = c) :
    ∃ es es', arms.toEdge = .conditional (.linear (a.edge :: es)) (.linear (b.edge :: es')) ∧
      g.Lane c p a.dest ns es ∧ g.Lane c p b.dest ns' es' := by
  obtain ⟨trueHead, trueEdges, falseHead, falseEdges⟩ := arms
  obtain ⟨hT, hF, -, -, -⟩ := h
  simp only at hT hF htrue hfalse
  subst htrue
  subst hfalse
  cases hT with
  | waiting => exact absurd rfl hc
  | @going _ es _ hlane =>
    cases hF with
    | waiting => exact absurd rfl hc
    | @going _ es' _ hlane' => exact ⟨es, es', by simp [toEdge], hlane, hlane'⟩

/-- Arms that meet form a diamond. -/
theorem followAll_cases (hg : Graph.Sound g) {n : Nat} (hn : g.Reachable n)
    (hway : g.node? n = some (.simple ⟨.ifTest, p⟩)) (hbranch : g.node? p = some (.branch a b))
    (halone : ∀ m, m ∈ g.predecessors p ↔ m = n) {rest : List Nat} (hnd : (n :: p :: rest).Nodup)
    (hs : g.source ∉ p :: rest) :
    ∃ before, rest = before ++ ((start (point p a b)).followAll g (point p a b) rest).2 ∧
      ∀ arms, ((start (point p a b)).followAll g (point p a b) rest).1 = some arms →
        ∃ after ns ns' es es',
          ((start (point p a b)).followAll g (point p a b) rest).2 = arms.trueHead :: after ∧
          arms.toEdge = .conditional (.linear (a.edge :: es)) (.linear (b.edge :: es')) ∧
          g.Diamond n arms.trueHead .ifTest p a b ns ns' es es' ∧
          ∀ x, x ∈ ns ∨ x ∈ ns' → x ∈ before := by
  obtain ⟨hnout, hnd⟩ := List.nodup_cons.1 hnd
  obtain ⟨hpout, hnd⟩ := List.nodup_cons.1 hnd
  rw [List.mem_cons, not_or] at hs hnout
  by_cases hab : a.dest = b.dest
  · have htrue : (start (point p a b)).trueHead = p := rfl
    obtain ⟨⟨before, hbefore⟩, hnone⟩ := followAll_same (g := g) hab hpout htrue
    exact ⟨before, hbefore, fun arms harms => by cases harms.symm.trans hnone⟩
  · have hset : Setting g p a b rest :=
      ⟨hg, hg.reachable_target hn (by simp [Graph.targets_of_simple hway]), hbranch, hab,
        hs.2, hpout⟩
    have hstart : Along g p a b [] (start (point p a b)) [] [] :=
      ⟨.waiting, .waiting, .inl rfl, .inl rfl, by simp⟩
    obtain ⟨before, hbefore, hfound⟩ := hstart.followAll hset rfl
      (pairwise_once hbranch hab hnd) fun e _ _ => ⟨fun _ => rfl, fun _ => rfl⟩
    refine ⟨before, hbefore, fun arms harms => ?_⟩
    obtain ⟨c, after, ns, ns', hrest, halong, rfl, hfalse⟩ := hfound arms harms
    rw [List.nil_append] at halong
    have hpassed := halong.passed
    have hc : arms.trueHead ≠ p := fun h => hpout (h ▸ by rw [hbefore, hrest]; simp)
    obtain ⟨es, es', hedge, hlane, hlane'⟩ := halong.lanes hc rfl hfalse
    have hsub : ∀ x, x ∈ ns ∨ x ∈ ns' → x ∈ rest := by
      intro x hx
      have := hpassed x hx
      rw [hbefore, hrest]
      simp only [List.mem_append, List.mem_cons, List.not_mem_nil, or_false] at this ⊢
      tauto
    have hpn : p ∉ ns := fun h => hpout (hsub p (.inl h))
    have hpn' : p ∉ ns' := fun h => hpout (hsub p (.inr h))
    have hdiamond : g.Diamond n arms.trueHead .ifTest p a b ns ns' es es' := by
      refine ⟨hn, hway, hbranch, halone, Ne.symm hs.1, hlane, hlane', ⟨hnout.1, ?_, ?_⟩, ?_⟩
      · exact fun h => hnout.2 (hsub n (.inl h))
      · exact fun h => hnout.2 (hsub n (.inr h))
      · exact hlane.disjoint hlane' hpn' hpn fun _ => hab
    refine ⟨after, ns, ns', es, es', hrest, hedge, hdiamond, fun x hx => ?_⟩
    rcases List.mem_append.1 (hpassed x hx) with h | h
    · exact h
    · obtain rfl := List.mem_singleton.1 h
      have := hdiamond.dest_not_mem hg
      rw [Graph.mem_between, not_or] at this
      exact absurd hx this.2

end Arms

namespace FlowGraph

/-! ## The search -/

/-- A test edge leads to a branching node that it is the one way into, unless that is a fault. -/
theorem branchPoint?_cases (hg : Graph.Sound g) {n : Nat} (hn : g.Reachable n) :
    (∃ fault, g.branchPoint? n = .error fault) ∨ g.branchPoint? n = .ok none ∨
      ∃ p a b, g.branchPoint? n = .ok (some (Arms.point p a b)) ∧
        g.node? n = some (.simple ⟨.ifTest, p⟩) ∧ g.node? p = some (.branch a b) ∧
        ∀ m, m ∈ g.predecessors p ↔ m = n := by
  unfold branchPoint?
  split
  · next dest hout =>
    have hway := Graph.bind_simpleOut?_eq_some.1 hout
    split
    · next a b hab =>
      split
      · next hone =>
        obtain ⟨k, hk⟩ := Graph.inDegree_eq_one_iff.1 hone
        obtain rfl := (hk n).1 (hg.index.2 ⟨hn, by simp [Graph.targets_of_simple hway]⟩)
        exact .inr (.inr ⟨dest, a, b, rfl, hway, hab, hk⟩)
      · exact .inl ⟨_, rfl⟩
    · exact .inl ⟨_, rfl⟩
  · exact .inr (.inl rfl)

/-- In a regular graph every test edge leads to a branching node that it is the one way into. -/
theorem Regular.branchPoint?_ne_error (hg : g.Regular traceName) {n : Nat} (hn : g.Reachable n)
    (fault : Fault) : g.branchPoint? n ≠ .error fault := by
  unfold branchPoint?
  split
  · next dest hout =>
    have hway := Graph.bind_simpleOut?_eq_some.1 hout
    obtain ⟨a, b, hab⟩ := hg.tested.branch hn hway
    have halone : ∀ m, m ∈ g.predecessors dest ↔ m = n := by
      intro m
      rw [hg.sound.index]
      constructor
      · rintro ⟨hm, hmd⟩
        exact hg.tested.unique hm hn (hg.tested.only hm hmd hab) hway
      · rintro rfl
        exact ⟨hn, by simp [Graph.targets_of_simple hway]⟩
    have hone : g.inDegree dest = 1 := Graph.inDegree_eq_one_iff.2 ⟨n, halone⟩
    simp [hab, hone]
  · simp

/-- The splice of a conditional edge. -/
def regionPatch (g : FlowGraph) (c : Conditional) : Patch where
  source := c.source
  dest := c.dest
  gone := (g.region c.source c.dest).filter (· != c.source)
  row := [c.edge]

/-- Whether the region of a conditional of a graph is still a diamond in another, with the arms of
the conditional edge. -/
def StillDiamond (g g' : FlowGraph) (c : Conditional) : Prop :=
  ∃ p a b ns ns' es es', g'.Diamond c.source c.dest .ifTest p a b ns ns' es es' ∧
    c.edge = .conditional (.linear (a.edge :: es)) (.linear (b.edge :: es')) ∧
    ∀ x, x ∈ (g.regionPatch c).gone ↔ x ∈ Graph.between p ns ns'

/-- What the search finds in a list of nodes: diamonds that start in the list, lie behind its first
node, and are apart. -/
structure Finds (g : FlowGraph) (l : List Nat) (cs : List Conditional) : Prop where
  found : g.conditionalsIn l = .ok cs
  diamond : ∀ c ∈ cs, g.StillDiamond g c
  source : ∀ c ∈ cs, c.source ∈ l
  gone : ∀ c ∈ cs, ∀ x ∈ (g.regionPatch c).gone, x ∈ l.tail
  apart : cs.Pairwise fun c c' => (g.regionPatch c).Apart (g.regionPatch c')

/-- What is found further on is found from a node before. -/
theorem Finds.cons {n : Nat} {ns l : List Nat} {cs : List Conditional} (h : g.Finds l cs)
    (hl : l.Sublist ns) (hfound : g.conditionalsIn (n :: ns) = .ok cs) : g.Finds (n :: ns) cs :=
  ⟨hfound, h.diamond, fun c hc => List.mem_cons_of_mem _ (hl.subset (h.source c hc)),
    fun c hc x hx => hl.subset (List.mem_of_mem_tail (h.gone c hc x hx)), h.apart⟩

theorem mem_gone_regionPatch {c : Conditional} {x : Nat} :
    x ∈ (g.regionPatch c).gone ↔ x ∈ g.region c.source c.dest ∧ x ≠ c.source := by
  simp [regionPatch]

/-- The splice of a diamond is at what is between its ends. -/
theorem gone_of_diamond (hg : g.Sound) {c : Conditional} {ns ns' : List Nat} {es es' : List Edge}
    (h : g.Diamond c.source c.dest .ifTest p a b ns ns' es es') {x : Nat} :
    x ∈ (g.regionPatch c).gone ↔ x ∈ Graph.between p ns ns' := by
  rw [mem_gone_regionPatch, (h.region hg).mem_region_iff (h.mem_region hg)]
  constructor
  · rintro ⟨hx | hx, hne⟩
    · exact absurd hx hne
    · exact hx
  · intro hx
    exact ⟨.inr hx, fun hs => (h.region hg).entry_kept (hs ▸ hx)⟩

/-- A diamond whose arms meet goes before what is found from there on. -/
theorem Finds.diamond_cons (hg : g.Sound) {n : Nat} {rest before after : List Nat} {arms : Arms}
    {ns ns' : List Nat} {es es' : List Edge} {cs : List Conditional}
    (hnd : (n :: p :: rest).Nodup) (hrest : rest = before ++ arms.trueHead :: after)
    (h : g.Finds (arms.trueHead :: after) cs)
    (hedge : arms.toEdge = .conditional (.linear (a.edge :: es)) (.linear (b.edge :: es')))
    (hdiamond : g.Diamond n arms.trueHead .ifTest p a b ns ns' es es')
    (hbefore : ∀ x, x ∈ ns ∨ x ∈ ns' → x ∈ before)
    (hfound : g.conditionalsIn (n :: p :: rest) = .ok (⟨n, arms.trueHead, arms.toEdge⟩ :: cs)) :
    g.Finds (n :: p :: rest) (⟨n, arms.trueHead, arms.toEdge⟩ :: cs) := by
  set c : Conditional := ⟨n, arms.trueHead, arms.toEdge⟩ with hcdef
  have hgone : ∀ x, x ∈ (g.regionPatch c).gone ↔ x ∈ Graph.between p ns ns' := fun x =>
    gone_of_diamond hg hdiamond
  have hfirst : ∀ x ∈ (g.regionPatch c).gone, x = p ∨ x ∈ before := by
    intro x hx
    rw [hgone, Graph.mem_between] at hx
    exact hx.imp id (hbefore x)
  rw [hrest] at hnd ⊢ hfound
  have hlater : ∀ x ∈ arms.trueHead :: after, x ≠ n ∧ x ≠ p ∧ x ∉ before := by
    intro x hx
    obtain ⟨hn, hnd⟩ := List.nodup_cons.1 hnd
    obtain ⟨hp, hnd⟩ := List.nodup_cons.1 hnd
    refine ⟨?_, ?_, fun h => (List.disjoint_of_nodup_append hnd) h hx⟩
    · rintro rfl
      exact hn (by simp only [List.mem_cons, List.mem_append] at hx ⊢; tauto)
    · rintro rfl
      exact hp (by simp only [List.mem_cons, List.mem_append] at hx ⊢; tauto)
  have htail : arms.trueHead ∉ after := by
    have := (List.nodup_cons.1 (List.nodup_cons.1 hnd).2).2
    exact (List.nodup_cons.1 (List.nodup_append.1 this).2.1).1
  refine ⟨hfound, ?_, ?_, ?_, List.pairwise_cons.2 ⟨fun c' hc' => ⟨fun x hx => ?_, fun hx => ?_⟩,
    h.apart⟩⟩
  · intro c' hc'
    rcases List.mem_cons.1 hc' with rfl | hc'
    · exact ⟨p, a, b, ns, ns', es, es', hdiamond, hedge, hgone⟩
    · exact h.diamond c' hc'
  · intro c' hc'
    rcases List.mem_cons.1 hc' with rfl | hc'
    · exact List.mem_cons_self
    · have := h.source c' hc'
      simp only [List.mem_cons, List.mem_append] at this ⊢
      tauto
  · intro c' hc' x hx
    rcases List.mem_cons.1 hc' with rfl | hc'
    · have := hfirst x hx
      simp only [List.tail_cons, List.mem_cons, List.mem_append]
      tauto
    · have := h.gone c' hc' x hx
      simp only [List.tail_cons, List.mem_cons, List.mem_append] at this ⊢
      tauto
  · have hx : x ∈ arms.trueHead :: after := by
      rcases hx with rfl | hx
      · exact h.source c' hc'
      · exact List.mem_of_mem_tail (h.gone c' hc' x hx)
    obtain ⟨hn, hp, hb⟩ := hlater x hx
    exact ⟨hn, fun hx => (hfirst x hx).elim hp hb⟩
  · exact htail (h.gone c' hc' _ hx)

/-! A step of the search goes on from the next node, or it is an attempt at a test and goes on from
where that stops. -/

theorem conditionalsIn_next {n : Nat} {ns : List Nat} (h : g.branchPoint? n = .ok none) :
    g.conditionalsIn (n :: ns) = g.conditionalsIn ns := by
  rw [conditionalsIn, h]

theorem conditionalsIn_apart {n m : Nat} {ns : List Nat}
    (h : g.branchPoint? n = .ok (some (Arms.point p a b))) (hm : m ≠ p) :
    g.conditionalsIn (n :: m :: ns) = g.conditionalsIn (m :: ns) := by
  rw [conditionalsIn, h]
  exact if_neg hm

theorem conditionalsIn_attempt {n : Nat} {rest : List Nat}
    (h : g.branchPoint? n = .ok (some (Arms.point p a b)))
    {found : Option Arms × List Nat}
    (hfound : (Arms.start (Arms.point p a b)).followAll g (Arms.point p a b) rest = found) :
    g.conditionalsIn (n :: p :: rest) = (g.conditionalsIn found.2).map fun cs =>
      (found.1.map fun arms => (⟨n, arms.trueHead, arms.toEdge⟩ : Conditional)).toList ++ cs := by
  rw [conditionalsIn, h, ← hfound]
  exact if_pos rfl

/-- The search through nodes that are listed once fails only where a test edge is at fault. -/
theorem conditionalsIn_cases (hg : Graph.Sound g) {l : List Nat}
    (hreach : ∀ x ∈ l, g.Reachable x) (hnd : l.Nodup) (hs : g.source ∉ l.tail) :
    (∃ n ∈ l, ∃ fault, g.branchPoint? n = .error fault ∧ g.conditionalsIn l = .error fault) ∨
      ∃ cs, g.Finds l cs := by
  induction hlen : l.length using Nat.strongRecOn generalizing l with
  | ind k ih =>
    subst hlen
    cases l with
    | nil => exact .inr ⟨[], by simp [conditionalsIn], by simp, by simp, by simp, .nil⟩
    | cons n ns =>
      have behind : ∀ {l : List Nat}, l.Sublist ns →
          (∃ n ∈ l, ∃ fault, g.branchPoint? n = .error fault ∧
            g.conditionalsIn l = .error fault) ∨ ∃ cs, g.Finds l cs := by
        intro l hl
        refine ih l.length (Nat.lt_succ_of_le hl.length_le) (fun x hx => ?_)
          ((List.nodup_cons.1 hnd).2.sublist hl)
          (fun h => hs (hl.subset (List.mem_of_mem_tail h))) rfl
        exact hreach x (by simp [hl.subset hx])
      rcases branchPoint?_cases hg (hreach n (by simp)) with ⟨fault, hfault⟩ | hnone |
        ⟨p, a, b, hsome, hway, hbranch, halone⟩
      · exact .inl ⟨n, by simp, fault, hfault, by rw [conditionalsIn, hfault]⟩
      · have hskip : g.conditionalsIn (n :: ns) = g.conditionalsIn ns := conditionalsIn_next hnone
        rcases behind (List.Sublist.refl ns) with ⟨m, hm, fault, hfault, herror⟩ | ⟨cs, hcs⟩
        · exact .inl ⟨m, by simp [hm], fault, hfault, hskip.trans herror⟩
        · exact .inr ⟨cs, hcs.cons (List.Sublist.refl ns) (hskip.trans hcs.found)⟩
      cases ns with
      | nil =>
        refine .inr ⟨[], ?_, by simp, by simp, by simp, .nil⟩
        rw [conditionalsIn, hsome]
      | cons m rest =>
        by_cases hm : m = p
        · subst hm
          obtain ⟨before, hbefore, hfound⟩ := Arms.followAll_cases hg (hreach n (by simp)) hway
            hbranch halone hnd hs
          set found := (Arms.start (Arms.point m a b)).followAll g (Arms.point m a b) rest
            with hdef
          have hsub : found.2.Sublist (m :: rest) := by
            rw [hbefore]
            exact (List.sublist_append_right before found.2).cons m
          have hnext := conditionalsIn_attempt hsome hdef.symm
          rcases behind hsub with ⟨x, hx, fault, hfault, herror⟩ | ⟨cs, hcs⟩
          · exact .inl ⟨x, List.mem_cons_of_mem _ (hsub.subset hx), fault, hfault,
              by rw [hnext, herror]; rfl⟩
          rw [hcs.found] at hnext
          cases harms : found.1 with
          | none =>
            rw [harms] at hnext
            exact .inr ⟨cs, hcs.cons hsub hnext⟩
          | some arms =>
            obtain ⟨after, ns, ns', es, es', hrest, hedge, hdiamond, hpassed⟩ := hfound arms harms
            rw [harms] at hnext
            rw [hrest] at hbefore hcs
            exact .inr ⟨_, hcs.diamond_cons hg hnd hbefore hedge hdiamond hpassed hnext⟩
        · have hskip : g.conditionalsIn (n :: m :: rest) = g.conditionalsIn (m :: rest) :=
            conditionalsIn_apart hsome hm
          rcases behind (List.Sublist.refl (m :: rest)) with
            ⟨x, hx, fault, hfault, herror⟩ | ⟨cs, hcs⟩
          · exact .inl ⟨x, by simp only [List.mem_cons] at hx ⊢; tauto, fault, hfault,
              hskip.trans herror⟩
          · exact .inr ⟨cs, hcs.cons (List.Sublist.refl _) (hskip.trans hcs.found)⟩

/-- The search for the conditionals of a graph goes through nodes that are listed once, the entry
first. -/
theorem conditionals_cases (hg : Graph.Sound g) :
    (∃ n fault, g.Reachable n ∧ g.branchPoint? n = .error fault ∧
      g.conditionals = .error fault) ∨
        ∃ cs, g.Finds (g.list .reversePostorder) cs := by
  obtain ⟨ns, hns⟩ := Graph.reversePostorder_eq_cons hg.source_lt
  have hnd := Graph.nodup_reversePostorder g
  have hs : g.source ∉ (g.list .reversePostorder).tail := by
    rw [hns] at hnd ⊢
    exact (List.nodup_cons.1 hnd).1
  rcases conditionalsIn_cases hg (fun x hx => Graph.mem_list.1 hx) hnd hs with
    ⟨n, hn, fault, hfault, herror⟩ | hfinds
  · exact .inl ⟨n, fault, Graph.mem_list.1 hn, hfault, herror⟩
  · exact .inr hfinds

/-! ## The pass -/

/-- The edges of a lane are lawful. -/
theorem Regular.lawful_of_lane (hg : g.Regular traceName) {dest prev x : Nat} {ns : List Nat}
    {es : List Edge} (h : g.Lane dest prev x ns es) (hx : g.Reachable x) :
    ∀ e ∈ es, e.Lawful traceName := by
  induction h with
  | done => simp
  | step _ _ hnode _ ih =>
    intro e he
    rcases List.mem_cons.1 he with rfl | he
    · exact hg.lawful hx hnode (List.mem_singleton.2 rfl)
    · exact ih (hg.sound.reachable_target hx (by simp [Graph.targets_of_simple hnode])) e he

/-- The arms of a diamond do not meet at a test. -/
theorem Regular.dest_not_branch (hg : g.Regular traceName) {n dest : Nat} {e : Edge}
    {ns ns' : List Nat}
    {es es' : List Edge} (h : g.Diamond n dest e p a b ns ns' es es') (a' b' : Link Edge) :
    g.node? dest ≠ some (.branch a' b') := by
  intro hab
  obtain ⟨hm, hm'⟩ := h.meet hg.sound
  obtain ⟨hr, hd⟩ := hg.sound.index.1 hm
  obtain ⟨hr', hd'⟩ := hg.sound.index.1 hm'
  have htest := hg.tested.only hr hd hab
  have htest' := hg.tested.only hr' hd' hab
  have heq := hg.tested.unique hr hr' htest htest'
  rcases List.mem_cons.1 (List.getLastD_mem_cons (l := ns) (a := p)) with hp | hp
  · rw [hp] at htest
    cases htest.symm.trans h.branch
  · rcases List.mem_cons.1 (List.getLastD_mem_cons (l := ns') (a := p)) with hp' | hp'
    · rw [hp'] at htest'
      cases htest'.symm.trans h.branch
    · exact h.apart hp (heq ▸ hp')

/-- The conditional edge of a diamond fits between its ends. -/
theorem Regular.fits_of_diamond (hg : g.Regular traceName) {n dest : Nat} {e : Edge}
    {ns ns' : List Nat}
    {es es' : List Edge} (h : g.Diamond n dest e p a b ns ns' es es') :
    g.Fits traceName dest [.conditional (.linear (a.edge :: es)) (.linear (b.edge :: es'))] := by
  have hp := h.reachable_branch hg.sound
  have harm : ∀ {l : Link Edge} {ns : List Nat} {es : List Edge}, l = a ∨ l = b →
      g.Lane dest p l.dest ns es → ∀ e ∈ l.edge :: es, e.Lawful traceName := by
    intro l ns es hl hlane e he
    rcases List.mem_cons.1 he with rfl | he
    · exact hg.lawful hp h.branch (by simpa [Node.links] using hl)
    · refine hg.lawful_of_lane hlane (hg.sound.reachable_target hp ?_) e he
      rw [h.targets_branch]
      rcases hl with rfl | rfl <;> simp
  refine .single (.conditional (harm (.inl rfl) h.onTrue) (harm (.inr rfl) h.onFalse)) ?_
  refine iff_of_false (by simp) ?_
  rintro ⟨a', b', hab⟩
  exact hg.dest_not_branch h a' b' hab

theorem gone_eq_between {c : Conditional} {ns ns' : List Nat}
    (h : ∀ x, x ∈ (g.regionPatch c).gone ↔ x ∈ Graph.between p ns ns') :
    (fun x => x ∈ (g.regionPatch c).gone) = fun x => x ∈ Graph.between p ns ns' :=
  funext fun x => propext (h x)

theorem StillDiamond.keeps {g₁ g₂ : FlowGraph} {c : Conditional} (h : g.StillDiamond g₁ c)
    (hk : g₁.Keeps g₂ (g.regionPatch c).source (· ∈ (g.regionPatch c).gone)) :
    g.StillDiamond g₂ c := by
  obtain ⟨p, a, b, ns, ns', es, es', hdiamond, hedge, hgone⟩ := h
  rw [gone_eq_between hgone] at hk
  exact ⟨p, a, b, ns, ns', es, es', hdiamond.keeps hk, hedge, hgone⟩

theorem StillDiamond.gone_lt_size {g₁ : FlowGraph} {c : Conditional} (h : g.StillDiamond g₁ c) :
    ∀ x ∈ (g.regionPatch c).gone, x < g₁.size := by
  obtain ⟨p, a, b, ns, ns', es, es', hdiamond, -, hgone⟩ := h
  intro x hx
  exact hdiamond.lt_size ((hgone x).1 hx)

/-- The splice of a diamond is carried out. -/
theorem StillDiamond.splice {g₁ : FlowGraph} {c : Conditional} (h : g.StillDiamond g₁ c)
    (hg : Graph.Sound g₁) :
    ∃ g₂, g₁.spliceRegion c.source c.dest [c.edge] = .ok g₂ ∧ Graph.Sound g₂ ∧
      (g.regionPatch c).Carried g₁ g₂ := by
  obtain ⟨p, a, b, ns, ns', es, es', hdiamond, -, hgone⟩ := h
  obtain ⟨g₂, hsplice, hsound, hspliced⟩ := hdiamond.spliceRegion_eq_ok hg [c.edge]
  refine ⟨g₂, hsplice, hsound, ?_, ?_⟩
  · rw [gone_eq_between hgone]
    exact hdiamond.region hg
  · rw [gone_eq_between hgone]
    exact hspliced

/-- The splice of a diamond keeps a graph regular. -/
theorem StillDiamond.applied {g₁ g₂ : FlowGraph} {c : Conditional} (h : g.StillDiamond g₁ c)
    (hg : g₁.Regular traceName) (hg₂ : Graph.Sound g₂) (hc : (g.regionPatch c).Carried g₁ g₂) :
    (g.regionPatch c).Applied traceName g₁ g₂ := by
  obtain ⟨p, a, b, ns, ns', es, es', hdiamond, hedge, hgone⟩ := h
  have hlast : ns.getLastD p ∈ (g.regionPatch c).gone :=
    (hgone _).2 (Graph.Diamond.last_mem (.inl rfl))
  obtain ⟨hreach, hd⟩ := hg.sound.index.1 (hdiamond.meet hg.sound).1
  have hleads : ∃ u, (u = c.source ∨ u ∈ (g.regionPatch c).gone) ∧ g₁.Reachable u ∧
      c.dest ∈ g₁.targets u := ⟨_, .inr hlast, hreach, hd⟩
  have hfits : g₁.Fits traceName c.dest (g.regionPatch c).row := by
    simp only [regionPatch, hedge]
    exact hg.fits_of_diamond hdiamond
  refine ⟨hc.region, hc.spliced, hg.splice hc.region ⟨_, hdiamond.way⟩ hleads hc.spliced hg₂ hfits,
    hleads, fun x hx => ?_⟩
  rcases Graph.mem_between.1 ((hgone x).1 hx) with rfl | hx | hx
  · exact ⟨_, fun k => (hdiamond.alone k).1⟩
  · exact hdiamond.onTrue.lone hx
  · exact hdiamond.onFalse.lone hx

/-- The diamonds that are found in a sound graph give way to their conditional edges. -/
theorem Finds.spliceRegions_eq_ok (hg : Graph.Sound g) {l : List Nat} {cs : List Conditional}
    (h : g.Finds l cs) :
    ∃ g', Outcome.applyAll (fun g c => g.spliceRegion c.source c.dest [c.edge]) g cs =
      ⟨g', .ok true⟩ ∧ Graph.Sound g' ∧ g'.source = g.source :=
  Sound.applyAll_eq_ok (p := g.regionPatch) StillDiamond.gone_lt_size StillDiamond.keeps
    (fun hg hv => hv.splice hg) hg h.diamond h.apart

/-- Forming conditionals does not fail, and nothing between the ends of a diamond that is found is
reachable afterwards. -/
theorem Regular.formConditionals_found (hg : g.Regular traceName) (iteration : Nat) :
    ∃ cs g' changed, g.Finds (g.list .reversePostorder) cs ∧
      Pass.formConditionals.run iteration g = ⟨g', .ok changed⟩ ∧ g'.Regular traceName ∧
      Reduces traceName g.regionPatch g.StillDiamond g g' ∧
      ∀ c ∈ cs, ∀ x ∈ (g.regionPatch c).gone, ¬ g'.Reachable x := by
  rcases conditionals_cases hg.sound with ⟨n, fault, hn, hfault, -⟩ | ⟨cs, hcs⟩
  · exact absurd hfault (hg.branchPoint?_ne_error hn fault)
  obtain ⟨g', happly, hg', hreduces, hout⟩ := hg.applyAll_eq_ok (p := g.regionPatch)
    StillDiamond.gone_lt_size StillDiamond.keeps (fun {g₁ c} hg hv => by
      obtain ⟨g₂, hsplice, hsound, hcarried⟩ := hv.splice hg.sound
      exact ⟨g₂, hsplice, hv.applied hg hsound hcarried⟩) hcs.diamond hcs.apart
  obtain ⟨changed, hchanged⟩ := Outcome.ofEdits_eq_of_applyAll happly
  refine ⟨cs, g', changed, hcs, ?_, hg', hreduces, fun c hc x hx => ?_⟩
  · rw [← hchanged]
    simp [Pass.formConditionals, conditionals, hcs.found]
  · exact hout x ((hcs.diamond c hc).gone_lt_size x hx) (.inr ⟨c, hc, hx⟩)

/-- Forming conditionals does not fail. -/
theorem Regular.formConditionals (hg : g.Regular traceName) (iteration : Nat) :
    ∃ g' changed, Pass.formConditionals.run iteration g = ⟨g', .ok changed⟩ ∧
      g'.Regular traceName ∧ Reduces traceName g.regionPatch g.StillDiamond g g' := by
  obtain ⟨_, g', changed, -, hrun, hg', hreduces, -⟩ := hg.formConditionals_found iteration
  exact ⟨g', changed, hrun, hg', hreduces⟩

end FlowGraph

end ScriptRecovery
