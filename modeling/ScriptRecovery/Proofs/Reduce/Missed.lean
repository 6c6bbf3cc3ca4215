import ScriptRecovery.Proofs.Graph.Consecutive
import ScriptRecovery.Proofs.Graph.Paths
import ScriptRecovery.Proofs.Reduce.Conditionals

/-!
# What the search for conditionals misses

A search that comes to the entry of a diamond finds it, if nothing else leads to where the arms meet
(`followAll_of_diamond`): the diamond stands in one piece in the order of the search, and every edge
on the way continues an arm.

The search does not come to every node.  An attempt passes over the nodes that it follows arms to,
and when it is given up the search does not go back to them.  So a diamond can be missed, but only
one whose entry is on an arm of another branching node (`FlowGraph.OnArm`, `onArm_of_missed`).
-/

namespace ScriptRecovery

open FlowGraph

variable {g : FlowGraph} {p : Nat} {a b : Link Edge}

/-! ## The edges of an arm -/

/-- An edge that continues an arm from the node it has come to. -/
structure Leads (g : FlowGraph) (p : Nat) (first : Link Edge) (prev x : Nat)
    (e : BoundEdge Edge) : Prop where
  source : e.source = prev
  dest : e.dest = x
  branching : prev = p → x = first.dest
  simple : prev ≠ p → (g.node? prev).any Node.isSimple
  degree : g.inDegree prev = 1

/-- Whether the one edge from a node to another continues an arm. -/
def OneWay (g : FlowGraph) (p : Nat) (first : Link Edge) (prev x : Nat) : Prop :=
  ∃ e, (Graph.outEdges g prev).filter (·.dest == x) = [e] ∧ Leads g p first prev x e

/-- The first edge of an arm. -/
theorem oneWay_first (hp : g.node? p = some (.branch a b)) (hab : a.dest ≠ b.dest)
    (hone : g.inDegree p = 1) {first : Link Edge} (hfirst : first = a ∨ first = b) :
    OneWay g p first p first.dest := by
  refine ⟨⟨p, first.dest, first.edge⟩, ?_, rfl, rfl, fun _ => rfl, fun h => absurd rfl h, hone⟩
  rw [Graph.outEdges, show g.nodes[p]? = _ from hp]
  rcases hfirst with rfl | rfl
  · simp [Node.links, Ne.symm hab]
  · simp [Node.links, hab]

/-- A further edge of an arm. -/
theorem oneWay_next {first : Link Edge} {x y : Nat} {e : Edge}
    (hx : g.node? x = some (.simple ⟨e, y⟩)) (hxp : x ≠ p) (hone : g.inDegree x = 1) :
    OneWay g p first x y := by
  refine ⟨⟨x, y, e⟩, ?_, rfl, rfl, fun h => absurd h hxp, fun _ => ?_, hone⟩
  · simp [Graph.outEdges, show g.nodes[x]? = _ from hx, Node.links]
  · rw [hx]
    rfl

theorem toList_predecessors {x m : Nat} (h : ∀ k, k ∈ g.predecessors x ↔ k = m) :
    (g.predecessors x).toList = [m] :=
  Ascending.eq_of_mem_iff (g.predecessors x).ascending (List.pairwise_singleton ..) fun k =>
    (h k).trans List.mem_singleton.symm

/-- The one edge into a node with one predecessor. -/
theorem OneWay.inEdges {first : Link Edge} {prev x : Nat} (h : OneWay g p first prev x)
    (hx : ∀ m, m ∈ g.predecessors x ↔ m = prev) :
    ∃ e, Graph.inEdges g x = [e] ∧ Leads g p first prev x e := by
  obtain ⟨e, he, hleads⟩ := h
  refine ⟨e, ?_, hleads⟩
  rw [Graph.inEdges, toList_predecessors hx, List.flatMap_singleton, he]

/-- The two edges into a node with two predecessors. -/
theorem inEdges_pair {first first' : Link Edge} {u v x : Nat} (h : OneWay g p first u x)
    (h' : OneWay g p first' v x) (huv : u ≠ v)
    (hx : ∀ m, m ∈ g.predecessors x ↔ m = u ∨ m = v) :
    ∃ e e', (Graph.inEdges g x = [e, e'] ∨ Graph.inEdges g x = [e', e]) ∧
      Leads g p first u x e ∧ Leads g p first' v x e' := by
  obtain ⟨e, he, hleads⟩ := h
  obtain ⟨e', he', hleads'⟩ := h'
  refine ⟨e, e', ?_, hleads, hleads'⟩
  have hasc := (g.predecessors x).ascending
  rcases Nat.lt_or_gt_of_ne huv with hlt | hlt
  · have htwo : (g.predecessors x).toList = [u, v] :=
      Ascending.eq_of_mem_iff hasc (by simpa using hlt) fun m => (hx m).trans (by simp)
    exact .inl (by simp [Graph.inEdges, htwo, he, he'])
  · have htwo : (g.predecessors x).toList = [v, u] :=
      Ascending.eq_of_mem_iff hasc (by simpa using hlt) fun m => (hx m).trans (by simp [or_comm])
    exact .inr (by simp [Graph.inEdges, htwo, he, he'])

namespace Arms

/-! ## Following a diamond -/

theorem extend_onFalse {arms : Arms} {x : Nat} {e : BoundEdge Edge}
    (h : Leads g p b arms.falseHead x e) : arms.extend g (point p a b) e =
      some { arms with falseHead := x, falseEdges := e.edge :: arms.falseEdges } := by
  obtain ⟨hsource, hdest, hbranching, hsimple, hdegree⟩ := h
  have hside : arms.side? g (point p a b) e = some false := by
    unfold side?
    simp only [point, hsource, hdest]
    by_cases hp : arms.falseHead = p
    · simp [hp, hbranching hp]
    · simp [hp, hsimple hp]
  unfold extend
  simp [hside, hdegree, hdest]

theorem extend_onTrue {arms : Arms} {x : Nat} {e : BoundEdge Edge} (hab : a.dest ≠ b.dest)
    (h : Leads g p a arms.trueHead x e) (hne : arms.trueHead ≠ p → arms.trueHead ≠ arms.falseHead) :
    arms.extend g (point p a b) e =
      some { arms with trueHead := x, trueEdges := e.edge :: arms.trueEdges } := by
  obtain ⟨hsource, hdest, hbranching, hsimple, hdegree⟩ := h
  have hside : arms.side? g (point p a b) e = some true := by
    unfold side?
    simp only [point, hsource, hdest]
    by_cases hp : arms.trueHead = p
    · simp [hp, hbranching hp, hab]
    · simp [hp, hsimple hp, hne hp]
  unfold extend
  simp [hside, hdegree, hdest]

/-- The second arm is followed along its lane. -/
theorem followAll_onFalse {d prev x : Nat} {ns : List Nat} {es : List Edge}
    (h : g.Lane d prev x ns es) (hway : OneWay g p b prev x) (hp : p ∉ ns) {arms : Arms}
    (hhead : arms.falseHead = prev) (htrue : arms.trueHead ∉ ns) (rest : List Nat) :
    ∃ arms' : Arms, arms'.trueHead = arms.trueHead ∧ arms'.falseHead = ns.getLastD prev ∧
      OneWay g p b (ns.getLastD prev) d ∧
      arms.followAll g (point p a b) (ns ++ rest) = arms'.followAll g (point p a b) rest := by
  induction h generalizing arms with
  | done => exact ⟨arms, rfl, hhead, hway, rfl⟩
  | @step x prev e y ns es _ hx hnode _ ih =>
    rw [List.mem_cons, not_or] at hp htrue
    obtain ⟨e, hin, hleads⟩ := hway.inEdges hx
    have hone : g.inDegree x = 1 := Graph.inDegree_eq_one_iff.2 ⟨prev, hx⟩
    obtain ⟨arms', htrue', hfalse', hway', hfollow⟩ :=
      @ih (oneWay_next hnode (Ne.symm hp.1) hone) hp.2
        { arms with falseHead := x, falseEdges := e.edge :: arms.falseEdges } rfl htrue.2
    refine ⟨arms', htrue', by rw [List.getLastD_cons, hfalse'], ?_, ?_⟩
    · rwa [List.getLastD_cons]
    · rw [List.cons_append, Arms.followAll, hin, ← hfollow]
      simp [follow, extend_onFalse (hhead ▸ hleads), htrue.1]

/-- The first arm is followed along its lane. -/
theorem followAll_onTrue (hab : a.dest ≠ b.dest) {d prev x : Nat} {ns : List Nat} {es : List Edge}
    (h : g.Lane d prev x ns es) (hway : OneWay g p a prev x) (hp : p ∉ ns) {arms : Arms}
    (hhead : arms.trueHead = prev) (hfalse : arms.falseHead ∉ ns)
    (hne : prev ≠ p → prev ≠ arms.falseHead) (rest : List Nat) :
    ∃ arms' : Arms, arms'.falseHead = arms.falseHead ∧ arms'.trueHead = ns.getLastD prev ∧
      OneWay g p a (ns.getLastD prev) d ∧
      arms.followAll g (point p a b) (ns ++ rest) = arms'.followAll g (point p a b) rest := by
  induction h generalizing arms with
  | done => exact ⟨arms, rfl, hhead, hway, rfl⟩
  | @step x prev e y ns es _ hx hnode _ ih =>
    rw [List.mem_cons, not_or] at hp hfalse
    obtain ⟨e, hin, hleads⟩ := hway.inEdges hx
    have hone : g.inDegree x = 1 := Graph.inDegree_eq_one_iff.2 ⟨prev, hx⟩
    obtain ⟨arms', hfalse', htrue', hway', hfollow⟩ :=
      @ih (oneWay_next hnode (Ne.symm hp.1) hone) hp.2
        { arms with trueHead := x, trueEdges := e.edge :: arms.trueEdges } rfl hfalse.2
        fun _ => Ne.symm hfalse.1
    refine ⟨arms', hfalse', by rw [List.getLastD_cons, htrue'], ?_, ?_⟩
    · rwa [List.getLastD_cons]
    · rw [List.cons_append, Arms.followAll, hin, ← hfollow]
      simp [follow, extend_onTrue hab (hhead ▸ hleads) (hhead ▸ hne), Ne.symm hfalse.1]

/-- Two arms meet at a node that one edge of each leads to, in whatever order. -/
theorem follow_meeting (hab : a.dest ≠ b.dest) {arms : Arms} {x : Nat} {e e' : BoundEdge Edge}
    (h : Leads g p a arms.trueHead x e) (h' : Leads g p b arms.falseHead x e')
    (hne : arms.trueHead ≠ arms.falseHead) (hx : arms.trueHead ≠ x) (hx' : arms.falseHead ≠ x)
    {es : List (BoundEdge Edge)} (hes : es = [e, e'] ∨ es = [e', e]) :
    ∃ arms', arms.follow g (point p a b) es = .met arms' := by
  refine ⟨⟨x, e.edge :: arms.trueEdges, x, e'.edge :: arms.falseEdges⟩, ?_⟩
  rcases hes with rfl | rfl
  · have hsecond := @extend_onFalse g p a b ⟨x, e.edge :: arms.trueEdges, arms.falseHead,
      arms.falseEdges⟩ x e' h'
    simp [follow, extend_onTrue hab h fun _ => hne, Ne.symm hx', hsecond]
  · have hsecond := @extend_onTrue g p a b ⟨arms.trueHead, arms.trueEdges, x,
      e'.edge :: arms.falseEdges⟩ x e hab h fun _ => hx
    simp [follow, extend_onFalse (a := a) h', hx, hsecond]

/-- A search that starts at the entry of a diamond finds where its arms meet, if nothing else leads
there. -/
theorem followAll_of_diamond (hg : Graph.Sound g) {n dest : Nat} {e : Edge} {ns ns' : List Nat}
    {es es' : List Edge} (h : g.Diamond n dest e p a b ns ns' es es') (hab : a.dest ≠ b.dest)
    (hjoin : ∀ m ∈ g.predecessors dest, m = ns.getLastD p ∨ m = ns'.getLastD p)
    (after : List Nat) : ∃ arms,
      ((start (point p a b)).followAll g (point p a b) (ns' ++ (ns ++ dest :: after))).1 =
        some arms := by
  obtain ⟨hpn, hpn'⟩ := h.not_mem
  have hone : g.inDegree p = 1 := Graph.inDegree_eq_one_iff.2 ⟨n, h.alone⟩
  have hdest := h.dest_not_mem hg
  -- down the second arm, then down the first one
  have hstart : (start (point p a b)).falseHead = p := rfl
  obtain ⟨arms₁, htrue₁, hfalse₁, hway₁, hfollow₁⟩ := followAll_onFalse (a := a) h.onFalse
    (oneWay_first h.branch hab hone (.inr rfl)) hpn' hstart hpn' (ns ++ dest :: after)
  have hlast : ns'.getLastD p ∉ ns := h.last_not_mem
  obtain ⟨arms₂, hfalse₂, htrue₂, hway₂, hfollow₂⟩ := followAll_onTrue hab h.onTrue
    (oneWay_first h.branch hab hone (.inl rfl)) hpn htrue₁ (hfalse₁ ▸ hlast)
    (fun h => absurd rfl h) (dest :: after)
  rw [hfalse₁] at hfalse₂
  -- they have come to different nodes, and on to the same one
  have hne := h.last_ne hab
  have hmeet := h.meet hg
  obtain ⟨e₁, e₂, hin, hleads₁, hleads₂⟩ := inEdges_pair hway₂ hway₁ hne fun m =>
    ⟨hjoin m, fun hm => hm.elim (fun h => h ▸ hmeet.1) fun h => h ▸ hmeet.2⟩
  have hout : ∀ {m}, m = ns.getLastD p ∨ m = ns'.getLastD p → m ≠ dest := fun hm hmd =>
    hdest (hmd ▸ Graph.Diamond.last_mem hm)
  rw [← htrue₂] at hleads₁
  rw [← hfalse₂] at hleads₂
  obtain ⟨arms, harms⟩ := follow_meeting hab hleads₁ hleads₂ (htrue₂ ▸ hfalse₂ ▸ hne)
    (hout (.inl htrue₂)) (hout (.inr hfalse₂)) hin
  exact ⟨arms, by rw [hfollow₁, hfollow₂, Arms.followAll, harms]⟩

/-! ## What an attempt passes over -/

theorem follow_head {arms arms' : Arms} {c : Nat} {es : List (BoundEdge Edge)} (hes : es ≠ [])
    (hdest : ∀ e ∈ es, e.dest = c) (h : arms.follow g (point p a b) es = .going arms') :
    arms'.trueHead = c ∨ arms'.falseHead = c := by
  induction es generalizing arms with
  | nil => exact absurd rfl hes
  | cons e es ih =>
    unfold follow at h
    cases hext : arms.extend g (point p a b) e with
    | none => simp [hext] at h
    | some arms₁ =>
      simp only [hext] at h
      split at h
      · cases h
      · cases es with
        | nil =>
          cases h
          exact (extend_head hext).imp (·.trans (hdest e (by simp))) (·.trans (hdest e (by simp)))
        | cons e' es => exact ih (by simp) (fun e he => hdest e (by simp [he])) h

/-- Arms that do not meet at a node come to it along one edge. -/
theorem Along.follow_single {seen : List Nat} {arms arms' : Arms} {ns ns' : List Nat} {c : Nat}
    {es more : List (BoundEdge Edge)} (h : Along g p a b seen arms ns ns') (hes : es ≠ [])
    (hdest : ∀ e ∈ es, e.dest = c) (hself : ∀ e ∈ es, e.source ≠ c)
    (honce : (es ++ more).Pairwise (Once p)) (hpending : Pending p a b arms (es ++ more))
    (hgoing : arms.follow g (point p a b) es = .going arms') : ∃ e, es = [e] := by
  match es with
  | [] => exact absurd rfl hes
  | [e] => exact ⟨e, rfl⟩
  | e :: e' :: es =>
    exfalso
    unfold Arms.follow at hgoing
    cases hext : arms.extend g (point p a b) e with
    | none => simp [hext] at hgoing
    | some arms₁ =>
      simp only [hext] at hgoing
      split at hgoing
      · cases hgoing
      unfold Arms.follow at hgoing
      cases hext' : arms₁.extend g (point p a b) e' with
      | none => simp [hext'] at hgoing
      | some arms₂ =>
        simp only [hext'] at hgoing
        split at hgoing
        · cases hgoing
        next hmeet =>
        have hpending₁ := Pending.extend h hpending (List.pairwise_cons.1 honce).1 hext e'
          (by simp)
        have hc : e.dest = c := hdest e (by simp)
        have hc' : e'.dest = c := hdest e' (by simp)
        have hs' : e'.source ≠ c := hself e' (by simp)
        -- the second edge continues the same arm again, or the other one to the same node
        rcases extend_cases hext with ⟨-, rfl⟩ | ⟨-, rfl⟩ <;>
          rcases extend_cases hext' with ⟨hcase, rfl⟩ | ⟨hcase, rfl⟩
        · rcases hcase with ⟨hp, hd⟩ | ⟨-, -, hhead, -⟩
          · simpa using (hpending₁ hp).2 hd
          · exact hs' (hhead.trans hc)
        · exact hmeet (hc'.trans hc.symm)
        · exact hmeet (hc.trans hc'.symm)
        · rcases hcase with ⟨hp, -, hd⟩ | ⟨-, -, hhead, -⟩
          · simpa using (hpending₁ hp).1 hd
          · exact hs' (hhead.trans hc)

/-- A node that an attempt passes over is one that an arm leads to and nothing else. -/
def Passed (g : FlowGraph) (p : Nat) (a b : Link Edge) (c : Nat) : Prop :=
  ∃ first ms es, (first = a ∨ first = b) ∧ g.Lane c p first.dest ms es ∧
    ∀ m, m ∈ g.predecessors c ↔ m = ms.getLastD p

theorem Along.passed_of_single {rest seen : List Nat} (hset : Setting g p a b rest) {arms : Arms}
    {ns ns' : List Nat} {c : Nat} (hc : c ∈ rest) (h : Along g p a b seen arms ns ns')
    (hhead : arms.trueHead = c ∨ arms.falseHead = c) {e : BoundEdge Edge}
    (hin : Graph.inEdges g c = [e]) : Passed g p a b c := by
  have hcp : c ≠ p := fun hcp => hset.fresh (hcp ▸ hc)
  obtain ⟨ha, hb⟩ := hset.mem_targets
  have hone : ∀ m ∈ g.predecessors c, m = e.source := by
    intro m hm
    obtain ⟨e', he', hd⟩ := Graph.mem_outEdges_of_targets (hset.sound.index.1 hm).2
    obtain rfl := Graph.source_of_mem_outEdges he'
    have hmem : e' ∈ Graph.inEdges g c := Graph.mem_inEdges.2 ⟨hm, he', hd⟩
    rw [hin, List.mem_singleton] at hmem
    rw [hmem]
  have harm : ∀ {first : Link Edge} {es : List Edge} {ms : List Nat}, first = a ∨ first = b →
      Arm g p first c es ms → Passed g p a b c := by
    intro first es ms hfirst harm
    have hmem : first.dest ∈ g.targets p := by rcases hfirst with rfl | rfl <;> assumption
    cases harm with
    | waiting => exact absurd rfl hcp
    | @going _ es ms hlane =>
      have hlast : ms.getLastD p ∈ g.predecessors c := hset.sound.index.2
        ⟨hlane.last_reachable hset.sound hset.reachable hmem, hlane.dest_mem_targets hmem⟩
      refine ⟨first, ms, es, hfirst, hlane, fun m => ⟨fun hm => ?_, fun hm => hm ▸ hlast⟩⟩
      rw [hone m hm, hone _ hlast]
  rcases hhead with hhead | hhead
  · exact harm (.inl rfl) (hhead ▸ h.onTrue)
  · exact harm (.inr rfl) (hhead ▸ h.onFalse)

/-- What an attempt passes over before it stops. -/
theorem Along.passes {rest : List Nat} (hset : Setting g p a b rest)
    (hreach : ∀ x ∈ rest, g.Reachable x) {arms : Arms} {seen todo ns ns' : List Nat}
    (hrest : rest = seen ++ todo) (honce : (todo.flatMap (Graph.inEdges g)).Pairwise (Once p))
    (h : Along g p a b seen arms ns ns')
    (hpending : Pending p a b arms (todo.flatMap (Graph.inEdges g))) :
    ∃ before, todo = before ++ (arms.followAll g (point p a b) todo).2 ∧
      ∀ c ∈ before, c ∉ g.targets c → Passed g p a b c := by
  induction todo generalizing arms seen ns ns' with
  | nil => exact ⟨[], rfl, by simp⟩
  | cons c todo ih =>
    have hc : c ∈ rest := by simp [hrest]
    obtain ⟨hgoing, -⟩ := (h.concat c).follow hset (fun x hx => by
        rw [hrest]
        rcases List.mem_append.1 hx with hx | hx <;> simp_all) (by simp)
      (fun e he => he) honce hpending
    unfold Arms.followAll
    split
    · exact ⟨[], rfl, by simp⟩
    · exact ⟨[], rfl, by simp⟩
    · next arms₁ hfollow =>
      obtain ⟨⟨ns₁, ns₁', h₁⟩, hpending₁⟩ := hgoing _ hfollow
      have hdest : ∀ e ∈ Graph.inEdges g c, e.dest = c := fun e he => (Graph.mem_inEdges.1 he).2.2
      rw [List.flatMap_cons] at honce hpending
      obtain ⟨before, htodo, hpassed⟩ := ih (by simp [hrest]) (List.pairwise_append.1 honce).2.1 h₁
        hpending₁
      refine ⟨c :: before, by rw [List.cons_append, ← htodo],
        List.forall_mem_cons.2 ⟨fun hself => ?_, hpassed⟩⟩
      -- something leads to a node that is not the entry
      obtain ⟨m, hm, hmc⟩ := (hreach c hc).exists_pred fun hs => hset.source (hs ▸ hc)
      have hne : Graph.inEdges g c ≠ [] := by
        obtain ⟨e, he, hd⟩ := Graph.mem_outEdges_of_targets hmc
        obtain rfl := Graph.source_of_mem_outEdges he
        exact List.ne_nil_of_mem (hd ▸ hset.sound.mem_inEdges_of_reachable hm he)
      have hsource : ∀ e ∈ Graph.inEdges g c, e.source ≠ c := by
        intro e he hec
        obtain ⟨-, he, hd⟩ := Graph.mem_inEdges.1 he
        rw [hec] at he
        have hmem := Graph.dest_mem_targets he
        rw [hd] at hmem
        exact hself hmem
      obtain ⟨e, he⟩ := (h.concat c).follow_single hne hdest hsource honce hpending hfollow
      exact h₁.passed_of_single hset hc (follow_head hne hdest hfollow) he

end Arms

namespace FlowGraph

/-! ## What the search misses -/

/-- A graph that does not start with a test, and in which the arms of a test are different nodes. -/
structure Forked (g : FlowGraph) : Prop where
  source : ∀ a b, g.node? g.source ≠ some (.branch a b)
  arms : ∀ {n a b}, g.Reachable n → g.node? n = some (.branch a b) → a.dest ≠ b.dest

/-- Whether a node is on an arm of a branching node: the arm leads to it through nodes that nothing
else leads to, and nothing else leads to it. -/
def OnArm (g : FlowGraph) (n : Nat) : Prop :=
  ∃ p a b first dest ns es, g.Reachable p ∧ g.node? p = some (.branch a b) ∧
    (first = a ∨ first = b) ∧ g.Lane dest p first.dest ns es ∧ n ∈ ns

theorem onArm_of_passed {q n x : Nat} {a b : Link Edge} {e : Edge} (hp : g.Reachable q)
    (hbranch : g.node? q = some (.branch a b)) (hnode : g.node? n = some (.simple ⟨e, x⟩))
    (hn : n ≠ g.source) (h : Arms.Passed g q a b n) : g.OnArm n := by
  obtain ⟨first, ms, es, hfirst, hlane, hpreds⟩ := h
  exact ⟨q, a, b, first, x, ms ++ [n], es ++ [e], hp, hbranch, hfirst,
    hlane.snoc hn hpreds hnode, by simp⟩

theorem branchPoint?_of_diamond {n dest : Nat} {ns ns' : List Nat} {es es' : List Edge}
    (h : g.Diamond n dest .ifTest p a b ns ns' es es') :
    g.branchPoint? n = .ok (some (Arms.point p a b)) := by
  have hone : g.inDegree p = 1 := Graph.inDegree_eq_one_iff.2 ⟨n, h.alone⟩
  simp [branchPoint?, h.way, h.branch, hone, Node.simpleOut?, Arms.point]

/-- An attempt at a test stops behind nodes that its arms lead to. -/
theorem attempt_passes (hg : Graph.Sound g) (hf : g.Forked) {n q : Nat} {a b : Link Edge}
    (hbranch : g.node? q = some (.branch a b)) {rest : List Nat}
    (hreach : ∀ x ∈ n :: q :: rest, g.Reachable x) (hnd : (q :: rest).Nodup)
    (hs : g.source ∉ rest) {found : Option Arms × List Nat}
    (hfound : (Arms.start (Arms.point q a b)).followAll g (Arms.point q a b) rest = found) :
    ∃ passed, rest = passed ++ found.2 ∧
      ∀ c ∈ passed, c ∉ g.targets c → Arms.Passed g q a b c := by
  obtain ⟨hfresh, hnd⟩ := List.nodup_cons.1 hnd
  have hq : g.Reachable q := hreach q (by simp)
  have hset : Arms.Setting g q a b rest :=
    ⟨hg, hq, hbranch, hf.arms hq hbranch, hs, hfresh⟩
  have hstart : Arms.Along g q a b [] (Arms.start (Arms.point q a b)) [] [] :=
    ⟨.waiting, .waiting, .inl rfl, .inl rfl, by simp⟩
  obtain ⟨passed, hpassed, hall⟩ := hstart.passes hset (fun x hx => hreach x (by simp [hx])) rfl
    (Arms.pairwise_once hbranch hset.differ hnd) fun e _ _ => ⟨fun _ => rfl, fun _ => rfl⟩
  exact ⟨passed, hfound ▸ hpassed, hall⟩

theorem exists_append_of_not_mem {α : Type} {before tail passed rest : List α} {n : α}
    (h : before ++ n :: tail = passed ++ rest) (hn : n ∉ passed) :
    ∃ before', rest = before' ++ n :: tail := by
  rcases List.append_eq_append_iff.1 h with ⟨t, hp, ht⟩ | ⟨t, -, ht⟩
  · cases t with
    | nil => exact ⟨[], ht.symm⟩
    | cons y t =>
      obtain ⟨rfl, -⟩ := List.cons.inj ht
      exact absurd (hp ▸ by simp) hn
  · exact ⟨t, ht⟩

/-- What a search finds behind an attempt is among what it finds. -/
theorem conditionalsIn_more {f : List Conditional} {more : Except Fault (List Conditional)}
    {cs : List Conditional} (h : more.map (f ++ ·) = .ok cs) :
    ∃ cs', more = .ok cs' ∧ cs = f ++ cs' := by
  cases more with
  | error fault => cases h
  | ok cs' => exact ⟨cs', rfl, (Except.ok.inj h).symm⟩

/-- A diamond that the search has before it and does not find has its entry on an arm. -/
theorem onArm_of_missed {traceName : String} (hg : g.Regular traceName) (hf : g.Forked)
    {n dest : Nat} {ns ns' : List Nat}
    {es es' : List Edge} (h : g.Diamond n dest .ifTest p a b ns ns' es es')
    (hjoin : ∀ m ∈ g.predecessors dest, m = ns.getLastD p ∨ m = ns'.getLastD p)
    {l before after : List Nat} (hl : l = before ++ n :: p :: (ns' ++ (ns ++ dest :: after)))
    (hreach : ∀ x ∈ l, g.Reachable x) (hnd : l.Nodup) (hs : g.source ∉ l.tail)
    {cs : List Conditional} (hfound : g.conditionalsIn l = .ok cs)
    (hmissed : ∀ c ∈ cs, c.source ≠ n) : g.OnArm n := by
  induction hlen : l.length using Nat.strongRecOn generalizing l before cs with
  | ind k ih =>
    subst hlen
    cases before with
    | nil =>
      -- the search has come to the diamond
      obtain ⟨arms, harms⟩ := Arms.followAll_of_diamond hg.sound h
        (hf.arms (h.reachable_branch hg.sound) h.branch) hjoin after
      rw [hl, List.nil_append, conditionalsIn_attempt (branchPoint?_of_diamond h) rfl,
        harms] at hfound
      obtain ⟨cs', -, rfl⟩ := conditionalsIn_more hfound
      exact absurd rfl (hmissed _ (List.mem_append_left _ (List.mem_singleton.2 rfl)))
    | cons m before =>
      have hm : g.Reachable m := hreach m (by simp [hl])
      generalize htail : p :: (ns' ++ (ns ++ dest :: after)) = tail at hl
      -- the diamond is still before the search when it goes on behind `m`
      have behind : ∀ {l' before' : List Nat} {cs' : List Conditional},
          l'.Sublist (before ++ n :: tail) → l' = before' ++ n :: tail →
          g.conditionalsIn l' = .ok cs' → (∀ c ∈ cs', c.source ≠ n) → g.OnArm n := by
        intro l' before' cs' hsub hl' hfound' hmissed'
        rw [hl] at hreach hnd hs ih
        refine ih l'.length (Nat.lt_succ_of_le hsub.length_le) (htail ▸ hl') (fun x hx => ?_)
          ((List.nodup_cons.1 hnd).2.sublist hsub)
          (fun h => hs (hsub.subset (List.mem_of_mem_tail h))) hfound' hmissed' rfl
        exact hreach x (List.mem_cons_of_mem _ (hsub.subset hx))
      rw [List.cons_append] at hl
      rcases branchPoint?_cases hg.sound hm with ⟨fault, hfault⟩ | hskip |
        ⟨q, a₀, b₀, hattempt, hway, hbranch, -⟩
      · exact absurd hfault (hg.branchPoint?_ne_error hm fault)
      · rw [hl, conditionalsIn_next hskip] at hfound
        exact behind (List.Sublist.refl _) rfl hfound hmissed
      obtain ⟨m', rest, hrest⟩ : ∃ m' rest, before ++ n :: tail = m' :: rest :=
        List.exists_cons_of_ne_nil (by simp)
      by_cases hmq : m' = q
      · subst hmq
        generalize hstop :
          (Arms.start (Arms.point m' a₀ b₀)).followAll g (Arms.point m' a₀ b₀) rest = found
        rw [hl, hrest] at hnd hs hreach
        obtain ⟨passed, hpassed, hall⟩ := attempt_passes hg.sound hf hbranch hreach
          (List.nodup_cons.1 hnd).2 (fun h => hs (by simp [h])) hstop
        rw [hl, hrest, conditionalsIn_attempt hattempt hstop] at hfound
        obtain ⟨cs', hmore, rfl⟩ := conditionalsIn_more hfound
        by_cases hn : n ∈ m' :: passed
        · have hself : n ∉ g.targets n := by
            rw [Graph.targets_of_simple h.way, List.mem_singleton]
            exact h.outside.1
          have hnm : n ≠ m' := by
            rintro rfl
            cases h.way.symm.trans hbranch
          have hn := List.mem_of_ne_of_mem hnm hn
          refine onArm_of_passed (hreach m' (by simp)) hbranch h.way (fun hns => hs ?_)
            (hall n hn hself)
          simp [← hns, hpassed, hn]
        · rw [hpassed] at hrest
          obtain ⟨before', hbefore'⟩ := exists_append_of_not_mem hrest hn
          refine behind ?_ hbefore' hmore fun c hc => hmissed c (List.mem_append_right _ hc)
          rw [hrest]
          exact (List.sublist_append_right passed found.2).cons m'
      · rw [hl, hrest, conditionalsIn_apart hattempt hmq, ← hrest] at hfound
        exact behind (List.Sublist.refl _) rfl hfound hmissed

end FlowGraph

end ScriptRecovery
