import Mathlib.Algebra.Order.BigOperators.Group.List
import Mathlib.Algebra.Order.Group.Nat
import Mathlib.Data.Nat.Init
import ScriptRecovery.Proofs.Flow.Traces
import ScriptRecovery.Proofs.Reduce.Flat
import ScriptRecovery.Proofs.Reduce.Held

/-!
# Flat streams

A stream is flat when control only goes forward and the two arms of every branch go, through offsets
to which one way leads each, to an offset to which at most two ways lead (`Stream.Flat`).  The graph
of a flat stream is flat (`Built.flat`).

Construction may give an offset a second node, with a plain edge to its own, so an offset to which
one way leads may be passed in two steps.  What carries over are the ways: every edge into the node
of an offset, or the way into the second node that leads there, is how control leaves some offset
for it (`Built.inDegree_le`).

The graph of any stream holds what control gets to (`Built.holds_of_reaches`), and nothing that the
stream cannot read (`Built.read_of_holds`).
-/

namespace ScriptRecovery

/-- How control leaves an offset: for the one place that an action or a jump leads to, or by either
arm of a branch. -/
inductive Way
  | onward | taken | passed

namespace Stream

variable {s : Stream}

/-- Whether control leaves an offset for another one in some way. -/
inductive Leads (s : Stream) : Nat × Way → Nat → Prop
  | action {o next : Nat} {a : Action} : s.readAt? o = some (a, next) → (∀ d, a ≠ .branch d) →
      (∀ d, a ≠ .jump d) → Leads s (o, .onward) next
  | jump {o next t : Nat} {d : Int16} : s.readAt? o = some (.jump d, next) →
      branchTarget next d = some t → Leads s (o, .onward) t
  | taken {o next t : Nat} {d : Int16} : s.readAt? o = some (.branch d, next) →
      branchTarget next d = some t → Leads s (o, .taken) t
  | passed {o next : Nat} {d : Int16} : s.readAt? o = some (.branch d, next) →
      Leads s (o, .passed) next

/-- Control leaves offsets that can be read. -/
theorem Leads.exists_read {w : Nat × Way} {t : Nat} (h : s.Leads w t) :
    ∃ r, s.readAt? w.1 = some r := by
  cases h with
  | action hr | jump hr | taken hr | passed hr => exact ⟨_, hr⟩

/-- Whether an offset leads to another one through offsets to which one way leads each. -/
inductive Arm (s : Stream) (dest : Nat) : Nat → Prop
  | here : Arm s dest dest
  | onward {o t : Nat} {w : Nat × Way} : s.Leads (o, .onward) t → (∀ v, s.Leads v o → v = w) →
      Arm s dest t → Arm s dest o

/-- A stream that goes forward only, in which the two arms of every branch meet where nothing else
leads to. -/
structure Flat (s : Stream) : Prop where
  forward : ∀ {w : Nat × Way} {t : Nat}, s.Leads w t → w.1 < t
  joined : ∀ {o next : Nat} {d : Int16}, s.readAt? o = some (.branch d, next) →
    ∃ t dest w w', branchTarget next d = some t ∧ s.Arm dest t ∧ s.Arm dest next ∧
      ∀ v, s.Leads v dest → v = w ∨ v = w'

/-- Whether control gets to an offset from the first one. -/
inductive Reaches (s : Stream) : Nat → Prop
  | start : Reaches s 0
  | step {w : Nat × Way} {t : Nat} : Reaches s w.1 → s.Leads w t → Reaches s t

/-- What a stream can read lies before some offset. -/
theorem exists_bound (s : Stream) : ∃ b, ∀ {o : Nat} {r : Action × Nat},
    s.readAt? o = some r → o < b := by
  refine ⟨(s.map fun e => e.offset + 1).sum, fun {o r} h => ?_⟩
  obtain ⟨e, he, -⟩ := Option.map_eq_some_iff.1 h
  have hmem : e.offset + 1 ∈ s.map fun e => e.offset + 1 :=
    List.mem_map_of_mem (List.mem_of_find?_eq_some he)
  have ho : e.offset = o := by simpa using List.find?_some he
  have hle := List.le_sum_of_mem hmem
  omega

end Stream

namespace FlowGraph

variable {g : FlowGraph} {s : Stream} {place : Nat → Option Nat}

/-! ## The way out of a node -/

/-- What the way out of the node of an offset may be. -/
inductive Shown (g : FlowGraph) (s : Stream) (place : Nat → Option Nat) (o n : Nat) : Prop
  | ends : g.Ends n → Shown g s place o n
  | branch {next test onTrue onFalse : Nat} {d : Int16} : s.readAt? o = some (.branch d, next) →
      g.node? n = some (.simple ⟨.ifTest, test⟩) →
      g.node? test = some (.branch ⟨.ifTrue, onTrue⟩ ⟨.ifFalse, onFalse⟩) →
      Arrives g.node? g.Ends place onTrue (branchTarget next d) →
      Arrives g.node? g.Ends place onFalse (some next) → Shown g s place o n
  | onward {t m : Nat} {e : Edge} : s.Leads (o, .onward) t → g.node? n = some (.simple ⟨e, m⟩) →
      Arrives g.node? g.Ends place m (some t) →
      e = .plain ∧ place t = some m ∨ (∃ a, e = .action a) →
      Shown g s place o n

theorem Depicts.shown_cases (hg : g.Depicts s place) {o n : Nat} (h : place o = some n) :
    g.Shown s place o n := by
  have hs := hg.shown h
  unfold Shows at hs
  split at hs
  · exact .ends hs
  · next d next hr =>
    obtain ⟨test, onTrue, onFalse, hn, htest, hT, hF⟩ := hs
    exact .branch hr hn htest hT hF
  · next d next hr =>
    split at hs
    · exact .ends hs
    · next t htarget =>
      obtain ⟨m, hn, hplace⟩ := hs
      exact .onward (.jump hr htarget) hn (.inl hplace) (.inl ⟨rfl, hplace⟩)
  · next a next hb hj hr =>
    obtain ⟨m, hn, harrives⟩ := hs
    exact .onward (.action hr hb hj) hn harrives (.inr ⟨a, rfl⟩)

/-- The way out of the node of an action. -/
theorem Depicts.shown_action (hg : g.Depicts s place) {o n next : Nat} {a : Action}
    (h : place o = some n) (hr : s.readAt? o = some (a, next)) (hb : ∀ d, a ≠ .branch d)
    (hj : ∀ d, a ≠ .jump d) : ∃ m, g.node? n = some (.simple ⟨.action a, m⟩) ∧
      Arrives g.node? g.Ends place m (some next) := by
  have hs := hg.shown h
  rw [hr] at hs
  unfold Shows at hs
  split at hs
  · next h => cases h
  · next h =>
    cases h
    exact absurd rfl (hb _)
  · next h =>
    cases h
    exact absurd rfl (hj _)
  · next h =>
    cases h
    exact hs

/-- Where the only way on from an offset arrives. -/
theorem Depicts.shown_onward (hg : g.Depicts s place) {o n t : Nat} (h : place o = some n)
    (hleads : s.Leads (o, .onward) t) : ∃ e m, g.node? n = some (.simple ⟨e, m⟩) ∧
      Arrives g.node? g.Ends place m (some t) := by
  cases hleads with
  | action hr hb hj =>
    obtain ⟨m, hn, harrives⟩ := hg.shown_action h hr hb hj
    exact ⟨_, m, hn, harrives⟩
  | jump hr htarget =>
    have hs := hg.shown h
    simp only [hr, Shows, htarget] at hs
    obtain ⟨m, hn, hplace⟩ := hs
    exact ⟨_, m, hn, .inl hplace⟩

/-! ## Control leaves the graph of a stream that goes forward -/

theorem acc_of_arrives {n o : Nat} (h : Arrives g.node? g.Ends place n (some o))
    (hplaced : ∀ {k : Nat}, place o = some k → Acc g.Next k) : Acc g.Next n := by
  rcases h with h | ⟨k, hk, h, -⟩
  · exact hplaced h
  · exact Graph.acc_of_simple hk (hplaced h)

theorem acc_of_ends {n : Nat} (h : g.Ends n) : Acc g.Next n := by
  obtain ⟨e, he, hd⟩ := h
  refine Graph.acc_of_simple he ⟨_, fun y hy => ?_⟩
  simp [Graph.Next, Graph.targets_of_node? hd, Node.targets, Node.links] at hy

/-- Every way from the node of an offset ends, when control only goes forward. -/
theorem Depicts.acc (hg : g.Depicts s place)
    (hforward : ∀ {w : Nat × Way} {t : Nat}, s.Leads w t → w.1 < t) {o n : Nat}
    (h : place o = some n) : Acc g.Next n := by
  obtain ⟨b, hb⟩ := s.exists_bound
  induction hk : b - o using Nat.strong_induction_on generalizing o n with
  | _ k ih =>
    -- the next offset is closer to the bound
    have hnext : ∀ {way : Way} {t m : Nat}, s.Leads (o, way) t →
        Arrives g.node? g.Ends place m (some t) → Acc g.Next m := by
      intro way t m hleads hm
      have hlt : o < t := hforward hleads
      obtain ⟨r, hr⟩ := hleads.exists_read
      have hbound := hb hr
      exact acc_of_arrives hm fun hk' => ih (b - t) (by omega) hk' rfl
    cases hg.shown_cases h with
    | ends hn => exact acc_of_ends hn
    | @branch next test onTrue onFalse d hr hn htest hT hF =>
      refine Graph.acc_of_simple hn ⟨_, fun y hy => ?_⟩
      have hy : y = onTrue ∨ y = onFalse := by
        simpa [Graph.Next, Graph.targets_of_node? htest, Node.targets, Node.links] using hy
      rcases hy with rfl | rfl
      · cases htarget : branchTarget next d with
        | none =>
          rw [htarget] at hT
          exact acc_of_ends hT
        | some t =>
          rw [htarget] at hT
          exact hnext (.taken hr htarget) hT
      · exact hnext (.passed hr) hF
    | onward hleads hn hm _ => exact Graph.acc_of_simple hn (hnext hleads hm)

/-! ## Ways and edges -/

/-- The edge by which control leaves an offset in some way. -/
inductive Departs (g : FlowGraph) (place : Nat → Option Nat) : Nat × Way → Nat → Link Edge → Prop
  | onward {o n : Nat} {l : Link Edge} : place o = some n → g.node? n = some (.simple l) →
      Departs g place (o, .onward) n l
  | taken {o n p : Nat} {a b : Link Edge} : place o = some n →
      g.node? n = some (.simple ⟨.ifTest, p⟩) → g.node? p = some (.branch a b) →
      Departs g place (o, .taken) p a
  | passed {o n p : Nat} {a b : Link Edge} : place o = some n →
      g.node? n = some (.simple ⟨.ifTest, p⟩) → g.node? p = some (.branch a b) →
      Departs g place (o, .passed) p b

theorem Departs.unique {w : Nat × Way} {x x' : Nat} {l l' : Link Edge}
    (h : g.Departs place w x l) (h' : g.Departs place w x' l') : x = x' ∧ l = l' := by
  cases h with
  | onward hp hn =>
    cases h' with
    | onward hp' hn' =>
      cases hp.symm.trans hp'
      cases hn.symm.trans hn'
      exact ⟨rfl, rfl⟩
  | taken hp hn hb =>
    cases h' with
    | taken hp' hn' hb' =>
      cases hp.symm.trans hp'
      cases hn.symm.trans hn'
      cases hb.symm.trans hb'
      exact ⟨rfl, rfl⟩
  | passed hp hn hb =>
    cases h' with
    | passed hp' hn' hb' =>
      cases hp.symm.trans hp'
      cases hn.symm.trans hn'
      cases hb.symm.trans hb'
      exact ⟨rfl, rfl⟩

/-- What an edge of the graph of a stream stands for. -/
inductive Drawn (g : FlowGraph) (s : Stream) (place : Nat → Option Nat) (x : Nat) (l : Link Edge) :
    Prop
  /-- The way from an offset to the next. -/
  | departs {w : Nat × Way} {t : Nat} : s.Leads w t → g.Departs place w x l →
      Arrives g.node? g.Ends place l.dest (some t) → (l.edge = .plain → place t = some l.dest) →
      Drawn g s place x l
  /-- The way from a second node of an offset to the one that is its place. -/
  | moved {t : Nat} : g.node? x = some (.simple ⟨.plain, l.dest⟩) → place t = some l.dest →
      (∀ o, place o ≠ some x) → Drawn g s place x l
  /-- The way to a test. -/
  | test {a b : Link Edge} : g.node? l.dest = some (.branch a b) → Drawn g s place x l
  /-- The way to the end. -/
  | ended : g.node? l.dest = some .done → Drawn g s place x l

/-- The graph of a stream, with all that construction makes sure of. -/
structure Built (g : FlowGraph) (s : Stream) (place : Nat → Option Nat) : Prop
    extends g.Depicts s place where
  sound : g.Sound
  tested : g.Tested
  drawn : ∀ n node, g.node? n = some node → IsDrawn node

namespace Built

variable {x : Nat} {l : Link Edge}

/-- A reachable node is where the graph is while the stream is somewhere. -/
theorem follows (hg : g.Built s place) (hx : g.Reachable x) : ∃ t, g.Follows s place x t := by
  refine hx.mem_of_closed (p := fun x => ∃ t, g.Follows s place x t)
    ⟨some 0, .arrived (.inl hg.start)⟩ ?_
  rintro x ⟨t, ht⟩ y hy hlt
  obtain ⟨node, hnode⟩ : ∃ node, g.node? x = some node := by
    cases h : g.node? x with
    | none => simp [Graph.targets, show g.nodes[x]? = none from h] at hy
    | some node => exact ⟨node, rfl⟩
  rw [Graph.targets_of_node? hnode] at hy
  obtain ⟨l, hl, rfl⟩ := List.mem_map.1 hy
  have hkind : l.edge.isSilent = true ∨ ∃ label, l.edge.label? = some label := by
    rcases (hg.drawn x node hnode).edge_cases hl with h | ⟨a, h⟩ | h | h | h <;>
      simp [h, Edge.isSilent, Edge.label?]
  rcases hkind with hsilent | ⟨label, hlabel⟩
  · obtain ⟨t', -, h⟩ := hg.follow_silent ht ⟨node, l, hnode, hl, hsilent, rfl⟩
    exact ⟨t', h⟩
  · obtain ⟨t', -, h⟩ := hg.follow_emits ht ⟨node, l, hnode, hl, hlabel, rfl⟩
    exact ⟨t', h⟩

/-- A test that is reachable is that of a branch. -/
theorem test_cases (hg : g.Built s place) {a b : Link Edge} (hx : g.Reachable x)
    (hbranch : g.node? x = some (.branch a b)) : ∃ o n next d, place o = some n ∧
      g.node? n = some (.simple ⟨.ifTest, x⟩) ∧ s.readAt? o = some (.branch d, next) ∧
      Arrives g.node? g.Ends place a.dest (branchTarget next d) ∧
      Arrives g.node? g.Ends place b.dest (some next) := by
  have hs : x ≠ g.source := by
    rintro rfl
    have harrives : Arrives g.node? g.Ends place g.source (some 0) := .inl hg.start
    obtain ⟨out, hout⟩ := hg.simple_of_arrives harrives
    cases hout.symm.trans hbranch
  obtain ⟨n, hn, hnx⟩ := hx.exists_pred hs
  have hnode := hg.tested.only hn hnx hbranch
  obtain ⟨t, ht⟩ := hg.follows hn
  cases ht with
  | testing h => cases h.symm.trans hnode
  | ended h => cases h.symm.trans hnode
  | arrived h =>
    cases t with
    | none =>
      obtain ⟨e, he, -⟩ := h
      cases he.symm.trans hnode
    | some o =>
      rcases h with h | ⟨k, hk, -⟩
      · cases hg.shown_cases h with
        | ends hn =>
          obtain ⟨e, he, -⟩ := hn
          cases he.symm.trans hnode
        | @branch next test onTrue onFalse d hr hn htest hT hF =>
          cases hn.symm.trans hnode
          cases htest.symm.trans hbranch
          exact ⟨o, n, next, d, h, hnode, hr, hT, hF⟩
        | onward _ hn _ hkind =>
          cases hn.symm.trans hnode
          simp at hkind
      · cases hk.symm.trans hnode

/-- What an edge of a node that is not a test stands for. -/
theorem drawn_simple (hg : g.Built s place) (hx : g.Reachable x)
    (hnode : g.node? x = some (.simple l)) : g.Drawn s place x l := by
  obtain ⟨t, ht⟩ := hg.follows hx
  have hstop : g.Ends x → g.Drawn s place x l := by
    rintro ⟨e, he, hd⟩
    cases he.symm.trans hnode
    exact .ended hd
  cases ht with
  | testing h => cases h.symm.trans hnode
  | ended h => cases h.symm.trans hnode
  | arrived h =>
    cases t with
    | none => exact hstop h
    | some o =>
      rcases h with h | ⟨k, hk, hplace, hfree⟩
      · cases hg.shown_cases h with
        | ends hn => exact hstop hn
        | branch _ hn htest =>
          cases hn.symm.trans hnode
          exact .test htest
        | onward hleads hn harrives hkind =>
          cases hn.symm.trans hnode
          refine .departs hleads (.onward h hnode) harrives fun hplain => ?_
          rcases hkind with ⟨-, hplace⟩ | ⟨a, ha⟩
          · exact hplace
          · cases ha.symm.trans hplain
      · cases hk.symm.trans hnode
        exact .moved hk hplace hfree

/-- Every edge stands for something. -/
theorem drawn_link (hg : g.Built s place) (hs : s.Flat) {node : Node Edge} (hx : g.Reachable x)
    (hnode : g.node? x = some node) (hl : l ∈ node.links) : g.Drawn s place x l := by
  cases node with
  | pending | done => simp [Node.links] at hl
  | simple out =>
    obtain rfl : l = out := by simpa [Node.links] using hl
    exact hg.drawn_simple hx hnode
  | branch a b =>
    obtain ⟨o, n, next, d, hplace, hn, hr, hT, hF⟩ := hg.test_cases hx hnode
    obtain ⟨ha, hb, -⟩ := hg.drawn x _ hnode
    have hl : l = a ∨ l = b := by simpa [Node.links] using hl
    rcases hl with rfl | rfl
    · obtain ⟨t, -, -, -, ht, -⟩ := hs.joined hr
      rw [ht] at hT
      exact .departs (.taken hr ht) (.taken hplace hn hnode) hT (by simp [ha])
    · exact .departs (.passed hr) (.passed hplace hn hnode) hF (by simp [hb])

/-- The nodes of offsets and those that lead on to them have one way out. -/
theorem placed_simple (hg : g.Built s place) {o : Nat} (h : place o = some x) :
    ∃ l, g.node? x = some (.simple l) := by
  have harrives : Arrives g.node? g.Ends place x (some o) := .inl h
  exact hg.simple_of_arrives harrives

/-- What leads to a second node of an offset is a way to that offset. -/
theorem departs_of_moved (hg : g.Built s place) (hs : s.Flat) {k y o : Nat} {node : Node Edge}
    (hx : g.node? x = some (.simple ⟨.plain, k⟩)) (hk : place o = some k)
    (hfree : ∀ o, place o ≠ some x) (hy : g.Reachable y) (hnode : g.node? y = some node)
    (hl : l ∈ node.links) (hlx : l.dest = x) :
    ∃ w, s.Leads w o ∧ g.Departs place w y l ∧ l.edge ≠ .plain := by
  subst hlx
  cases hg.drawn_link hs hy hnode hl with
  | @departs w t hleads hdeparts harrives hplain =>
    rcases harrives with h | ⟨m, hm, hp, -⟩
    · exact absurd h (hfree t)
    · cases hm.symm.trans hx
      obtain rfl := hg.inj hp hk
      exact ⟨w, hleads, hdeparts, fun h => hfree _ (hplain h)⟩
  | moved _ h _ => exact absurd h (hfree _)
  | test h => cases h.symm.trans hx
  | ended h => cases h.symm.trans hx

/-- One node leads to a second node of an offset. -/
theorem inDegree_moved (hg : g.Built s place) (hs : s.Flat) {k o : Nat} (hreach : g.Reachable x)
    (hx : g.node? x = some (.simple ⟨.plain, k⟩)) (hk : place o = some k)
    (hfree : ∀ o, place o ≠ some x) : g.inDegree x = 1 := by
  have hne : x ≠ g.source := fun h => hfree 0 (h ▸ hg.start)
  have hpos := hg.sound.inDegree_pos hreach hne
  have hlink : ∀ {m : Nat}, m ∈ g.predecessors x → ∃ node l, g.node? m = some node ∧
      l ∈ node.links ∧ l.dest = x ∧ l.edge ≠ .plain := by
    intro m hm
    obtain ⟨hm, hmx⟩ := hg.sound.index.1 hm
    obtain ⟨e, he, hdest⟩ := Graph.mem_outEdges_of_targets hmx
    obtain ⟨node, l, hnode, hl, rfl⟩ := Graph.mem_outEdges.1 he
    obtain ⟨w, -, -, hplain⟩ := hg.departs_of_moved hs hx hk hfree hm hnode hl hdest
    exact ⟨node, l, hnode, hl, hdest, hplain⟩
  have hle : g.inDegree x ≤ 1 := by
    refine Graph.inDegree_le_length [()] (fun m _ => m ∈ g.predecessors x)
      (fun m hm => ⟨(), by simp, hm⟩) fun {m m'} _ hm hm' => ?_
    obtain ⟨node, l, hnode, hl, hdest, hplain⟩ := hlink hm
    obtain ⟨node', l', hnode', hl', hdest', hplain'⟩ := hlink hm'
    exact hg.own hnode hnode' hl hl' hplain hplain' (hdest.trans hdest'.symm)
  exact Nat.le_antisymm hle hpos

/-- At most as many nodes lead to the node of an offset as ways to the offset. -/
theorem inDegree_le (hg : g.Built s place) (hs : s.Flat) {k o : Nat} (hk : place o = some k)
    (ws : List (Nat × Way)) (hws : ∀ w, s.Leads w o → w ∈ ws) : g.inDegree k ≤ ws.length := by
  have : Nonempty (Nat × Way) := ⟨(0, .onward)⟩
  obtain ⟨out, hout⟩ := hg.placed_simple hk
  -- a way to the offset ends at its node or at a second node of the offset
  refine Graph.inDegree_le_length ws (fun m w => ∃ y l, g.Departs place w y l ∧
    (l.dest = k ∧ m = y ∨ l.dest ≠ k ∧ m = l.dest)) (fun m hm => ?_) ?_
  · obtain ⟨hreach, hmk⟩ := hg.sound.index.1 hm
    obtain ⟨e, he, hdest⟩ := Graph.mem_outEdges_of_targets hmk
    obtain ⟨node, l, hnode, hl, rfl⟩ := Graph.mem_outEdges.1 he
    have hdest : l.dest = k := hdest
    subst hdest
    cases hg.drawn_link hs hreach hnode hl with
    | @departs w t hleads hdeparts harrives _ =>
      rcases harrives with h | ⟨_, _, _, hfree⟩
      · obtain rfl := hg.inj h hk
        exact ⟨w, hws w hleads, m, l, hdeparts, .inl ⟨rfl, rfl⟩⟩
      · exact absurd hk (hfree o)
    | moved hx hp hfree =>
      have hne : m ≠ g.source := fun h => hfree 0 (h ▸ hg.start)
      obtain ⟨y, hy, hym⟩ := hreach.exists_pred hne
      obtain ⟨e', he', hdest'⟩ := Graph.mem_outEdges_of_targets hym
      obtain ⟨node', l', hnode', hl', rfl⟩ := Graph.mem_outEdges.1 he'
      obtain ⟨w, hleads, hdeparts, -⟩ := hg.departs_of_moved hs hx hk hfree hy hnode' hl' hdest'
      have hdest' : l'.dest = m := hdest'
      refine ⟨w, hws w hleads, y, l', hdeparts, .inr ⟨fun h => ?_, hdest'.symm⟩⟩
      exact hfree o (hk.trans (congrArg some (h.symm.trans hdest')))
    | test h => cases h.symm.trans hout
    | ended h => cases h.symm.trans hout
  · rintro m m' w ⟨y, l, h, hm⟩ ⟨y', l', h', hm'⟩
    obtain ⟨rfl, rfl⟩ := h.unique h'
    rcases hm with ⟨hd, rfl⟩ | ⟨hd, rfl⟩ <;> rcases hm' with ⟨hd', rfl⟩ | ⟨hd', rfl⟩
    · rfl
    · exact absurd hd hd'
    · exact absurd hd' hd
    · rfl

/-! ## Arms -/

/-- Where control arrives for an offset, it comes by the node of the offset. -/
theorem placed_of_arrives (hg : g.Built s place) {n o : Nat} (hn : g.Reachable n)
    (h : Arrives g.node? g.Ends place n (some o)) : ∃ k, place o = some k ∧ g.Reachable k := by
  rcases h with h | ⟨k, hk, h, -⟩
  · exact ⟨n, h, hn⟩
  · exact ⟨k, h, hg.sound.reachable_target hn (by simp [hk])⟩

/-- A way that is narrow from the node of an offset is narrow from where control arrives there. -/
theorem narrow_of_arrives (hg : g.Built s place) (hs : s.Flat) {j n o : Nat} (hn : g.Reachable n)
    (h : Arrives g.node? g.Ends place n (some o))
    (hplaced : ∀ k, place o = some k → g.Reachable k → ∃ ns, g.Narrow j k ns) :
    ∃ ns, g.Narrow j n ns := by
  rcases h with h | ⟨k, hk, h, hfree⟩
  · exact hplaced n h hn
  · obtain ⟨ns, hns⟩ := hplaced k h (hg.sound.reachable_target hn (by simp [hk]))
    exact ⟨n :: ns, .step (hg.inDegree_moved hs hn hk h hfree) hk hns⟩

/-- The arms of a stream that goes forward are narrow in its graph. -/
theorem narrow_of_arm (hg : g.Built s place) (hs : s.Flat) {dest o : Nat} (h : s.Arm dest o) :
    ∀ {n : Nat}, 0 < o → g.Reachable n → Arrives g.node? g.Ends place n (some o) →
      ∃ j ns, place dest = some j ∧ g.Narrow j n ns := by
  induction h with
  | here =>
    intro n _ hn harrives
    obtain ⟨j, hj, -⟩ := hg.placed_of_arrives hn harrives
    refine ⟨j, ?_⟩
    obtain ⟨ns, hns⟩ := hg.narrow_of_arrives hs (j := j) hn harrives fun k hk _ => by
      cases hk.symm.trans hj
      exact ⟨[], .done⟩
    exact ⟨ns, hj, hns⟩
  | @onward o t w hleads hone _ ih =>
    intro n hpos hn harrives
    have hlt : o < t := hs.forward hleads
    obtain ⟨k, hk, hkreach⟩ := hg.placed_of_arrives hn harrives
    obtain ⟨e, m, hnode, hm⟩ := hg.shown_onward hk hleads
    obtain ⟨j, ns, hj, hns⟩ :=
      ih (by omega) (hg.sound.reachable_target hkreach (by simp [hnode])) hm
    have honek : g.inDegree k = 1 := by
      have hle := hg.inDegree_le hs hk [w] fun v hv => by simp [hone v hv]
      have hne : k ≠ g.source := by
        rintro rfl
        have := hg.inj hk hg.start
        omega
      exact Nat.le_antisymm hle (hg.sound.inDegree_pos hkreach hne)
    obtain ⟨ns', hns'⟩ := hg.narrow_of_arrives hs (j := j) hn harrives fun k' hk' _ => by
      cases hk'.symm.trans hk
      exact ⟨k :: ns, .step honek hnode hns⟩
    exact ⟨j, ns', hj, hns'⟩

/-- The graph of a flat stream is flat. -/
theorem flat (hg : g.Built s place) (hs : s.Flat) : g.Flat where
  terminates := hg.acc hs.forward hg.start
  joined {p a b} hp hbranch := by
    obtain ⟨o, n, next, d, hplace, hn, hr, hT, hF⟩ := hg.test_cases hp hbranch
    obtain ⟨t, dest, w, w', htarget, harm, harm', hjoin⟩ := hs.joined hr
    rw [htarget] at hT
    have ht : o < t := hs.forward (.taken hr htarget)
    have hnext : o < next := hs.forward (.passed hr)
    have htargets : g.targets p = [a.dest, b.dest] := by
      simp [Graph.targets_of_node? hbranch, Node.targets, Node.links]
    have hreach : ∀ m ∈ [a.dest, b.dest], g.Reachable m := fun m hm =>
      hg.sound.reachable_target hp (htargets ▸ hm)
    obtain ⟨j, ns, hj, hns⟩ := hg.narrow_of_arm hs harm (by omega)
      (hreach _ (by simp)) hT
    obtain ⟨j', ns', hj', hns'⟩ := hg.narrow_of_arm hs harm' (by omega)
      (hreach _ (by simp)) hF
    cases hj.symm.trans hj'
    refine ⟨j, ns, ns', hns, hns', ?_⟩
    exact hg.inDegree_le hs hj [w, w'] fun v hv => by simpa using hjoin v hv

/-! ## The actions of a graph -/

/-- Where control arrives from the node of an offset. -/
theorem arrives_of_leads (hg : g.Built s place) {w : Nat × Way} {t n : Nat}
    (hw : place w.1 = some n) (hn : g.Reachable n) (h : s.Leads w t) :
    ∃ m, g.Reachable m ∧ Arrives g.node? g.Ends place m (some t) := by
  have honward : ∀ {o t : Nat}, place o = some n → s.Leads (o, .onward) t →
      ∃ m, g.Reachable m ∧ Arrives g.node? g.Ends place m (some t) := by
    intro o t ho hleads
    obtain ⟨e, m, hnode, hm⟩ := hg.shown_onward ho hleads
    exact ⟨m, hg.sound.reachable_target hn (by simp [hnode]), hm⟩
  have hbranch : ∀ {o next : Nat} {d : Int16}, place o = some n →
      s.readAt? o = some (.branch d, next) → ∃ m m', g.Reachable m ∧ g.Reachable m' ∧
        Arrives g.node? g.Ends place m (branchTarget next d) ∧
        Arrives g.node? g.Ends place m' (some next) := by
    intro o next d ho hr
    have hs := hg.shown ho
    rw [hr] at hs
    obtain ⟨test, m, m', hnode, htest, hT, hF⟩ := hs
    have htests : g.Reachable test := hg.sound.reachable_target hn (by simp [hnode])
    have htargets : g.targets test = [m, m'] := by
      simp [Graph.targets_of_node? htest, Node.targets, Node.links]
    exact ⟨m, m', hg.sound.reachable_target htests (by simp [htargets]),
      hg.sound.reachable_target htests (by simp [htargets]), hT, hF⟩
  cases h with
  | action hr hb hj => exact honward hw (.action hr hb hj)
  | jump hr htarget => exact honward hw (.jump hr htarget)
  | taken hr htarget =>
    obtain ⟨m, -, hm, -, hT, -⟩ := hbranch hw hr
    exact ⟨m, hm, htarget ▸ hT⟩
  | passed hr =>
    obtain ⟨-, m, -, hm, -, hF⟩ := hbranch hw hr
    exact ⟨m, hm, hF⟩

/-- The node of every offset that control gets to is reachable. -/
theorem placed_of_reaches (hg : g.Built s place) {o : Nat} (h : s.Reaches o) :
    ∃ n, place o = some n ∧ g.Reachable n := by
  induction h with
  | start => exact ⟨g.source, hg.start, hg.sound.reachable_source⟩
  | step _ hleads ih =>
    obtain ⟨n, hplace, hn⟩ := ih
    obtain ⟨m, hm, harrives⟩ := hg.arrives_of_leads hplace hn hleads
    exact hg.placed_of_arrives hm harrives

/-- A graph holds what its stream can read. -/
theorem read_of_holds (hg : g.Built s place) {a : Action} (h : g.Holds a) :
    (∃ o next, s.readAt? o = some (a, next)) ∧ (∀ d, a ≠ .branch d) ∧ ∀ d, a ≠ .jump d := by
  obtain ⟨n, node, l, hn, hnode, hl, hholds⟩ := h
  obtain ⟨t, ht⟩ := hg.follows hn
  have hedge : l.edge = .action a := by
    rcases (hg.drawn n node hnode).edge_cases hl with h | ⟨a', h⟩ | h | h | h <;>
      rw [h] at hholds ⊢ <;> cases hholds
    rfl
  obtain ⟨t', hemits, -⟩ := hg.follow_emits ht ⟨node, l, hnode, hl, by rw [hedge]; rfl, rfl⟩
  cases hemits with
  | action hr hb hj => exact ⟨⟨_, _, hr⟩, hb, hj⟩

/-- A graph holds the actions that control gets to. -/
theorem holds_of_reaches (hg : g.Built s place) {o next : Nat} {a : Action} (h : s.Reaches o)
    (hr : s.readAt? o = some (a, next)) (hb : ∀ d, a ≠ .branch d) (hj : ∀ d, a ≠ .jump d) :
    g.Holds a := by
  obtain ⟨n, hplace, hn⟩ := hg.placed_of_reaches h
  obtain ⟨m, hnode, -⟩ := hg.shown_action hplace hr hb hj
  exact ⟨n, _, ⟨.action a, m⟩, hn, hnode, by simp [Node.links], .action⟩

end Built

/-- A graph as it is built from a stream. -/
theorem built_ofStream (h : ofStream s = .ok g) : ∃ place, g.Built s place := by
  obtain ⟨g', place, hg', hsound, hdepicts, htested, hdrawn⟩ := depicts_ofStream s
  cases hg'.symm.trans h
  exact ⟨place, hdepicts, hsound, htested, hdrawn⟩

end FlowGraph

end ScriptRecovery
