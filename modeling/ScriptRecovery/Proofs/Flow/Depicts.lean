import ScriptRecovery.Flow.Build
import ScriptRecovery.Proofs.Flow.Drafts

/-!
# What the graph of a stream depicts

The finished graph of a stream places offset zero at its entry, and every placed offset is shown at
its node (`FlowGraph.Depicts`).  `depicts_ofStream` proves it for every stream, and with it that
construction never fails and that a test edge alone leads to its test (`FlowGraph.Tested`).

A round of reading keeps `Draft.Sound`.  That the rounds come to an end is an induction on the
entries left.  An entry is taken out of the stream when its offset is read, so what carries the
induction is that the entries left still answer for the offsets that wait or have no node
(`Draft.Unread`).  Closing gives the nodes without a way out an end of their own and leaves all
others as they are.
-/

namespace ScriptRecovery

namespace FlowGraph

namespace Draft

variable {s : Stream} {d : Draft}

/-! ## Reading -/

/-- Whether an offset waits to be read, or has no node. -/
def Unread (d : Draft) (o : Nat) : Prop := o ∈ d.todo ∨ d.nodeOf? o = none

theorem unread_found {k o o' : Nat} (ho : d.nodeOf? o = none) (h : (d.found k o).Unread o') :
    d.Unread o' := by
  rcases h with h | h
  · rcases List.mem_cons.1 h with rfl | h
    · exact .inr ho
    · exact .inl h
  · rw [nodeOf?_found] at h
    split at h
    · cases h
    · exact .inr h

theorem unread_resolve {k o : Nat} {target : Option Nat} (h : (d.resolve k target).Unread o) :
    d.Unread o := by
  unfold resolve at h
  split at h
  · exact h
  · split at h
    · exact h
    · next ho => exact unread_found ho h

/-- A step gives no offset back. -/
theorem unread_step {k o next : Nat} {action : Action} (h : (d.step k action next).Unread o) :
    d.Unread o := by
  unfold step at h
  split at h
  · next displacement =>
    let test := d.nodes.size
    change (((d.grow.grow.grow.branchAt k test (test + 1) (test + 2)).resolve (test + 2)
      (some next)).resolve (test + 1) (branchTarget next displacement)).Unread o at h
    exact unread_resolve (d := d.grow.grow.grow.branchAt k _ _ _) (unread_resolve h)
  · split at h
    · exact h
    · split at h
      · exact h
      · next ho => exact unread_found (d := d.grow) ho h
  · exact unread_resolve (d := d.grow.connect k _ _) h

theorem entryAt?_without {entries : Stream} {o o' : Nat} (h : o' ≠ o) :
    (entries.without o).entryAt? o' = entries.entryAt? o' := by
  unfold Stream.without Stream.entryAt?
  rw [List.find?_filter]
  congr 1
  funext e
  by_cases he : e.offset = o'
  · simp [he, h]
  · simp [he]

section Equations

variable {entries : Stream} {reader : Nat → Option (Action × Nat)} {o k : Nat} {todo : List Nat}

theorem read_nil (ht : d.todo = []) : d.read entries = d := by
  rw [read]
  split
  · rfl
  · next ht' => cases ht.symm.trans ht'

theorem read_cons {entry : Stream.Entry} (ht : d.todo = o :: todo)
    (he : entries.entryAt? o = some entry)
    (hk : d.nodeOf? o = some k) : d.read entries =
      (({ d with todo } : Draft).step k entry.action entry.next).read (entries.without o) := by
  rw [read]
  split
  · next ht' => cases ht'.symm.trans ht
  · next ht' =>
    obtain ⟨rfl, rfl⟩ := List.cons.inj (ht.symm.trans ht')
    split
    · next he' hk' =>
      obtain rfl := Option.some.inj (he.symm.trans he')
      obtain rfl := Option.some.inj (hk.symm.trans hk')
      rfl
    · next hno => exact absurd hk (hno _ _ he)

theorem read_skip (ht : d.todo = o :: todo) (he : entries.entryAt? o = none) :
    d.read entries = ({ d with todo } : Draft).read entries := by
  rw [read]
  split
  · next ht' => cases ht'.symm.trans ht
  · next ht' =>
    obtain ⟨rfl, rfl⟩ := List.cons.inj (ht.symm.trans ht')
    split
    · next he' _ => cases he.symm.trans he'
    · rfl

theorem turn_nil (ht : d.todo = []) : d.turn reader = d := by
  rw [turn, ht]

theorem turn_cons {action : Action} {next : Nat} (ht : d.todo = o :: todo)
    (hk : d.nodeOf? o = some k) (hr : reader o = some (action, next)) :
    d.turn reader = ({ d with todo } : Draft).step k action next := by
  rw [turn, ht]
  dsimp only
  rw [hk, hr]

theorem turn_skip (ht : d.todo = o :: todo) (hk : d.nodeOf? o = some k) (hr : reader o = none) :
    d.turn reader = { d with todo } := by
  rw [turn, ht]
  dsimp only
  rw [hk, hr]

end Equations

/-- A round keeps a draft sound. -/
theorem Sound.turn (h : d.Sound s [] []) : (d.turn s.readAt?).Sound s [] [] := by
  cases ht : d.todo with
  | nil => rwa [turn_nil ht]
  | cons o todo =>
    have htake := h.take ht
    have hnd := h.todo_nodup
    rw [ht, List.nodup_cons] at hnd
    obtain ⟨-, k, hk, hp⟩ := h.todo_placed (o := o) (by simp [ht])
    cases hr : s.readAt? o with
    | some r =>
      rw [turn_cons ht hk hr]
      exact htake.step hk hp hr
    | none =>
      rw [turn_skip ht hk hr]
      refine htake.finish fun n hn => ?_
      obtain rfl : k = n := Option.some.inj (hk.symm.trans hn)
      rw [hr]
      refine ⟨hp, by simp, ?_⟩
      rintro o' (ho' | ho') hk'
      · obtain rfl := h.placed_inj hk' hk
        exact hnd.1 ho'
      · simp at ho'

theorem Sound.turns (h : d.Sound s [] []) (rounds : Nat) :
    (d.turns s.readAt? rounds).Sound s [] [] := by
  induction rounds generalizing d with
  | zero => exact h
  | succ rounds ih => exact ih h.turn

/-- The rounds of the loop come to an end, with what reading from the entries left gives. -/
theorem Sound.exists_turns {entries : Stream} (h : d.Sound s [] [])
    (he : ∀ o, d.Unread o → entries.entryAt? o = s.entryAt? o) :
    ∃ rounds, d.turns s.readAt? rounds = d.read entries ∧ (d.read entries).todo = [] := by
  induction d, entries using Draft.read.induct with
  | case1 d entries ht => exact ⟨0, (read_nil ht).symm, by rwa [read_nil ht]⟩
  | case2 d entries o todo ht d' entry node hentry hnode ih =>
    have hr : s.readAt? o = some (entry.action, entry.next) := by
      rw [Stream.readAt?, ← he o (.inl (by simp [ht])), hentry]
      rfl
    have hturn : d.turn s.readAt? = d'.step node entry.action entry.next := turn_cons ht hnode hr
    -- the offset that is read has a node and waits no longer
    have hnext : ∀ o', (d'.step node entry.action entry.next).Unread o' →
        (entries.without o).entryAt? o' = s.entryAt? o' := by
      intro o' ho'
      have ho' : d'.Unread o' := unread_step ho'
      have hnd := h.todo_nodup
      rw [ht, List.nodup_cons] at hnd
      have hne : o' ≠ o := by
        rintro rfl
        rcases ho' with ho' | ho'
        · exact hnd.1 ho'
        · cases (show d.nodeOf? o' = none from ho').symm.trans hnode
      rw [entryAt?_without hne]
      refine he o' (ho'.imp (fun ho' => ?_) id)
      rw [ht]
      exact List.mem_cons_of_mem _ ho'
    obtain ⟨rounds, hrounds, htodo⟩ := ih (hturn ▸ h.turn) hnext
    rw [read_cons ht hentry hnode]
    exact ⟨rounds + 1, by rw [Draft.turns, hturn, hrounds], htodo⟩
  | case3 d entries o todo ht d' hno ih =>
    obtain ⟨-, k, hk, -⟩ := h.todo_placed (o := o) (by simp [ht])
    have hentry : entries.entryAt? o = none :=
      Option.eq_none_iff_forall_ne_some.2 fun entry hentry => hno entry k hentry hk
    have hr : s.readAt? o = none := by
      rw [Stream.readAt?, ← he o (.inl (by simp [ht])), hentry]
      rfl
    have hturn : d.turn s.readAt? = d' := turn_skip ht hk hr
    have hnext : ∀ o', d'.Unread o' → entries.entryAt? o' = s.entryAt? o' := by
      intro o' ho'
      refine he o' (ho'.imp (fun ho' => ?_) id)
      rw [ht]
      exact List.mem_cons_of_mem _ ho'
    obtain ⟨rounds, hrounds, htodo⟩ := ih (hturn ▸ h.turn) hnext
    rw [read_skip ht hentry]
    exact ⟨rounds + 1, by rw [Draft.turns, hturn, hrounds], htodo⟩

/-- Reading shows every offset found. -/
theorem Sound.read {entries : Stream} (h : d.Sound s [] [])
    (he : ∀ o, d.Unread o → entries.entryAt? o = s.entryAt? o) :
    (d.read entries).Sound s [] [] ∧ (d.read entries).todo = [] := by
  obtain ⟨rounds, hrounds, htodo⟩ := h.exists_turns he
  exact ⟨hrounds ▸ h.turns rounds, htodo⟩

/-! ## Closing -/

/-- Closing puts the ends behind the nodes, in the order of the nodes that lead to them. -/
theorem foldl_close {nodes : Array (Node Edge)} {ns : List Nat} (hnd : ns.Nodup)
    (hlt : ∀ n ∈ ns, n < nodes.size) {r : Array (Node Edge)}
    (hr : r = ns.foldl (fun nodes node =>
      (nodes.setIfInBounds node (.simple ⟨.plain, nodes.size⟩)).push .done) nodes) :
    r.size = nodes.size + ns.length ∧ (∀ n < nodes.size, n ∉ ns → r[n]? = nodes[n]?) ∧
      (∀ i n : Nat, ns[i]? = some n → r[n]? = some (.simple ⟨.plain, nodes.size + i⟩)) ∧
      ∀ n, nodes.size ≤ n → n < r.size → r[n]? = some .done := by
  induction ns generalizing nodes with
  | nil =>
    obtain rfl : r = nodes := hr
    exact ⟨rfl, fun _ _ _ => rfl, by simp, fun n h h' => absurd h' (by omega)⟩
  | cons k ns ih =>
    rw [List.nodup_cons] at hnd
    have hk : k < nodes.size := hlt k (by simp)
    set next := (nodes.setIfInBounds k (.simple ⟨.plain, nodes.size⟩)).push .done with hnext
    have hsize : next.size = nodes.size + 1 := by simp [hnext]
    have hlt' : ∀ n ∈ ns, n < next.size := fun n hn => by
      have := hlt n (by simp [hn])
      omega
    obtain ⟨hlength, hkeep, hend, hdone⟩ := ih hnd.2 hlt' hr
    have hlast : next[nodes.size]? = some .done := by
      simp only [hnext]
      rw [Array.getElem?_push, if_pos (by simp)]
    have hof : nodes.size ∉ ns := fun hn => absurd (hlt _ (List.mem_cons_of_mem _ hn)) (by omega)
    refine ⟨by rw [hlength, hsize, List.length_cons]; omega, ?_, ?_, ?_⟩
    · intro n hn hnk
      rw [List.mem_cons, not_or] at hnk
      rw [hkeep n (by omega) hnk.2]
      simp only [hnext]
      rw [Array.getElem?_push_lt (by simpa using hn), ← Array.getElem?_eq_getElem,
        Array.getElem?_setIfInBounds, if_neg (Ne.symm hnk.1)]
    · intro i n hn
      cases i with
      | zero =>
        obtain rfl : k = n := by simpa using hn
        rw [hkeep k (by omega) hnd.1]
        simp only [hnext]
        rw [Array.getElem?_push_lt (by simpa using hk), ← Array.getElem?_eq_getElem,
          Array.getElem?_setIfInBounds, if_pos rfl, if_pos hk, Nat.add_zero]
      | succ i =>
        rw [hend i n hn, hsize, Nat.add_right_comm, Nat.add_assoc]
    · intro n hn hlt'
      rcases Nat.eq_or_lt_of_le hn with rfl | hn
      · rw [hkeep _ (by omega) hof, hlast]
      · exact hdone n (by omega) hlt'

/-- What closing makes of a sound draft. -/
theorem Sound.close (h : d.Sound s [] []) :
    d.close.size = d.nodes.size + d.incomplete.toList.length ∧
      (∀ n < d.nodes.size, n ∉ d.incomplete.toList → d.close[n]? = d.nodes[n]?) ∧
      (∀ i n : Nat, d.incomplete.toList[i]? = some n →
        d.close[n]? = some (.simple ⟨.plain, d.nodes.size + i⟩)) ∧
      ∀ n, d.nodes.size ≤ n → n < d.close.size → d.close[n]? = some .done :=
  foldl_close (Ascending.nodup_toList _) (fun _ hn =>
    (Array.getElem?_eq_some_iff.1 (h.incomplete.1 hn).1).1) rfl

/-- Closing keeps what leads on. -/
theorem Sound.nodes_close (h : d.Sound s [] []) {n : Nat} {node : Node Edge}
    (hn : d.nodes[n]? = some node) (hp : node ≠ .pending) : d.close[n]? = some node := by
  have hlt : n < d.nodes.size := (Array.getElem?_eq_some_iff.1 hn).1
  obtain ⟨-, hkeep, -, -⟩ := h.close
  rw [hkeep n hlt, hn]
  intro hm
  exact hp (Option.some.inj (hn.symm.trans (h.incomplete.1 hm).1))

/-- Closing gives what does not lead on an end. -/
theorem Sound.close_pending (h : d.Sound s [] []) {n : Nat} (hn : d.nodes[n]? = some .pending) :
    ∃ e, d.close[n]? = some (.simple ⟨.plain, e⟩) ∧ d.close[e]? = some .done := by
  obtain ⟨hlength, -, hend, hdone⟩ := h.close
  have hmem : n ∈ d.incomplete.toList := h.incomplete.2 ⟨hn, by simp⟩
  obtain ⟨i, hi⟩ := List.mem_iff_getElem?.1 hmem
  have hlt : i < d.incomplete.toList.length := (List.getElem?_eq_some_iff.1 hi).1
  exact ⟨d.nodes.size + i, hend i n hi, hdone _ (by omega) (by omega)⟩

theorem Sound.size_le_close (h : d.Sound s [] []) : d.nodes.size ≤ d.close.size := by
  obtain ⟨hlength, -⟩ := h.close
  omega

/-- A node after closing is an old one, the way to an end, or an end. -/
theorem Sound.close_cases (h : d.Sound s [] []) {n : Nat} {node : Node Edge}
    (hn : d.close[n]? = some node) :
    d.nodes[n]? = some node ∧ node ≠ .pending ∨
      (∃ e, node = .simple ⟨.plain, e⟩ ∧ d.close[e]? = some .done) ∨ node = .done := by
  obtain ⟨-, -, -, hdone⟩ := h.close
  rcases Nat.lt_or_ge n d.nodes.size with hlt | hge
  · obtain ⟨old, hold⟩ : ∃ old, d.nodes[n]? = some old := ⟨_, Array.getElem?_eq_getElem hlt⟩
    by_cases hp : old = .pending
    · subst hp
      obtain ⟨e, he, hd⟩ := h.close_pending hold
      exact .inr (.inl ⟨e, Option.some.inj (hn.symm.trans he), hd⟩)
    · obtain rfl := Option.some.inj (hn.symm.trans (h.nodes_close hold hp))
      exact .inl ⟨hold, hp⟩
  · refine .inr (.inr (Option.some.inj (hn.symm.trans (hdone n hge ?_))))
    exact (Array.getElem?_eq_some_iff.1 hn).1

end Draft

/-! ## The finished graph -/

/-- Whether a node is one from which nothing leads on but the way to an end. -/
def Ends (g : FlowGraph) (n : Nat) : Prop :=
  ∃ e, g.node? n = some (.simple ⟨.plain, e⟩) ∧ g.node? e = some .done

/-- A graph that shows a stream, by the nodes at which it places offsets.  An edge that is not plain
leads to a node of its own. -/
structure Depicts (g : FlowGraph) (s : Stream) (place : Nat → Option Nat) : Prop where
  start : place 0 = some g.source
  shown : ∀ {o n : Nat}, place o = some n → Shows g.node? g.Ends place n (s.readAt? o)
  inj : ∀ {o o' n : Nat}, place o = some n → place o' = some n → o = o'
  own : ∀ {n m : Nat} {node node' : Node Edge} {l l' : Link Edge}, g.node? n = some node →
    g.node? m = some node' → l ∈ node.links → l' ∈ node'.links → l.edge ≠ .plain →
    l'.edge ≠ .plain → l.dest = l'.dest → n = m

/-- A node that stands for a place is not an end. -/
theorem Depicts.simple_of_arrives {g : FlowGraph} {s : Stream} {place : Nat → Option Nat}
    (hg : g.Depicts s place) {n : Nat} {t : Option Nat}
    (h : Arrives g.node? g.Ends place n t) : ∃ l, g.node? n = some (.simple l) := by
  cases t with
  | none =>
    obtain ⟨e, he, -⟩ := h
    exact ⟨_, he⟩
  | some o =>
    rcases h with h | ⟨m, hm, -⟩
    · have hs := hg.shown h
      unfold Shows at hs
      split at hs
      · obtain ⟨e, he, -⟩ := hs
        exact ⟨_, he⟩
      · obtain ⟨_, _, _, h, -⟩ := hs
        exact ⟨_, h⟩
      · split at hs
        · obtain ⟨e, he, -⟩ := hs
          exact ⟨_, he⟩
        · obtain ⟨_, h, -⟩ := hs
          exact ⟨_, h⟩
      · obtain ⟨_, h, -⟩ := hs
        exact ⟨_, h⟩
    · exact ⟨_, hm⟩

/-- A graph in which every test has a test edge of its own, and nothing else leads to it. -/
structure Tested (g : FlowGraph) : Prop where
  only : ∀ {n t : Nat} {a b : Link Edge}, g.Reachable n → t ∈ g.targets n →
    g.node? t = some (.branch a b) → g.node? n = some (.simple ⟨.ifTest, t⟩)
  branch : ∀ {n t : Nat}, g.Reachable n → g.node? n = some (.simple ⟨.ifTest, t⟩) →
    ∃ a b, g.node? t = some (.branch a b)
  unique : ∀ {n m t : Nat}, g.Reachable n → g.Reachable m →
    g.node? n = some (.simple ⟨.ifTest, t⟩) → g.node? m = some (.simple ⟨.ifTest, t⟩) → n = m

namespace Draft

variable {s : Stream} {d : Draft} (hd : d.Sound s [] [])
include hd

/-- Nothing is pending after closing, and every link leads to a node. -/
theorem Sound.ofNodes_close : Graph.ofNodes d.close 0 = .ok (Graph.indexed d.close 0) := by
  have hsize := hd.size_le_close
  have hsource : 0 < d.close.size := by
    have := (hd.placed hd.start).1
    omega
  refine Graph.ofNodes_eq_ok hsource fun n hn => ?_
  obtain ⟨node, hnode⟩ := Graph.exists_node? hn.lt_size
  have hnode : d.close[n]? = some node := hnode
  refine ⟨node, hnode, ?_⟩
  rcases hd.close_cases hnode with ⟨hold, hp⟩ | ⟨e, rfl, he⟩ | rfl
  · refine ⟨hp, fun t ht => ?_⟩
    obtain ⟨l, hl, rfl⟩ := List.mem_map.1 ht
    have := hd.links hold hl
    omega
  · refine ⟨by simp, fun t ht => ?_⟩
    obtain rfl : t = e := by simpa [Node.targets, Node.links] using ht
    exact (Array.getElem?_eq_some_iff.1 he).1
  · exact ⟨by simp, by simp [Node.targets, Node.links]⟩

/-- Closing adds no test. -/
theorem Sound.branch_of_close {n : Nat} {a b : Link Edge}
    (hn : d.close[n]? = some (.branch a b)) : d.nodes[n]? = some (.branch a b) := by
  rcases hd.close_cases hn with ⟨hold, -⟩ | ⟨e, he, -⟩ | he
  · exact hold
  · cases he
  · cases he

/-- Closing adds plain edges alone. -/
theorem Sound.node_of_close {n : Nat} {node : Node Edge} {l : Link Edge}
    (hn : d.close[n]? = some node) (hl : l ∈ node.links) (he : l.edge ≠ .plain) :
    d.nodes[n]? = some node := by
  rcases hd.close_cases hn with ⟨hold, -⟩ | ⟨e, rfl, -⟩ | rfl
  · exact hold
  · obtain rfl : l = ⟨.plain, e⟩ := by simpa [Node.links] using hl
    exact absurd rfl he
  · simp [Node.links] at hl

theorem Sound.drawn_close {n : Nat} {node : Node Edge} (hn : d.close[n]? = some node) :
    IsDrawn node := by
  rcases hd.close_cases hn with ⟨hold, -⟩ | ⟨e, rfl, -⟩ | rfl
  · exact hd.drawn hold
  · trivial
  · trivial

theorem Sound.own_close {n m : Nat} {node node' : Node Edge} {l l' : Link Edge}
    (hn : d.close[n]? = some node) (hm : d.close[m]? = some node') (hl : l ∈ node.links)
    (hl' : l' ∈ node'.links) (he : l.edge ≠ .plain) (he' : l'.edge ≠ .plain)
    (heq : l.dest = l'.dest) : n = m :=
  hd.own (hd.node_of_close hn hl he) (hd.node_of_close hm hl' he') hl hl' he he' heq

/-- A test edge alone leads to its test after closing. -/
theorem Sound.tested_close : Tested (Graph.indexed d.close 0) where
  only {n t a b} hr ht hab := by
    obtain ⟨node, hnode⟩ := Graph.exists_node? hr.lt_size
    rw [Graph.targets_of_node? hnode] at ht
    obtain ⟨l, hl, rfl⟩ := List.mem_map.1 ht
    rcases hd.close_cases hnode with ⟨hold, hp⟩ | ⟨e, rfl, he⟩ | rfl
    · obtain rfl := hd.test_of_branch hold hl (hd.branch_of_close hab)
      exact hnode
    · obtain rfl : l = ⟨.plain, e⟩ := by simpa [Node.links] using hl
      cases he.symm.trans hab
    · simp [Node.links] at hl
  branch {n t} _ hn := by
    have hold := hd.node_of_close (l := ⟨.ifTest, t⟩) hn (by simp [Node.links]) (by simp)
    obtain ⟨a, b, hab⟩ := hd.branch_of_test hold
    exact ⟨a, b, hd.nodes_close hab (by simp)⟩
  unique {n m t} _ _ hn hm := by
    have hl : (⟨.ifTest, t⟩ : Link Edge) ∈ (Node.simple ⟨.ifTest, t⟩).links := by simp [Node.links]
    exact hd.own_close hn hm hl hl (by simp) (by simp) rfl

/-- When nothing waits to be read, closing gives a graph that is sound and shows the stream. -/
theorem Sound.depicts (htodo : d.todo = []) :
    Graph.ofNodes d.close 0 = .ok (Graph.indexed d.close 0) ∧ (Graph.indexed d.close 0).Sound ∧
      Depicts (Graph.indexed d.close 0) s d.nodeOf? ∧ Tested (Graph.indexed d.close 0) ∧
      ∀ n node, (Graph.indexed d.close 0).node? n = some node → IsDrawn node := by
  refine ⟨hd.ofNodes_close, (Graph.sound_of_ofNodes hd.ofNodes_close).1,
    ⟨hd.start, ?_, hd.placed_inj, hd.own_close⟩, hd.tested_close, fun _ _ => hd.drawn_close⟩
  intro o n ho
  refine (hd.shown ho (by simp [htodo]) (by simp)).mono (fun x node hx hp => ?_)
    (fun x hx => hd.close_pending hx.1) (fun _ _ h => h) fun _ _ h => .inl h
  exact hd.nodes_close hx hp

end Draft

/-- The graph of a stream exists, is sound and shows the stream. -/
theorem depicts_ofStream (s : Stream) : ∃ (g : FlowGraph) (place : Nat → Option Nat),
    ofStream s = .ok g ∧ g.Sound ∧ g.Depicts s place ∧ g.Tested ∧
      ∀ n node, g.node? n = some node → IsDrawn node := by
  obtain ⟨hd, htodo⟩ := (Draft.sound_start s).read fun _ _ => rfl
  exact ⟨_, _, hd.depicts htodo⟩

end FlowGraph

end ScriptRecovery
