import Mathlib.Data.Set.Finite.Basic
import ScriptRecovery.Proofs.Flow.Flat
import ScriptRecovery.Proofs.Graph.Accepted

/-!
# What construction makes of a reader

A reader with finitely many readable offsets is a stream (`exists_stream`), so its graph exists and
shows it.  Here is what else construction makes sure of.

While offsets are read, every node of the draft is led to from the first one, and control gets to
every offset that has a node (`Draft.Woven`).  What a round changes is one statement: the node in
work gets its way out, the others stay, and it leads to the nodes that are added (`Draft.Grows`).
Closing puts the ends behind the nodes, one for each node that leads to no other, so an end has one
predecessor.
-/

namespace ScriptRecovery

open Relation (ReflTransGen)

namespace FlowGraph

namespace Draft

variable {s : Stream} {d d' : Draft} {k n o : Nat}

/-! ## What operations leave alone -/

theorem nodes_grow_of_lt (h : n < d.nodes.size) : d.grow.nodes[n]? = d.nodes[n]? := by
  rw [Array.getElem?_eq_getElem h]
  exact nodes_grow (Array.getElem?_eq_getElem h)

@[simp] theorem size_connect {e : Edge} {dest : Nat} :
    (d.connect k e dest).nodes.size = d.nodes.size := by simp [Draft.connect]

theorem nodes_connect_of_ne {e : Edge} {dest : Nat} (h : n ≠ k) :
    (d.connect k e dest).nodes[n]? = d.nodes[n]? := by
  simp [Draft.connect, Ne.symm h]

@[simp] theorem size_resolve {target : Option Nat} :
    (d.resolve k target).nodes.size = d.nodes.size := by
  unfold resolve
  split
  · rfl
  · split
    · exact size_connect
    · rfl

theorem nodes_resolve_of_ne {target : Option Nat} (h : n ≠ k) :
    (d.resolve k target).nodes[n]? = d.nodes[n]? := by
  unfold resolve
  split
  · rfl
  · split
    · exact nodes_connect_of_ne h
    · rfl

theorem done_of_connect {e : Edge} {dest : Nat} (hk : k < d.nodes.size)
    (h : (d.connect k e dest).nodes[n]? = some .done) : d.nodes[n]? = some .done := by
  rcases connect_cases hk h with ⟨-, hnode⟩ | h
  · cases hnode
  · exact h

theorem done_of_resolve {target : Option Nat} (hk : k < d.nodes.size)
    (h : (d.resolve k target).nodes[n]? = some .done) : d.nodes[n]? = some .done := by
  unfold resolve at h
  split at h
  · exact h
  · split at h
    · exact done_of_connect hk h
    · exact h

theorem done_of_grow (h : d.grow.nodes[n]? = some .done) : d.nodes[n]? = some .done := by
  rcases grow_cases h with h | ⟨-, hnode⟩
  · exact h
  · cases hnode

/-! ## What a step adds -/

/-- Whether a draft is another one in which a node leads on to nodes that have been added. -/
structure Grows (d d' : Draft) (k : Nat) : Prop where
  size_le : d.nodes.size ≤ d'.nodes.size
  kept : ∀ {n : Nat}, n < d.nodes.size → n ≠ k → d'.nodes[n]? = d.nodes[n]?
  led : ∀ {n : Nat}, d.nodes.size ≤ n → n < d'.nodes.size →
    ReflTransGen (Graph.Leads d'.nodes) k n
  done : ∀ {n : Nat}, d'.nodes[n]? = some .done → d.nodes[n]? = some .done

/-- A branch leads on to its test and its arms. -/
theorem grows_branch (hk : k < d.nodes.size) (next : Nat) (displacement : Int16) :
    d.Grows (d.step k (.branch displacement) next) k := by
  rw [step]
  set t := d.nodes.size with ht
  change d.Grows (((d.grow.grow.grow.branchAt k t (t + 1) (t + 2)).resolve (t + 2)
    (some next)).resolve (t + 1) (branchTarget next displacement)) k
  set b := d.grow.grow.grow.branchAt k t (t + 1) (t + 2) with hb
  have hsize : b.nodes.size = t + 3 := by simp [hb, Draft.branchAt, ht]
  have hnode : ∀ {n : Nat}, b.nodes[n]? =
      if n = t then some (.branch ⟨.ifTrue, t + 1⟩ ⟨.ifFalse, t + 2⟩)
      else if n = k then some (.simple ⟨.ifTest, t⟩) else d.grow.grow.grow.nodes[n]? :=
    nodes_branchAt (by simp; omega) (by simp; omega)
  have hother : ∀ {n : Nat}, n < t + 1 →
      ((b.resolve (t + 2) (some next)).resolve (t + 1) (branchTarget next displacement)).nodes[n]? =
        b.nodes[n]? := by
    intro n hn
    rw [nodes_resolve_of_ne (by omega), nodes_resolve_of_ne (by omega)]
  refine ⟨by simp only [size_resolve, hsize]; omega, ?_, ?_, ?_⟩
  · intro n hn hnk
    rw [hother (by omega), hnode, if_neg (by omega), if_neg hnk]
    rw [nodes_grow_of_lt (by simp; omega), nodes_grow_of_lt (by simp; omega), nodes_grow_of_lt hn]
  · intro n hn hlt
    simp only [size_resolve, hsize] at hlt
    have htest : Graph.Leads ((b.resolve (t + 2) (some next)).resolve (t + 1)
        (branchTarget next displacement)).nodes k t := by
      refine ⟨.simple ⟨.ifTest, t⟩, ?_, by simp [Node.targets, Node.links]⟩
      rw [hother (by omega), hnode, if_neg (by omega), if_pos rfl]
    have harms : ((b.resolve (t + 2) (some next)).resolve (t + 1)
        (branchTarget next displacement)).nodes[t]? =
          some (.branch ⟨.ifTrue, t + 1⟩ ⟨.ifFalse, t + 2⟩) := by
      rw [hother (by omega), hnode, if_pos rfl]
    rcases Nat.eq_or_lt_of_le hn with rfl | hn
    · exact .single htest
    · refine (ReflTransGen.single htest).tail ⟨_, harms, ?_⟩
      have harm : n = t + 1 ∨ n = t + 2 := by omega
      simpa [Node.targets, Node.links] using harm
  · intro n hn
    have hn : b.nodes[n]? = some .done :=
      done_of_resolve (by omega) (done_of_resolve (by simp; omega) hn)
    rw [hnode] at hn
    split at hn
    · cases hn
    · split at hn
      · cases hn
      · exact done_of_grow (done_of_grow (done_of_grow hn))

/-- A jump leads on to the node of its target, if that has been added. -/
theorem grows_jump (hk : k < d.nodes.size) (next : Nat) (displacement : Int16) :
    d.Grows (d.step k (.jump displacement) next) k := by
  rw [step]
  split
  · exact ⟨Nat.le_refl _, fun _ _ => rfl, fun h h' => absurd h' (Nat.not_lt.2 h), id⟩
  · next target _ =>
    split
    · refine ⟨by simp, fun _ hnk => nodes_connect_of_ne hnk, ?_, fun h => done_of_connect hk h⟩
      intro n hn hlt
      rw [size_connect] at hlt
      omega
    · have hsize : (d.grow.found d.nodes.size target).nodes.size = d.nodes.size + 1 := size_grow
      dsimp only
      refine ⟨by simp [hsize], ?_, ?_, ?_⟩
      · intro n hn hnk
        rw [nodes_connect_of_ne hnk]
        exact nodes_grow_of_lt hn
      · intro n hn hlt
        rw [size_connect, hsize] at hlt
        obtain rfl : n = d.nodes.size := by omega
        refine .single ⟨.simple ⟨.plain, d.nodes.size⟩, ?_, by simp [Node.targets, Node.links]⟩
        exact (nodes_connect (by omega)).trans (if_pos rfl)
      · intro n hn
        have hlt : k < (d.grow.found d.nodes.size target).nodes.size := by omega
        have hn : d.grow.nodes[n]? = some .done := done_of_connect hlt hn
        exact done_of_grow hn

/-- Another action leads on to the node that is added. -/
theorem grows_action (hk : k < d.nodes.size) (e : Edge) (target : Option Nat) :
    d.Grows ((d.grow.connect k e d.nodes.size).resolve d.nodes.size target) k := by
  refine ⟨by simp, ?_, ?_, ?_⟩
  · intro n hn hnk
    rw [nodes_resolve_of_ne (by omega), nodes_connect_of_ne hnk, nodes_grow_of_lt hn]
  · intro n hn hlt
    rw [size_resolve, size_connect, size_grow] at hlt
    obtain rfl : n = d.nodes.size := by omega
    refine .single ⟨.simple ⟨e, d.nodes.size⟩, ?_, by simp [Node.targets, Node.links]⟩
    rw [nodes_resolve_of_ne (by omega), nodes_connect (by simp; omega), if_pos rfl]
  · intro n hn
    have hn := done_of_resolve (by simp) hn
    exact done_of_grow (done_of_connect (by simp; omega) hn)

/-- What the step of an action changes. -/
theorem grows_step (hk : k < d.nodes.size) (action : Action) (next : Nat) :
    d.Grows (d.step k action next) k := by
  cases action with
  | branch displacement => exact grows_branch hk next displacement
  | jump displacement => exact grows_jump hk next displacement
  | _ => exact grows_action hk (.action _) (some next)

/-! ## Where offsets get their nodes -/

theorem nodeOf?_resolve {target : Option Nat} (h : (d.resolve k target).nodeOf? o = some n) :
    d.nodeOf? o = some n ∨ target = some o := by
  unfold resolve at h
  split at h
  · exact .inl h
  · split at h
    · exact .inl h
    · rw [nodeOf?_found] at h
      split at h
      · next ho => exact .inr (congrArg some ho.symm)
      · exact .inl h

/-- An offset that gets its node in a step is where control goes next. -/
theorem nodeOf?_step {action : Action} {o' next : Nat} (hr : s.readAt? o' = some (action, next))
    (h : (d.step k action next).nodeOf? o = some n) :
    d.nodeOf? o = some n ∨ ∃ way, s.Leads (o', way) o := by
  have honward : (∀ displacement, action ≠ .branch displacement) →
      (∀ displacement, action ≠ .jump displacement) →
      ((d.grow.connect k (.action action) d.nodes.size).resolve d.nodes.size (some next)).nodeOf? o =
        some n → d.nodeOf? o = some n ∨ ∃ way, s.Leads (o', way) o := by
    intro hb hj h
    rcases nodeOf?_resolve h with h | h
    · exact .inl h
    · cases h
      exact .inr ⟨.onward, .action hr hb hj⟩
  cases action with
  | branch displacement =>
    rcases nodeOf?_resolve h with h | h
    · rcases nodeOf?_resolve h with h | h
      · exact .inl h
      · cases h
        exact .inr ⟨.passed, .passed hr⟩
    · exact .inr ⟨.taken, .taken hr h⟩
  | jump displacement =>
    rw [step] at h
    split at h
    · exact .inl h
    · next target ht =>
      split at h
      · exact .inl h
      · rcases Nat.decEq o target with hne | rfl
        · exact .inl ((nodeOf?_found.trans (if_neg hne)).symm.trans h)
        · exact .inr ⟨.onward, .jump hr ht⟩
  | _ => exact honward (by simp) (by simp) h

/-! ## Rounds -/

/-- What construction makes sure of besides showing what it has read: everything is led to from the
first node, there are no ends yet, and control gets to every offset that has a node. -/
structure Woven (s : Stream) (d : Draft) : Prop where
  connected : ∀ {n : Nat}, n < d.nodes.size → ReflTransGen (Graph.Leads d.nodes) 0 n
  open_ended : ∀ n : Nat, d.nodes[n]? ≠ some .done
  reached : ∀ {o n : Nat}, d.nodeOf? o = some n → s.Reaches o

theorem woven_start (s : Stream) : start.Woven s where
  connected := by
    intro n hn
    have hn : n < 1 := hn
    obtain rfl : n = 0 := by omega
    exact .refl
  open_ended := by
    intro n hn
    have hlt : n < 1 := (Array.getElem?_eq_some_iff.1 hn).1
    obtain rfl : n = 0 := by omega
    cases hn
  reached := by
    intro o n hn
    simp only [nodeOf?, start, List.lookup_cons, List.lookup_nil] at hn
    split at hn
    · next ho =>
      obtain rfl : o = 0 := by simpa using ho
      exact .start
    · cases hn

/-- A draft in which the pending node in work leads on to what has been added is woven. -/
theorem Woven.grows (h : d.Woven s) (hk : d.nodes[k]? = some .pending) (hg : d.Grows d' k)
    (hplaces : ∀ {o n : Nat}, d'.nodeOf? o = some n → s.Reaches o) : d'.Woven s := by
  have hlt := lt_size_of_pending hk
  -- what leads somewhere in the old draft is not the node in work
  have hold : ∀ {n : Nat}, n < d.nodes.size → ReflTransGen (Graph.Leads d'.nodes) 0 n := by
    intro n hn
    refine Graph.reach_mono (h.connected hn) fun x node hnode hp => ?_
    rw [hg.kept (Array.getElem?_eq_some_iff.1 hnode).1, hnode]
    rintro rfl
    exact hp (Option.some.inj (hnode.symm.trans hk))
  refine ⟨?_, fun n hn => h.open_ended n (hg.done hn), hplaces⟩
  intro n hn
  rcases Nat.lt_or_ge n d.nodes.size with hnlt | hge
  · exact hold hnlt
  · exact (hold hlt).trans (hg.led hge hn)

/-- A round keeps a draft woven. -/
theorem Woven.turn (h : d.Woven s) (hs : d.Sound s [] []) : (d.turn s.readAt?).Woven s := by
  cases ht : d.todo with
  | nil => rwa [turn_nil ht]
  | cons o todo =>
    obtain ⟨-, k, hk, hp⟩ := hs.todo_placed (o := o) (by simp [ht])
    have htake : ({ d with todo } : Draft).Woven s := ⟨h.connected, h.open_ended, h.reached⟩
    cases hr : s.readAt? o with
    | none =>
      rw [turn_skip ht hk hr]
      exact htake
    | some r =>
      obtain ⟨action, next⟩ := r
      rw [turn_cons ht hk hr]
      refine htake.grows hp (grows_step (d := { d with todo }) (lt_size_of_pending hp) action next) ?_
      intro o' n hn
      rcases nodeOf?_step hr hn with hn | ⟨way, hleads⟩
      · exact h.reached hn
      · exact .step (w := (o, way)) (h.reached hk) hleads

theorem Woven.turns (h : d.Woven s) (hs : d.Sound s [] []) (rounds : Nat) :
    (d.turns s.readAt? rounds).Woven s := by
  induction rounds generalizing d with
  | zero => exact h
  | succ rounds ih => exact ih (h.turn hs) hs.turn

/-! ## Closing -/

/-- Everything is led to from the first node after closing. -/
theorem Woven.connected_close (h : d.Woven s) (hs : d.Sound s [] []) (hn : n < d.close.size) :
    ReflTransGen (Graph.Leads d.close) 0 n := by
  obtain ⟨hlength, -, hend, -⟩ := hs.close
  have hold : ∀ {n : Nat}, n < d.nodes.size → ReflTransGen (Graph.Leads d.close) 0 n := by
    intro n hn
    exact Graph.reach_mono (h.connected hn) fun x node hnode hp => hs.nodes_close hnode hp
  rcases Nat.lt_or_ge n d.nodes.size with hnlt | hge
  · exact hold hnlt
  · have hi : n - d.nodes.size < d.incomplete.toList.length := by omega
    have hm := hend _ _ (List.getElem?_eq_getElem hi)
    have hlt : d.incomplete.toList[n - d.nodes.size] < d.nodes.size :=
      lt_size_of_pending (hs.incomplete.1 (List.getElem_mem hi)).1
    refine (hold hlt).tail ⟨_, hm, ?_⟩
    have heq : n = d.nodes.size + (n - d.nodes.size) := by omega
    simpa [Node.targets, Node.links] using heq

/-- One node leads to an end, and it does so by a plain edge. -/
theorem Woven.exists_close_end (h : d.Woven s) (hs : d.Sound s [] [])
    (hn : d.close[n]? = some .done) : ∃ m, d.close[m]? = some (.simple ⟨.plain, n⟩) ∧
      ∀ {m' : Nat}, Graph.Leads d.close m' n → m' = m := by
  obtain ⟨hlength, hkeep, hend, hdone⟩ := hs.close
  have hlt : n < d.close.size := (Array.getElem?_eq_some_iff.1 hn).1
  have hge : d.nodes.size ≤ n := by
    by_contra hnlt
    obtain ⟨node, hnode⟩ : ∃ node, d.nodes[n]? = some node :=
      ⟨_, Array.getElem?_eq_getElem (Nat.lt_of_not_le hnlt)⟩
    by_cases hp : node = .pending
    · obtain ⟨e, he, -⟩ := hs.close_pending (hp ▸ hnode)
      cases he.symm.trans hn
    · cases (hs.nodes_close hnode hp).symm.trans hn
      exact h.open_ended n hnode
  obtain ⟨i, rfl⟩ := Nat.exists_eq_add_of_le hge
  have hi : i < d.incomplete.toList.length := by omega
  refine ⟨d.incomplete.toList[i], hend _ _ (List.getElem?_eq_getElem hi), ?_⟩
  rintro m' ⟨node, hnode, hm'⟩
  rcases Nat.lt_or_ge m' d.nodes.size with hold | hnew
  · by_cases hmem : m' ∈ d.incomplete.toList
    · obtain ⟨j, hj⟩ := List.mem_iff_getElem?.1 hmem
      cases (hend j m' hj).symm.trans hnode
      have hij : i = j := by simpa [Node.targets, Node.links] using hm'
      subst hij
      exact ((List.getElem?_eq_some_iff.1 hj).2).symm
    · -- the links of the draft lead to nodes of the draft
      rw [hkeep m' hold hmem] at hnode
      obtain ⟨l, hl, hdest⟩ := List.mem_map.1 hm'
      have := hs.links hnode hl
      omega
  · have hlt' : m' < d.close.size := (Array.getElem?_eq_some_iff.1 hnode).1
    cases (hdone m' hnew hlt').symm.trans hnode
    simp [Node.targets, Node.links] at hm'

end Draft

/-! ## The graph of a reader -/

/-- A reader with finitely many readable offsets is a stream. -/
theorem exists_stream {reader : Nat → Option (Action × Nat)}
    (hfin : {o | (reader o).isSome}.Finite) : ∃ s : Stream, s.readAt? = reader := by
  let s : Stream := hfin.toFinset.toList.filterMap fun o =>
    (reader o).map fun r => ⟨o, r.1, r.2⟩
  have hmem : ∀ {e : Stream.Entry}, e ∈ s ↔ reader e.offset = some (e.action, e.next) := by
    intro e
    simp only [s, List.mem_filterMap, Finset.mem_toList, Set.Finite.mem_toFinset,
      Option.map_eq_some_iff]
    constructor
    · rintro ⟨o, -, r, hr, rfl⟩
      exact hr
    · intro hr
      exact ⟨e.offset, by simp [hr], _, hr, rfl⟩
  refine ⟨s, funext fun o => ?_⟩
  rw [Stream.readAt?]
  cases he : s.entryAt? o with
  | some e =>
    have ho : e.offset = o := by simpa using List.find?_some he
    have hread := hmem.1 (List.mem_of_find?_eq_some he)
    rw [ho] at hread
    exact hread.symm
  | none =>
    cases hread : reader o with
    | none => rfl
    | some r =>
      have hentry : (⟨o, r.1, r.2⟩ : Stream.Entry) ∈ s := hmem.2 hread
      have hne := List.find?_eq_none.1 he _ hentry
      simp at hne

/-- What construction makes of a stream, by the nodes at which it places offsets. -/
structure Constructed (g : FlowGraph) (s : Stream) (place : Nat → Option Nat) : Prop where
  /-- Every slot is reachable. -/
  reachable : ∀ {n : Nat}, n < g.size → g.Reachable n
  /-- Nothing is pending. -/
  complete : ∀ n : Nat, g.node? n ≠ some .pending
  /-- The offsets that control gets to have nodes, and no others. -/
  placed : ∀ {o : Nat}, s.Reaches o ↔ ∃ n, place o = some n
  /-- Different offsets have different nodes. -/
  inj : ∀ {o o' n : Nat}, place o = some n → place o' = some n → o = o'
  /-- The node of an offset has the way out that the action there calls for. -/
  shown : ∀ {o n : Nat}, place o = some n → Shows g.node? g.Ends place n (s.readAt? o)
  /-- Only nodes of offsets have the edge of an action or a test edge. -/
  carried : ∀ {n m : Nat} {e : Edge}, g.node? n = some (.simple ⟨e, m⟩) → e ≠ .plain →
    ∃ o a next, place o = some n ∧ s.readAt? o = some (a, next)
  /-- A test has two arms, and one node leads to it, by a test edge. -/
  branch : ∀ {n : Nat} {a b : Link Edge}, g.node? n = some (.branch a b) →
    a.edge = .ifTrue ∧ b.edge = .ifFalse ∧ a.dest ≠ b.dest ∧
      ∃ m, g.predecessors n = .singleton m ∧ g.node? m = some (.simple ⟨.ifTest, n⟩)
  /-- A test edge leads to a test. -/
  test : ∀ {n m : Nat}, g.node? m = some (.simple ⟨.ifTest, n⟩) →
    ∃ a b, g.node? n = some (.branch a b)
  /-- One node leads to an end, by a plain edge. -/
  done : ∀ {n : Nat}, g.node? n = some .done →
    ∃ m, g.predecessors n = .singleton m ∧ g.node? m = some (.simple ⟨.plain, n⟩)

/-- Only nodes of offsets have an edge that is not plain. -/
theorem Built.exists_offset {g : FlowGraph} {s : Stream} {place : Nat → Option Nat}
    (hg : g.Built s place) {n m : Nat} {e : Edge} (hr : g.Reachable n)
    (hn : g.node? n = some (.simple ⟨e, m⟩)) (he : e ≠ .plain) :
    ∃ o a next, place o = some n ∧ s.readAt? o = some (a, next) := by
  have hend : ¬g.Ends n := by
    rintro ⟨x, hx, -⟩
    cases hx.symm.trans hn
    exact he rfl
  obtain ⟨t, ht⟩ := hg.follows hr
  cases ht with
  | testing h => cases h.symm.trans hn
  | ended h => cases h.symm.trans hn
  | arrived h =>
    cases t with
    | none => exact absurd h hend
    | some o =>
      rcases h with ho | ⟨x, hx, -⟩
      · cases hread : s.readAt? o with
        | some r => exact ⟨o, r.1, r.2, ho, hread⟩
        | none =>
          have hshown := hg.shown ho
          rw [hread] at hshown
          exact absurd hshown hend
      · cases hx.symm.trans hn
        exact absurd rfl he

/-- One node leads to a test, by a test edge. -/
theorem Built.predecessors_test {g : FlowGraph} {s : Stream} {place : Nat → Option Nat}
    (hg : g.Built s place) {n : Nat} {a b : Link Edge} (hr : ∀ {m : Nat}, m < g.size → g.Reachable m)
    (hn : g.node? n = some (.branch a b)) :
    ∃ m, g.predecessors n = .singleton m ∧ g.node? m = some (.simple ⟨.ifTest, n⟩) := by
  obtain ⟨-, m, -, -, -, hm, -⟩ := hg.test_cases (hr (Graph.lt_size_of_node? hn)) hn
  refine ⟨m, Ascending.ext_mem fun m' => ?_, hm⟩
  have hmreach := hr (Graph.lt_size_of_node? hm)
  rw [hg.sound.index, Ascending.mem_singleton]
  constructor
  · rintro ⟨hm', hlink⟩
    exact hg.tested.unique hm' hmreach (hg.tested.only hm' hlink hn) hm
  · rintro rfl
    exact ⟨hmreach, by simp [hm]⟩

namespace Draft

variable {s : Stream} {d : Draft} (hw : d.Woven s) (hs : d.Sound s [] [])
include hw hs

theorem Woven.reachable_close {n : Nat} (hn : n < d.close.size) :
    (Graph.indexed d.close 0).Reachable n :=
  Graph.reachable_indexed.2 ⟨hw.connected_close hs hn, hn⟩

/-- One node leads to an end, by a plain edge. -/
theorem Woven.predecessors_end (hsound : (Graph.indexed d.close 0).Sound) {n : Nat}
    (hn : d.close[n]? = some .done) : ∃ m, (Graph.indexed d.close 0).predecessors n = .singleton m ∧
      d.close[m]? = some (.simple ⟨.plain, n⟩) := by
  obtain ⟨m, hm, hunique⟩ := hw.exists_close_end hs hn
  refine ⟨m, Ascending.ext_mem fun m' => ?_, hm⟩
  rw [hsound.index, Ascending.mem_singleton, Graph.mem_targets_indexed]
  constructor
  · rintro ⟨-, hlink⟩
    exact hunique hlink
  · rintro rfl
    have hlt : m' < d.close.size := (Array.getElem?_eq_some_iff.1 hm).1
    exact ⟨hw.reachable_close hs hlt, _, hm, by simp [Node.targets, Node.links]⟩

/-- What closing makes of a draft in which nothing waits to be read. -/
theorem Woven.constructed (htodo : d.todo = []) :
    Graph.ofNodes d.close 0 = .ok (Graph.indexed d.close 0) ∧
      Constructed (Graph.indexed d.close 0) s d.nodeOf? := by
  obtain ⟨hok, hsound, hdepicts, htested, hdrawn⟩ := hs.depicts htodo
  have hbuilt : Built (Graph.indexed d.close 0) s d.nodeOf? := ⟨hdepicts, hsound, htested, hdrawn⟩
  have hreach : ∀ {n : Nat} {node : Node Edge}, (Graph.indexed d.close 0).node? n = some node →
      (Graph.indexed d.close 0).Reachable n := fun hn =>
    hw.reachable_close hs (Graph.lt_size_of_node? hn)
  exact ⟨hok, {
    reachable := hw.reachable_close hs
    complete := fun n hn => hsound.complete (hreach hn) hn
    placed := ⟨fun ho => (hbuilt.placed_of_reaches ho).imp fun _ h => h.1,
      fun ⟨_, hn⟩ => hw.reached hn⟩
    inj := hdepicts.inj
    shown := hdepicts.shown
    carried := fun hn he => hbuilt.exists_offset (hreach hn) hn he
    branch := fun hn => by
      obtain ⟨ha, hb, hab⟩ := hdrawn _ _ hn
      exact ⟨ha, hb, hab, hbuilt.predecessors_test (hw.reachable_close hs) hn⟩
    test := fun hm => htested.branch (hreach hm) hm
    done := hw.predecessors_end hs hsound }⟩

end Draft

/-- Construction over a reader with finitely many readable offsets comes to an end, and closing then
gives the graph of a stream with the same readings. -/
theorem exists_constructed {reader : Nat → Option (Action × Nat)}
    (hfin : {o | (reader o).isSome}.Finite) : ∃ (s : Stream) (rounds : Nat) (d : Draft)
      (g : FlowGraph), s.readAt? = reader ∧ d = Draft.start.turns reader rounds ∧ d.todo = [] ∧
        Graph.ofNodes d.close 0 = .ok g ∧ ofStream s = .ok g ∧ g.Constructed s d.nodeOf? := by
  obtain ⟨s, rfl⟩ := exists_stream hfin
  have hs := Draft.sound_start s
  obtain ⟨rounds, hrounds, htodo⟩ := hs.exists_turns fun _ _ => rfl
  obtain ⟨hok, hconstructed⟩ :=
    ((Draft.woven_start s).turns hs rounds).constructed (hs.turns rounds) (hrounds ▸ htodo)
  refine ⟨s, rounds, _, _, rfl, rfl, hrounds ▸ htodo, hok, ?_, hconstructed⟩
  rw [ofStream, ← hrounds]
  exact hok

/-- The reader of one branch, both arms of which lead back to it. -/
theorem exists_constructed_loop : ∃ (s : Stream) (rounds : Nat) (d : Draft) (g : FlowGraph),
    s.readAt? = (fun o => if o = 0 then some (.branch 0, 0) else none) ∧
      d = Draft.start.turns (fun o => if o = 0 then some (.branch 0, 0) else none) rounds ∧
        d.todo = [] ∧ Graph.ofNodes d.close 0 = .ok g ∧ ofStream s = .ok g ∧
          g.Constructed s d.nodeOf? := by
  refine exists_constructed (Set.Finite.subset (Set.finite_singleton 0) fun o ho => ?_)
  by_contra hne
  have hne : o ≠ 0 := hne
  simp [hne] at ho

end FlowGraph

end ScriptRecovery
