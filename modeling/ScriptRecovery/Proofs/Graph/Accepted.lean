import ScriptRecovery.Graph.Examine
import ScriptRecovery.Proofs.Graph.Sound
import Mathlib.Logic.Relation

/-!
# Which arenas are accepted

The search that examines an arena takes nodes off its stack in preorder, so the first fault it meets
is the first fault in preorder (`examine_eq`).  Hence what `Graph.accept` does is what
`Graph.ofNodes` says (`accept_eq`), and the traversal that fills the index afterwards meets
the nodes that have been examined, and no others.

The reachable part of an arena is given here by its links alone, through `Relation.ReflTransGen`.
A link may lead out of the arena, to a place from which nothing leads on.
-/

namespace ScriptRecovery

open Relation (ReflTransGen)

/-! ## Enlisting within bounds -/

namespace Marks

@[simp] theorem size_enlist (m : Marks) (stack is : List Nat) :
    (m.enlist stack is).1.flags.size = m.flags.size := by
  induction is generalizing m stack with
  | nil => rfl
  | cons i is ih =>
    unfold enlist
    split
    · rw [ih, size_mark]
    · exact ih m stack

/-- Nodes are enlisted, unless one of them is not in the graph. -/
theorem enlistWithin_eq (m : Marks) (stack is : List Nat) :
    m.enlistWithin stack is =
      match is.find? (m.flags.size ≤ ·) with
      | some i => .error (.nodeNotFound i)
      | .none => .ok (m.enlist stack is) := by
  induction is generalizing m stack with
  | nil => rfl
  | cons i is ih =>
    unfold enlistWithin enlist isFree
    by_cases hi : i < m.flags.size
    · have hfound : (i :: is).find? (m.flags.size ≤ ·) = is.find? (m.flags.size ≤ ·) := by
        simp [hi]
      rw [hfound, Array.getElem?_eq_getElem hi]
      cases m.flags[i] with
      | true => exact ih m stack
      | false =>
        have h := ih (m.mark i) (i :: stack)
        rw [size_mark] at h
        exact h
    · have hfound : (i :: is).find? (m.flags.size ≤ ·) = some i := by simp [Nat.le_of_not_lt hi]
      rw [hfound, Array.getElem?_eq_none (Nat.le_of_not_lt hi)]

end Marks

namespace Graph

variable {ε : Type} {nodes : Array (Node ε)} {source : Nat}

/-! ## The search that examines -/

/-- What the search does with the node that it takes off the stack. -/
theorem examine_cons {marks : Marks} (hsize : marks.flags.size = nodes.size) (n : Nat)
    (stack : List Nat) : examine nodes marks (n :: stack) =
      match faultAt nodes n with
      | some fault => .error fault
      | none => examine nodes (marks.enlist stack ((indexed nodes source).targets n)).1
          (marks.enlist stack ((indexed nodes source).targets n)).2 := by
  have htargets : (indexed nodes source).targets n = (nodes[n]?.map Node.targets).getD [] := rfl
  rw [examine, htargets]
  unfold faultAt
  cases nodes[n]? with
  | none => rfl
  | some node =>
    cases node with
    | pending => rfl
    | done | simple | branch =>
      dsimp only [Option.map_some, Option.getD_some]
      rw [Marks.enlistWithin_eq, hsize]
      cases List.find? (nodes.size ≤ ·) _ with
      | some d => rfl
      | none => rfl

/-- The search meets the first fault in preorder. -/
theorem examine_eq {marks : Marks} {stack : List Nat} (hsize : marks.flags.size = nodes.size) :
    examine nodes marks stack =
      match ((indexed nodes source).adjacency.drain marks stack).findSome? (faultAt nodes) with
      | some fault => .error fault
      | none => .ok () := by
  induction marks, stack using Adjacency.drain.induct (indexed nodes source).adjacency with
  | case1 marks =>
    rw [Adjacency.drain_nil, examine]
    rfl
  | case2 marks n stack enlisted ih =>
    have hsize' : enlisted.1.flags.size = nodes.size := by
      rw [← hsize]
      exact Marks.size_enlist marks stack _
    rw [Adjacency.drain_cons, List.findSome?_cons, examine_cons hsize]
    cases faultAt nodes n with
    | some fault => rfl
    | none => exact ih hsize'

/-- Searching for faults and then filling the index comes to the same as filling the index and then
looking for faults in preorder. -/
theorem accept_eq (nodes : Array (Node ε)) (source : Nat) :
    accept nodes source = ofNodes nodes source := by
  have hsize : ((Marks.none nodes.size).mark source).flags.size = nodes.size := by
    rw [Marks.size_mark]
    exact Array.size_replicate
  unfold accept ofNodes
  by_cases hs : source < nodes.size
  · have hlist : (indexed nodes source).list .preorder = (indexed nodes source).adjacency.drain
        ((Marks.none nodes.size).mark source) [source] := if_pos hs
    rw [if_neg (Nat.not_le.2 hs), if_pos hs, examine_eq hsize]
    dsimp only
    rw [hlist]
    cases List.findSome? (faultAt nodes) _ with
    | some fault => rfl
    | none => rfl
  · rw [if_pos (Nat.le_of_not_lt hs), if_neg hs]

/-! ## What is reachable by links -/

/-- Whether there is a link from one place of an arena to another, which may be outside. -/
def Leads (nodes : Array (Node ε)) (m n : Nat) : Prop :=
  ∃ node, nodes[m]? = some node ∧ n ∈ node.targets

/-- What is reachable stays so when the nodes that are not pending stay. -/
theorem reach_mono {nodes' : Array (Node ε)} {m n : Nat} (h : ReflTransGen (Leads nodes) m n)
    (hkeep : ∀ (x : Nat) (node : Node ε), nodes[x]? = some node → node ≠ .pending →
      nodes'[x]? = some node) : ReflTransGen (Leads nodes') m n := by
  induction h with
  | refl => exact .refl
  | tail _ hlink ih =>
    obtain ⟨node, hnode, hn⟩ := hlink
    refine ih.tail ⟨node, hkeep _ node hnode ?_, hn⟩
    rintro rfl
    simp [Node.targets, Node.links] at hn

theorem mem_targets_indexed {m n : Nat} :
    n ∈ (indexed nodes source).targets m ↔ Leads nodes m n := by
  have htargets : (indexed nodes source).targets m = (nodes[m]?.map Node.targets).getD [] := rfl
  rw [htargets]
  unfold Leads
  cases nodes[m]? with
  | none => simp
  | some node => simp

/-- The graph over an arena reaches what links lead to inside the arena. -/
theorem reachable_indexed {n : Nat} : (indexed nodes source).Reachable n ↔
    ReflTransGen (Leads nodes) source n ∧ n < nodes.size := by
  constructor
  · intro h
    refine ⟨?_, h.lt_size⟩
    exact h.mem_of_closed .refl fun x hx y hy _ => hx.tail (mem_targets_indexed.1 hy)
  · rintro ⟨h, hlt⟩
    induction h with
    | refl => exact reachable_source hlt
    | tail _ hmn ih =>
      obtain ⟨node, hnode, -⟩ := id hmn
      have hm := (Array.getElem?_eq_some_iff.1 hnode).1
      exact (ih hm).step (mem_targets_indexed.2 hmn) hlt

/-- An arena without gaps in what its entry reaches. -/
structure WellFormed (nodes : Array (Node ε)) (source : Nat) : Prop where
  /-- The entry is in the arena. -/
  source_lt : source < nodes.size
  /-- No reachable link leaves the arena. -/
  closed : ∀ {m n : Nat}, ReflTransGen (Leads nodes) source m → Leads nodes m n → n < nodes.size
  /-- No reachable node is pending. -/
  complete : ∀ {n : Nat}, ReflTransGen (Leads nodes) source n → nodes[n]? ≠ some .pending

/-- A fault that names a gap in what the entry reaches. -/
inductive Gap (nodes : Array (Node ε)) (source : Nat) : Fault → Prop
  | source : nodes.size ≤ source → Gap nodes source (.nodeNotFound source)
  | target {m n : Nat} : ReflTransGen (Leads nodes) source m → Leads nodes m n → nodes.size ≤ n →
      Gap nodes source (.nodeNotFound n)
  | pending {n : Nat} : ReflTransGen (Leads nodes) source n → nodes[n]? = some .pending →
      Gap nodes source (.violation (.reachablePending n))

theorem not_wellFormed_of_gap {fault : Fault} (h : Gap nodes source fault) :
    ¬WellFormed nodes source := by
  intro hw
  cases h with
  | source hle => exact absurd hw.source_lt (Nat.not_lt.2 hle)
  | target hm hmn hle => exact absurd (hw.closed hm hmn) (Nat.not_lt.2 hle)
  | pending hn hp => exact hw.complete hn hp

/-- A fault at a node of the arena is a gap there. -/
theorem gap_of_faultAt {n : Nat} {fault : Fault} (hn : ReflTransGen (Leads nodes) source n)
    (hlt : n < nodes.size) (h : faultAt nodes n = some fault) : Gap nodes source fault := by
  unfold faultAt at h
  split at h
  · next hnone =>
    rw [Array.getElem?_eq_getElem hlt] at hnone
    cases hnone
  · next hp =>
    cases h
    exact .pending hn hp
  · next node _ hnode =>
    obtain ⟨d, hd, rfl⟩ := Option.map_eq_some_iff.1 h
    have hout : nodes.size ≤ d := by simpa using List.find?_some hd
    exact .target hn ⟨node, hnode, List.mem_of_find?_eq_some hd⟩ hout

/-- What is refused has the gap that the fault names. -/
theorem gap_of_ofNodes {fault : Fault} (h : ofNodes nodes source = .error fault) :
    Gap nodes source fault := by
  unfold ofNodes at h
  split at h
  · dsimp only at h
    split at h
    · next hfault =>
      cases h
      obtain ⟨n, hn, hf⟩ := List.exists_of_findSome?_eq_some hfault
      obtain ⟨hreach, hlt⟩ := reachable_indexed.1 (mem_list.1 hn)
      exact gap_of_faultAt hreach hlt hf
    · cases h
  · next hs =>
    cases h
    exact .source (Nat.le_of_not_lt hs)

/-- What is accepted has no gap. -/
theorem wellFormed_of_ofNodes {g : Graph ε} (h : ofNodes nodes source = .ok g) :
    WellFormed nodes source := by
  obtain ⟨hsound, rfl⟩ := sound_of_ofNodes h
  have hreach : ∀ {n}, ReflTransGen (Leads nodes) source n →
      (indexed nodes source).Reachable n := by
    intro n hn
    induction hn with
    | refl => exact hsound.reachable_source
    | tail _ hmn ih => exact hsound.reachable_target ih (mem_targets_indexed.2 hmn)
  refine ⟨hsound.source_lt, ?_, ?_⟩
  · intro m n hm hmn
    exact hsound.closed (hreach hm) (mem_targets_indexed.2 hmn)
  · intro n hn
    exact hsound.complete (hreach hn)

/-- The arenas that are accepted are those without gaps, by a search that examines them or by the
order in which they are listed.  What is accepted is kept, with the reachable links as its index,
and what is refused has the gap that the fault names. -/
theorem ofNodes_exact (nodes : Array (Node ε)) (source : Nat) :
    accept nodes source = ofNodes nodes source ∧
    ((∃ g, ofNodes nodes source = .ok g) ↔ WellFormed nodes source) ∧
    (∀ g, ofNodes nodes source = .ok g → g.nodes = nodes ∧ g.source = source ∧
      g.preds.size = nodes.size ∧ ∀ u v, u ∈ g.predecessors v ↔
        ReflTransGen (Leads nodes) source u ∧ Leads nodes u v) ∧
    ∀ fault, ofNodes nodes source = .error fault → Gap nodes source fault := by
  refine ⟨accept_eq nodes source, ⟨?_, ?_⟩, ?_, fun fault h => gap_of_ofNodes h⟩
  · rintro ⟨g, h⟩
    exact wellFormed_of_ofNodes h
  · intro hw
    cases h : ofNodes nodes source with
    | ok g => exact ⟨g, rfl⟩
    | error fault => exact absurd hw (not_wellFormed_of_gap (gap_of_ofNodes h))
  · intro g h
    obtain ⟨hsound, rfl⟩ := sound_of_ofNodes h
    refine ⟨rfl, rfl, hsound.width, ?_⟩
    intro u v
    rw [hsound.index, mem_targets_indexed, reachable_indexed]
    constructor
    · rintro ⟨⟨hu, -⟩, huv⟩
      exact ⟨hu, huv⟩
    · rintro ⟨hu, huv⟩
      obtain ⟨node, hnode, -⟩ := id huv
      exact ⟨⟨hu, (Array.getElem?_eq_some_iff.1 hnode).1⟩, huv⟩

end Graph

end ScriptRecovery
