import Mathlib.Data.List.Perm.Subperm
import Mathlib.Logic.Relation
import ScriptRecovery.Proofs.Graph.Spliced

/-!
# Graphs that control leaves

A graph terminates when every way from its entry ends (`Graph.Terminates`).  No splice makes a way
endless whose region leads to its exit (`Spliced.terminates`): what is cut out lies on a way between
two kept nodes, so the nodes laid there are on a way that ends as well.

A splice adds no way into a node that is kept (`Spliced.inDegree_le`), and each node of the row has
one way in (`Spliced.pred_unique`).
-/

namespace ScriptRecovery

open Relation

namespace Graph

variable {ε : Type} {g g' : Graph ε} {n dest : Nat} {gone : Nat → Prop} {row : List ε}

/-! ## Termination -/

/-- Whether a node comes next after another. -/
def Next (g : Graph ε) (m n : Nat) : Prop := m ∈ g.targets n

/-- Whether every way from the entry ends. -/
def Terminates (g : Graph ε) : Prop := Acc g.Next g.source

theorem acc_of_simple {m : Nat} {l : Link ε} (h : g.node? m = some (.simple l))
    (hl : Acc g.Next l.dest) : Acc g.Next m := by
  refine ⟨_, fun y hy => ?_⟩
  obtain rfl : y = l.dest := by simpa [Next, targets_of_simple h] using hy
  exact hl

/-- No way comes back to where it starts. -/
theorem not_transGen_self {m : Nat} (h : Acc g.Next m) : ¬TransGen g.Next m m := by
  have hacc := h.transGen
  induction hacc with
  | intro m _ ih => exact fun hm => ih m hm (h.inv_of_transGen hm) hm

/-- Nothing leads to the entry. -/
theorem Terminates.source_not_mem (h : g.Terminates) {m : Nat} (hm : g.Reachable m) :
    g.source ∉ g.targets m := by
  have hway : ReflTransGen g.Next m g.source :=
    hm.mem_of_closed (p := fun x => ReflTransGen g.Next x g.source) .refl
      fun _ hx _ hy _ => .head hy hx
  exact fun hs => not_transGen_self h (.head' hs hway)

/-- The entry of a region leads to everything in it. -/
theorem Region.transGen (hr : g.Region n dest gone) (hg : g.Sound) {m : Nat}
    (hm : g.Reachable m) (hgone : gone m) : TransGen g.Next m n := by
  have hway : g.Reachable m ∧ (gone m → TransGen g.Next m n) := by
    refine hm.mem_of_closed (p := fun x => g.Reachable x ∧ (gone x → TransGen g.Next x n))
      ⟨hg.reachable_source, fun hs => absurd hs hr.source_kept⟩ fun x hx y hy _ => ?_
    refine ⟨hg.reachable_target hx.1 hy, fun hgy => ?_⟩
    rcases hr.enclosed hgy hx.1 hy with rfl | hgx
    · exact .single hy
    · exact .head hy (hx.2 hgx)
  exact hway.2 hgone

/-- The entry of a region leads to its exit, if anything in the region does. -/
theorem Region.transGen_exit (hr : g.Region n dest gone) (hg : g.Sound)
    (hleads : ∃ u, (u = n ∨ gone u) ∧ g.Reachable u ∧ dest ∈ g.targets u) :
    TransGen g.Next dest n := by
  obtain ⟨u, rfl | hu, hreach, hdest⟩ := hleads
  · exact .single hdest
  · exact .head hdest (hr.transGen hg hreach hu)

theorem Row.acc {low m : Nat} {es : List ε} (h : g.Row low dest m es) (hd : Acc g.Next dest) :
    Acc g.Next m := by
  induction h with
  | nil => exact hd
  | cons _ hnode _ ih => exact acc_of_simple hnode ih

/-- A splice makes no way endless. -/
theorem Spliced.terminates (h : g.Spliced g' n dest gone row) (hg : g.Sound)
    (hr : g.Region n dest gone)
    (hleads : ∃ u, (u = n ∨ gone u) ∧ g.Reachable u ∧ dest ∈ g.targets u) (ht : g.Terminates) :
    g'.Terminates := by
  have hacc : ∀ {x : Nat}, Acc (TransGen g.Next) x → g.Reachable x → ¬ gone x →
      Acc g'.Next x := by
    intro x hx
    induction hx with
    | intro x _ ih =>
      intro hreach hgone
      by_cases hxn : x = n
      · subst hxn
        obtain ⟨e, es, next, -, hnode, hrow⟩ := h.laid
        have hexit := ih dest (hr.transGen_exit hg hleads) hr.exit hr.exit_kept
        exact (Row.cons (Nat.zero_le _) hnode (hrow.mono (Nat.zero_le _))).acc hexit
      · obtain ⟨hsame, htargets⟩ := h.onward hg hr hreach hgone hxn
        refine ⟨_, fun y hy => ?_⟩
        have hy : y ∈ g.targets x := (targets_congr hsame).symm ▸ hy
        exact ih y (.single hy) (htargets y hy).1 (htargets y hy).2
  show Acc g'.Next g'.source
  rw [h.source]
  exact hacc (Acc.transGen ht) hg.reachable_source hr.source_kept

/-! ## Ways into a node -/

/-- Nodes that are told apart by what belongs to them are not more than that. -/
theorem inDegree_le_length {α : Type} [Nonempty α] {x : Nat} (ws : List α) (R : Nat → α → Prop)
    (hws : ∀ m ∈ g.predecessors x, ∃ w ∈ ws, R m w)
    (hinj : ∀ {m m' : Nat} {w : α}, R m w → R m' w → m = m') : g.inDegree x ≤ ws.length := by
  choose! f hf using hws
  have hnodup : ((g.predecessors x).toList.map f).Nodup := by
    refine (Ascending.nodup_toList _).map_on fun m hm m' hm' heq => ?_
    exact hinj (hf m hm).2 (heq ▸ (hf m' hm').2)
  have hsub : (g.predecessors x).toList.map f ⊆ ws := by
    intro w hw
    obtain ⟨m, hm, rfl⟩ := List.mem_map.1 hw
    exact (hf m hm).1
  calc g.inDegree x = ((g.predecessors x).toList.map f).length := (List.length_map _).symm
    _ ≤ ws.length := (hnodup.subperm hsub).length_le

/-- A splice adds no way into a node that is kept. -/
theorem Spliced.inDegree_le (h : g.Spliced g' n dest gone row) (hg : g.Sound) (hg' : g'.Sound)
    (hr : g.Region n dest gone)
    (hleads : ∃ u, (u = n ∨ gone u) ∧ g.Reachable u ∧ dest ∈ g.targets u) {x : Nat}
    (hx : x < g.size) (hgone : ¬ gone x) : g'.inDegree x ≤ g.inDegree x := by
  by_cases hxd : x = dest
  · subst hxd
    obtain ⟨u, hu, hreach, hux⟩ := hleads
    -- the end of the row takes the place of a node that led out of the region
    refine inDegree_le_length (g.predecessors x).toList (fun m w =>
      (m = w ∧ ¬ (w = n ∨ gone w)) ∨
        (w = n ∨ gone w) ∧ ∃ pre e, row = pre ++ [e] ∧ g'.Row 0 m n pre) (fun m hm => ?_) ?_
    · obtain ⟨hm, hmx⟩ := hg'.index.1 hm
      cases h.site hg hr hm with
      | kept hm hgm hmn hsame =>
        refine ⟨m, hg.index.2 ⟨hm, ?_⟩, .inl ⟨rfl, not_or.2 ⟨hmn, hgm⟩⟩⟩
        rwa [← targets_congr hsame]
      | @laid pre e next post hrow hpre hnode hpost =>
        rw [targets_of_simple hnode, List.mem_singleton] at hmx
        subst hmx
        refine ⟨u, hg.index.2 ⟨hreach, hux⟩, .inr ⟨hu, pre, e, ?_, hpre⟩⟩
        cases hpost with
        | nil => exact hrow
        | cons hlow _ _ => exact absurd hx (Nat.not_lt.2 hlow)
    · rintro m m' w (⟨rfl, hout⟩ | ⟨hin, pre, e, hrow, hpre⟩)
        (⟨rfl, hout'⟩ | ⟨hin', pre', e', hrow', hpre'⟩)
      · rfl
      · exact absurd hin' hout
      · exact absurd hin hout'
      · obtain rfl := List.append_inj_left' (hrow.symm.trans hrow') rfl
        exact hpre.unique hpre'
  · refine inDegree_le_length (g.predecessors x).toList Eq (fun m hm => ⟨m, ?_, rfl⟩)
      fun hm hm' => hm.trans hm'.symm
    exact (h.mem_predecessors hg hg' hr hx hxd hgone).1 hm

/-- The edges of a row to a place before it are determined by where they start. -/
theorem Row.edges_unique {low m : Nat} {es es' : List ε} (h : g.Row low dest m es)
    (h' : g.Row low dest m es') (hd : dest < low) : es = es' := by
  induction h generalizing es' with
  | nil =>
    cases h' with
    | nil => rfl
    | cons hlow _ _ => exact absurd hd (Nat.not_lt.2 hlow)
  | cons hlow hnode _ ih =>
    cases h' with
    | nil => exact absurd hd (Nat.not_lt.2 hlow)
    | cons _ hnode' hrow' =>
      cases hnode.symm.trans hnode'
      rw [ih hrow']

/-- One node leads to each new node of a row. -/
theorem Spliced.pred_unique (h : g.Spliced g' n dest gone row) (hg : g.Sound) (hg' : g'.Sound)
    (hr : g.Region n dest gone) {x : Nat} (hx : g.size ≤ x) {m m' : Nat}
    (hm : m ∈ g'.predecessors x) (hm' : m' ∈ g'.predecessors x) : m = m' := by
  have hlaid : ∀ {m : Nat}, m ∈ g'.predecessors x → ∃ pre e post, row = pre ++ e :: post ∧
      g'.Row 0 m n pre ∧ g'.Row g.size dest x post := by
    intro m hm
    obtain ⟨hm, hmx⟩ := hg'.index.1 hm
    cases h.site hg hr hm with
    | kept hm _ _ hsame =>
      rw [targets_congr hsame] at hmx
      exact absurd hx (Nat.not_le.2 (hg.closed hm hmx))
    | laid hrow hpre hnode hpost =>
      rw [targets_of_simple hnode, List.mem_singleton] at hmx
      subst hmx
      exact ⟨_, _, _, hrow, hpre, hpost⟩
  obtain ⟨pre, e, post, hrow, hpre, hpost⟩ := hlaid hm
  obtain ⟨pre', e', post', hrow', hpre', hpost'⟩ := hlaid hm'
  obtain rfl := hpost.edges_unique hpost' hr.exit.lt_size
  obtain rfl := List.append_inj_left' (hrow.symm.trans hrow') rfl
  exact hpre.unique hpre'

end Graph

end ScriptRecovery
