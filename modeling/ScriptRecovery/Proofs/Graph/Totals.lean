import Mathlib.Data.List.Perm.Subperm
import ScriptRecovery.Action.Basic
import ScriptRecovery.Proofs.Graph.Diamonds

/-!
# Totals over graphs

Every edge of a graph has a weight, and the graph has that of its reachable edges together
(`Graph.weight`).  A splice gives no weight to a graph when the row that is laid weighs no more than
the nodes of the region (`Spliced.weight_le`): the nodes after it are those that are kept and those
of the row, each once.
-/

namespace ScriptRecovery

section Total

variable {α β : Type} {f g : α → Nat}

theorem total_congr {xs : List α} (h : ∀ x ∈ xs, f x = g x) : total f xs = total g xs := by
  induction xs with
  | nil => rfl
  | cons x xs ih =>
    rw [List.forall_mem_cons] at h
    rw [total, total, h.1, ih h.2]

theorem total_flatMap {h : β → List α} {xs : List β} :
    total f (xs.flatMap h) = total (fun x => total f (h x)) xs := by
  induction xs with
  | nil => rfl
  | cons x xs ih => rw [List.flatMap_cons, total_append, ih, total]

theorem total_eq_of_perm {xs ys : List α} (h : xs.Perm ys) : total f xs = total f ys := by
  induction h with
  | nil => rfl
  | cons x _ ih => rw [total, total, ih]
  | swap x y xs => simp only [total, Nat.add_left_comm]
  | trans _ _ ih ih' => exact ih.trans ih'

theorem total_le_of_sublist {xs ys : List α} (h : xs.Sublist ys) : total f xs ≤ total f ys := by
  induction h with
  | slnil => exact Nat.le_refl _
  | cons y _ ih => exact Nat.le_trans ih (Nat.le_add_left _ _)
  | cons_cons x _ ih => exact Nat.add_le_add_left ih _

theorem total_mono {xs : List α} (h : ∀ x ∈ xs, f x ≤ g x) : total f xs ≤ total g xs := by
  induction xs with
  | nil => exact Nat.le_refl _
  | cons x xs ih =>
    rw [List.forall_mem_cons] at h
    exact Nat.add_le_add h.1 (ih h.2)

/-- Elements without repetition add up to no more than a list they are taken from. -/
theorem total_le_of_subset {xs ys : List α} (hxs : xs.Nodup) (h : xs ⊆ ys) :
    total f xs ≤ total f ys := by
  obtain ⟨zs, hperm, hsub⟩ := List.subperm_of_subset hxs h
  exact total_eq_of_perm hperm ▸ total_le_of_sublist hsub

end Total

namespace Graph

variable {ε : Type} {g g' : Graph ε} {w w' : ε → Nat} {n dest : Nat}

/-! ## Weights -/

/-- The weight of the edges out of a node. -/
def weightAt (w : ε → Nat) (g : Graph ε) (n : Nat) : Nat := total (fun e => w e.edge) (g.outEdges n)

/-- The weight of the reachable edges of a graph. -/
def weight (w : ε → Nat) (g : Graph ε) : Nat := total (fun e => w e.edge) g.edges

theorem weight_eq : g.weight w = total (g.weightAt w) (g.list .reversePostorder) := total_flatMap

theorem weight_mono (h : ∀ e, w e ≤ w' e) : g.weight w ≤ g.weight w' :=
  total_mono fun e _ => h e.edge

theorem weightAt_of_simple {out : Link ε} (h : g.node? n = some (.simple out)) :
    g.weightAt w n = w out.edge := by
  rw [weightAt, outEdges, show g.nodes[n]? = _ from h]
  exact Nat.add_zero _

theorem weightAt_of_branch {a b : Link ε} (h : g.node? n = some (.branch a b)) :
    g.weightAt w n = w a.edge + w b.edge := by
  rw [weightAt, outEdges, show g.nodes[n]? = _ from h]
  rfl

theorem weightAt_congr (h : g'.node? n = g.node? n) : g'.weightAt w n = g.weightAt w n := by
  unfold weightAt outEdges
  rw [show g'.nodes[n]? = g.nodes[n]? from h]

/-- Reachable nodes without repetition weigh no more than the graph. -/
theorem total_weightAt_le {ns : List Nat} (hnd : ns.Nodup) (h : ∀ m ∈ ns, g.Reachable m) :
    total (g.weightAt w) ns ≤ g.weight w :=
  weight_eq ▸ total_le_of_subset hnd fun m hm => mem_list.2 (h m hm)

/-- The nodes of a lane weigh what its edges do. -/
theorem Lane.weight {prev x : Nat} {ns : List Nat} {es : List ε} (h : g.Lane dest prev x ns es) :
    total (g.weightAt w) ns = total w es := by
  induction h with
  | done => rfl
  | step _ _ hnode _ ih => rw [total, total, weightAt_of_simple hnode, ih]

/-- A diamond weighs as much as its edges. -/
theorem Diamond.weight {e : ε} {p : Nat} {a b : Link ε} {ns ns' : List Nat} {es es' : List ε}
    (h : g.Diamond n dest e p a b ns ns' es es') : total (g.weightAt w) (n :: between p ns ns') =
      w e + (w a.edge + w b.edge) + (total w es + total w es') := by
  rw [between, total, total, total_append, weightAt_of_simple h.way, weightAt_of_branch h.branch,
    h.onTrue.weight, h.onFalse.weight]
  simp only [Nat.add_assoc]

theorem Diamond.nodup {e : ε} {p : Nat} {a b : Link ε} {ns ns' : List Nat} {es es' : List ε}
    (h : g.Diamond n dest e p a b ns ns' es es') : (n :: between p ns ns').Nodup := by
  obtain ⟨hp, hp'⟩ := h.not_mem
  have houtside : n ∉ between p ns ns' := by
    rw [mem_between, not_or, not_or]
    exact h.outside
  have hinner : p ∉ ns ++ ns' := by
    rw [List.mem_append, not_or]
    exact ⟨hp, hp'⟩
  refine List.nodup_cons.2 ⟨houtside, List.nodup_cons.2 ⟨hinner, ?_⟩⟩
  exact (h.onTrue.nodup hp).append (h.onFalse.nodup hp') h.apart

/-! ## Splices -/

/-- The nodes that a row goes through weigh what its edges do. -/
theorem Row.exists_sites {low : Nat} {es : List ε} (h : g.Row low dest n es) :
    ∃ sites : List Nat, total (g.weightAt w) sites = total w es ∧
      ∀ {pre post : List ε} {e : ε} {m : Nat}, es = pre ++ e :: post → g.Row 0 m n pre →
        m ∈ sites := by
  induction h with
  | nil => exact ⟨[], rfl, fun hsplit => by simp at hsplit⟩
  | @cons n e next es _ hnode _ ih =>
    obtain ⟨sites, hweight, hsites⟩ := ih
    refine ⟨n :: sites, by rw [total, total, weightAt_of_simple hnode, hweight], ?_⟩
    intro pre post e' m hsplit hrow
    cases hrow with
    | nil => exact List.mem_cons_self
    | cons _ hnode' hrow =>
      cases hnode.symm.trans hnode'
      exact List.mem_cons_of_mem _ (hsites (List.cons.inj hsplit).2 hrow)

/-- A splice adds no weight when the row that it lays weighs no more than what was there. -/
theorem Spliced.weight_le {gone : Nat → Prop} {row : List ε}
    (h : g.Spliced g' n dest gone row) (hg : g.Sound) (hr : g.Region n dest gone) {cut : List Nat}
    (hnd : cut.Nodup) (hcut : ∀ m, m ∈ cut ↔ m = n ∨ gone m) (hin : ∀ m ∈ cut, g.Reachable m)
    (hrow : total w row ≤ total (g.weightAt w) cut) : g'.weight w ≤ g.weight w := by
  obtain ⟨e, es, next, rfl, hnode, hlaid⟩ := h.laid
  have hway : g'.Row 0 dest n (e :: es) := .cons (Nat.zero_le _) hnode (hlaid.mono (Nat.zero_le _))
  obtain ⟨sites, hweight, hsites⟩ := hway.exists_sites (w := w)
  let kept := (g.list .reversePostorder).filter fun m => !cut.contains m
  have hkept : ∀ {m}, m ∈ kept ↔ g.Reachable m ∧ m ∉ cut := fun {m} => by simp [kept]
  have hsame : total (g'.weightAt w) kept = total (g.weightAt w) kept := by
    refine total_congr fun m hm => ?_
    obtain ⟨hm, hout⟩ := hkept.1 hm
    rw [hcut, not_or] at hout
    exact weightAt_congr (h.kept hm.lt_size hout.1 hout.2)
  have hcover : g'.list .reversePostorder ⊆ sites ++ kept := by
    intro m hm
    rw [List.mem_append, hkept]
    cases h.site hg hr (mem_list.1 hm) with
    | kept hm hgone hne _ => exact .inr ⟨hm, fun hin => ((hcut m).1 hin).elim hne hgone⟩
    | laid hsplit hpre _ _ => exact .inl (hsites hsplit hpre)
  have hdisjoint : (cut ++ kept).Nodup := by
    refine hnd.append ((nodup_reversePostorder g).filter _) fun m hm hm' => ?_
    exact (hkept.1 hm').2 hm
  calc g'.weight w
      = total (g'.weightAt w) (g'.list .reversePostorder) := weight_eq
    _ ≤ total (g'.weightAt w) (sites ++ kept) :=
        total_le_of_subset (nodup_reversePostorder g') hcover
    _ = total w (e :: es) + total (g.weightAt w) kept := by rw [total_append, hweight, hsame]
    _ ≤ total (g.weightAt w) cut + total (g.weightAt w) kept := Nat.add_le_add_right hrow _
    _ = total (g.weightAt w) (cut ++ kept) := (total_append _ _ _).symm
    _ ≤ g.weight w := total_weightAt_le hdisjoint fun m hm =>
        (List.mem_append.1 hm).elim (hin m) fun hm => (hkept.1 hm).1

end Graph

end ScriptRecovery
