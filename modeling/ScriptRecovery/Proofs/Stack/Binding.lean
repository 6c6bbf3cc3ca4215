import ScriptRecovery.Proofs.Arena.Edits
import ScriptRecovery.Proofs.Stack.Simulation
import ScriptRecovery.Stack.Elimination

/-!
# The edits that bind pushes

Applying substitutions to an arena that represents a tree makes it represent a tree with the forms
of `Rose.bound`.  `SyntaxTree.Ready` is the invariant: the nodes of the edits left are in the tree,
and no push comes before a pop.  What every edit keeps is the tree that the edits left will make.
An edit replaces a node by what `Rose.bound` puts there, and numbers that are new have no edits.

The only fault is that the temporaries run out.
-/

namespace ScriptRecovery

open Rose

/-! ## Trees with temporaries -/

namespace Rose

variable {f f' : Nat → Option Nat}

mutual

theorem bound_congr : ∀ (r : Rose (Nat × Form)), (∀ n ∈ r.numbers, f n = f' n) →
    r.bound f = r.bound f'
  | .node (n, form) parts, h => by
      rw [numbers_node] at h
      have hparts := boundAll_congr parts fun m hm => h m (List.mem_cons_of_mem _ hm)
      rw [bound, bound, h n (by simp), hparts]

theorem boundAll_congr : ∀ (rs : List (Rose (Nat × Form))),
    (∀ n ∈ rs.flatMap numbers, f n = f' n) → boundAll f rs = boundAll f' rs
  | [], _ => rfl
  | r :: rs, h => by
      rw [List.flatMap_cons] at h
      rw [boundAll, boundAll, bound_congr r fun n hn => h n (by simp [hn]),
        boundAll_congr rs fun n hn => h n (List.mem_append_right _ hn)]

end

mutual

theorem bound_none : ∀ (r : Rose (Nat × Form)), (∀ n ∈ r.numbers, f n = none) →
    r.bound f = r.forms
  | .node (n, form) parts, h => by
      rw [numbers_node] at h
      rw [bound_of_none (h n (by simp)), forms_node,
        boundAll_none parts fun m hm => h m (List.mem_cons_of_mem _ hm)]

theorem boundAll_none : ∀ (rs : List (Rose (Nat × Form))),
    (∀ n ∈ rs.flatMap numbers, f n = none) → boundAll f rs = rs.map forms
  | [], _ => rfl
  | r :: rs, h => by
      rw [List.flatMap_cons] at h
      rw [boundAll, List.map_cons, bound_none r fun n hn => h n (by simp [hn]),
        boundAll_none rs fun n hn => h n (List.mem_append_right _ hn)]

end

/-- In the same place, trees that become the same make the whole the same. -/
theorem bound_plug {C : Context (Nat × Form)} {r r' : Rose (Nat × Form)}
    (h : r.bound f = r'.bound f')
    (hC : ∀ n ∈ C.before.map Prod.fst ++ C.after.map Prod.fst, f n = f' n) :
    (C.plug r).bound f = (C.plug r').bound f' := by
  induction C with
  | nil => exact h
  | cons c C ih =>
    obtain ⟨⟨n, form⟩, left, right⟩ := c
    simp only [Context.before, Context.after, List.map_append, List.map_cons, List.mem_append,
      List.mem_cons] at hC
    have hleft : boundAll f left = boundAll f' left := boundAll_congr left fun m hm => by
      refine hC m (.inl (.inl (.inr ?_)))
      rwa [labelsAll_eq_flatMap, List.map_flatMap]
    have hright : boundAll f right = boundAll f' right := boundAll_congr right fun m hm => by
      refine hC m (.inr (.inr ?_))
      rwa [labelsAll_eq_flatMap, List.map_flatMap]
    have hmid := ih fun m hm => hC m (by rw [List.mem_append] at hm; tauto)
    have hparts : boundAll f (left ++ Context.plug C r :: right) =
        boundAll f' (left ++ Context.plug C r' :: right) := by
      rw [boundAll_eq_map, boundAll_eq_map] at hleft hright ⊢
      simp only [List.map_append, List.map_cons, hleft, hright, hmid]
    rw [Context.plug, Context.plug, bound, bound, hparts, hC n (.inl (.inl (.inl rfl)))]

end Rose

/-! ## Applying the edits -/

theorem Outcome.toExcept_ofEdits {σ α : Type} {f : σ → α → Except Fault σ} {s : σ}
    {found : List α} :
    (Outcome.ofEdits f s (.ok found)).toExcept = (Outcome.applyAll f s found).toExcept := by
  cases found <;> rfl

namespace SyntaxTree

/-- The nodes that edits replace, with the temporaries put there. -/
def targets (subs : List Substitution) : List (Nat × Nat) :=
  subs.filterMap fun
    | .take _ => none
    | .pop n id | .push n id => some (n, id)

@[simp] theorem targets_take {n : Nat} {subs : List Substitution} :
    targets (.take n :: subs) = targets subs := rfl

@[simp] theorem targets_pop {n id : Nat} {subs : List Substitution} :
    targets (.pop n id :: subs) = (n, id) :: targets subs := rfl

@[simp] theorem targets_push {n id : Nat} {subs : List Substitution} :
    targets (.push n id :: subs) = (n, id) :: targets subs := rfl

theorem mem_targets {subs : List Substitution} {n id : Nat} : (n, id) ∈ targets subs ↔
    .pop n id ∈ subs ∨ .push n id ∈ subs := by
  unfold targets
  rw [List.mem_filterMap]
  constructor
  · rintro ⟨sub, hsub, heq⟩
    cases sub with
    | take m => cases heq
    | pop m id' => cases heq; exact .inl hsub
    | push m id' => cases heq; exact .inr hsub
  · rintro (h | h)
    · exact ⟨_, h, rfl⟩
    · exact ⟨_, h, rfl⟩

/-- The node that an edit is about. -/
def Substitution.node : Substitution → Nat
  | .take n | .pop n _ | .push n _ => n

/-- Whether an edit replaces a push. -/
def Substitution.isPush : Substitution → Bool
  | .push .. => true
  | .take _ | .pop .. => false

/-- An arena that represents a script, with edits that can be applied to it. -/
structure Ready (t : SyntaxTree) (r : Rose (Nat × Form)) (subs : List Substitution) : Prop
    extends Editable t r where
  nodup : ((targets subs).map Prod.fst).Nodup
  take : ∀ {n : Nat}, .take n ∈ subs → ∃ loc, (n, ⟨.push, loc⟩) ∈ r.labels
  pop : ∀ {n id : Nat}, .pop n id ∈ subs → ∃ loc, (n, ⟨.atom .pop, loc⟩) ∈ r.labels
  push : ∀ {n id : Nat}, .push n id ∈ subs → ∃ loc, (n, ⟨.push, loc⟩) ∈ r.labels
  order : subs.Pairwise fun a b => Substitution.isPush a = true → Substitution.isPush b = true

variable {t : SyntaxTree} {r : Rose (Nat × Form)} {subs : List Substitution}

/-- The tree that edits make. -/
def made (subs : List Substitution) (r : Rose (Nat × Form)) : Rose Form :=
  r.bound fun n => (targets subs).lookup n

theorem lookup_eq_none {l : List (Nat × Nat)} {n : Nat} (h : n ∉ l.map Prod.fst) :
    l.lookup n = none := by
  rw [List.lookup_eq_none_iff]
  intro p hp
  rw [bne_iff_ne]
  rintro rfl
  exact h (List.mem_map_of_mem hp)

theorem lookup_targets_eq_none {n : Nat} (h : ∀ sub ∈ subs, sub.node ≠ n) :
    (targets subs).lookup n = none := by
  refine lookup_eq_none fun hn => ?_
  obtain ⟨⟨m, id⟩, hm, rfl⟩ := List.mem_map.1 hn
  rcases mem_targets.1 hm with hm | hm <;> exact h _ hm rfl

theorem lookup_cons {l : List (Nat × Nat)} {n id m : Nat} :
    List.lookup m ((n, id) :: l) = if m = n then some id else l.lookup m := by
  rw [List.lookup_cons]
  by_cases h : m = n
  · simp [h]
  · rw [if_neg h, show (m == n) = false by simpa using h]

/-- Another node in the same place leaves the labels around it. -/
theorem mem_labels_of_ne {C : Context (Nat × Form)} {x : Nat × Form} {r' : Rose (Nat × Form)}
    (h : x ∈ (C.plug r).labels) (hx : x ∉ r.labels) : x ∈ (C.plug r').labels := by
  rw [labels_plug, List.mem_append, List.mem_append] at h ⊢
  tauto

theorem currentScope_cases (t : SyntaxTree) (n : Nat) :
    t.currentScope n = .error .counterOverflow ∨ ∃ s, t.currentScope n = .ok s := by
  unfold currentScope
  split
  · exact .inr ⟨_, rfl⟩
  · dsimp only
    split
    · exact .inr ⟨_, rfl⟩
    · split
      · exact .inr ⟨_, rfl⟩
      · exact .inl rfl

/-- Taking a temporary changes the scope of the script alone, unless the temporaries run out. -/
theorem Editable.freshTemporary_cases (h : t.Editable r) {n : Nat} (hn : n ∈ r.numbers) :
    t.freshTemporary n = .error .counterOverflow ∨
      ∃ id s, t.freshTemporary n = .ok (id, t.keepScope root s) := by
  rw [freshTemporary, h.represents.useScope_eq h.wellFormed h.category hn]
  rcases currentScope_cases t root with hs | ⟨s, hs⟩
  · left
    rw [hs]
    rfl
  · rw [hs]
    by_cases hf : s.fits 1 = true
    · right
      exact ⟨s.next, s.advance 1, by simp [Scope.fresh, hf, Except.bind]⟩
    · left
      simp [Scope.fresh, hf, Except.bind]

/-- A node that is replaced is replaced once. -/
theorem Ready.not_mem_targets {sub : Substitution} {n id : Nat} (h : Ready t r (sub :: subs))
    (hsub : targets (sub :: subs) = (n, id) :: targets subs) (id' : Nat) :
    (n, id') ∉ targets subs := by
  have hnodup := h.nodup
  rw [hsub, List.map_cons, List.nodup_cons] at hnodup
  exact fun hm => hnodup.1 (List.mem_map.2 ⟨_, hm, rfl⟩)

/-- What is left of the edits goes with a tree in which the first one is done, if it is about other
nodes. -/
theorem Ready.tail {sub : Substitution} {C : Context (Nat × Form)} {t' : SyntaxTree}
    {new : Rose (Nat × Form)} (h : Ready t (C.plug r) (sub :: subs))
    (hother : ∀ n ∈ r.numbers, ∀ sub' ∈ subs, sub'.node ≠ n) (ht : t'.Editable (C.plug new)) :
    Ready t' (C.plug new) subs := by
  have keep : ∀ {sub' : Substitution} {form : Form}, sub' ∈ subs →
      (sub'.node, form) ∈ (C.plug r).labels → (sub'.node, form) ∈ (C.plug new).labels :=
    fun hsub' hl => mem_labels_of_ne hl fun hr => hother _ (List.mem_map_of_mem hr) _ hsub' rfl
  have hnodup : ((targets subs).map Prod.fst).Nodup := by
    refine h.nodup.sublist (List.Sublist.map _ ?_)
    exact List.Sublist.filterMap _ (List.sublist_cons_self sub subs)
  exact {
    toEditable := ht
    nodup := hnodup
    take := fun hm => (h.take (List.mem_cons_of_mem _ hm)).imp fun _ => keep hm
    pop := fun hm => (h.pop (List.mem_cons_of_mem _ hm)).imp fun _ => keep hm
    push := fun hm => (h.push (List.mem_cons_of_mem _ hm)).imp fun _ => keep hm
    order := (List.pairwise_cons.1 h.order).2 }

/-- A push that is taken leaves the tree. -/
theorem Ready.substitute_take {n : Nat} (h : Ready t r (.take n :: subs)) :
    t.substitute (.take n) = .error .counterOverflow ∨
      ∃ t', t.substitute (.take n) = .ok t' ∧ Ready t' r subs := by
  obtain ⟨loc, hl⟩ := h.take List.mem_cons_self
  rcases h.freshTemporary_cases (List.mem_map_of_mem hl) with hf | ⟨id, s, hf⟩
  · left
    simp [SyntaxTree.substitute, hf, bind, Except.bind]
  · right
    refine ⟨t.keepScope root s, by
      simp [SyntaxTree.substitute, hf, bind, Except.bind, pure, Except.pure], ?_⟩
    exact ⟨h.toEditable.keepScope root s, h.nodup,
      fun hn => h.take (List.mem_cons_of_mem _ hn), fun hn => h.pop (List.mem_cons_of_mem _ hn),
      fun hn => h.push (List.mem_cons_of_mem _ hn), (List.pairwise_cons.1 h.order).2⟩

/-- A temporary takes the place of a pop. -/
theorem Ready.substitute_pop {n id : Nat} (h : Ready t r (.pop n id :: subs)) :
    ∃ t' r', t.substitute (.pop n id) = .ok t' ∧ Ready t' r' subs ∧
      made subs r' = made (.pop n id :: subs) r := by
  obtain ⟨loc, hl⟩ := h.pop List.mem_cons_self
  obtain ⟨C, parts, rfl, hne⟩ := h.represents.exists_plug hl
  obtain rfl : parts = [] := by
    simpa [Kind.admits, mapAll_eq_map] using h.of_plug.admits
  obtain ⟨t', hok, ht'⟩ := h.toEditable.replace_eq_ok (Expr.wellFormed_rose (.temporary id)) rfl
  have hother : ∀ sub ∈ subs, sub.node ≠ n := by
    rintro sub hsub rfl
    cases sub with
    | take n =>
      -- a pop is not a push
      obtain ⟨loc', hl'⟩ := h.take (List.mem_cons_of_mem _ hsub)
      cases h.represents.eq_of_number hl hl' rfl
    | pop n id' => exact h.not_mem_targets rfl id' (mem_targets.2 (.inl hsub))
    | push n id' => exact h.not_mem_targets rfl id' (mem_targets.2 (.inr hsub))
  refine ⟨t', _, hok, h.tail (fun m hm => ?_) ht', bound_plug ?_ fun m hm => ?_⟩
  · obtain rfl : m = n := by simpa [numbers_node] using hm
    exact hother
  · simp only [Expr.temporary, Expr.rose, tagged, taggedAll]
    rw [bound_of_other (by simp) (by simp), bound, targets_pop, lookup_cons, if_pos rfl]
    rfl
  · rw [targets_pop, lookup_cons, if_neg (hne m hm)]

/-- After an edit that replaces a push, every edit is about a statement. -/
theorem Ready.exists_push {n id : Nat} (h : Ready t r (.push n id :: subs)) {sub : Substitution}
    (hsub : sub ∈ subs) :
    sub.node ≠ n ∧ ∃ loc, (sub.node, (⟨.push, loc⟩ : Form)) ∈ r.labels := by
  have hpush := (List.pairwise_cons.1 h.order).1 sub hsub rfl
  cases sub with
  | take m => cases hpush
  | pop m id' => cases hpush
  | push m id' =>
    refine ⟨?_, h.push (List.mem_cons_of_mem _ hsub)⟩
    rintro rfl
    exact h.not_mem_targets rfl id' (mem_targets.2 (.inr hsub))

/-- An assignment takes the place of a push. -/
theorem Ready.substitute_push {n id : Nat} (h : Ready t r (.push n id :: subs)) :
    ∃ t' r', t.substitute (.push n id) = .ok t' ∧ Ready t' r' subs ∧
      made subs r' = made (.push n id :: subs) r := by
  obtain ⟨loc, hl⟩ := h.push List.mem_cons_self
  obtain ⟨C, parts, rfl, hne⟩ := h.represents.exists_plug hl
  obtain ⟨v, e, rfl, -, he, hev, hquiet⟩ := h.of_plug.exists_operand fun _ h => h
  obtain ⟨link, hheld, -⟩ := h.represents.holds.plug
  have hnodup := h.represents.nodup_plug.1
  have hread : t.statement n = .ok (.push e loc) :=
    hheld.readAs_eq_ok hnodup rfl (by
      rw [forms_node]
      simp [Stmt.ofRose?, he])
  obtain ⟨t', hok, ht'⟩ := h.toEditable.replace_eq_ok
    (Stmt.wellFormed_rose (.expression (.assign (.temporary id none) e) none)) rfl
  -- what is left of the edits is about statements, and none of them is in the value
  have hvalue : ∀ m ∈ v.numbers, ∀ sub ∈ subs, sub.node ≠ m := by
    rintro m hm sub hsub rfl
    obtain ⟨-, loc', hl'⟩ := h.exists_push hsub
    obtain ⟨x, hx, heq⟩ := List.mem_map.1 hm
    have hxr : x ∈ (C.plug (.node (n, ⟨.push, loc⟩) [v])).labels := by
      rw [labels_plug, labels_node]
      simp [labelsAll, hx]
    rw [h.represents.eq_of_number hxr hl' heq] at hx
    exact hquiet _ hx rfl
  have hself : ∀ sub ∈ subs, sub.node ≠ n := fun sub hsub => (h.exists_push hsub).1
  refine ⟨t', _, ?_, h.tail (fun m hm => ?_) ht', bound_plug ?_ fun m hm => ?_⟩
  · simp only [SyntaxTree.substitute, hread, bind, Except.bind]
    exact hok
  · rw [numbers_node, List.flatMap_singleton, List.mem_cons] at hm
    rcases hm with rfl | hm
    · exact hself
    · exact hvalue m hm
  · rw [bound_none, forms_tagged, bound, targets_push, lookup_cons, if_pos rfl]
    · simp only [boundAll]
      rw [bound_none v fun m hm => ?_, ← hev]
      · rfl
      · rw [lookup_cons, if_neg, lookup_targets_eq_none (hvalue m hm)]
        rintro rfl
        exact (nodup_part hnodup v (by simp)).2 hm
    · intro m hm
      refine lookup_targets_eq_none fun sub hsub => ?_
      rw [numbers_tagged, List.mem_cons, List.mem_range'_1] at hm
      rcases hm with rfl | ⟨hle, -⟩
      · exact hself sub hsub
      · -- the numbers of the new parts are not in use
        obtain ⟨_, loc', hl'⟩ := h.exists_push hsub
        have := h.represents.holds.lt_size sub.node (List.mem_map_of_mem hl')
        omega
  · rw [targets_push, lookup_cons, if_neg (hne m hm)]

/-- One edit leaves the tree that the edits make. -/
theorem Ready.substitute {sub : Substitution} (h : Ready t r (sub :: subs)) :
    t.substitute sub = .error .counterOverflow ∨
      ∃ t' r', t.substitute sub = .ok t' ∧ Ready t' r' subs ∧
        made subs r' = made (sub :: subs) r := by
  cases sub with
  | take n => exact h.substitute_take.imp_right fun ⟨t', hok, ht'⟩ => ⟨t', r, hok, ht', rfl⟩
  | pop n id => exact .inr h.substitute_pop
  | push n id => exact .inr h.substitute_push

/-- Edits make the tree that they are to make, unless the temporaries run out. -/
theorem Ready.applyAll (h : Ready t r subs) :
    (∃ t', Outcome.applyAll SyntaxTree.substitute t subs = ⟨t', .error .counterOverflow⟩) ∨
      ∃ t' r', Outcome.applyAll SyntaxTree.substitute t subs = ⟨t', .ok true⟩ ∧ Ready t' r' [] ∧
        r'.forms = made subs r := by
  induction subs generalizing t r with
  | nil => exact .inr ⟨t, r, rfl, h, (bound_none r fun _ _ => rfl).symm⟩
  | cons sub subs ih =>
    rcases h.substitute with herr | ⟨t', r', hok, hready, hmade⟩
    · exact .inl ⟨t, by simp [Outcome.applyAll, herr, Outcome.failed]⟩
    · simp only [Outcome.applyAll, hok, ← hmade]
      exact ih hready

end SyntaxTree

end ScriptRecovery
