import ScriptRecovery.Action.Basic
import ScriptRecovery.Proofs.Stack.Freshness

/-!
# Room for the temporaries of an elimination

An elimination takes one temporary for each push that it eliminates, and the first is behind all
that the script names.  So it does not run out of them when there is room behind those of the
script for one temporary for each of its pushes (`SyntaxTree.bindPushes_fits`).

The edits are followed with the source that the script holds after the first of them.  An edit that
takes a temporary moves the source on by one, and one that writes leaves it
(`SyntaxTree.Ready.substitute_fits`).
-/

namespace ScriptRecovery

open Rose

/-- The number of pushes in a script. -/
def Script.pushes (s : Script) : Nat := s.rose.labels.countP fun form => form.kind = .push

namespace SyntaxTree

variable {t : SyntaxTree} {r : Rose (Nat × Form)} {s : Scope} {sub : Substitution}
  {subs : List Substitution}

/-! ## The temporaries that edits take -/

/-- The number of temporaries that an edit takes. -/
def Substitution.taken : Substitution → Nat
  | .take _ => 1
  | .pop .. | .push .. => 0

theorem taken_map_pop {ns : List Nat} {id : Nat} :
    total Substitution.taken (ns.map fun n => .pop n id) = 0 := by
  induction ns with
  | nil => rfl
  | cons n ns ih => rw [List.map_cons, total, ih, Substitution.taken]

theorem taken_popEdits {first : Nat} {pairs : List (Nat × List Nat)} :
    total Substitution.taken (popEdits first pairs) = pairs.length := by
  induction pairs generalizing first with
  | nil => rfl
  | cons p pairs ih =>
    rw [popEdits_cons, List.cons_append, total, total_append, taken_map_pop, ih,
      Substitution.taken, List.length_cons]
    omega

theorem taken_pushEdits {first : Nat} {pairs : List (Nat × List Nat)} :
    total Substitution.taken (pushEdits first pairs) = 0 := by
  induction pairs generalizing first with
  | nil => rfl
  | cons p pairs ih => rw [pushEdits_cons, total, ih, Substitution.taken]

/-- An elimination takes one temporary for each push that it eliminates. -/
theorem taken_substitutions {first : Nat} {pairs : List (Nat × List Nat)} :
    total Substitution.taken (substitutions first pairs) = pairs.length := by
  rw [substitutions_eq, total_append, taken_popEdits, taken_pushEdits, Nat.add_zero]

/-! ## Edits with room -/

/-- A temporary is taken from the source when there is one. -/
theorem Editable.freshTemporary_eq (h : t.Editable r) {n : Nat} (hn : n ∈ r.numbers)
    (hs : t.currentScope root = .ok s) (hroom : s.next + 1 < counterBound) :
    t.freshTemporary n = .ok (s.next, t.keepScope root (s.advance 1)) := by
  have hfits : s.fits 1 = true := by rwa [Scope.fits, decide_eq_true_eq]
  rw [freshTemporary, h.represents.useScope_eq h.wellFormed h.category hn, hs]
  simp [Scope.fresh, hfits, Except.bind]

/-- An edit that takes a temporary moves the source on. -/
theorem Ready.take_fits {n : Nat} (h : Ready t r (.take n :: subs)) (ht : ∃ r', t.Tidy r')
    (hs : t.currentScope root = .ok s) (hroom : s.next + 1 < counterBound) :
    ∃ t', t.substitute (.take n) = .ok t' ∧ Ready t' r subs ∧ (∃ r', t'.Tidy r') ∧
      t'.scope? root = some (s.advance 1) := by
  obtain ⟨loc, hl⟩ := h.take List.mem_cons_self
  have hfresh := h.toEditable.freshTemporary_eq (List.mem_map_of_mem hl) hs hroom
  have hok : t.substitute (.take n) = .ok (t.keepScope root (s.advance 1)) := by
    simp [SyntaxTree.substitute, hfresh, bind, Except.bind, pure, Except.pure]
  rcases h.substitute_take with herror | ⟨t', hok', hready⟩
  · cases herror.symm.trans hok
  · obtain rfl := Except.ok.inj (hok.symm.trans hok')
    exact ⟨_, hok, hready, ht.imp fun _ ht => ht.keepScope _, scope?_keepScope⟩

/-- An edit leaves the source behind what it takes. -/
theorem Ready.substitute_fits (h : Ready t r (sub :: subs)) (ht : ∃ r', t.Tidy r')
    (hs : t.scope? root = some s) (hroom : s.next + sub.taken < counterBound) :
    ∃ t' r', t.substitute sub = .ok t' ∧ Ready t' r' subs ∧ (∃ r', t'.Tidy r') ∧
      t'.scope? root = some (s.advance sub.taken) := by
  obtain ⟨r', ht⟩ := ht
  cases sub with
  | take n =>
    have hcurrent : t.currentScope root = .ok s := by rw [currentScope, hs]
    obtain ⟨t', hok, hready, ht', hs'⟩ := h.take_fits ⟨r', ht⟩ hcurrent hroom
    exact ⟨t', r, hok, hready, ht', hs'⟩
  | pop n id =>
    obtain ⟨t', r', hok, hready, -⟩ := h.substitute_pop
    obtain ⟨ht', hscopes, -⟩ := ht.temporaries_of_replace (Expr.wellFormed_rose _)
      (Expr.category_rose _) hok
    exact ⟨t', r', hok, hready, ht', by rw [scope?, hscopes]; exact hs⟩
  | push n id =>
    obtain ⟨t', r', hok, hready, -⟩ := h.substitute_push
    obtain ⟨stmt, -, hwrite⟩ := bind_eq_ok.1 hok
    split at hwrite
    · obtain ⟨ht', hscopes, -⟩ := ht.temporaries_of_replace (Stmt.wellFormed_rose _)
        (Stmt.category_rose _) hwrite
      exact ⟨t', r', hok, hready, ht', by rw [scope?, hscopes]; exact hs⟩
    · cases hwrite

/-- Edits go on to the last one when there is room for the temporaries that they take. -/
theorem Ready.applyAll_fits (h : Ready t r subs) (ht : ∃ r', t.Tidy r')
    (hs : t.scope? root = some s)
    (hroom : s.next + total Substitution.taken subs < counterBound) :
    ∃ t', Outcome.applyAll SyntaxTree.substitute t subs = ⟨t', .ok true⟩ := by
  induction subs generalizing t r s with
  | nil => exact ⟨t, rfl⟩
  | cons sub subs ih =>
    rw [total] at hroom
    obtain ⟨t', r', hok, hready, ht', hs'⟩ := h.substitute_fits ht hs (by omega)
    simp only [Outcome.applyAll, hok]
    exact ih hready ht' hs' (by simp only [Scope.advance]; omega)

/-! ## Eliminations with room -/

/-- There are no more pushes to eliminate than there are pushes. -/
theorem length_firsts_le {usage : List (Passage StackState)} {out : StackState}
    (h : t.Represents r) (ht : StackState.rule.thread [] r = .ok (out, usage)) :
    (t.firsts usage).length ≤ r.labels.countP fun x => x.2.kind = .push := by
  have hsub : t.firsts usage ⊆ (r.labels.filter fun x => x.2.kind = .push).map Prod.fst := by
    intro n hn
    obtain ⟨loc, hl⟩ := push_of_mem_firsts h ht hn
    exact List.mem_map_of_mem (List.mem_filter.2 ⟨hl, by simp⟩)
  calc (t.firsts usage).length
      ≤ ((r.labels.filter fun x => x.2.kind = .push).map Prod.fst).length :=
        (nodup_firsts.subperm hsub).length_le
    _ = r.labels.countP fun x => x.2.kind = .push := by
        rw [List.length_map, List.countP_eq_length_filter]

/-- The first source of a script starts where its temporaries end, or before. -/
theorem Represents.currentScope_fits (h : t.Represents r) (hs : t.scope? SyntaxTree.root = none)
    {k : Nat}
    (hold : ∀ x ∈ r.labels, ∀ id, x.2.kind.temporary? = some id → id < k)
    (hroom : k < counterBound) : ∃ s, t.currentScope SyntaxTree.root = .ok s ∧ s.next ≤ k := by
  have hbelow : ((t.branch? SyntaxTree.root).map Rose.labels).getD [] = r.labels := h.nodes
  rw [currentScope, hs]
  simp only [hbelow]
  cases hmax : (r.labels.filterMap fun x => x.2.kind.temporary?).max? with
  | none => exact ⟨{}, rfl, Nat.zero_le _⟩
  | some greatest =>
    obtain ⟨x, hx, hid⟩ := List.mem_filterMap.1 (List.max?_mem hmax)
    have hlt := hold x hx _ hid
    have hfits : greatest + 1 < counterBound := by omega
    simp only [if_pos hfits]
    exact ⟨_, rfl, hlt⟩

/-- An elimination does not run out of temporaries when there is room for one for each push. -/
theorem Tidy.bindPushes_fits (ht : t.Tidy r) (hreaders : t.readers = [])
    (hs : t.scope? root = none) {k : Nat}
    (hold : ∀ x ∈ r.labels, ∀ id, x.2.kind.temporary? = some id → id < k)
    (hroom : k + (r.labels.countP fun x => x.2.kind = .push) < counterBound) :
    t.bindPushes.toExcept ≠ .error .counterOverflow := by
  have he : t.Editable r := ht.editable hreaders
  have hr := he.represents
  obtain ⟨s, hcurrent, hle⟩ := hr.currentScope_fits hs hold (by omega)
  unfold bindPushes eliminations
  rw [hr.stackUsage_eq]
  cases hthread : StackState.rule.thread [] r with
  | error fault =>
    obtain ⟨x, -, -, rfl⟩ := Rule.thread_error r hthread
    intro hfault
    cases hfault
  | ok res =>
    obtain ⟨out, usage⟩ := res
    have hready : Ready t r (t.edits usage s.next) := ready_edits he hthread
    have hfirsts : (t.pushPops usage).length ≤ r.labels.countP fun x => x.2.kind = .push := by
      rw [pushPops_eq, List.length_map]
      exact length_firsts_le hr hthread
    simp only [Except.map, bind, Except.bind, pure, Except.pure, hcurrent]
    cases hpairs : t.pushPops usage with
    | nil =>
      intro hfault
      cases hfault
    | cons p pairs =>
      simp only [List.isEmpty_cons, Bool.false_eq_true, if_false]
      rw [edits, hpairs] at hready
      rw [hpairs, List.length_cons] at hfirsts
      have htaken : total Substitution.taken (substitutions s.next (p :: pairs)) =
          pairs.length + 1 := taken_substitutions
      obtain ⟨subs, hsubs, -⟩ := substitutions_cons s.next p pairs
      rw [hsubs] at hready htaken ⊢
      rw [total, Substitution.taken] at htaken
      obtain ⟨t', hok, hready', ht', hs'⟩ := hready.take_fits ⟨r, ht⟩ hcurrent (by omega)
      obtain ⟨t'', happly⟩ := hready'.applyAll_fits ht' hs' (by simp only [Scope.advance]; omega)
      rw [Outcome.toExcept_ofEdits]
      simp only [Outcome.applyAll, hok, happly]
      intro hfault
      cases hfault

/-- Binding the pushes of a script does not run out of temporaries when there is room behind those
that it names for one for each of its pushes. -/
theorem bindPushes_fits {script : Script} {k : Nat} (hold : ∀ id ∈ script.temporaries, id < k)
    (hroom : k + script.pushes < counterBound) :
    (ofScript script).bindPushes.toExcept ≠ .error .counterOverflow := by
  have hforms : (script.rose.tagged 0 1).forms = script.rose := forms_tagged _
  refine (tidy_ofScript script).bindPushes_fits rfl rfl (fun x hx id hid => hold id ?_) ?_
  · rw [Script.temporaries, ← hforms, forms, labels_map, List.filterMap_map]
    exact List.mem_filterMap.2 ⟨x, hx, hid⟩
  · rw [Script.pushes, ← hforms, forms, labels_map, List.countP_map] at hroom
    exact hroom

end SyntaxTree

end ScriptRecovery
