import ScriptRecovery.Cleanup.Sweep
import ScriptRecovery.Proofs.Arena.Walking
import ScriptRecovery.Proofs.Cleanup.Tidying

/-!
# What a walk notes

A walk that goes everywhere enters the nodes of the script in preorder, and does not fail
(`SyntaxTree.Tidy.traverse_onEnter`).  So the cleanups that walk find what the cleanups that filter
the nodes of the script find, in the same order.
-/

namespace ScriptRecovery

open Rose

variable {σ : Type}

theorem Outcome.ofEdits_ok {α : Type} {f : σ → α → Except Fault σ} {s : σ} {xs : List α} :
    Outcome.ofEdits f s (.ok xs) = if xs.isEmpty then .unchanged s else .applyAll f s xs := by
  cases xs <;> rfl

namespace Rose

mutual

/-- A walk that goes everywhere enters the nodes in preorder. -/
theorem walk_onEnter (enter : Nat → σ → σ) : ∀ (r : Rose (Nat × Form)) (s : σ),
    r.walk (SyntaxTree.onEnter enter) s =
      (.ok true, r.labels.foldl (fun s a => enter a.1 s) s)
  | .node (n, form) parts, s => by
      rw [walk, labels_node, List.foldl_cons]
      simp only [SyntaxTree.onEnter]
      rw [walkAll_onEnter enter parts]
      rfl

theorem walkAll_onEnter (enter : Nat → σ → σ) : ∀ (rs : List (Rose (Nat × Form))) (s : σ),
    walkAll (SyntaxTree.onEnter enter) s rs =
      (.ok true, (labelsAll rs).foldl (fun s a => enter a.1 s) s)
  | [], _ => rfl
  | r :: rs, s => by
      rw [walkAll, walk_onEnter enter r, onward, walkAll_onEnter enter rs, labelsAll,
        List.foldl_append]

end

end Rose

namespace SyntaxTree

variable {t : SyntaxTree} {r : Rose (Nat × Form)}

/-- A walk through a tidy arena enters the nodes of its script. -/
theorem Tidy.traverse_onEnter (h : t.Tidy r) (enter : Nat → σ → σ) (s : σ) :
    t.traverse root (onEnter enter) s = (.ok (), t.nodes.foldl (fun s a => enter a.1 s) s) := by
  have hwalk : t.walkFrom r.number (onEnter enter) s (some (.enter r.number))
      (2 * t.slots.size) = ended (r.walk (onEnter enter) s) :=
    h.represents.holds.walkFrom_eq h.represents.nodup s _ (Nat.le_refl _)
  obtain ⟨slot, hslot⟩ := Option.isSome_iff_exists.1 h.isSome_root
  rw [h.represents.root, walk_onEnter] at hwalk
  rw [SyntaxTree.traverse, SyntaxTree.slot, hslot, h.represents.nodes]
  exact hwalk

/-- What is noted of nodes in a row, when the arena knows their kinds. -/
theorem foldl_notePool {ns : List (Nat × Form)} (hk : ∀ a ∈ ns, t.kind? a.1 = some a.2.kind)
    (noted : List Nat × Bool) : ns.foldl (fun s a => t.notePool a.1 s) noted =
      (noted.1 ++ (ns.filter (definesPool ·.2.kind)).map Prod.fst,
        noted.2 || ns.any (usesPool ·.2.kind)) := by
  induction ns generalizing noted with
  | nil => simp
  | cons a ns ih =>
    obtain ⟨n, form⟩ := a
    have hnote : t.notePool n noted =
        (noted.1 ++ if definesPool form.kind then [n] else [],
          noted.2 || usesPool form.kind) := by
      rw [notePool, hk (n, form) (by simp)]
      cases hform : form.kind with
      | atom a => cases a <;> simp [definesPool, usesPool]
      | _ => simp [definesPool, usesPool]
    rw [List.foldl_cons, hnote, ih fun a ha => hk a (by simp [ha])]
    cases hdefines : definesPool form.kind <;> simp [hdefines, Bool.or_assoc]

theorem foldl_noteEmpty {ns : List (Nat × Form)} (hk : ∀ a ∈ ns, t.kind? a.1 = some a.2.kind)
    (noted : List Nat) : ns.foldl (fun s a => t.noteEmpty a.1 s) noted =
      noted ++ (ns.filter fun a => a.2.kind = .empty && t.inList a.1).map Prod.fst := by
  induction ns generalizing noted with
  | nil => simp
  | cons a ns ih =>
    rw [List.foldl_cons, ih fun a ha => hk a (by simp [ha]), noteEmpty, hk a (by simp)]
    by_cases hempty : a.2.kind = .empty
    · cases hl : t.inList a.1 <;> simp [hempty, hl]
    · simp [hempty]

/-- The cleanup that walks finds the unused definitions of the script. -/
theorem Tidy.sweepPools_eq (h : t.Tidy r) : t.sweepPools = t.dropUnusedPools := by
  have hk : ∀ a ∈ t.nodes, t.kind? a.1 = some a.2.kind := fun a ha =>
    h.represents.kind?_eq_some (h.represents.nodes ▸ ha)
  rw [sweepPools, h.traverse_onEnter, foldl_notePool hk, dropUnusedPools, unusedPools]
  simp only [List.nil_append, Bool.false_or]
  cases t.nodes.any (usesPool ·.2.kind) with
  | true => rfl
  | false =>
    simp only [Bool.false_or, Bool.false_eq_true, if_false, Outcome.ofEdits_ok,
      List.isEmpty_reverse]

/-- The cleanup that walks finds the empty statements in lists of the script. -/
theorem Tidy.sweepEmpties_eq (h : t.Tidy r) : t.sweepEmpties = t.dropEmptyStatements := by
  have hk : ∀ a ∈ t.nodes, t.kind? a.1 = some a.2.kind := fun a ha =>
    h.represents.kind?_eq_some (h.represents.nodes ▸ ha)
  rw [sweepEmpties, h.traverse_onEnter, foldl_noteEmpty hk, dropEmptyStatements, emptyStatements,
    List.nil_append]

/-! ## After the edits -/

/-- Edits that leave a tidy arena tidy, one by one, do so in a row. -/
theorem Tidy.ofEdits {edit : SyntaxTree → Nat → Except Fault SyntaxTree}
    (hedit : ∀ {t t' n r}, t.Tidy r → edit t n = .ok t' → ∃ r', t'.Tidy r') (h : t.Tidy r)
    (ns : List Nat) : ∃ r', (Outcome.ofEdits edit t (.ok ns)).state.Tidy r' := by
  have hall : ∃ r', (Outcome.applyAll edit t ns).state.Tidy r' := by
    induction ns generalizing t r with
    | nil => exact ⟨r, h⟩
    | cons n ns ih =>
      rw [Outcome.applyAll]
      cases hok : edit t n with
      | error fault => exact ⟨r, h⟩
      | ok t₁ =>
        obtain ⟨r₁, h₁⟩ := hedit h hok
        exact ih h₁
  cases ns with
  | nil => exact ⟨r, h⟩
  | cons n ns => exact hall

theorem Tidy.of_dropStatement {t' : SyntaxTree} {n : Nat} (h : t.Tidy r)
    (hok : t.dropStatement n = .ok t') : ∃ r', t'.Tidy r' := by
  rw [SyntaxTree.dropStatement] at hok
  split at hok
  · exact h.of_removeStatement hok
  · exact h.of_replace (Stmt.empty none).wellFormed_rose rfl hok

/-- What is left of the definitions of constant pools is a tidy arena. -/
theorem Tidy.dropUnusedPools (h : t.Tidy r) : ∃ r', t.dropUnusedPools.state.Tidy r' :=
  h.ofEdits Tidy.of_dropStatement _

/-- What is left of the empty statements is a tidy arena. -/
theorem Tidy.dropEmptyStatements (h : t.Tidy r) : ∃ r', t.dropEmptyStatements.state.Tidy r' :=
  h.ofEdits Tidy.of_removeStatement _

end SyntaxTree

end ScriptRecovery
