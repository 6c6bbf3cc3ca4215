import ScriptRecovery.Fault

/-!
# Outcomes

A run of edits over a structure has a structure also when it fails: the edits before the one that
was refused stay.  An `Outcome` is the structure a run leaves behind, with the answer whether
it was changed or the fault that ended the run.
-/

namespace ScriptRecovery

/-- What a run leaves behind. -/
structure Outcome (σ : Type) where
  /-- The structure, also after a failure. -/
  state : σ
  /-- Whether it was changed, or why the run failed. -/
  changed : Except Fault Bool

namespace Outcome

variable {σ α : Type}

/-- A run that had nothing to do. -/
def unchanged (s : σ) : Outcome σ := ⟨s, .ok false⟩

/-- A run that failed before it changed anything. -/
def failed (s : σ) (fault : Fault) : Outcome σ := ⟨s, .error fault⟩

/-- The structure a run leaves behind, if it did not fail. -/
def toExcept (o : Outcome σ) : Except Fault σ := o.changed.map fun _ => o.state

/-- Applies edits in order, up to the first that is refused. -/
def applyAll (f : σ → α → Except Fault σ) (s : σ) : List α → Outcome σ
  | [] => ⟨s, .ok true⟩
  | x :: xs =>
      match f s x with
      | .error fault => failed s fault
      | .ok s => applyAll f s xs

/-- Applies the edits found, if there are any. -/
def ofEdits (f : σ → α → Except Fault σ) (s : σ) (found : Except Fault (List α)) : Outcome σ :=
  match found with
  | .error fault => failed s fault
  | .ok [] => unchanged s
  | .ok (x :: xs) => applyAll f s (x :: xs)

/-! ## Runs of edits -/

variable {f : σ → α → Except Fault σ}

/-- Edits in two rows are those of the first and then those of the second. -/
theorem applyAll_append (s : σ) (xs ys : List α) : applyAll f s (xs ++ ys) =
    match applyAll f s xs with
    | ⟨s', .error fault⟩ => failed s' fault
    | ⟨s', .ok _⟩ => applyAll f s' ys := by
  induction xs generalizing s with
  | nil => rfl
  | cons x xs ih =>
    rw [List.cons_append, applyAll, applyAll]
    cases f s x with
    | error fault => rfl
    | ok s' => exact ih s'

theorem applyAll_eq_ok {s s' : σ} {xs : List α} (h : (applyAll f s xs).toExcept = .ok s') :
    applyAll f s xs = ⟨s', .ok true⟩ := by
  induction xs generalizing s with
  | nil =>
    cases h
    rfl
  | cons x xs ih =>
    rw [applyAll] at h ⊢
    cases hx : f s x with
    | error fault =>
      rw [hx] at h
      cases h
    | ok s₁ =>
      rw [hx] at h
      exact ih h

/-- Edits that all succeed change something if there are any. -/
theorem ofEdits_eq_ok {s s' : σ} {xs : List α} (h : (applyAll f s xs).toExcept = .ok s') :
    ofEdits f s (.ok xs) = ⟨s', .ok !xs.isEmpty⟩ := by
  have hall := applyAll_eq_ok h
  cases xs with
  | nil =>
    cases hall
    rfl
  | cons x xs => exact hall

end Outcome

end ScriptRecovery
