import ScriptRecovery.Proofs.Script.Substitution

/-!
# How far the numbers of a template go

Merging moves the placeholders of one template up by the values that another one takes.  The span
of a template (`Template.span`) is above every number in it, so moving up stays below the bound of
a counter where the spans of both do (`Template.merge_ne_overflow`).  The span of a merged template
is at most those of its two parts together (`Template.span_merge_le`), and so a row of templates
merges in any order when all of its spans together are below the bound.
-/

namespace ScriptRecovery

namespace Template

variable {a b t : Template} {i n : Nat}

/-- The least number that is above every placeholder and not below the number of values taken. -/
def span (t : Template) : Nat := t.expr.inputs.foldr (fun i s => max (i + 1) s) t.inputs

theorem span_le_iff : t.span ≤ n ↔ t.inputs ≤ n ∧ ∀ i ∈ t.expr.inputs, i < n := by
  unfold span
  induction t.expr.inputs with
  | nil => simp
  | cons i is ih =>
    rw [List.foldr_cons, Nat.max_le, ih, List.forall_mem_cons, Nat.add_one_le_iff]
    exact and_left_comm

theorem inputs_le_span (t : Template) : t.inputs ≤ t.span := (span_le_iff.1 (Nat.le_refl _)).1

theorem lt_span (h : i ∈ t.expr.inputs) : i < t.span := (span_le_iff.1 (Nat.le_refl _)).2 i h

/-- Templates whose spans are together below the bound of a counter merge without one that leaves
its range. -/
theorem merge_ne_overflow (h : a.span + b.span < counterBound) :
    a.merge b ≠ .error .counterOverflow := by
  have hinputs := a.inputs_le_span
  have hdistance := b.inputs_le_span
  have hshift : shiftFits (b.inputs - 1) a.expr = true := by
    rw [shiftFits, Bool.or_eq_true, List.all_eq_true]
    right
    intro i hi
    have := lt_span hi
    rw [decide_eq_true_eq]
    omega
  have hsum : a.inputs + (b.inputs - 1) < counterBound := by omega
  unfold merge
  split
  · nofun
  · simp [hshift, hsum]

/-- A merged template spans no more than its two parts together. -/
theorem span_merge_le (h : a.merge b = .ok (some t)) : t.span ≤ a.span + b.span := by
  obtain ⟨-, k, hk, hinputs, -, hexpr⟩ := merge_eq_ok h
  have ha := a.inputs_le_span
  have hb := b.inputs_le_span
  rw [span_le_iff]
  constructor
  · omega
  · intro j hj
    rw [hexpr, Expr.inputs_substitute, List.mem_flatMap] at hj
    obtain ⟨i, hi, hj⟩ := hj
    have := lt_span hi
    by_cases hik : i = k
    · obtain ⟨i', hi', rfl⟩ := mem_inputs_shiftInputs (by simpa [Expr.put, hik] using hj)
      have := lt_span hi'
      omega
    · obtain rfl : j = i := by simpa [Expr.put, hik, Expr.inputs] using hj
      omega

end Template

end ScriptRecovery
