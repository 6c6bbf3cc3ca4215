import ScriptRecovery.Proofs.Script.Draws

/-!
# Placeholders under replacement

Replacement looks at the placeholders of an expression and at nothing else
(`Expr.substitute_congr`), so the placeholders that are left are those of what was put in
(`Expr.inputs_substitute`), and one replacement after another is one that puts in what the second
makes of the first (`Expr.substitute_substitute`).  Each is one induction over expressions, targets
and lists of expressions.

A template is closed when it mentions no placeholder beyond the values it takes
(`Template.Closed`).  Merging keeps templates closed.
-/

namespace ScriptRecovery

variable {f f' : Nat → Option Expr}

/-- What stands in place of a placeholder after a replacement. -/
def Expr.put (f : Nat → Option Expr) (i : Nat) : Expr := (f i).getD (.input i)

/-! ## What is looked at -/

mutual

theorem Expr.substitute_congr : (e : Expr) → (∀ i ∈ e.inputs, Expr.put f i = Expr.put f' i) →
    e.substitute f = e.substitute f'
  | .atom .., _ => rfl
  | .input i, h => h i (by simp [Expr.inputs])
  | .unary _ a _, h | .lookup a _, h | .propertyName a _, h | .initArray a _, h
  | .initObject a _, h => by
      simp only [Expr.inputs] at h
      simp only [Expr.substitute, a.substitute_congr h]
  | .binary _ a b _, h | .logical _ a b _, h | .member a b _, h => by
      simp only [Expr.inputs, List.forall_mem_append] at h
      simp only [Expr.substitute, a.substitute_congr h.1, b.substitute_congr h.2]
  | .assignment _ t a _, h => by
      simp only [Expr.inputs, List.forall_mem_append] at h
      simp only [Expr.substitute, t.substitute_congr h.1, a.substitute_congr h.2]
  | .call a es _, h => by
      simp only [Expr.inputs, List.forall_mem_append] at h
      simp only [Expr.substitute, a.substitute_congr h.1, Expr.substituteAll_congr es h.2]
  | .sequence es _, h => by
      simp only [Expr.inputs] at h
      simp only [Expr.substitute, Expr.substituteAll_congr es h]
  | .conditional a b c _, h => by
      simp only [Expr.inputs, List.forall_mem_append] at h
      simp only [Expr.substitute, a.substitute_congr h.1.1, b.substitute_congr h.1.2,
        c.substitute_congr h.2]

theorem Target.substitute_congr : (t : Target) → (∀ i ∈ t.inputs, Expr.put f i = Expr.put f' i) →
    t.substitute f = t.substitute f'
  | .identifier .., _ | .register .., _ | .temporary .., _ => rfl
  | .member a b _, h => by
      simp only [Target.inputs, List.forall_mem_append] at h
      simp only [Target.substitute, a.substitute_congr h.1, b.substitute_congr h.2]

theorem Expr.substituteAll_congr : (es : List Expr) →
    (∀ i ∈ Expr.inputsAll es, Expr.put f i = Expr.put f' i) →
    Expr.substituteAll f es = Expr.substituteAll f' es
  | [], _ => rfl
  | e :: es, h => by
      simp only [Expr.inputsAll, List.forall_mem_append] at h
      simp only [Expr.substituteAll, e.substitute_congr h.1, Expr.substituteAll_congr es h.2]

end

/-! ## What is left -/

mutual

theorem Expr.inputs_substitute : (e : Expr) →
    (e.substitute f).inputs = e.inputs.flatMap fun i => (Expr.put f i).inputs
  | .atom .. => rfl
  | .input i => by simp [Expr.substitute, Expr.inputs, Expr.put]
  | .unary _ a _ | .lookup a _ | .propertyName a _ | .initArray a _ | .initObject a _ => by
      simp only [Expr.substitute, Expr.inputs, a.inputs_substitute]
  | .binary _ a b _ | .logical _ a b _ | .member a b _ => by
      simp only [Expr.substitute, Expr.inputs, a.inputs_substitute, b.inputs_substitute,
        List.flatMap_append]
  | .assignment _ t a _ => by
      simp only [Expr.substitute, Expr.inputs, t.inputs_substitute, a.inputs_substitute,
        List.flatMap_append]
  | .call a es _ => by
      simp only [Expr.substitute, Expr.inputs, a.inputs_substitute, Expr.inputsAll_substitute es,
        List.flatMap_append]
  | .sequence es _ => by
      simp only [Expr.substitute, Expr.inputs, Expr.inputsAll_substitute es]
  | .conditional a b c _ => by
      simp only [Expr.substitute, Expr.inputs, a.inputs_substitute, b.inputs_substitute,
        c.inputs_substitute, List.flatMap_append]

theorem Target.inputs_substitute : (t : Target) →
    (t.substitute f).inputs = t.inputs.flatMap fun i => (Expr.put f i).inputs
  | .identifier .. | .register .. | .temporary .. => rfl
  | .member a b _ => by
      simp only [Target.substitute, Target.inputs, a.inputs_substitute, b.inputs_substitute,
        List.flatMap_append]

theorem Expr.inputsAll_substitute : (es : List Expr) →
    Expr.inputsAll (Expr.substituteAll f es) =
      (Expr.inputsAll es).flatMap fun i => (Expr.put f i).inputs
  | [] => rfl
  | e :: es => by
      simp only [Expr.substituteAll, Expr.inputsAll, e.inputs_substitute,
        Expr.inputsAll_substitute es, List.flatMap_append]

end

/-! ## One replacement after another -/

mutual

theorem Expr.substitute_substitute : (e : Expr) →
    (e.substitute f).substitute f' = e.substitute fun i => some ((Expr.put f i).substitute f')
  | .atom .. | .input _ => rfl
  | .unary _ a _ | .lookup a _ | .propertyName a _ | .initArray a _ | .initObject a _ => by
      simp only [Expr.substitute, a.substitute_substitute]
  | .binary _ a b _ | .logical _ a b _ | .member a b _ => by
      simp only [Expr.substitute, a.substitute_substitute, b.substitute_substitute]
  | .assignment _ t a _ => by
      simp only [Expr.substitute, t.substitute_substitute, a.substitute_substitute]
  | .call a es _ => by
      simp only [Expr.substitute, a.substitute_substitute, Expr.substituteAll_substituteAll es]
  | .sequence es _ => by
      simp only [Expr.substitute, Expr.substituteAll_substituteAll es]
  | .conditional a b c _ => by
      simp only [Expr.substitute, a.substitute_substitute, b.substitute_substitute,
        c.substitute_substitute]

theorem Target.substitute_substitute : (t : Target) →
    (t.substitute f).substitute f' = t.substitute fun i => some ((Expr.put f i).substitute f')
  | .identifier .. | .register .. | .temporary .. => rfl
  | .member a b _ => by
      simp only [Target.substitute, a.substitute_substitute, b.substitute_substitute]

theorem Expr.substituteAll_substituteAll : (es : List Expr) →
    Expr.substituteAll f' (Expr.substituteAll f es) =
      Expr.substituteAll (fun i => some ((Expr.put f i).substitute f')) es
  | [] => rfl
  | e :: es => by
      simp only [Expr.substituteAll, e.substitute_substitute, Expr.substituteAll_substituteAll es]

end

/-! ## Closed templates -/

namespace Template

/-- Whether a template mentions no placeholder beyond the values it takes. -/
def Closed (t : Template) : Prop := ∀ i ∈ t.expr.inputs, i < t.inputs

/-- A replacement after placeholders are moved up. -/
theorem substitute_shiftInputs (k : Nat) (e : Expr) :
    (shiftInputs k e).substitute f = e.substitute fun i => some (Expr.put f (i + k)) := by
  unfold shiftInputs
  split
  · next hk => exact e.substitute_congr fun i _ => by simp [Expr.put, hk]
  · rw [Expr.substitute_substitute]
    rfl

theorem mem_inputs_shiftInputs {j k : Nat} {e : Expr} (h : j ∈ (shiftInputs k e).inputs) :
    ∃ i ∈ e.inputs, j = i + k := by
  unfold shiftInputs at h
  split at h
  · next hk => exact ⟨j, h, by omega⟩
  · simpa [Expr.inputs_substitute, Expr.put, Expr.inputs] using h

/-- Merging keeps templates closed. -/
theorem Closed.merge {t₁ t₂ t : Template} (h₁ : t₁.Closed) (h₂ : t₂.Closed)
    (h : t₁.merge t₂ = .ok (some t)) : t.Closed := by
  obtain ⟨-, k, hk, hinputs, -, hexpr⟩ := merge_eq_ok h
  intro j hj
  rw [hexpr, Expr.inputs_substitute, List.mem_flatMap] at hj
  obtain ⟨i, hi, hj⟩ := hj
  have hlt := h₂ i hi
  by_cases hik : i = k
  · obtain ⟨i', hi', rfl⟩ := mem_inputs_shiftInputs (by simpa [Expr.put, hik] using hj)
    have := h₁ i' hi'
    omega
  · obtain rfl : j = i := by simpa [Expr.put, hik, Expr.inputs] using hj
    omega

end Template

end ScriptRecovery
