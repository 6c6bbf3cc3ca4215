import ScriptRecovery.Script.Template

/-!
# Templates that draw their values in order

The templates of reduction are of one shape.  Their placeholders occur once each, in order, and
nothing but placeholders is evaluated before the last of them (`Expr.Draws`).  The one function that
they call is the trace function, the name of which is not evaluated.  So it does not matter
that a merged template evaluates the first of its two expressions in the midst of the second: what
the second has evaluated by then are values that have been there all along.

`Template.Formed.merge` says that merging keeps this shape.
-/

namespace ScriptRecovery

/-- An expression that evaluates the placeholders from one number up to another in order, and
before the last of them nothing else. -/
inductive Expr.Draws (traceName : String) : Nat → Nat → Expr → Prop
  | input {i : Nat} : Draws traceName i (i + 1) (.input i)
  | operand {i : Nat} (v : Operand) : Draws traceName i i v.toExpr
  | unary {i j : Nat} {op : UnaryOperator} {e : Expr} : Draws traceName i j e →
      Draws traceName i j (.unary op e none)
  | right {i j : Nat} {op : BinaryOperator} {e : Expr} : Draws traceName (i + 1) j e →
      Draws traceName i j (.binary op (.input i) e none)
  | left {i j : Nat} {op : BinaryOperator} {e e' : Expr} : Draws traceName i j e →
      Draws traceName j j e' → Draws traceName i j (.binary op e e' none)
  | call {i j : Nat} {e : Expr} : Draws traceName i j e →
      Draws traceName i j (.call (.identifier traceName) [e] none)

/-- A template that draws as many values as it takes. -/
def Template.Formed (traceName : String) (t : Template) : Prop :=
  t.expr.Draws traceName 0 t.inputs

/-- An operand is an atom. -/
theorem Operand.toExpr_eq_atom (v : Operand) : ∃ a, v.toExpr = .atom a none := by
  cases v <;> exact ⟨_, rfl⟩

namespace Expr

variable {traceName : String} {i j k : Nat} {e p : Expr} {f : Nat → Option Expr}

theorem substitute_operand (v : Operand) : v.toExpr.substitute f = v.toExpr := by
  obtain ⟨a, ha⟩ := v.toExpr_eq_atom
  rw [ha]
  rfl

theorem substitute_call (name : String) (e : Expr) :
    (Expr.call (.identifier name) [e] none).substitute f =
      .call (.identifier name) [e.substitute f] none := by
  rfl

namespace Draws

theorem le (h : e.Draws traceName i j) : i ≤ j := by
  induction h with
  | input => omega
  | operand => exact Nat.le_refl _
  | unary _ ih => exact ih
  | right _ ih => omega
  | left _ _ ih _ => exact ih
  | call _ ih => exact ih

/-- Replacing nothing that is drawn changes nothing. -/
theorem substitute_eq_self (h : e.Draws traceName i j)
    (hf : ∀ x, i ≤ x → x < j → f x = none) :
    e.substitute f = e := by
  induction h with
  | input => simp [substitute, hf _ (Nat.le_refl _) (Nat.lt_succ_self _)]
  | operand v => exact substitute_operand v
  | unary _ ih => rw [substitute, ih hf]
  | right h ih =>
    have := h.le
    rw [substitute, ih fun x hx hlt => hf x (by omega) hlt, substitute,
      hf _ (Nat.le_refl _) (by omega)]
    rfl
  | left h₁ _ ih₁ ih₂ =>
    rw [substitute, ih₁ hf, ih₂ fun x hx hlt => absurd hlt (by omega)]
  | call _ ih => rw [substitute_call, ih hf]

/-- Moving the placeholders up moves what is drawn. -/
theorem shift (h : e.Draws traceName i j) (s : Nat) :
    (e.substitute fun x => some (.input (x + s))).Draws traceName (i + s) (j + s) := by
  induction h with
  | @input i =>
    rw [show i + 1 + s = i + s + 1 by omega]
    exact .input
  | operand v =>
    rw [substitute_operand]
    exact .operand v
  | unary _ ih => exact .unary ih
  | @right i j op e _ ih =>
    rw [show i + 1 + s = i + s + 1 by omega] at ih
    exact .right ih
  | left _ _ ih₁ ih₂ => exact .left ih₁ ih₂
  | call _ ih =>
    rw [substitute_call]
    exact .call ih

theorem shiftInputs (h : e.Draws traceName i j) (s : Nat) :
    (Template.shiftInputs s e).Draws traceName (i + s) (j + s) := by
  unfold Template.shiftInputs
  split
  · next hs =>
    subst hs
    exact h
  · exact h.shift s

/-- An expression that draws nothing draws nothing from any number on. -/
theorem closed (h : e.Draws traceName i j) (hij : j ≤ i) (k : Nat) : e.Draws traceName k k := by
  induction h with
  | input => omega
  | operand v => exact .operand v
  | unary _ ih => exact .unary (ih hij)
  | right h _ =>
    have := h.le
    omega
  | left h₁ h₂ ih₁ ih₂ =>
    have := h₁.le
    have := h₂.le
    exact .left (ih₁ (by omega)) (ih₂ (by omega))
  | call _ ih => exact .call (ih hij)

/-- Putting an expression in place of the last value drawn draws its values instead. -/
theorem substitute_last (h : e.Draws traceName i j) (hj : j = k + 1) (hik : i ≤ k) {l : Nat}
    (hp : p.Draws traceName k l) :
    (e.substitute fun x => if x = k then some p else none).Draws traceName i l := by
  induction h with
  | @input i =>
    obtain rfl : i = k := by omega
    simpa [substitute] using hp
  | operand v => omega
  | unary _ ih => exact .unary (ih hj hik)
  | @right i j op e h ih =>
    rcases Nat.eq_or_lt_of_le hik with rfl | hlt
    · rw [substitute, h.substitute_eq_self fun x hx _ => if_neg (by omega)]
      exact .left (by simpa [substitute] using hp) (h.closed (by omega) l)
    · rw [substitute, substitute, if_neg (by omega)]
      exact .right (ih hj hlt)
  | @left i j op e e' h₁ h₂ ih₁ ih₂ =>
    rw [substitute, h₂.substitute_eq_self fun x hx _ => if_neg (by omega)]
    exact .left (ih₁ hj hik) (h₂.closed (Nat.le_refl _) l)
  | call _ ih =>
    rw [substitute_call]
    exact .call (ih hj hik)

end Draws

end Expr

namespace Template

/-- What merging gives is the second template over what the first one leaves. -/
theorem merge_eq_ok {t₁ t₂ t : Template} (h : t₁.merge t₂ = .ok (some t)) :
    t₁.void = false ∧ ∃ k, t₂.inputs = k + 1 ∧ t.inputs = t₁.inputs + k ∧ t.void = t₂.void ∧
      t.expr =
        t₂.expr.substitute fun x => if x = k then some (shiftInputs k t₁.expr) else none := by
  unfold merge at h
  split at h
  · cases h
  · next hmerge =>
    simp only at h
    split at h
    · simp only [Bool.or_eq_true, beq_iff_eq, not_or, Bool.not_eq_true] at hmerge
      cases h
      exact ⟨hmerge.1, t₂.inputs - 1, by omega, rfl, rfl, rfl⟩
    · cases h

/-- Merging fails only when a counter is at the end of its range. -/
theorem merge_error {t₁ t₂ : Template} {fault : Fault} (h : t₁.merge t₂ = .error fault) :
    fault = .counterOverflow := by
  unfold merge at h
  split at h
  · cases h
  · simp only at h
    split at h
    · cases h
    · cases h
      rfl

variable {traceName : String}

theorem formed_value (v : Operand) : (value v.toExpr).Formed traceName := .operand v

/-- A merged template draws its values in order. -/
theorem Formed.merge {t₁ t₂ t : Template} (h₁ : t₁.Formed traceName) (h₂ : t₂.Formed traceName)
    (h : t₁.merge t₂ = .ok (some t)) : t.Formed traceName := by
  obtain ⟨-, k, hk, hinputs, -, hexpr⟩ := merge_eq_ok h
  unfold Formed at h₁ h₂ ⊢
  rw [hexpr, hinputs]
  refine h₂.substitute_last hk (Nat.zero_le _) ?_
  have := h₁.shiftInputs k
  rwa [Nat.zero_add] at this

end Template

end ScriptRecovery
