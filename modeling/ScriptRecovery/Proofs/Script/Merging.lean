import ScriptRecovery.Proofs.Script.Substitution

/-!
# What a merged template does to a stack of expressions

A template can be run on expressions that have not been evaluated yet.  It takes as many of them
off the stack as it says, puts each in place of its placeholder, the topmost one in place of the
placeholder with the highest number, and leaves the result there unless it drops it
(`Template.applyTo`).  On a stack that is too short it does not run.

`Template.merge_composes` says that a merged template does what its two parts do in a row, on every
stack.  Two facts meet in it.  On the stack below, the placeholders that the first template has been
moved up to find what the first one finds by itself (`drawn_above`), and the placeholders of the
second one that have stayed find what lies below the result of the first (`drawn_below`).
-/

namespace ScriptRecovery

namespace Template

/-! ## Running a template -/

/-- What a template leaves behind. -/
structure Applied where
  /-- The stack, the topmost expression first. -/
  stack : List Expr
  /-- The expression it has built. -/
  result : Expr
  /-- Whether that expression is dropped. -/
  void : Bool

/-- What the placeholders of a template stand for over a stack. -/
def drawn (inputs : Nat) (stack : List Expr) (i : Nat) : Option Expr :=
  if i < inputs then stack[inputs - 1 - i]? else none

/-- What a template does to a stack of expressions, if there is enough on it. -/
def applyTo (t : Template) (stack : List Expr) : Option Applied :=
  if t.inputs ≤ stack.length then
    let result := t.expr.substitute (drawn t.inputs stack)
    let below := stack.drop t.inputs
    some ⟨if t.void then below else result :: below, result, t.void⟩
  else none

theorem applyTo_eq {t : Template} {stack : List Expr} (h : t.inputs ≤ stack.length) :
    t.applyTo stack = some
      ⟨if t.void then stack.drop t.inputs
        else t.expr.substitute (drawn t.inputs stack) :: stack.drop t.inputs,
        t.expr.substitute (drawn t.inputs stack), t.void⟩ :=
  if_pos h

theorem applyTo_eq_none {t : Template} {stack : List Expr} (h : stack.length < t.inputs) :
    t.applyTo stack = none :=
  if_neg (Nat.not_le.mpr h)

/-! ## What the placeholders find -/

variable {n k i : Nat} {stack : List Expr}

/-- A placeholder that is moved up above `k` more values finds what it has found before. -/
theorem drawn_above (h : i < n) : drawn (n + k) stack (i + k) = drawn n stack i := by
  have hpos : n + k - 1 - (i + k) = n - 1 - i := by omega
  rw [drawn, if_pos (by omega), drawn, if_pos h, hpos]

/-- The top of the stack is what the placeholder with the highest number finds. -/
theorem drawn_top (e : Expr) : drawn (k + 1) (e :: stack) k = some e := by
  simp [drawn]

/-- What lies below the result of a template lies below the values it has taken. -/
theorem drawn_below (e : Expr) (h : i < k) :
    drawn (k + 1) (e :: stack.drop n) i = drawn (n + k) stack i := by
  obtain ⟨d, rfl⟩ : ∃ d, k = i + d + 1 := ⟨k - i - 1, by omega⟩
  have hupper : i + d + 1 + 1 - 1 - i = d + 1 := by omega
  have hlower : n + (i + d + 1) - 1 - i = n + d := by omega
  rw [drawn, if_pos (by omega), drawn, if_pos (by omega), hupper, hlower,
    List.getElem?_cons_succ, List.getElem?_drop]

/-- A placeholder finds something when there is enough on the stack. -/
theorem drawn_eq_some (h : i < n) (hstack : n ≤ stack.length) : ∃ e, drawn n stack i = some e :=
  ⟨stack[n - 1 - i], by rw [drawn, if_pos h, List.getElem?_eq_getElem]⟩

/-! ## Two templates in a row -/

variable {t t₁ t₂ : Template}

/-- The first template, moved up, builds the expression that it builds by itself. -/
theorem substitute_shifted (h : t.Closed) (hstack : t.inputs ≤ stack.length) :
    (shiftInputs k t.expr).substitute (drawn (t.inputs + k) stack) =
      t.expr.substitute (drawn t.inputs stack) := by
  rw [substitute_shiftInputs]
  refine Expr.substitute_congr _ fun i hi => ?_
  obtain ⟨e, he⟩ := drawn_eq_some (h i hi) hstack
  simp only [Expr.put, Option.getD_some, drawn_above (h i hi), he]

/-- What a merged template builds is what the second part builds over the first one's result. -/
theorem substitute_merged (h₁ : t₁.Closed) (h₂ : t₂.Closed) (hk : t₂.inputs = k + 1)
    (hstack : t₁.inputs ≤ stack.length) :
    (t₂.expr.substitute fun x => if x = k then some (shiftInputs k t₁.expr) else none).substitute
        (drawn (t₁.inputs + k) stack) =
      t₂.expr.substitute (drawn (k + 1)
        (t₁.expr.substitute (drawn t₁.inputs stack) :: stack.drop t₁.inputs)) := by
  rw [Expr.substitute_substitute]
  refine Expr.substitute_congr _ fun i hi => ?_
  have hle : i ≤ k := by
    have := h₂ i hi
    omega
  rcases Nat.eq_or_lt_of_le hle with rfl | hlt
  · simp only [Expr.put, if_true, Option.getD_some, substitute_shifted h₁ hstack, drawn_top]
  · simp only [Expr.put, if_neg (Nat.ne_of_lt hlt), Option.getD_none, Option.getD_some,
      Expr.substitute, drawn_below _ hlt]

/-- A merged template does to a stack what its parts do in a row. -/
theorem applyTo_merged (h₁ : t₁.Closed) (h₂ : t₂.Closed) (h : t₁.merge t₂ = .ok (some t))
    (stack : List Expr) :
    t.applyTo stack = (t₁.applyTo stack).bind fun a => t₂.applyTo a.stack := by
  obtain ⟨hpush, k, hk, hinputs, hvoid, hexpr⟩ := merge_eq_ok h
  by_cases hfirst : t₁.inputs ≤ stack.length
  · have hlength : ∀ e : Expr, (e :: stack.drop t₁.inputs).length = stack.length - t₁.inputs + 1 :=
      fun e => by simp
    rw [applyTo_eq hfirst, Option.bind_some]
    simp only [hpush, Bool.false_eq_true, if_false]
    by_cases hsecond : k ≤ stack.length - t₁.inputs
    · rw [applyTo_eq (by omega), applyTo_eq (by rw [hlength]; omega), hexpr, hinputs, hvoid,
        substitute_merged h₁ h₂ hk hfirst, hk, List.drop_succ_cons, List.drop_drop]
    · rw [applyTo_eq_none (by omega), applyTo_eq_none (by rw [hlength]; omega)]
  · rw [applyTo_eq_none (by omega), applyTo_eq_none (by omega), Option.bind_none]

/-- Closed templates merge when nothing is dropped in between, something is taken, and the
numbers stay in range. -/
theorem Closed.exists_merge (h₁ : t₁.Closed) (hpush : t₁.void = false) (htakes : t₂.inputs ≠ 0)
    (hfits : t₁.inputs + (t₂.inputs - 1) < counterBound) :
    ∃ t, t₁.merge t₂ = .ok (some t) := by
  have hshift : shiftFits (t₂.inputs - 1) t₁.expr = true := by
    simp only [shiftFits, Bool.or_eq_true, List.all_eq_true, decide_eq_true_eq]
    exact .inr fun i hi => by have := h₁ i hi; omega
  simp [Template.merge, hpush, htakes, hshift, hfits]

/-- Merging refuses exactly when the first template leaves nothing or the second takes nothing. -/
theorem merge_eq_none_iff : t₁.merge t₂ = .ok none ↔ t₁.void = true ∨ t₂.inputs = 0 := by
  unfold merge
  split
  · next h => simpa using h
  · next h =>
    have hmerges : ¬(t₁.void = true ∨ t₂.inputs = 0) := by simpa using h
    simp only [hmerges, iff_false]
    split <;> simp

/-- Merging composes what templates do to the stack: it refuses exactly when the first leaves
nothing or the second takes nothing, and otherwise, unless a number leaves its range, the merged
template is closed and leaves on every stack the expressions, and builds the result, that the two
do one after the other. -/
theorem merge_composes (h₁ : t₁.Closed) (h₂ : t₂.Closed) :
    (t₁.merge t₂ = .ok none ↔ t₁.void = true ∨ t₂.inputs = 0) ∧
    (t₁.void = false → t₂.inputs ≠ 0 → t₁.inputs + (t₂.inputs - 1) < counterBound →
      ∃ t, t₁.merge t₂ = .ok (some t) ∧ t.Closed ∧
        ∀ stack, t.applyTo stack = (t₁.applyTo stack).bind fun a => t₂.applyTo a.stack) := by
  refine ⟨merge_eq_none_iff, fun hpush htakes hfits => ?_⟩
  obtain ⟨t, ht⟩ := h₁.exists_merge hpush htakes hfits
  exact ⟨t, ht, h₁.merge h₂ ht, applyTo_merged h₁ h₂ ht⟩

/-- The difference of two values, the second of which is used twice by what comes after: the two
merge, and the merged template does what they do in a row.  The one that drops its value does not
merge with the other behind it. -/
theorem merge_composes_twice :
    let difference : Template := ⟨2, .binary .subtract (.input 0) (.input 1) none, false⟩
    let square : Template := ⟨2, .binary .multiply (.input 1) (.input 1) none, true⟩
    (difference.Closed ∧ square.Closed) ∧ square.merge difference = .ok none ∧
      ∃ t, difference.merge square = .ok (some t) ∧ t.inputs = 3 ∧ t.Closed ∧
        ∀ stack, t.applyTo stack =
          (difference.applyTo stack).bind fun a => square.applyTo a.stack := by
  intro difference square
  have hdifference : difference.Closed := by simp [difference, Closed, Expr.inputs]
  have hsquare : square.Closed := by simp [square, Closed, Expr.inputs]
  obtain ⟨-, hmerges⟩ := merge_composes hdifference hsquare
  obtain ⟨t, ht, hclosed, happly⟩ := hmerges rfl (by decide) (by decide)
  have hinputs : t.inputs = 3 := by
    obtain ⟨-, k, hk, hinputs, -⟩ := merge_eq_ok ht
    simp only [difference, square] at hk hinputs
    omega
  have hdropped := (merge_composes hsquare hdifference).1.2 (.inl rfl)
  exact ⟨⟨hdifference, hsquare⟩, hdropped, t, ht, hinputs, hclosed, happly⟩

end Template

end ScriptRecovery
