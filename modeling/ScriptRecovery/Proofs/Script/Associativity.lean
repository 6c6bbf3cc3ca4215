import ScriptRecovery.Proofs.Script.Spans

/-!
# Merging templates in a row in either order

Of three templates in a row, the first two can be merged before the third one, or the last two
before the first.  `Template.merge_assoc` says that both give the same template, wherever the pairs
merge and the third template is closed.  The first two may be anything.

Moving placeholders up goes with replacement (`shiftInputs_substitute`), and moving them up twice is
moving them up once (`shiftInputs_shiftInputs`), also where one of the distances is zero and nothing
is done.  So the first template ends up as far above both others on either way.  That the third one
is closed is needed where the first template is put in last: it goes in place of the top value of
the merged pair, and a placeholder of the third template beyond its values could have that number.

One of the two ways is never refused without the other.  The numbers that the way over the first
pair comes to are among those of the other way, so only the latter has to stay in range, which it
does when the spans of the three templates are together below the bound of a counter.
-/

namespace ScriptRecovery

namespace Template

variable {a b c ab bc t : Template} {e : Expr} {f : Nat → Option Expr} {j k : Nat}

/-! ## Moving placeholders up -/

theorem shiftInputs_input (k i : Nat) : shiftInputs k (.input i) = .input (i + k) := by
  unfold shiftInputs
  split
  · next hk => rw [hk, Nat.add_zero]
  · rfl

/-- Moving up what a replacement gives is moving up what it puts in. -/
theorem shiftInputs_substitute :
    shiftInputs k (e.substitute f) = e.substitute fun i => some (shiftInputs k (Expr.put f i)) := by
  unfold shiftInputs
  split
  · exact e.substitute_congr fun i _ => rfl
  · rw [Expr.substitute_substitute]

theorem shiftInputs_shiftInputs :
    shiftInputs k (shiftInputs j e) = shiftInputs (j + k) e := by
  by_cases hj : j = 0
  · rw [hj, Nat.zero_add]
    rfl
  · have hdistance : j + k ≠ 0 := by omega
    have hjust : shiftInputs j e = e.substitute fun i => some (.input (i + j)) := if_neg hj
    have hboth : shiftInputs (j + k) e = e.substitute fun i => some (.input (i + (j + k))) :=
      if_neg hdistance
    rw [hjust, hboth, shiftInputs_substitute]
    simp only [Expr.put, Option.getD_some, shiftInputs_input, Nat.add_assoc]

/-- Nothing leaves its range where nothing is moved, or where every number that is moved stays
below the bound. -/
theorem shiftFits_iff : shiftFits k e = true ↔ k = 0 ∨ ∀ i ∈ e.inputs, i + k < counterBound := by
  simp [shiftFits]

/-! ## When templates merge -/

/-- An expression with another one in place of the placeholder with a number. -/
def plugged (k : Nat) (produced e : Expr) : Expr :=
  e.substitute fun i => if i = k then some produced else none

/-- What merging gives, and when. -/
theorem merge_eq_some_iff : a.merge b = .ok (some t) ↔ a.void = false ∧ ∃ k, b.inputs = k + 1 ∧
    shiftFits k a.expr = true ∧ a.inputs + k < counterBound ∧
      t = ⟨a.inputs + k, plugged k (shiftInputs k a.expr) b.expr, b.void⟩ := by
  constructor
  · intro h
    unfold merge at h
    split at h
    · cases h
    · next hmerges =>
      simp only [Bool.or_eq_true, beq_iff_eq, not_or, Bool.not_eq_true] at hmerges
      simp only at h
      split at h
      · next hfits =>
        rw [Bool.and_eq_true, decide_eq_true_eq] at hfits
        cases h
        exact ⟨hmerges.1, b.inputs - 1, by omega, hfits.1, hfits.2, rfl⟩
      · cases h
  · rintro ⟨hleaves, k, hk, hshift, hinputs, rfl⟩
    simp [merge, hleaves, hk, hshift, hinputs, plugged]

/-- Merging gives a template, unless the first leaves nothing, the second takes nothing, or a number
leaves its range. -/
theorem exists_merge (hleaves : a.void = false) (htakes : b.inputs ≠ 0)
    (hfits : a.merge b ≠ .error .counterOverflow) : ∃ t, a.merge b = .ok (some t) := by
  unfold merge at hfits ⊢
  simp only [hleaves, htakes, Bool.false_or, beq_iff_eq, if_false] at hfits ⊢
  split at hfits
  · next h => exact ⟨_, if_pos h⟩
  · exact absurd rfl hfits

/-! ## Three templates in a row -/

/-- The first of three templates ends up in the same places, whichever pair is merged first. -/
theorem plugged_plugged {kb kc : Nat} {first second third : Expr}
    (hclosed : ∀ i ∈ third.inputs, i ≤ kc) :
    plugged kc (shiftInputs kc (plugged kb (shiftInputs kb first) second)) third =
      plugged (kb + kc) (shiftInputs (kb + kc) first)
        (plugged kc (shiftInputs kc second) third) := by
  unfold plugged
  rw [Expr.substitute_substitute]
  refine third.substitute_congr fun i hi => ?_
  by_cases hik : i = kc
  · -- the top value of the third: the second with the first in it
    simp only [Expr.put, hik, if_true, Option.getD_some]
    rw [shiftInputs_substitute, substitute_shiftInputs]
    refine second.substitute_congr fun j _ => ?_
    by_cases hjk : j = kb
    · simp [Expr.put, hjk, shiftInputs_shiftInputs]
    · simp [Expr.put, hjk, shiftInputs_input]
  · -- another value of the third: it lies below what the first takes the place of
    have hlt : i < kc := Nat.lt_of_le_of_ne (hclosed i hi) hik
    have hne : i ≠ kb + kc := by omega
    simp [Expr.put, hik, hne, Expr.substitute]

/-- The numbers that a merged pair comes to when it is moved up stay in range where its second part
can be moved up, and its first part by both distances. -/
theorem shiftFits_plugged {kb kc : Nat} {first second : Expr}
    (hfirst : shiftFits (kb + kc) first = true) (hsecond : shiftFits kc second = true) :
    shiftFits kc (plugged kb (shiftInputs kb first) second) = true := by
  rw [shiftFits_iff] at hfirst hsecond ⊢
  by_cases hzero : kc = 0
  · exact .inl hzero
  refine .inr fun j hj => ?_
  rw [plugged, Expr.inputs_substitute, List.mem_flatMap] at hj
  obtain ⟨i, hi, hj⟩ := hj
  by_cases hik : i = kb
  · obtain ⟨i', hi', rfl⟩ := mem_inputs_shiftInputs (by simpa [Expr.put, hik] using hj)
    have := hfirst.resolve_left (by omega) i' hi'
    omega
  · obtain rfl : j = i := by simpa [Expr.put, hik, Expr.inputs] using hj
    exact hsecond.resolve_left hzero j hi

/-- Merging is associative: where two templates in a row merge, and the second with a closed third
one, both ways to merge all three give one and the same template, unless a number leaves its range.
None does when the spans of the three are together below the bound of a counter. -/
theorem merge_assoc (hab : a.merge b = .ok (some ab)) (hbc : b.merge c = .ok (some bc))
    (hc : c.Closed) :
    (a.merge bc ≠ .error .counterOverflow →
      ∃ t, ab.merge c = .ok (some t) ∧ a.merge bc = .ok (some t)) ∧
    (a.span + b.span + c.span < counterBound → a.merge bc ≠ .error .counterOverflow) := by
  have hspan := span_merge_le hbc
  refine ⟨fun hfits => ?_, fun hbound => merge_ne_overflow (by omega)⟩
  obtain ⟨haleaves, kb, hkb, -, -, rfl⟩ := merge_eq_some_iff.1 hab
  obtain ⟨hbleaves, kc, hkc, hbshift, -, rfl⟩ := merge_eq_some_iff.1 hbc
  obtain ⟨t, ht⟩ := exists_merge haleaves (by simp [hkb]) hfits
  refine ⟨t, ?_, ht⟩
  obtain ⟨-, k, hk, hashift, hinputs, rfl⟩ := merge_eq_some_iff.1 ht
  obtain rfl : k = kb + kc := by
    simp only at hk
    omega
  have hclosed : ∀ i ∈ c.expr.inputs, i ≤ kc := fun i hi => by
    have := hc i hi
    omega
  refine merge_eq_some_iff.2 ⟨hbleaves, kc, hkc, shiftFits_plugged hashift hbshift, ?_, ?_⟩
  · simp only
    omega
  · simp only [plugged_plugged hclosed, Nat.add_assoc]

/-- A template that mentions more than it takes, one that uses its top value twice, and one that
takes a value from below the two.  They span ten values together. -/
theorem merge_assoc_malformed :
    let a : Template := ⟨0, .unary .typeOf (.input 5) none, false⟩
    let b : Template := ⟨2, .binary .multiply (.input 1) (.input 1) none, false⟩
    let c : Template := ⟨2, .binary .subtract (.input 0) (.input 1) none, true⟩
    ∃ ab bc : Template, a.merge b = .ok (some ab) ∧ b.merge c = .ok (some bc) ∧ ¬a.Closed ∧
      c.Closed ∧ a.span + b.span + c.span = 10 ∧
      ∃ t, ab.merge c = .ok (some t) ∧ a.merge bc = .ok (some t) := by
  intro a b c
  have hopen : ¬a.Closed := by simp [a, Closed, Expr.inputs]
  have hc : c.Closed := by simp [c, Closed, Expr.inputs]
  have hspans : a.span + b.span + c.span = 10 := rfl
  obtain ⟨hsame, hfits⟩ := merge_assoc (a := a) (b := b) rfl rfl hc
  exact ⟨_, _, rfl, rfl, hopen, hc, hspans, hsame (hfits (hspans ▸ by decide))⟩

end Template

end ScriptRecovery
