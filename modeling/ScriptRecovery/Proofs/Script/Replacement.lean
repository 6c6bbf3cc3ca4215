import ScriptRecovery.Proofs.Arena.Flattening
import ScriptRecovery.Proofs.Script.Substitution
import ScriptRecovery.Script.Visit

/-!
# Replacement is simultaneous

A visit of the parts of an expression replaces its placeholders all at once
(`Expr.resolved_simultaneous`).  It asks for the placeholders as they stand, from left to right, and
for nothing else, so an expression that is put in is not searched.  Two replacements in a row are
one, by what the second makes of the first.

What is replaced is said of the tree of an expression, where a placeholder is a node like any other
and the parts of a target are below the target.  The placeholders are read off its labels in
preorder (`Rose.placeholders`), and an expression is put in by one rule for all nodes
(`Rose.grafted`).  Trees tell expressions apart, so this leaves one expression only.
-/

namespace ScriptRecovery

open Rose

/-- The placeholder that a kind is. -/
def Kind.input? : Kind → Option Nat
  | .input i => some i
  | _ => none

theorem Kind.input?_eq_some {k : Kind} {i : Nat} : k.input? = some i ↔ k = .input i := by
  cases k <;> simp [input?]

variable {f : Nat → Option Expr}

/-! ## Placeholders of a tree -/

/-- The placeholders among the labels of a tree. -/
def Rose.placeholders (r : Rose Form) : List Nat := r.labels.filterMap fun form => form.kind.input?

mutual

theorem Expr.inputs_eq : (e : Expr) → e.inputs = e.rose.placeholders
  | .atom .. | .input _ => rfl
  | .unary _ a _ | .lookup a _ | .propertyName a _ | .initArray a _ | .initObject a _ => by
      simp [Expr.inputs, Expr.rose, Rose.placeholders, Rose.labelsAll, Kind.input?, a.inputs_eq]
  | .binary _ a b _ | .logical _ a b _ | .member a b _ => by
      simp [Expr.inputs, Expr.rose, Rose.placeholders, Rose.labelsAll, Kind.input?, a.inputs_eq,
        b.inputs_eq]
  | .assignment _ t a _ => by
      simp [Expr.inputs, Expr.rose, Rose.placeholders, Rose.labelsAll, Kind.input?, t.inputs_eq,
        a.inputs_eq]
  | .call a es _ => by
      simp [Expr.inputs, Expr.rose, Rose.placeholders, Rose.labelsAll, Kind.input?, a.inputs_eq,
        Expr.inputsAll_eq es]
  | .sequence es _ => by
      simp [Expr.inputs, Expr.rose, Rose.placeholders, Kind.input?, Expr.inputsAll_eq es]
  | .conditional a b c _ => by
      simp [Expr.inputs, Expr.rose, Rose.placeholders, Rose.labelsAll, Kind.input?, a.inputs_eq,
        b.inputs_eq, c.inputs_eq]

theorem Target.inputs_eq : (t : Target) → t.inputs = t.rose.placeholders
  | .identifier .. | .register .. | .temporary .. => rfl
  | .member a b _ => by
      simp [Target.inputs, Target.rose, Rose.placeholders, Rose.labelsAll, Kind.input?,
        a.inputs_eq, b.inputs_eq]

theorem Expr.inputsAll_eq : (es : List Expr) →
    Expr.inputsAll es = (Rose.labelsAll (Expr.roses es)).filterMap fun form => form.kind.input?
  | [] => rfl
  | e :: es => by
      simp [Expr.inputsAll, Expr.roses, Rose.labelsAll, e.inputs_eq, Expr.inputsAll_eq es,
        Rose.placeholders]

end

/-! ## Expressions in place of placeholders -/

mutual

/-- A tree with the trees of expressions in place of the placeholders that there is one for. -/
def Rose.grafted (f : Nat → Option Expr) : Rose Form → Rose Form
  | .node form parts =>
      match form.kind.input?.bind f with
      | some e => e.rose
      | none => .node form (graftedAll f parts)

/-- Trees in a row with the trees of expressions in place of placeholders. -/
def Rose.graftedAll (f : Nat → Option Expr) : List (Rose Form) → List (Rose Form)
  | [] => []
  | r :: rs => r.grafted f :: graftedAll f rs

end

theorem Rose.graftedAll_eq_map (rs : List (Rose Form)) : graftedAll f rs = rs.map (grafted f) := by
  induction rs with
  | nil => rfl
  | cons r rs ih => rw [graftedAll, ih, List.map_cons]

mutual

theorem Expr.rose_substitute : (e : Expr) → (e.substitute f).rose = e.rose.grafted f
  | .atom .. => by simp [Expr.substitute, Expr.rose, grafted, graftedAll, Kind.input?]
  | .input i => by
      simp only [Expr.substitute, Expr.rose, grafted, Kind.input?, Option.bind_some]
      cases f i <;> rfl
  | .unary _ a _ | .lookup a _ | .propertyName a _ | .initArray a _ | .initObject a _ => by
      simp [Expr.substitute, Expr.rose, grafted, graftedAll, Kind.input?, a.rose_substitute]
  | .binary _ a b _ | .logical _ a b _ | .member a b _ => by
      simp [Expr.substitute, Expr.rose, grafted, graftedAll, Kind.input?, a.rose_substitute,
        b.rose_substitute]
  | .assignment _ t a _ => by
      simp [Expr.substitute, Expr.rose, grafted, graftedAll, Kind.input?, t.rose_substitute,
        a.rose_substitute]
  | .call a es _ => by
      simp [Expr.substitute, Expr.rose, grafted, graftedAll, Kind.input?, a.rose_substitute,
        Expr.roses_substituteAll es]
  | .sequence es _ => by
      simp [Expr.substitute, Expr.rose, grafted, Kind.input?, Expr.roses_substituteAll es]
  | .conditional a b c _ => by
      simp [Expr.substitute, Expr.rose, grafted, graftedAll, Kind.input?, a.rose_substitute,
        b.rose_substitute, c.rose_substitute]

theorem Target.rose_substitute : (t : Target) → (t.substitute f).rose = t.rose.grafted f
  | .identifier .. | .register .. | .temporary .. => by
      simp [Target.substitute, Target.rose, grafted, graftedAll, Kind.input?]
  | .member a b _ => by
      simp [Target.substitute, Target.rose, grafted, graftedAll, Kind.input?, a.rose_substitute,
        b.rose_substitute]

theorem Expr.roses_substituteAll : (es : List Expr) →
    Expr.roses (Expr.substituteAll f es) = graftedAll f (Expr.roses es)
  | [] => rfl
  | e :: es => by
      simp only [Expr.substituteAll, Expr.roses, graftedAll, e.rose_substitute,
        Expr.roses_substituteAll es]

end

/-! ## Visits -/

/-- Whether a computation asks for some placeholders, in order, and answers with a value. -/
def Asks {α : Type} (x : StateM (List Nat) α) (inputs : List Nat) (a : α) : Prop :=
  ∀ asked, x.run asked = (a, asked ++ inputs)

theorem Asks.pure {α : Type} (a : α) : Asks (pure a) [] a := fun asked => by
  rw [List.append_nil]
  rfl

theorem Asks.bind {α β : Type} {x : StateM (List Nat) α} {k : α → StateM (List Nat) β} {a : α}
    {b : β} {is js : List Nat} (hx : Asks x is a) (hk : Asks (k a) js b) :
    Asks (x >>= k) (is ++ js) b := fun asked => by
  rw [StateT.run_bind, hx asked, ← List.append_assoc]
  exact hk (asked ++ is)

/-- The last of several computations, the answer of which completes the whole. -/
theorem Asks.map {α β : Type} {x : StateM (List Nat) α} {a : α} {is : List Nat} (hx : Asks x is a)
    (k : α → β) : Asks (do return k (← x)) is (k a) := by
  have hlast : Asks (do return k (← x)) (is ++ []) (k a) := hx.bind (.pure (k a))
  rwa [List.append_nil] at hlast

theorem Expr.asks_visitAll : {es : List Expr} →
    {visit : (c : Expr) → c ∈ es → StateM (List Nat) Expr} →
    (∀ c hc, Asks (visit c hc) c.inputs (c.substitute f)) →
    Asks (Expr.visitAll es visit) (Expr.inputsAll es) (Expr.substituteAll f es)
  | [], _, _ => .pure []
  | e :: es, visit, h => by
      have hes := Expr.asks_visitAll fun c hc => h c (.tail _ hc)
      rw [Expr.visitAll_cons]
      exact (h e _).bind (hes.map _)

theorem Target.asks_visitChildren {t : Target}
    {visit : (c : Expr) → c ∈ t.children → StateM (List Nat) Expr}
    (h : ∀ c hc, Asks (visit c hc) c.inputs (c.substitute f)) :
    Asks (t.visitChildren visit) t.inputs (t.substitute f) := by
  cases t with
  | identifier | register | temporary => exact .pure _
  | member base key => exact (h base _).bind ((h key _).map _)

/-- A visit that replaces the placeholders of every part replaces those of the whole, and asks for
them in order. -/
theorem Expr.asks_visitChildren {e : Expr} (he : ∀ i, e ≠ .input i)
    {visit : (c : Expr) → c ∈ e.children → StateM (List Nat) Expr}
    (h : ∀ c hc, Asks (visit c hc) c.inputs (c.substitute f)) :
    Asks (e.visitChildren visit) e.inputs (e.substitute f) := by
  cases e with
  | input i => exact absurd rfl (he i)
  | atom => exact .pure _
  | unary _ a | lookup a | propertyName a | initArray a | initObject a => exact (h a _).map _
  | binary _ a b | logical _ a b | member a b => exact (h a _).bind ((h b _).map _)
  | assignment _ t a =>
    exact (Target.asks_visitChildren fun c hc => h c _).bind ((h a _).map _)
  | call a es => exact (h a _).bind ((asks_visitAll fun c hc => h c _).map _)
  | sequence es => exact (asks_visitAll h).map _
  | conditional a b c =>
    rw [inputs, List.append_assoc]
    exact (h a _).bind ((h b _).bind ((h c _).map _))

theorem Expr.asks_noting (f : Nat → Option Expr) (i : Nat) : Asks (noting f i) [i] (f i) :=
  fun _ => rfl

/-- All the way down, the placeholders are asked for as they are listed. -/
theorem Expr.asks_resolveInputs (f : Nat → Option Expr) (e : Expr) :
    Asks (e.resolveInputs (noting f)) e.inputs (e.substitute f) := by
  induction e using resolveInputs.induct with
  | case1 i =>
    rw [resolveInputs]
    exact (asks_noting f i).map _
  | case2 e he ih =>
    rw [resolveInputs]
    · exact asks_visitChildren he ih
    · exact he

/-! ## Replacement -/

/-- What two replacements in a row put in place of a placeholder. -/
def Expr.andThen (f g : Nat → Option Expr) (i : Nat) : Option Expr :=
  match f i with
  | some e => some (e.substitute g)
  | none => g i

/-- Replacement is simultaneous.  It asks for the placeholders of the expression, from left to right
and for no others, and gives the expression with what was answered in their places and nothing else
changed.  Two replacements in a row are one, which puts in what the second makes of the first. -/
theorem Expr.resolved_simultaneous (f : Nat → Option Expr) (e : Expr) :
    e.resolved f = (e.substitute f, e.rose.placeholders) ∧
      (∀ e', e' = e.substitute f ↔ e'.rose = e.rose.grafted f) ∧
      ∀ g, (e.substitute f).substitute g = e.substitute (andThen f g) := by
  refine ⟨?_, fun e' => ?_, fun g => ?_⟩
  · rw [← inputs_eq]
    exact e.asks_resolveInputs f []
  · rw [← e.rose_substitute]
    exact rose_injective.eq_iff.symm
  · rw [substitute_substitute]
    refine e.substitute_congr fun i _ => ?_
    cases h : f i <;> simp [put, andThen, h, substitute]

/-- What is put in place of the base of a target is not searched, and neither is the key asked for
twice. -/
example : (Expr.assign (.member (.input 0) (.input 1) none) (.input 2)).resolved
      (fun i => if i = 0 then some (.input 1) else none) =
    (.assign (.member (.input 1) (.input 1) none) (.input 2), [0, 1, 2]) := by
  cbv

end ScriptRecovery
