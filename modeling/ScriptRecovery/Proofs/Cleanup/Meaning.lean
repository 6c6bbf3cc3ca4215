import ScriptRecovery.Proofs.Cleanup.Tidying
import ScriptRecovery.Proofs.Semantics.Evaluation

/-!
# Runs of scripts that are cleaned up

Two trees do the same (`Interpretation.Same`) when they end in the same way and leave the same
memory, whatever memory they start from.  That is a congruence, so it holds of two trees that differ
in one place by trees that do the same (`Interpretation.same_of_steps`).  With that, each cleanup is
about the trees of the one place.

Definitions of constant pools are taken out of scripts without pool entries only.  What such a
script does has nothing to do with the pool in force, which is then left out of the comparison.
-/

namespace ScriptRecovery

open Relation SyntaxTree

variable {V σ : Type} {loose : Prop}

/-- Whether two memories are the same, or the same but for the pool in force if this does not
matter. -/
structure Memory.Near (loose : Prop) (m m' : Memory V σ) : Prop where
  stack : m.stack = m'.stack
  state : m.state = m'.state
  temporaries : m.temporaries = m'.temporaries
  pool : ¬ loose → m.pool = m'.pool

/-- Whether two runs end in the same way with memories that are near. -/
structure Alike {α : Type} (loose : Prop) (r r' : Ending V α × Memory V σ) : Prop where
  ending : r.1 = r'.1
  near : r.2.Near loose r'.2

/-- Whether a tree has no pool entries, if the pool in force does not matter. -/
def Rose.Free (loose : Prop) (r : Rose Form) : Prop :=
  loose → ∀ form ∈ r.labels, usesPool form.kind = false

theorem Memory.Near.refl (m : Memory V σ) : m.Near loose m := ⟨rfl, rfl, rfl, fun _ => rfl⟩

theorem Memory.Near.trans {m m' m'' : Memory V σ} (h : m.Near loose m') (h' : m'.Near loose m'') :
    m.Near loose m'' :=
  ⟨h.stack.trans h'.stack, h.state.trans h'.state, h.temporaries.trans h'.temporaries,
    fun hl => (h.pool hl).trans (h'.pool hl)⟩

theorem Alike.trans {α : Type} {r r' r'' : Ending V α × Memory V σ} (h : Alike loose r r')
    (h' : Alike loose r' r'') : Alike loose r r'' :=
  ⟨h.ending.trans h'.ending, h.near.trans h'.near⟩

theorem Alike.andThen {α β : Type} {r r' : Ending V α × Memory V σ}
    {k k' : α → Memory V σ → Ending V β × Memory V σ} (h : Alike loose r r')
    (hk : ∀ {a m m'}, m.Near loose m' → Alike loose (k a m) (k' a m')) :
    Alike loose (Interpretation.andThen r k) (Interpretation.andThen r' k') := by
  rcases r with ⟨e, m⟩
  rcases r' with ⟨e', m'⟩
  obtain ⟨rfl, hm⟩ := h
  cases e with
  | done a => exact hk hm
  | returned v => exact ⟨rfl, hm⟩
  | raised v => exact ⟨rfl, hm⟩

theorem Rose.Free.parts {form : Form} {parts : List (Rose Form)}
    (h : Rose.Free loose (.node form parts)) {x : Rose Form} (hx : x ∈ parts) : x.Free loose :=
  fun hl f hf => h hl f (by
    rw [Rose.labels_node]
    exact List.mem_cons_of_mem _ (Rose.mem_labelsAll.2 ⟨x, hx, hf⟩))

namespace Interpretation

variable {I : Interpretation V σ} {m m' : Memory V σ}

/-! ## A congruence -/

/-- The own effect of a node that is no pool entry is the same for every pool. -/
theorem effect_near (hm : m.Near loose m') {k : Kind} (hk : loose → usesPool k = false)
    (as : List (Answer V)) : Alike loose (I.effect k as m) (I.effect k as m') := by
  obtain ⟨stack, pool, state, temporaries⟩ := m
  obtain ⟨stack', pool', state', temporaries'⟩ := m'
  obtain ⟨hstack, hstate, htemporaries, hpool⟩ := hm
  cases hstack
  cases hstate
  cases htemporaries
  have hassign : ∀ (op : AssignmentOperator) (a : Answer V) (v : V) (stack : List V) (state : σ),
      (I.assign op a v ⟨stack, pool, state, temporaries⟩).1 =
        (I.assign op a v ⟨stack, pool', state, temporaries⟩).1 ∧
      (I.assign op a v ⟨stack, pool, state, temporaries⟩).2.Near loose
        (I.assign op a v ⟨stack, pool', state, temporaries⟩).2 := by
    intro op a v stack state
    cases op <;> cases a <;> exact ⟨rfl, rfl, rfl, rfl, hpool⟩
  cases k with
  | atom a =>
    cases a with
    | constant index =>
      have hsame : pool = pool' := hpool fun hl => by cases hk hl
      subst hsame
      exact ⟨rfl, .refl _⟩
    | _ => exact ⟨rfl, rfl, rfl, rfl, hpool⟩
  | assignment op =>
    obtain ⟨hvalue, hnear⟩ := hassign op (as.headD .off)
      ((as.map (Answer.valueD I.undefined)).getLastD I.undefined) stack state
    exact ⟨by simp only [effect, hvalue], hnear⟩
  | stackCall => exact ⟨rfl, (hassign .simple (as.getD 2 .off) _ _ _).2⟩
  | constantPool _ => exact ⟨rfl, rfl, rfl, rfl, fun _ => rfl⟩
  | _ => exact ⟨rfl, rfl, rfl, rfl, hpool⟩

variable (I)

/-- Whether two trees do the same, also as callees. -/
structure Same (loose : Prop) (x x' : Rose Form) : Prop where
  named : I.isTrace x.label.kind = I.isTrace x'.label.kind
  exec : ∀ {m m' : Memory V σ}, m.Near loose m' → Alike loose (I.exec x m) (I.exec x' m')

variable {I} {x x' x'' : Rose Form} {parts parts' : List (Rose Form)}

theorem Same.trans (h : I.Same loose x x') (h' : I.Same loose x' x'') : I.Same loose x x'' :=
  ⟨h.named.trans h'.named, fun hm => (h.exec hm).trans (h'.exec (.refl _))⟩

theorem row_same (h : List.Forall₂ (I.Same loose) parts parts') (hm : m.Near loose m') :
    Alike loose (I.execRow parts m) (I.execRow parts' m') := by
  induction h generalizing m m' with
  | nil => exact ⟨rfl, hm⟩
  | cons hx _ ih =>
    rw [execRow, execRow]
    exact (hx.exec hm).andThen fun hm => (ih hm).andThen fun hm => ⟨rfl, hm⟩

theorem arm_same (h : List.Forall₂ (I.Same loose) parts parts') (index : Nat)
    (hm : m.Near loose m') : Alike loose (I.execArm index parts m) (I.execArm index parts' m') := by
  induction h generalizing index with
  | nil =>
    rw [execArm, execArm]
    exact ⟨rfl, hm⟩
  | cons hx _ ih =>
    cases index with
    | zero =>
      rw [execArm, execArm]
      exact hx.exec hm
    | succ index =>
      rw [execArm, execArm]
      exact ih index

/-- Nodes do the same when their parts do. -/
theorem same_node {form : Form} (hform : loose → usesPool form.kind = false)
    (h : List.Forall₂ (I.Same loose) parts parts') :
    I.Same loose (.node form parts) (.node form parts') := by
  refine ⟨rfl, fun {m m'} hm => ?_⟩
  by_cases hchoice : form.kind.isChoice = true
  · rw [exec_choice I hchoice, exec_choice I hchoice]
    cases h with
    | nil => exact ⟨rfl, hm⟩
    | cons htest harms =>
      rw [execChoice, execChoice]
      refine (htest.exec hm).andThen fun {a m m'} hm => ?_
      cases form.kind.arm? (I.holds (a.valueD I.undefined)) with
      | some index => exact arm_same harms index hm
      | none => exact ⟨rfl, hm⟩
  · rw [Bool.not_eq_true] at hchoice
    by_cases hcall : form.kind = .call
    · rw [exec_call I hcall, exec_call I hcall]
      cases h with
      | nil => exact effect_near (k := .call) hm (fun _ => rfl) _
      | cons hcallee harguments =>
        rw [execCall, execCall, hcallee.named]
        split
        · refine (row_same harguments hm).andThen fun {as m m'} hm => ?_
          simp only [performing, hm.state]
          exact ⟨rfl, hm.stack, rfl, hm.temporaries, hm.pool⟩
        · exact (hcallee.exec hm).andThen fun hm => (row_same harguments hm).andThen fun hm =>
            effect_near (k := .call) hm (fun _ => rfl) _
    · rw [exec_sequential I hchoice hcall, exec_sequential I hchoice hcall]
      exact (row_same h hm).andThen fun hm => effect_near hm hform _

theorem Same.refl {x : Rose Form} (hx : x.Free loose) : I.Same loose x x := by
  induction x using Rose.induct with
  | h form parts ih =>
    refine same_node (fun hl => hx hl form (by simp)) (List.forall₂_same.2 fun y hy => ?_)
    exact ih y hy (hx.parts hy)

/-- Trees that differ in one place do the same, when the trees there do. -/
theorem Same.plug {C : Rose.Context Form} (h : I.Same loose x x') (hC : (C.plug x).Free loose) :
    I.Same loose (C.plug x) (C.plug x') := by
  induction C with
  | nil => exact h
  | cons c C ih =>
    refine same_node (fun hl => hC hl _ (by simp [Rose.Context.plug])) ?_
    refine List.rel_append (List.forall₂_same.2 fun y hy => ?_) (.cons (ih ?_)
      (List.forall₂_same.2 fun y hy => ?_))
    · exact .refl (hC.parts (by simp [hy]))
    · exact hC.parts (by simp)
    · exact .refl (hC.parts (by simp [hy]))

/-- Trees with changes one after another, in one place each, do the same when every change does. -/
theorem same_of_steps {R : Rose Form → Rose Form → Prop}
    (hR : ∀ {x x'}, R x x' → x.Free loose → I.Same loose x x' ∧ x'.Free loose)
    {r r' : Rose Form} (h : ReflTransGen (Rose.Locally R) r r') (hr : r.Free loose) :
    I.Same loose r r' ∧ r'.Free loose := by
  induction h with
  | refl => exact ⟨.refl hr, hr⟩
  | tail _ hlast ih =>
    obtain ⟨C, x, x', rfl, rfl, hx⟩ := hlast
    obtain ⟨hsame, hfree⟩ := ih
    have hlabels : ∀ {y : Rose Form} {form : Form}, form ∈ (C.plug y).labels ↔
        form ∈ C.before ∨ form ∈ y.labels ∨ form ∈ C.after := by
      simp [Rose.labels_plug]
    obtain ⟨hsame', hfree'⟩ := hR hx fun hl form hform =>
      hfree hl form (hlabels.2 (.inr (.inl hform)))
    refine ⟨hsame.trans (hsame'.plug hfree), fun hl form hform => ?_⟩
    rcases hlabels.1 hform with hform | hform | hform
    · exact hfree hl form (hlabels.2 (.inl hform))
    · exact hfree' hl form hform
    · exact hfree hl form (hlabels.2 (.inr (.inr hform)))

/-! ## Names in place of builtins -/

/-- A tree that is run like another one does the same. -/
theorem same_of_exec (hnamed : I.isTrace x.label.kind = I.isTrace x'.label.kind)
    (h : ∀ m : Memory V σ, I.exec x m = I.exec x' m) (hx : x.Free loose) : I.Same loose x x' :=
  ⟨hnamed, fun {_ m'} hm => h m' ▸ (Same.refl hx).exec hm⟩

/-- The names of the builtins do what the builtins do. -/
theorem same_of_named (h : Rose.Named I.names x x') (hx : x.Free loose) : I.Same loose x x' := by
  cases h with
  | global loc => exact same_of_exec rfl (fun _ => rfl) hx
  | trace value loc =>
    refine same_of_exec rfl (fun m => ?_) hx
    change I.exec (.node ⟨.trace, loc⟩ [value.rose]) m = I.exec (.node ⟨.expression, none⟩
      [(Expr.call (.identifier I.names.trace) [value] none).rose]) m
    rw [exec_sequential I rfl (by simp), exec_sequential I rfl (by simp), execRow, execRow,
      exec_traceCall]
    rcases I.exec value.rose m with ⟨e, m'⟩
    cases e with
    | done a =>
      simp only [andThen, execRow]
      rfl
    | returned v => rfl
    | raised v => rfl

/-! ## Statements taken out -/

variable (I)

/-- Whether statements of a kind do nothing, where they have no parts. -/
structure Idle (loose : Prop) (k : Kind) : Prop where
  named : I.isTrace k = false
  exec : ∀ (loc : Loc) (m : Memory V σ), ∃ m', I.exec (.node ⟨k, loc⟩ []) m = (.done .off, m') ∧
    m'.Near loose m
  free : loose → usesPool k = false

theorem idle_empty : I.Idle loose .empty :=
  ⟨rfl, fun _ m => ⟨m, rfl, .refl m⟩, fun _ => rfl⟩

theorem idle_constantPool (pool : List String) : I.Idle True (.constantPool pool) :=
  ⟨rfl, fun _ m => ⟨{ m with pool }, rfl, rfl, rfl, rfl, fun h => absurd trivial h⟩, fun _ => rfl⟩

variable {I}

/-- A list of statements is run one after another. -/
theorem exec_list_cons {form : Form} (hk : form.kind = .script ∨ form.kind = .block) :
    I.exec (.node form (x :: parts)) m =
      andThen (I.exec x m) fun _ m => I.exec (.node form parts) m := by
  have hlist : ∀ {parts : List (Rose Form)} {m : Memory V σ}, I.exec (.node form parts) m =
      andThen (I.execRow parts m) fun _ m => (.done .off, m) := by
    intro parts m
    obtain ⟨kind, loc⟩ := form
    rcases hk with rfl | rfl <;> exact exec_sequential I rfl (by simp)
  rw [hlist, execRow]
  rcases I.exec x m with ⟨e, m₁⟩
  cases e with
  | done a =>
    simp only [andThen, hlist]
    rcases I.execRow parts m₁ with ⟨e, m₂⟩
    cases e <;> rfl
  | returned v => rfl
  | raised v => rfl

/-- A list does the same without a statement that does nothing. -/
theorem same_of_dropped {p : Kind → Prop} (hp : ∀ {k}, p k → I.Idle loose k)
    (h : Rose.Dropped p x x') (hx : x.Free loose) : I.Same loose x x' ∧ x'.Free loose := by
  cases h with
  | @emptied form hform _ =>
    obtain ⟨kind, loc⟩ := form
    obtain ⟨hnamed, hexec, -⟩ := hp hform
    refine ⟨⟨hnamed, fun {m m'} hm => ?_⟩, fun _ f hf => ?_⟩
    · obtain ⟨m₁, hm₁, hnear⟩ := hexec loc m
      rw [hm₁]
      exact ⟨rfl, hnear.trans hm⟩
    · obtain rfl : f = ⟨.empty, none⟩ := by simpa [Stmt.rose, Rose.labelsAll] using hf
      rfl
  | @removed form part left right hform hpart =>
    obtain ⟨kind, loc⟩ := part
    obtain ⟨-, hexec, -⟩ := hp hpart
    refine ⟨⟨rfl, fun {m m'} hm => ?_⟩, fun hl f hf => hx hl f ?_⟩
    · have hright : I.Same loose (.node form right) (.node form right) :=
        same_node (fun hl => hx hl form (by simp)) (List.forall₂_same.2 fun y hy =>
          .refl (hx.parts (by simp [hy])))
      have hleft : ∀ y ∈ left, y.Free loose := fun y hy => hx.parts (by simp [hy])
      clear hx
      induction left generalizing m m' with
      | nil =>
        obtain ⟨m₁, hm₁, hnear⟩ := hexec loc m
        rw [List.nil_append, exec_list_cons hform, hm₁]
        exact hright.exec (hnear.trans hm)
      | cons y left ih =>
        rw [List.cons_append, List.cons_append, exec_list_cons hform, exec_list_cons hform]
        exact ((Same.refl (hleft y (by simp))).exec hm).andThen fun hm =>
          ih hm fun y hy => hleft y (by simp [hy])
    · rw [Rose.labels_node, Rose.labelsAll_append] at hf ⊢
      rw [Rose.labelsAll]
      simp only [List.mem_cons, List.mem_append] at hf ⊢
      tauto

end Interpretation

end ScriptRecovery
