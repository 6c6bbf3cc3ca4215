import ScriptRecovery.Proofs.Semantics.Agreement
import ScriptRecovery.Proofs.Stack.Threading

/-!
# Temporaries do what pushes and pops did

`Rose.bound` puts temporaries in place of pushes and pops.  `Plan` says when such a choice of
temporaries goes with the use of the stack: a pop gets the temporary of the push whose value it
takes, and a push that may be on the stack at the end of the script or of an arm gets none.

`Plan.exec` is the simulation.  Along it the two stacks are as `Faces` says: where the stack state
shows the frame of a push with a temporary, the old stack has a value that the new one lacks, and
the temporary holds this value.  Below the first frame that is not a push the stacks are equal.
Where a number of values is taken that is not known, or the arms of a choice start, this makes the
stacks equal altogether: what is below stays to the end (`StackState.Settled`), so none of it has
a temporary.
-/

namespace ScriptRecovery

open Rose StackState

/-! ## The new tree -/

namespace Rose

mutual

/-- The tree with temporaries in place of pushes and pops. -/
def bound (f : Nat → Option Nat) : Rose (Nat × Form) → Rose Form
  | .node (n, form) parts =>
      match f n, form.kind with
      | some id, .atom .pop => .node ⟨.atom (.temporary id), none⟩ []
      | some id, .push =>
          .node ⟨.expression, none⟩
            [.node ⟨.assignment .simple, none⟩
              (.node ⟨.temporaryTarget id, none⟩ [] :: boundAll f parts)]
      | _, _ => .node form (boundAll f parts)

/-- Trees in a row with temporaries in place of pushes and pops. -/
def boundAll (f : Nat → Option Nat) : List (Rose (Nat × Form)) → List (Rose Form)
  | [] => []
  | r :: rs => r.bound f :: boundAll f rs

end

variable {f : Nat → Option Nat} {n : Nat} {form : Form} {parts : List (Rose (Nat × Form))}

theorem boundAll_eq_map (rs : List (Rose (Nat × Form))) : boundAll f rs = rs.map (bound f) := by
  induction rs with
  | nil => rfl
  | cons r rs ih => rw [boundAll, ih, List.map_cons]

theorem bound_of_none (h : f n = none) :
    (Rose.node (n, form) parts).bound f = .node form (boundAll f parts) := by
  rw [bound, h]

theorem bound_of_other (hp : form.kind ≠ .atom .pop) (hs : form.kind ≠ .push) :
    (Rose.node (n, form) parts).bound f = .node form (boundAll f parts) := by
  rw [bound]
  split
  · next h => exact absurd h hp
  · next h => exact absurd h hs
  · rfl

end Rose

/-! ## Plans -/

/-- Whether a tree stands in a place of another one. -/
def Within (whole part : Rose (Nat × Form)) : Prop :=
  ∃ C : Context (Nat × Form), whole = C.plug part

theorem Within.part {whole : Rose (Nat × Form)} {label : Nat × Form}
    {parts : List (Rose (Nat × Form))} (h : Within whole (.node label parts)) :
    ∀ r ∈ parts, Within whole r := by
  intro r hr
  obtain ⟨C, rfl⟩ := h
  obtain ⟨left, right, rfl⟩ := List.append_of_mem hr
  refine ⟨C ++ [⟨label, left, right⟩], ?_⟩
  induction C with
  | nil => rfl
  | cons c C ih => rw [Context.plug, ih]; rfl

theorem Within.label_mem {whole : Rose (Nat × Form)} {label : Nat × Form}
    {parts : List (Rose (Nat × Form))} (h : Within whole (.node label parts)) :
    label ∈ whole.labels := by
  obtain ⟨C, rfl⟩ := h
  rw [labels_plug, labels_node]
  simp

theorem Within.wellFormed {whole part : Rose (Nat × Form)} (h : Within whole part)
    (hw : whole.forms.WellFormed) : part.forms.WellFormed := by
  obtain ⟨C, rfl⟩ := h
  rw [forms, map_plug] at hw
  exact hw.of_plug

/-- A choice of temporaries for the pushes (`g`) and for all nodes (`f`) of a tree that goes with
the passages through it.  The pushes in `kept` may be on the stack at the end of the tree or of an
arm. -/
structure Plan (whole : Rose (Nat × Form)) (usage : List (Passage StackState))
    (f g : Nat → Option Nat) (kept : Nat → Prop) : Prop where
  wellFormed : whole.forms.WellFormed
  /-- No temporary of the tree is chosen. -/
  old : ∀ x ∈ whole.labels, ∀ id, x.2.kind.temporary? = some id → ∀ n, g n ≠ some id
  inj : ∀ {n m id : Nat}, g n = some id → g m = some id → n = m
  unbound : ∀ {n : Nat}, kept n → g n = none
  push : ∀ {n : Nat} {loc : Loc}, (n, ⟨.push, loc⟩) ∈ whole.labels → f n = g n
  pop : ∀ {loc : Loc} {p : Passage StackState}, (p.node, ⟨.atom .pop, loc⟩) ∈ whole.labels →
    p ∈ usage → f p.node = p.input.topPush?.bind g
  arm : ∀ {n : Nat} {form : Form} {parts : List (Rose (Nat × Form))} {arm : Rose (Nat × Form)}
    {p : Passage StackState}, Within whole (.node (n, form) parts) → form.kind = .branch →
    arm ∈ parts.drop 1 → p ∈ usage → p.node = arm.number → ∀ k ∈ p.output.pushes, kept k

/-! ## Stacks that face each other -/

variable {V σ : Type} {g : Nat → Option Nat}

/-- Whether a temporary is chosen for a push. -/
def Taken (g : Nat → Option Nat) (id : Nat) : Prop := ∃ n, g n = some id

/-- How an old and a new stack are to each other, by the frames known of the old one. -/
def Faces (g : Nat → Option Nat) (τ : Nat → V) : StackState → List V → List V → Prop
  | .push n :: S, old, new =>
      match g n with
      | some id => ∃ vs, old = τ id :: vs ∧ Faces g τ S vs new
      | none => ∃ v vs ws, old = v :: vs ∧ new = v :: ws ∧ Faces g τ S vs ws
  | _, old, new => old = new

theorem mem_pushes_cons {n m : Nat} {S : StackState} (h : m ∈ S.pushes) :
    m ∈ pushes (.push n :: S) := by
  simp only [pushes, List.filterMap_cons, List.mem_cons]
  exact .inr h

/-- Stacks of which nothing is bound are equal. -/
theorem Faces.eq {τ : Nat → V} {S : StackState} {old new : List V} (h : Faces g τ S old new)
    (hs : ∀ n ∈ S.pushes, g n = none) : old = new := by
  induction S generalizing old new with
  | nil => exact h
  | cons frame S ih =>
    cases frame with
    | push n =>
      simp only [Faces, hs n (by simp [pushes])] at h
      obtain ⟨v, vs, ws, rfl, rfl, h⟩ := h
      rw [ih h fun m hm => hs m (mem_pushes_cons hm)]
    | pop n => exact h
    | barrier n => exact h

/-- Equal stacks face each other where nothing is bound. -/
theorem Faces.of_eq {τ : Nat → V} {f : Frame} {S : StackState} {old new : List V}
    (hf : f.isPush = false) (h : old = new) : Faces g τ (f :: S) old new := by
  cases f with
  | push n => cases hf
  | pop n => exact h
  | barrier n => exact h

/-- Only the temporaries of the frames matter. -/
theorem Faces.congr {τ τ' : Nat → V} {S : StackState} {old new : List V}
    (h : Faces g τ S old new) (hτ : ∀ n ∈ S.pushes, ∀ id, g n = some id → τ' id = τ id) :
    Faces g τ' S old new := by
  induction S generalizing old new with
  | nil => exact h
  | cons frame S ih =>
    cases frame with
    | push n =>
      have hrest := fun m (hm : m ∈ pushes S) => hτ m (mem_pushes_cons hm)
      unfold Faces at h ⊢
      split at h
      · next id hid =>
        obtain ⟨vs, rfl, h⟩ := h
        exact ⟨vs, by rw [hτ n (by simp [pushes]) id hid], ih h hrest⟩
      · next hid =>
        obtain ⟨v, vs, ws, rfl, rfl, h⟩ := h
        exact ⟨v, vs, ws, rfl, rfl, ih h hrest⟩
    | pop n => exact h
    | barrier n => exact h

/-- Whether a new memory is what has become of an old one. -/
structure Mirrors (g : Nat → Option Nat) (S : StackState) (old new : Memory V σ) : Prop where
  agrees : old.Agrees (Taken g) new
  faces : Faces g new.temporaries S old.stack new.stack

theorem Mirrors.moved {S : StackState} {old new old' new' : Memory V σ} (h : Mirrors g S old new)
    (hm : Memory.Moved (Taken g) old new old' new') : Mirrors g S old' new' := by
  refine ⟨hm.agrees, ?_⟩
  rw [hm.left, hm.right]
  exact h.faces.congr fun n _ id hid => hm.held id ⟨n, hid⟩

/-- Whether two evaluations come out the same, with answers that satisfy a condition. -/
structure Simulates {α : Type} (g : Nat → Option Nat) (known : α → Prop) (S : StackState)
    (old new : Ending V α × Memory V σ) : Prop where
  ending : old.1 = new.1
  agrees : old.2.Agrees (Taken g) new.2
  faces : ∀ a, old.1 = .done a → known a ∧ Faces g new.2.temporaries S old.2.stack new.2.stack

theorem Mirrors.simulates {α : Type} {known : α → Prop} {S : StackState} {old new : Memory V σ}
    (h : Mirrors g S old new) {a : α} (ha : known a) :
    Simulates g known S (.done a, old) (.done a, new) :=
  ⟨rfl, h.agrees, fun b hb => by
    cases hb
    exact ⟨ha, h.faces⟩⟩

/-- Evaluations that come out the same go on the same. -/
theorem Simulates.andThen {α β : Type} {known : α → Prop} {known' : β → Prop}
    {S T : StackState} {old new : Ending V α × Memory V σ}
    {k₁ k₂ : α → Memory V σ → Ending V β × Memory V σ} (h : Simulates g known S old new)
    (hk : ∀ a m₁ m₂, known a → Mirrors g S m₁ m₂ → Simulates g known' T (k₁ a m₁) (k₂ a m₂)) :
    Simulates g known' T (Interpretation.andThen old k₁) (Interpretation.andThen new k₂) := by
  obtain ⟨e₁, m₁⟩ := old
  obtain ⟨e₂, m₂⟩ := new
  obtain ⟨rfl, hagrees, hfaces⟩ := h
  cases e₁ with
  | done a =>
    obtain ⟨ha, hf⟩ := hfaces a rfl
    exact hk a m₁ m₂ ha ⟨hagrees, hf⟩
  | returned v => exact ⟨rfl, hagrees, nofun⟩
  | raised v => exact ⟨rfl, hagrees, nofun⟩

/-! ## Single nodes -/

theorem Kind.isSequential_eq (k : Kind) : k.isSequential = !k.isChoice := by cases k <;> rfl

section Nodes

open Interpretation

variable {I : Interpretation V σ} {S : StackState} {m₁ m₂ : Memory V σ}

/-- A node that leaves the stack alone comes out the same. -/
theorem Mirrors.effect (h : Mirrors g S m₁ m₂) {k : Kind} (hq : k.Quiet)
    (ht : ∀ id, k.temporary? = some id → ¬ Taken g id) {as : List (Answer V)}
    (has : ∀ a ∈ as, a.Known (Taken g)) :
    Simulates g (Answer.Known (Taken g)) S (I.effect k as m₁) (I.effect k as m₂) := by
  obtain ⟨hend, hknown, hmoved⟩ := effect_quiet (I := I) h.agrees hq ht has
  exact ⟨hend, hmoved.agrees, fun a ha => ⟨hknown a ha, (h.moved hmoved).faces⟩⟩

/-- A pop takes the same value, from the stack or from the temporary of its push. -/
theorem Mirrors.pop {n : Nat} {loc : Loc} {f : Nat → Option Nat} (h : Mirrors g S m₁ m₂)
    (hf : f n = S.topPush?.bind g) :
    Simulates g (Answer.Known (Taken g)) (S.afterPop n)
      (I.exec (.node ⟨.atom .pop, loc⟩ []) m₁)
      (I.exec ((Rose.node (n, ⟨.atom .pop, loc⟩) []).bound f) m₂) := by
  have hfaces := h.faces
  have hbare : f n = none → (Rose.node (n, ⟨.atom .pop, loc⟩) []).bound f =
      .node ⟨.atom .pop, loc⟩ [] := fun hn => by rw [bound_of_none hn, boundAll]
  have same : m₁.stack = m₂.stack → (S.afterPop n = .pop n :: S) → f n = none →
      Simulates g (Answer.Known (Taken g)) (S.afterPop n)
        (I.exec (.node ⟨.atom .pop, loc⟩ []) m₁)
        (I.exec ((Rose.node (n, ⟨.atom .pop, loc⟩) []).bound f) m₂) := by
    intro heq hS hn
    rw [hbare hn, exec_leaf I rfl (by simp), exec_leaf I rfl (by simp), hS]
    refine ⟨by simp [Interpretation.effect, atom, heq], ⟨h.agrees.pool, h.agrees.state,
      h.agrees.temporaries⟩, fun a ha => ⟨?_, ?_⟩⟩
    · simp only [Interpretation.effect, Ending.done.injEq] at ha
      subst ha
      intro id hid
      cases hid
    · simp [Faces, Interpretation.effect, atom, heq]
  cases S with
  | nil => exact same hfaces rfl hf
  | cons frame S =>
    cases frame with
    | pop k => exact same hfaces rfl hf
    | barrier k => exact same hfaces rfl hf
    | push k =>
      simp only [topPush?, Option.bind_some] at hf
      cases hg : g k with
      | none =>
        rw [hg] at hf
        simp only [Faces, hg] at hfaces
        obtain ⟨v, vs, ws, h₁, h₂, hfaces⟩ := hfaces
        rw [hbare hf, exec_leaf I rfl (by simp), exec_leaf I rfl (by simp)]
        simp only [Interpretation.effect, atom, h₁, h₂]
        exact ⟨rfl, ⟨h.agrees.pool, h.agrees.state, h.agrees.temporaries⟩, fun a ha => by
          cases ha
          exact ⟨fun id hid => (by cases hid), hfaces⟩⟩
      | some id =>
        rw [hg] at hf
        simp only [Faces, hg] at hfaces
        obtain ⟨vs, h₁, hfaces⟩ := hfaces
        rw [bound, hf, exec_leaf I rfl (by simp)]
        simp only
        rw [exec_leaf I rfl (by simp)]
        simp only [Interpretation.effect, atom, h₁]
        exact ⟨rfl, ⟨h.agrees.pool, h.agrees.state, h.agrees.temporaries⟩, fun a ha => by
          cases ha
          exact ⟨fun id hid => (by cases hid), hfaces⟩⟩

/-- A pushed value is on top of both stacks, or of the old one and in its temporary. -/
theorem Mirrors.push {n : Nat} {v : V} (h : Mirrors g S m₁ m₂) (hn : g n = none) :
    Mirrors g (.push n :: S) (m₁.push v) (m₂.push v) := by
  refine ⟨⟨h.agrees.pool, h.agrees.state, h.agrees.temporaries⟩, ?_⟩
  simp only [Faces, hn]
  exact ⟨v, _, _, rfl, rfl, h.faces⟩

theorem Mirrors.bind {n id : Nat} {v : V} (h : Mirrors g S m₁ m₂) (hn : g n = some id)
    (hinj : ∀ {n m id : Nat}, g n = some id → g m = some id → n = m) (hS : n ∉ S.pushes) :
    Mirrors g (.push n :: S) (m₁.push v) (m₂.bind id v) := by
  have hne : ∀ id', ¬ Taken g id' → id' ≠ id := by
    rintro id' hid' rfl
    exact hid' ⟨n, hn⟩
  refine ⟨⟨h.agrees.pool, h.agrees.state, fun id' hid' => ?_⟩, ?_⟩
  · exact (h.agrees.temporaries id' hid').trans (Function.update_of_ne (hne id' hid') _ _).symm
  · simp only [Faces, hn]
    refine ⟨m₁.stack, by simp [Memory.push, Memory.bind], h.faces.congr fun k hk id' hid' => ?_⟩
    refine Function.update_of_ne ?_ _ _
    rintro rfl
    exact hS (hinj hn hid' ▸ hk)

end Nodes

/-! ## The simulation -/

namespace Plan

open Interpretation

variable {I : Interpretation V σ} {whole : Rose (Nat × Form)} {usage : List (Passage StackState)}
  {f : Nat → Option Nat} {kept : Nat → Prop}

/-- A call of the trace function stays one. -/
theorem isTrace_bound {r : Rose (Nat × Form)} (hc : r.forms.category = .expression) :
    I.isTrace (r.bound f).label.kind = I.isTrace r.forms.label.kind := by
  obtain ⟨⟨n, form⟩, parts⟩ := r
  by_cases hpush : form.kind = .push
  · simp [hpush, Kind.category] at hc
  by_cases hpop : form.kind = .atom .pop
  · rw [bound]
    split
    · simp [isTrace, forms_node, label, hpop]
    · next h => exact absurd h hpush
    · simp [forms_node, label]
  · rw [bound_of_other hpop hpush, forms_node]
    rfl

/-- The name of the trace function leaves the stack alone. -/
theorem thread_isTrace {r : Rose (Nat × Form)} {input out : StackState}
    {ps : List (Passage StackState)} (hw : r.forms.WellFormed)
    (htrace : I.isTrace r.forms.label.kind = true) (ht : rule.thread input r = .ok (out, ps)) :
    out = input := by
  obtain ⟨⟨n, ⟨kind, loc⟩⟩, parts⟩ := r
  rw [forms_node] at htrace hw
  have hkind : kind = .atom .global ∨ ∃ s, kind = .atom (.identifier s) :=
    I.atom_of_isTrace htrace
  have hparts : parts = [] := by
    have := hw.admits
    rcases hkind with rfl | ⟨s, rfl⟩ <;> simpa [Kind.admits] using this
  subst hparts
  have hk : kind.isSequential = true := by rcases hkind with rfl | ⟨s, rfl⟩ <;> rfl
  obtain ⟨after, inside, hrow, hout, -⟩ := Rule.thread_sequential hk ht
  cases hrow
  rcases hkind with rfl | ⟨s, rfl⟩ <;> exact hout

/-- What is on the stack behind a tree is no node of the trees after it. -/
theorem not_mem_behind {r : Rose (Nat × Form)} {rs : List (Rose (Nat × Form))}
    {input next : StackState} {ps : List (Passage StackState)}
    (ht : rule.thread input r = .ok (next, ps)) (hnd : ((r :: rs).flatMap numbers).Nodup)
    (hnew : ∀ k ∈ input.pushes, k ∉ (r :: rs).flatMap numbers) :
    ∀ k ∈ next.pushes, k ∉ rs.flatMap numbers := by
  rw [List.flatMap_cons, List.nodup_append] at hnd
  intro k hk hrest
  rcases pushes_thread ht hk with hk | hk
  · exact hnew k hk (by simp [hrest])
  · exact hnd.2.2 k hk k hrest rfl

/-- Whether a tree does with temporaries what it did with pushes and pops, when its passages are
those of the plan, nothing that stays behind it is bound, and its pushes are not on the stack
before it. -/
def Carries (I : Interpretation V σ) (usage : List (Passage StackState)) (f g : Nat → Option Nat)
    (kept : Nat → Prop) (r : Rose (Nat × Form)) : Prop :=
  ∀ ⦃input out : StackState⦄ ⦃ps : List (Passage StackState)⦄ ⦃m₁ m₂ : Memory V σ⦄,
    rule.thread input r = .ok (out, ps) → (∀ p ∈ ps, p ∈ usage) → out.Settled kept →
    (∀ k ∈ input.pushes, k ∉ r.numbers) → Mirrors g input m₁ m₂ →
    Simulates g (Answer.Known (Taken g)) out (I.exec r.forms m₁) (I.exec (r.bound f) m₂)

/-- Whether the rows of trees under a node and under the new node come out the same. -/
def SameRows (I : Interpretation V σ) (f g : Nat → Option Nat) (rs : List (Rose (Nat × Form)))
    (S : StackState) (m₁ m₂ : Memory V σ) : Prop :=
  Simulates g (fun as => ∀ a ∈ as, a.Known (Taken g)) S (I.execRow (rs.map forms) m₁)
    (I.execRow (boundAll f rs) m₂)

section Parts

variable {n : Nat} {loc : Loc} {form : Form} {parts : List (Rose (Nat × Form))}
  {input after out : StackState} {ps : List (Passage StackState)} {m₁ m₂ : Memory V σ}

/-! ### Rows and arms -/

theorem sameRows (ih : ∀ r ∈ parts, Carries I usage f g kept r)
    (hnd : (parts.flatMap numbers).Nodup) (ht : rule.threadRow input parts = .ok (out, ps))
    (hps : ∀ p ∈ ps, p ∈ usage) (hset : out.Settled kept)
    (hnew : ∀ k ∈ input.pushes, k ∉ parts.flatMap numbers) (hm : Mirrors g input m₁ m₂) :
    SameRows I f g parts out m₁ m₂ := by
  induction parts generalizing input ps m₁ m₂ with
  | nil =>
    cases ht
    exact hm.simulates (by simp)
  | cons r rs ihrs =>
    obtain ⟨next, first, rest, hr, hrs, rfl⟩ := Rule.threadRow_cons ht
    have hbehind := not_mem_behind hr hnd hnew
    rw [List.forall_mem_append] at hps
    rw [List.forall_mem_cons] at ih
    rw [List.flatMap_cons, List.nodup_append] at hnd
    rw [SameRows, List.map_cons, boundAll, Interpretation.execRow, Interpretation.execRow]
    refine (ih.1 hr hps.1 (hset.threadRow hrs) (fun k hk hk' => hnew k hk (by simp [hk'])) hm).andThen
      fun a m₁' m₂' ha hm' => ?_
    refine (ihrs ih.2 hnd.2.1 hrs hps.2 hbehind hm').andThen fun as m₁'' m₂'' has hm'' => ?_
    exact hm''.simulates (by simpa [ha] using has)

/-- Whichever arm is run, nothing that it leaves is bound, so the stacks are equal behind it. -/
theorem same_arm (h : Plan whole usage f g kept) (ih : ∀ r ∈ parts, Carries I usage f g kept r)
    (hnd : (parts.flatMap numbers).Nodup)
    (ht : rule.threadArms (.barrier n :: input) parts = .ok ps) (hps : ∀ p ∈ ps, p ∈ usage)
    (hkept : ∀ r ∈ parts, ∀ p ∈ usage, p.node = r.number → ∀ k ∈ p.output.pushes, kept k)
    (hnew : ∀ k ∈ pushes (.barrier n :: input), k ∉ parts.flatMap numbers)
    (hm : Mirrors g (.barrier n :: input) m₁ m₂) (index : Nat) :
    Simulates g (Answer.Known (Taken g)) (.barrier n :: input)
      (I.execArm index (parts.map forms) m₁) (I.execArm index (boundAll f parts) m₂) := by
  induction parts generalizing ps index with
  | nil => cases index <;> exact hm.simulates nofun
  | cons r rs ihrs =>
    obtain ⟨after, first, rest, hr, hrs, rfl⟩ := Rule.threadArms_cons ht
    rw [List.forall_mem_append] at hps
    rw [List.forall_mem_cons] at ih hkept
    rw [List.flatMap_cons, List.nodup_append] at hnd
    rw [List.map_cons, boundAll]
    cases index with
    | zero =>
      rw [Interpretation.execArm, Interpretation.execArm]
      have hleft : ∀ k ∈ after.pushes, kept k :=
        hkept.1 _ (hps.1 _ (Rule.thread_last hr)) rfl
      have hsim := ih.1 hr hps.1 (settled_of_pushes hleft)
        (fun k hk hk' => hnew k hk (by simp [hk'])) hm
      refine ⟨hsim.ending, hsim.agrees, fun a ha => ⟨(hsim.faces a ha).1, .of_eq rfl ?_⟩⟩
      exact (hsim.faces a ha).2.eq fun k hk => h.unbound (hleft k hk)
    | succ index =>
      rw [Interpretation.execArm, Interpretation.execArm]
      exact ihrs ih.2 hnd.2.1 hrs hps.2 hkept.2 (fun k hk hk' => hnew k hk (by simp [hk'])) index

/-- Where the arms of a choice start, nothing that is known of the stack is bound. -/
theorem same_choice (h : Plan whole usage f g kept) (ih : ∀ r ∈ parts, Carries I usage f g kept r)
    (hnd : (parts.flatMap numbers).Nodup)
    (ht : rule.threadChoice (.barrier n :: ·) input parts = .ok (out, ps))
    (hps : ∀ p ∈ ps, p ∈ usage) (hset : out.Settled kept)
    (hkept : ∀ r ∈ parts.drop 1, ∀ p ∈ usage, p.node = r.number → ∀ k ∈ p.output.pushes, kept k)
    (hnew : ∀ k ∈ input.pushes, k ∉ parts.flatMap numbers) (hm : Mirrors g input m₁ m₂) :
    Simulates g (Answer.Known (Taken g)) out (I.execChoice .branch (parts.map forms) m₁)
      (I.execChoice .branch (boundAll f parts) m₂) := by
  have cross {S : StackState} {m₁ m₂ : Memory V σ} (hS : Settled kept (.barrier n :: S))
      (hm : Mirrors g S m₁ m₂) : Mirrors g (.barrier n :: S) m₁ m₂ :=
    ⟨hm.agrees, .of_eq rfl (hm.faces.eq fun k hk => h.unbound (hS.of_barrier k hk))⟩
  cases parts with
  | nil =>
    cases ht
    exact (cross hset hm).simulates nofun
  | cons test arms =>
    obtain ⟨tested, first, rest, htest, rfl, harms, rfl⟩ := Rule.threadChoice_cons ht
    have hbehind := not_mem_behind htest hnd hnew
    rw [List.forall_mem_append] at hps
    rw [List.forall_mem_cons] at ih
    rw [List.flatMap_cons, List.nodup_append] at hnd
    rw [List.map_cons, boundAll, execChoice, execChoice]
    refine (ih.1 htest hps.1 (hset.of_suffix (List.suffix_cons _ _))
      (fun k hk hk' => hnew k hk (by simp [hk'])) hm).andThen fun a m₁' m₂' ha hm' => ?_
    simp only [Kind.arm?]
    exact same_arm h ih.2 hnd.2.1 harms hps.2 hkept (by rwa [pushes_barrier]) (cross hset hm') _

/-! ### Nodes behind their rows -/

/-- What is pushed is pushed, or stored in the temporary of the push. -/
theorem same_push (h : Plan whole usage f g kept) (hn : (n, ⟨.push, loc⟩) ∈ whole.labels)
    (hafter : n ∉ after.pushes) (hrow : SameRows I f g parts after m₁ m₂) :
    Simulates g (Answer.Known (Taken g)) (.push n :: after)
      (I.exec (Rose.node (n, ⟨.push, loc⟩) parts).forms m₁)
      (I.exec ((Rose.node (n, ⟨.push, loc⟩) parts).bound f) m₂) := by
  have hfg := h.push hn
  rw [forms_node, exec_sequential I rfl (by simp)]
  cases hg : g n with
  | none =>
    rw [bound_of_none (hfg.trans hg), exec_sequential I rfl (by simp)]
    exact hrow.andThen fun as m₁' m₂' _ hm => (hm.push hg).simulates nofun
  | some id =>
    rw [bound, hfg.trans hg]
    simp only
    rw [exec_binding]
    exact hrow.andThen fun as m₁' m₂' _ hm => (hm.bind hg h.inj hafter).simulates nofun

/-- Where a number of values is taken that is not known, nothing that is known of the stack is
bound. -/
theorem same_consuming (h : Plan whole usage f g kept)
    (hk : form.kind = .stackCall ∨ form.kind = .initArray ∨ form.kind = .initObject)
    (hset : Settled kept (.barrier n :: after)) (hrow : SameRows I f g parts after m₁ m₂) :
    Simulates g (Answer.Known (Taken g)) (.barrier n :: after)
      (I.exec (Rose.node (n, form) parts).forms m₁)
      (I.exec ((Rose.node (n, form) parts).bound f) m₂) := by
  have hne : form.kind ≠ .atom .pop ∧ form.kind ≠ .push ∧ form.kind ≠ .call := by
    rcases hk with hk | hk | hk <;> simp [hk]
  have hchoice : form.kind.isChoice = false := by rcases hk with hk | hk | hk <;> rw [hk] <;> rfl
  rw [forms_node, bound_of_other hne.1 hne.2.1, exec_sequential I hchoice hne.2.2,
    exec_sequential I hchoice hne.2.2]
  refine hrow.andThen fun as m₁' m₂' has hm => ?_
  obtain ⟨h₁, h₂, h₃, h₄⟩ := effect_consuming (I := I) hm.agrees
    (hm.faces.eq fun k hk => h.unbound (hset.of_barrier k hk)) hk has
  exact ⟨h₁, h₃, fun a ha => ⟨h₂ a ha, .of_eq rfl h₄⟩⟩

/-- A call is one of the trace function as before, or its callee comes out the same. -/
theorem same_call (h : Plan whole usage f g kept) (hin : Within whole (.node (n, form) parts))
    (hk : form.kind = .call) (ih : ∀ r ∈ parts, Carries I usage f g kept r)
    (hnd : (parts.flatMap numbers).Nodup) (ht : rule.threadRow input parts = .ok (after, ps))
    (hps : ∀ p ∈ ps, p ∈ usage) (hset : after.Settled kept)
    (hnew : ∀ k ∈ input.pushes, k ∉ parts.flatMap numbers) (hm : Mirrors g input m₁ m₂) :
    Simulates g (Answer.Known (Taken g)) after (I.execCall (parts.map forms) m₁)
      (I.execCall (boundAll f parts) m₂) := by
  have hwf := hin.wellFormed h.wellFormed
  rw [forms_node] at hwf
  have hadmits := hwf.admits
  rw [hk] at hadmits
  obtain ⟨cs, hcs, -⟩ := hadmits
  cases parts with
  | nil => cases hcs
  | cons callee args =>
    have hexpr : callee.forms.category = .expression := by simpa using (List.cons.inj hcs).1
    obtain ⟨next, first, rest, hcallee, hargs, rfl⟩ := Rule.threadRow_cons ht
    have hbehind := not_mem_behind hcallee hnd hnew
    rw [List.forall_mem_append] at hps
    rw [List.forall_mem_cons] at ih
    rw [List.flatMap_cons, List.nodup_append] at hnd
    have args' {m₁' m₂' : Memory V σ} (hm' : Mirrors g next m₁' m₂') :
        SameRows I f g args after m₁' m₂' :=
      sameRows ih.2 hnd.2.1 hargs hps.2 hset hbehind hm'
    rw [List.map_cons, boundAll, execCall, execCall, isTrace_bound hexpr]
    split
    · next htrace =>
      have hwc := (hin.part callee (by simp)).wellFormed h.wellFormed
      obtain rfl := thread_isTrace hwc htrace hcallee
      refine (args' hm).andThen fun as m₁' m₂' has hm' => ?_
      obtain ⟨h₁, h₂, h₃⟩ := performing_agrees (I := I) hm'.agrees .trace
        (as.map (Answer.valueD I.undefined))
      exact ⟨congrArg Ending.done h₁, h₃.agrees, fun a ha => by
        cases ha
        exact ⟨h₂, (hm'.moved h₃).faces⟩⟩
    · refine (ih.1 hcallee hps.1 (hset.threadRow hargs)
        (fun k hk hk' => hnew k hk (by simp [hk'])) hm).andThen fun a m₁' m₂' ha hm' => ?_
      refine (args' hm').andThen fun as m₁'' m₂'' has hm'' => ?_
      exact hm''.effect (by simp [Kind.Quiet]) (by simp [Kind.temporary?]) (by simpa [ha] using has)

/-- What leaves the stack alone behind its row does so with temporaries as well. -/
theorem same_quiet (hk : form.kind.Quiet) (hchoice : form.kind.isChoice = false)
    (hcall : form.kind ≠ .call) (hold : ∀ id, form.kind.temporary? = some id → ¬ Taken g id)
    (hrow : SameRows I f g parts after m₁ m₂) :
    Simulates g (Answer.Known (Taken g)) after (I.exec (Rose.node (n, form) parts).forms m₁)
      (I.exec ((Rose.node (n, form) parts).bound f) m₂) := by
  rw [forms_node, bound_of_other hk.2.1 hk.1, exec_sequential I hchoice hcall,
    exec_sequential I hchoice hcall]
  exact hrow.andThen fun as m₁' m₂' has hm => hm.effect hk hold has

end Parts

/-! ### Trees -/

/-- A node whose children are gone through in order comes out the same if they do. -/
theorem carries_sequential (h : Plan whole usage f g kept) {n : Nat} {form : Form}
    {parts : List (Rose (Nat × Form))} (hin : Within whole (.node (n, form) parts))
    (hnd : (Rose.node (n, form) parts).numbers.Nodup) (hk : form.kind.isSequential = true)
    (ih : ∀ r ∈ parts, Carries I usage f g kept r) :
    Carries I usage f g kept (.node (n, form) parts) := by
  intro input out ps m₁ m₂ ht hps hset hnew hm
  have hself := hps _ (Rule.thread_last ht)
  obtain ⟨after, inside, hrow, rfl, rfl⟩ := Rule.thread_sequential hk ht
  rw [List.forall_mem_append] at hps
  rw [numbers_node, List.nodup_cons] at hnd
  have hnew' : ∀ k ∈ input.pushes, k ∉ parts.flatMap numbers := fun k hk hk' =>
    hnew k hk (by rw [numbers_node]; exact List.mem_cons_of_mem _ hk')
  have hchoice : form.kind.isChoice = false := by
    rw [Kind.isSequential_eq] at hk
    simpa using hk
  have row (hs : after.Settled kept) : SameRows I f g parts after m₁ m₂ :=
    sameRows ih hnd.2 hrow hps.1 hs hnew' hm
  rcases leave_cases n form.kind input after with
    ⟨hpush, hout⟩ | ⟨hpop, hout⟩ | ⟨hconsuming, hout⟩ | ⟨hquiet, hout⟩
  · rw [hout] at hset ⊢
    obtain ⟨kind, loc⟩ := form
    obtain rfl : kind = .push := hpush
    refine same_push h hin.label_mem (fun hn => ?_) (row (hset.of_suffix (List.suffix_cons _ _)))
    rcases pushes_threadRow hrow hn with hn | hn
    · exact hnew n hn (by rw [numbers_node]; simp)
    · exact hnd.1 hn
  · rw [hout]
    obtain ⟨kind, loc⟩ := form
    obtain rfl : kind = .atom .pop := hpop
    obtain rfl : parts = [] := by
      have hadmits := (hin.wellFormed h.wellFormed).admits
      simpa [Kind.admits, mapAll_eq_map] using hadmits
    exact hm.pop (h.pop hin.label_mem hself)
  · rw [hout] at hset ⊢
    exact same_consuming h hconsuming hset (row (hset.of_suffix (List.suffix_cons _ _)))
  · rw [hout] at hset ⊢
    by_cases hcall : form.kind = .call
    · rw [forms_node, bound_of_other hquiet.2.1 hquiet.1, exec_call I hcall, exec_call I hcall]
      exact same_call h hin hcall ih hnd.2 hrow hps.1 hset hnew' hm
    · exact same_quiet hquiet hchoice hcall
        (fun id hid ⟨k, hk⟩ => h.old _ hin.label_mem id hid k hk) (row hset)

/-- A tree does with temporaries what it did with pushes and pops. -/
theorem exec (h : Plan whole usage f g kept) (r : Rose (Nat × Form)) (hin : Within whole r)
    (hnd : r.numbers.Nodup) : Carries I usage f g kept r := by
  induction r using Rose.induct with
  | h label parts ih =>
    obtain ⟨n, form⟩ := label
    have hparts := hnd
    rw [numbers_node, List.nodup_cons] at hparts
    have ih' : ∀ r ∈ parts, Carries I usage f g kept r := fun r hr =>
      ih r hr (hin.part r hr) ((List.sublist_flatten_of_mem (List.mem_map_of_mem hr)).nodup hparts.2)
    cases hk : form.kind.isSequential with
    | true => exact carries_sequential h hin hnd hk ih'
    | false =>
      intro input out ps m₁ m₂ ht hps hset hnew hm
      obtain ⟨hkind, fork, inside, hfork, hchoice, rfl⟩ := Rule.thread_choice hk ht
      obtain rfl := Option.some.inj hfork
      rw [List.forall_mem_append] at hps
      have hisChoice : form.kind.isChoice = true := by rw [hkind]; rfl
      rw [forms_node, bound_of_other (by simp [hkind]) (by simp [hkind]), exec_choice I hisChoice,
        exec_choice I hisChoice, hkind]
      refine same_choice h ih' hparts.2 hchoice hps.1 hset
        (fun r hr p hp hpr => h.arm hin hkind hr hp hpr) (fun k hk hk' => ?_) hm
      exact hnew k hk (by rw [numbers_node]; exact List.mem_cons_of_mem _ hk')

end Plan

end ScriptRecovery
