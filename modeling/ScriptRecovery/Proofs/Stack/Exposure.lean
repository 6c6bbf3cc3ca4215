import ScriptRecovery.Proofs.Stack.Elimination

/-!
# No pop takes the value of a push that is left

`Rose.exposed` counts the pushes on top of the stack along a tree and stops at a pop that would take
the value of one of them.  A tree that it passes can be threaded, and none of its pops sees a push
(`StackState.thread_of_exposed`).

It passes what the binding of pushes leaves (`SyntaxTree.Bound.exposed`): along the old tree it
counts the pushes without a temporary among those on top, and a pop that sees a push gets the
temporary of that push.  The count depends on the forms alone, so it stays the same when a part of a
tree gives way to one with the same count (`Rose.exposed_plug`).
-/

namespace ScriptRecovery

open Rose StackState

/-- The number of pushes on top of the stack after a node that is no choice, by those before it and
those after its children, unless it takes the value of one. -/
def Kind.expose (kind : Kind) (before after : Nat) : Option Nat :=
  match kind with
  | .push => some (after + 1)
  | .atom .pop => if before = 0 then some 0 else none
  | .stackCall | .initArray | .initObject => some 0
  | .branch | .logical _ | .conditional => none
  | _ => some after

namespace Rose

mutual

/-- The number of pushes on top of the stack after a tree, by the number before it, unless a pop in
the tree takes the value of one. -/
def exposed (before : Nat) : Rose Form → Option Nat
  | .node form parts =>
      if form.kind = .branch then exposedChoice before parts
      else do form.kind.expose before (← exposedRow before parts)

/-- The number of pushes on top of the stack after trees in a row. -/
def exposedRow (before : Nat) : List (Rose Form) → Option Nat
  | [] => some before
  | part :: parts => do exposedRow (← exposed before part) parts

/-- The number of pushes on top of the stack after a test and two arms. -/
def exposedChoice (before : Nat) : List (Rose Form) → Option Nat
  | [] => some 0
  | test :: arms => do
      let _ ← exposed before test
      exposedArms arms

/-- The number of pushes on top of the stack behind arms. -/
def exposedArms : List (Rose Form) → Option Nat
  | [] => some 0
  | arm :: arms => do
      let _ ← exposed 0 arm
      exposedArms arms

end

/-! ## Parts that give way to others -/

variable {before after : Nat} {form : Form} {x x' : Rose Form} {left right : List (Rose Form)}

theorem exposed_quiet {parts : List (Rose Form)} (hb : form.kind ≠ .branch)
    (hk : ∀ before after, form.kind.expose before after = some after) :
    exposed before (.node form parts) = exposedRow before parts := by
  rw [exposed, if_neg hb]
  simp [hk]

theorem exposedRow_append : exposedRow before (left ++ right) =
    (exposedRow before left).bind fun n => exposedRow n right := by
  induction left generalizing before with
  | nil => rfl
  | cons y left ih =>
    rw [List.cons_append, exposedRow, exposedRow]
    cases exposed before y with
    | none => rfl
    | some n => exact ih

theorem exposedRow_congr (h : ∀ before, exposed before x' = exposed before x) :
    exposedRow before (left ++ x' :: right) = exposedRow before (left ++ x :: right) := by
  simp only [exposedRow_append, exposedRow, h]

theorem exposedArms_congr (h : ∀ before, exposed before x' = exposed before x) :
    exposedArms (left ++ x' :: right) = exposedArms (left ++ x :: right) := by
  induction left with
  | nil => simp only [List.nil_append, exposedArms, h]
  | cons y left ih => simp only [List.cons_append, exposedArms, ih]

/-- A part of a tree can give way to one with the same count. -/
theorem exposed_plug {C : Context Form} (h : ∀ before, exposed before x' = exposed before x) :
    ∀ before, exposed before (C.plug x') = exposed before (C.plug x) := by
  induction C with
  | nil => exact h
  | cons c C ih =>
    obtain ⟨form, left, right⟩ := c
    intro before
    simp only [Context.plug, exposed]
    split
    · cases left with
      | nil => simp only [List.nil_append, exposedChoice, ih]
      | cons test left => simp only [List.cons_append, exposedChoice, exposedArms_congr ih]
    · rw [exposedRow_congr ih]

end Rose

/-! ## What a count says of the analysis -/

namespace StackState

variable {g : Nat → Option Nat} {S input out : StackState} {ps : List (Passage StackState)}

/-- The number of pushes without a temporary among those on top of the stack. -/
def onTop (g : Nat → Option Nat) : StackState → Nat
  | .push n :: S => (if g n = none then 1 else 0) + onTop g S
  | _ => 0

/-- The number of pushes on top of the stack. -/
abbrev allOnTop (S : StackState) : Nat := S.onTop fun _ => none

theorem topPush?_eq_none (h : S.allOnTop = 0) : S.topPush? = none := by
  cases S with
  | nil => rfl
  | cons frame S =>
    cases frame with
    | push n => simp [onTop] at h
    | pop n => rfl
    | barrier n => rfl

theorem eq_zero_of_expose {before after count : Nat}
    (h : Kind.expose (.atom .pop) before after = some count) : before = 0 := by
  by_contra hne
  simp [Kind.expose, hne] at h

/-- A node counts as it changes the stack. -/
theorem allOnTop_leave {n : Nat} {kind : Kind} {after : StackState} {count : Nat}
    (h : kind.expose input.allOnTop after.allOnTop = some count) :
    kind.isSequential = true ∧ (rule.leave n kind input after).allOnTop = count := by
  unfold Kind.expose at h
  split at h
  · cases h
    exact ⟨rfl, by simp [rule, onTop, Nat.add_comm]⟩
  · split at h
    · next hzero =>
      cases h
      have htop := topPush?_eq_none hzero
      refine ⟨rfl, ?_⟩
      simp only [rule, afterPop]
      split
      · cases htop
      · rfl
    · cases h
  · cases h
    exact ⟨rfl, rfl⟩
  · cases h
    exact ⟨rfl, rfl⟩
  · cases h
    exact ⟨rfl, rfl⟩
  · cases h
  · cases h
  · cases h
  · next h₁ h₂ h₃ h₄ h₅ h₆ h₇ h₈ =>
    cases h
    refine ⟨?_, ?_⟩
    · cases kind <;>
        first | rfl | exact absurd rfl h₆ | exact absurd rfl (h₇ _) | exact absurd rfl h₈
    · simp only [rule]

mutual

/-- A tree that the count passes can be threaded, and its pops see no push. -/
theorem thread_of_exposed {pop : Nat → Prop} : ∀ {input : StackState} {count : Nat}
    (r : Rose (Nat × Form)), (∀ x ∈ r.labels, pop x.1 → x.2.kind = .atom .pop) →
    r.forms.exposed input.allOnTop = some count →
    ∃ out ps, rule.thread input r = .ok (out, ps) ∧ out.allOnTop = count ∧
      ∀ p ∈ ps, pop p.node → p.input.topPush? = none
  | input, count, .node (n, form) parts, hpop, h => by
      rw [labels_node, List.forall_mem_cons] at hpop
      rw [forms_node, exposed] at h
      split at h
      · next hbranch =>
        obtain ⟨out, ps, hc, hcount, hps⟩ := threadChoice_of_exposed (n := n) parts hpop.2 h
        refine ⟨out, _, Rule.thread_eq_ok_of_choice hbranch rfl hc, hcount,
          List.forall_mem_append.2 ⟨hps, List.forall_mem_singleton.2 fun h => ?_⟩⟩
        cases hbranch.symm.trans (hpop.1 h)
      · obtain ⟨after, hrow, hleave⟩ := Option.bind_eq_some_iff.1 h
        obtain ⟨next, inside, hthread, rfl, hinside⟩ := threadRow_of_exposed parts hpop.2 hrow
        obtain ⟨hk, hcount⟩ := allOnTop_leave (n := n) hleave
        refine ⟨_, _, Rule.thread_eq_ok hk hthread, hcount, ?_⟩
        refine List.forall_mem_append.2 ⟨hinside, List.forall_mem_singleton.2 fun h => ?_⟩
        have hkind : form.kind = .atom .pop := hpop.1 h
        rw [hkind] at hleave
        exact topPush?_eq_none (eq_zero_of_expose hleave)

theorem threadRow_of_exposed {pop : Nat → Prop} : ∀ {input : StackState} {count : Nat}
    (parts : List (Rose (Nat × Form))), (∀ x ∈ labelsAll parts, pop x.1 → x.2.kind = .atom .pop) →
    exposedRow input.allOnTop (parts.map forms) = some count →
    ∃ out ps, rule.threadRow input parts = .ok (out, ps) ∧ out.allOnTop = count ∧
      ∀ p ∈ ps, pop p.node → p.input.topPush? = none
  | input, _, [], _, h => by
      cases h
      exact ⟨input, [], rfl, rfl, by simp⟩
  | input, count, part :: parts, hpop, h => by
      rw [labelsAll, List.forall_mem_append] at hpop
      obtain ⟨next, hpart, hrow⟩ := Option.bind_eq_some_iff.1 h
      obtain ⟨mid, first, hfirst, rfl, hpsfirst⟩ := thread_of_exposed part hpop.1 hpart
      obtain ⟨out, rest, hrest, hcount, hpsrest⟩ := threadRow_of_exposed parts hpop.2 hrow
      refine ⟨out, first ++ rest, ?_, hcount, List.forall_mem_append.2 ⟨hpsfirst, hpsrest⟩⟩
      rw [Rule.threadRow, hfirst]
      simp only [bind, Except.bind, hrest]
      rfl

theorem threadChoice_of_exposed {pop : Nat → Prop} {n : Nat} : ∀ {input : StackState} {count : Nat}
    (parts : List (Rose (Nat × Form))), (∀ x ∈ labelsAll parts, pop x.1 → x.2.kind = .atom .pop) →
    exposedChoice input.allOnTop (parts.map forms) = some count →
    ∃ out ps, rule.threadChoice (fun S => .barrier n :: S) input parts = .ok (out, ps) ∧
      out.allOnTop = count ∧ ∀ p ∈ ps, pop p.node → p.input.topPush? = none
  | input, _, [], _, h => by
      cases h
      exact ⟨_, _, rfl, rfl, by simp⟩
  | input, count, test :: arms, hpop, h => by
      rw [labelsAll, List.forall_mem_append] at hpop
      obtain ⟨next, htest, harms⟩ := Option.bind_eq_some_iff.1 h
      obtain ⟨tested, first, hfirst, -, hpsfirst⟩ := thread_of_exposed test hpop.1 htest
      have htop : allOnTop (.barrier n :: tested) = 0 := rfl
      obtain ⟨rest, hrest, rfl, hpsrest⟩ := threadArms_of_exposed arms hpop.2 htop harms
      refine ⟨.barrier n :: tested, first ++ rest, ?_, rfl,
        List.forall_mem_append.2 ⟨hpsfirst, hpsrest⟩⟩
      rw [Rule.threadChoice, hfirst]
      simp only [bind, Except.bind, hrest]
      rfl

theorem threadArms_of_exposed {pop : Nat → Prop} : ∀ {input : StackState} {count : Nat}
    (arms : List (Rose (Nat × Form))), (∀ x ∈ labelsAll arms, pop x.1 → x.2.kind = .atom .pop) →
    input.allOnTop = 0 → exposedArms (arms.map forms) = some count →
    ∃ ps, rule.threadArms input arms = .ok ps ∧ count = 0 ∧
      ∀ p ∈ ps, pop p.node → p.input.topPush? = none
  | _, _, [], _, _, h => by
      cases h
      exact ⟨[], rfl, rfl, by simp⟩
  | input, count, arm :: arms, hpop, hi, h => by
      rw [labelsAll, List.forall_mem_append] at hpop
      obtain ⟨next, harm, harms⟩ := Option.bind_eq_some_iff.1 h
      obtain ⟨after, first, hfirst, -, hpsfirst⟩ := thread_of_exposed arm hpop.1 (hi ▸ harm)
      obtain ⟨rest, hrest, hcount, hpsrest⟩ := threadArms_of_exposed arms hpop.2 hi harms
      refine ⟨first ++ rest, ?_, hcount, List.forall_mem_append.2 ⟨hpsfirst, hpsrest⟩⟩
      rw [Rule.threadArms, hfirst]
      simp only [bind, Except.bind, hrest]
      rfl

end

end StackState

/-! ## What is left when pushes are bound -/

namespace SyntaxTree

variable {r r' : Rose (Nat × Form)} {f g : Nat → Option Nat} {kept : Nat → Prop}
  {usage : List (Passage StackState)}

/-- A pop that sees a push becomes its temporary, and any other pop stays and sees none. -/
theorem Bound.exposed_pop (h : Bound r r' f g kept usage) {n : Nat} {loc : Loc}
    {input out : StackState} (hn : (n, (⟨.atom .pop, loc⟩ : Form)) ∈ r.labels)
    (hp : ⟨n, input, out⟩ ∈ usage) :
    ((Rose.node (n, ⟨.atom .pop, loc⟩) []).bound f).exposed (input.onTop g) =
      some ((input.afterPop n).onTop g) := by
  have hf : f n = input.topPush?.bind g := h.plan.pop hn hp
  cases input with
  | nil =>
    rw [bound_of_none hf]
    rfl
  | cons frame S =>
    cases frame with
    | push k =>
      obtain ⟨id, hid⟩ := Option.ne_none_iff_exists'.1 (h.taken hn hp rfl)
      have hf : f n = some id := hf.trans hid
      rw [bound, hf]
      simp [Rose.exposed, exposedRow, Kind.expose, onTop, afterPop, hid]
    | pop k =>
      rw [bound_of_none hf]
      rfl
    | barrier k =>
      rw [bound_of_none hf]
      rfl

/-- A node that is no push and no pop counts as it changes the stack. -/
theorem expose_leave {n before : Nat} {kind : Kind} {input after : StackState}
    (hk : kind.isSequential = true) (hpush : kind ≠ .push) (hpop : kind ≠ .atom .pop) :
    kind.expose before (after.onTop g) = some ((rule.leave n kind input after).onTop g) := by
  cases kind <;> first | rfl | exact absurd rfl hpush | (cases hk; done) | skip
  case atom a => cases a <;> first | rfl | exact absurd rfl hpop

mutual

/-- The count passes the tree in which pushes are bound. -/
theorem Bound.exposed (h : Bound r r' f g kept usage) : ∀ {input out : StackState}
    {ps : List (Passage StackState)} (tree : Rose (Nat × Form)), Within r tree →
    rule.thread input tree = .ok (out, ps) → (∀ p ∈ ps, p ∈ usage) →
    (tree.bound f).exposed (input.onTop g) = some (out.onTop g)
  | input, out, ps, .node (n, form) parts, hin, ht, hps => by
      cases hk : form.kind.isSequential with
      | true =>
        have hlast := hps _ (Rule.thread_last ht)
        obtain ⟨after, inside, hrow, rfl, rfl⟩ := Rule.thread_sequential hk ht
        have hinside := Bound.exposedRow h parts hin.part hrow (List.forall_mem_append.1 hps).1
        by_cases hpop : form.kind = .atom .pop
        · obtain ⟨kind, loc⟩ := form
          obtain rfl : kind = .atom .pop := hpop
          obtain rfl : parts = [] := by
            have hadmits := (hin.wellFormed h.plan.wellFormed).admits
            simpa [Kind.admits, mapAll_eq_map] using hadmits
          cases hrow
          exact h.exposed_pop hin.label_mem hlast
        by_cases hpush : form.kind = .push
        · obtain ⟨kind, loc⟩ := form
          obtain rfl : kind = .push := hpush
          have hf : f n = g n := h.plan.push hin.label_mem
          cases hg : g n with
          | none =>
            rw [bound_of_none (hf.trans hg), Rose.exposed, hinside]
            simp [Kind.expose, onTop, rule, hg, Nat.add_comm]
          | some id =>
            rw [bound, hf.trans hg]
            simp [Rose.exposed, Rose.exposedRow, Kind.expose, hinside, onTop, rule, hg]
        · have hbranch : form.kind ≠ .branch := by
            intro hbranch
            rw [hbranch] at hk
            cases hk
          rw [bound_of_other hpop hpush, Rose.exposed, if_neg hbranch, hinside]
          exact expose_leave hk hpush hpop
      | false =>
        obtain ⟨hbranch, fork, inside, hfork, hc, rfl⟩ := Rule.thread_choice hk ht
        obtain rfl := Option.some.inj hfork
        rw [bound_of_other (by simp [hbranch]) (by simp [hbranch]), Rose.exposed, if_pos hbranch]
        cases parts with
        | nil =>
          cases hc
          rfl
        | cons test arms =>
          obtain ⟨tested, first, rest, htest, rfl, harms, rfl⟩ := Rule.threadChoice_cons hc
          have hps := (List.forall_mem_append.1 hps).1
          rw [List.forall_mem_append] at hps
          have hfirst := Bound.exposed h test (hin.part test (by simp)) htest hps.1
          rw [boundAll, exposedChoice, hfirst]
          exact Bound.exposedArms h arms (fun x hx => hin.part x (by simp [hx])) harms hps.2 rfl

theorem Bound.exposedRow (h : Bound r r' f g kept usage) : ∀ {input out : StackState}
    {ps : List (Passage StackState)} (parts : List (Rose (Nat × Form))),
    (∀ x ∈ parts, Within r x) → rule.threadRow input parts = .ok (out, ps) →
    (∀ p ∈ ps, p ∈ usage) →
    Rose.exposedRow (input.onTop g) (boundAll f parts) = some (out.onTop g)
  | _, _, _, [], _, ht, _ => by
      cases ht
      rfl
  | _, _, _, part :: parts, hin, ht, hps => by
      obtain ⟨next, first, rest, hpart, hparts, rfl⟩ := Rule.threadRow_cons ht
      rw [List.forall_mem_append] at hps
      rw [List.forall_mem_cons] at hin
      rw [boundAll, Rose.exposedRow, Bound.exposed h part hin.1 hpart hps.1]
      exact Bound.exposedRow h parts hin.2 hparts hps.2

theorem Bound.exposedArms (h : Bound r r' f g kept usage) : ∀ {input : StackState}
    {ps : List (Passage StackState)} (arms : List (Rose (Nat × Form))),
    (∀ x ∈ arms, Within r x) → rule.threadArms input arms = .ok ps → (∀ p ∈ ps, p ∈ usage) →
    input.onTop g = 0 → Rose.exposedArms (boundAll f arms) = some 0
  | _, _, [], _, _, _, _ => rfl
  | _, _, arm :: arms, hin, ht, hps, hi => by
      obtain ⟨after, first, rest, harm, harms, rfl⟩ := Rule.threadArms_cons ht
      rw [List.forall_mem_append] at hps
      rw [List.forall_mem_cons] at hin
      have hfirst := Bound.exposed h arm hin.1 harm hps.1
      rw [hi] at hfirst
      rw [boundAll, Rose.exposedArms, hfirst]
      exact Bound.exposedArms h arms hin.2 harms hps.2 hi

end

end SyntaxTree

end ScriptRecovery
