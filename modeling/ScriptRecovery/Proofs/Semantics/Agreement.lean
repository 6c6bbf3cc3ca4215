import ScriptRecovery.Proofs.Semantics.Evaluation

/-!
# Memories that agree

Two memories agree when they differ in their stacks and in hidden temporaries alone.  The own effect
of a node that neither pushes nor pops does the same to both, as long as it does not name a hidden
temporary (`Interpretation.effect_quiet`).
-/

namespace ScriptRecovery

variable {V σ : Type} {hidden : Nat → Prop}

/-- Whether two memories are the same but for their stacks and the hidden temporaries. -/
structure Memory.Agrees (hidden : Nat → Prop) (m₁ m₂ : Memory V σ) : Prop where
  pool : m₁.pool = m₂.pool
  state : m₁.state = m₂.state
  temporaries : ∀ id, ¬ hidden id → m₁.temporaries id = m₂.temporaries id

/-- Whether an answer is no hidden temporary. -/
def Answer.Known (hidden : Nat → Prop) (a : Answer V) : Prop := ∀ id, a = .slot id → ¬ hidden id

/-- Whether two memories that agree have changed in the same way, apart from their stacks and the
hidden temporaries. -/
structure Memory.Moved (hidden : Nat → Prop) (m₁ m₂ m₁' m₂' : Memory V σ) : Prop where
  agrees : m₁'.Agrees hidden m₂'
  left : m₁'.stack = m₁.stack
  right : m₂'.stack = m₂.stack
  held : ∀ id, hidden id → m₂'.temporaries id = m₂.temporaries id

/-- Whether two runs end in the same way and leave memories that agree, with equal stacks if they
did not end early. -/
structure SameOutcome (hidden : Nat → Prop) (r₁ r₂ : Ending V (Answer V) × Memory V σ) : Prop where
  ending : r₁.1 = r₂.1
  agrees : r₁.2.Agrees hidden r₂.2
  stack : ∀ a, r₁.1 = .done a → r₁.2.stack = r₂.2.stack

theorem SameOutcome.mono {hidden' : Nat → Prop} {r₁ r₂ : Ending V (Answer V) × Memory V σ}
    (h : SameOutcome hidden r₁ r₂) (hh : ∀ id, hidden id → hidden' id) :
    SameOutcome hidden' r₁ r₂ :=
  ⟨h.ending, ⟨h.agrees.pool, h.agrees.state,
    fun id hid => h.agrees.temporaries id fun h' => hid (hh id h')⟩, h.stack⟩

namespace Memory

variable {m₁ m₂ : Memory V σ}

theorem Agrees.refl (m : Memory V σ) : m.Agrees hidden m := ⟨rfl, rfl, fun _ _ => rfl⟩

theorem Agrees.moved (h : m₁.Agrees hidden m₂) : Moved hidden m₁ m₂ m₁ m₂ :=
  ⟨h, rfl, rfl, fun _ _ => rfl⟩

theorem Agrees.setState (h : m₁.Agrees hidden m₂) (s : σ) :
    Moved hidden m₁ m₂ { m₁ with state := s } { m₂ with state := s } :=
  ⟨⟨h.pool, rfl, h.temporaries⟩, rfl, rfl, fun _ _ => rfl⟩

theorem Agrees.bind (h : m₁.Agrees hidden m₂) {id : Nat} (hid : ¬ hidden id) (v : V) :
    Moved hidden m₁ m₂ (m₁.bind id v) (m₂.bind id v) := by
  refine ⟨⟨h.pool, h.state, fun id' hid' => ?_⟩, rfl, rfl, fun id' hid' => ?_⟩
  · by_cases heq : id' = id
    · subst heq
      simp [Memory.bind]
    · simp [Memory.bind, Function.update_of_ne heq, h.temporaries id' hid']
  · refine Function.update_of_ne ?_ _ _
    rintro rfl
    exact hid hid'

theorem Moved.trans {m₁' m₂' m₁'' m₂'' : Memory V σ} (h : Moved hidden m₁ m₂ m₁' m₂')
    (h' : Moved hidden m₁' m₂' m₁'' m₂'') : Moved hidden m₁ m₂ m₁'' m₂'' :=
  ⟨h'.agrees, h'.left.trans h.left, h'.right.trans h.right,
    fun id hid => (h'.held id hid).trans (h.held id hid)⟩

end Memory

namespace Interpretation

open Memory

variable {I : Interpretation V σ} {m₁ m₂ : Memory V σ}

theorem performing_agrees (h : m₁.Agrees hidden m₂) (op : Operation) (vs : List V) :
    (I.performing op vs m₁).1 = (I.performing op vs m₂).1 ∧
      (I.performing op vs m₁).1.Known hidden ∧
      Moved hidden m₁ m₂ (I.performing op vs m₁).2 (I.performing op vs m₂).2 := by
  simp only [performing, h.state]
  exact ⟨trivial, nofun, h.setState _⟩

theorem assign_agrees (h : m₁.Agrees hidden m₂) (op : AssignmentOperator) {a : Answer V}
    (ha : a.Known hidden) (v : V) :
    (I.assign op a v m₁).1 = (I.assign op a v m₂).1 ∧
      Moved hidden m₁ m₂ (I.assign op a v m₁).2 (I.assign op a v m₂).2 := by
  cases a with
  | place p =>
    simp only [assign, h.state]
    exact ⟨trivial, h.setState _⟩
  | slot id =>
    have hid := ha id rfl
    cases op with
    | simple => exact ⟨rfl, h.bind hid v⟩
    | add =>
      simp only [assign, h.state, h.temporaries id hid]
      exact ⟨trivial, (h.setState _).trans ((h.setState _).agrees.bind hid _)⟩
  | value w => cases op <;> exact ⟨rfl, h.moved⟩
  | off => cases op <;> exact ⟨rfl, h.moved⟩

theorem atom_agrees (h : m₁.Agrees hidden m₂) {a : Atom} (hp : a ≠ .pop)
    (ht : ∀ id, a = .temporary id → ¬ hidden id) :
    (I.atom a m₁).1 = (I.atom a m₂).1 ∧
      Moved hidden m₁ m₂ (I.atom a m₁).2 (I.atom a m₂).2 := by
  cases a with
  | pop => exact absurd rfl hp
  | temporary id => exact ⟨h.temporaries id (ht id rfl), h.moved⟩
  | identifier name => simp only [atom, h.state]; exact ⟨trivial, h.setState _⟩
  | register index => simp only [atom, h.state]; exact ⟨trivial, h.setState _⟩
  | global => simp only [atom, h.state]; exact ⟨trivial, h.setState _⟩
  | constant index => simp only [atom, h.pool]; exact ⟨trivial, h.moved⟩
  | boolean b => exact ⟨rfl, h.moved⟩
  | number n => exact ⟨rfl, h.moved⟩
  | string s => exact ⟨rfl, h.moved⟩
  | null => exact ⟨rfl, h.moved⟩
  | undefined => exact ⟨rfl, h.moved⟩

/-- A node that neither pushes nor pops does the same to memories that agree. -/
theorem effect_quiet (h : m₁.Agrees hidden m₂) {k : Kind} (hq : k.Quiet)
    (ht : ∀ id, k.temporary? = some id → ¬ hidden id) {as : List (Answer V)}
    (has : ∀ a ∈ as, a.Known hidden) :
    (I.effect k as m₁).1 = (I.effect k as m₂).1 ∧
      (∀ a, (I.effect k as m₁).1 = .done a → a.Known hidden) ∧
      Moved hidden m₁ m₂ (I.effect k as m₁).2 (I.effect k as m₂).2 := by
  have perform : ∀ op vs, (Ending.done (I.performing op vs m₁).1 : Ending V (Answer V)) =
      .done (I.performing op vs m₂).1 ∧
      (∀ a, (Ending.done (I.performing op vs m₁).1 : Ending V (Answer V)) = .done a →
        a.Known hidden) ∧
      Moved hidden m₁ m₂ (I.performing op vs m₁).2 (I.performing op vs m₂).2 := by
    intro op vs
    obtain ⟨h₁, h₂, h₃⟩ := performing_agrees (I := I) h op vs
    refine ⟨congrArg _ h₁, fun a ha => ?_, h₃⟩
    cases ha
    exact h₂
  cases k with
  | push => exact absurd rfl hq.1
  | stackCall => exact absurd rfl hq.2.2.1
  | initArray => exact absurd rfl hq.2.2.2.1
  | initObject => exact absurd rfl hq.2.2.2.2
  | atom a =>
    have ha : a ≠ .pop := fun hp => hq.2.1 (hp ▸ rfl)
    obtain ⟨h₁, h₂⟩ := atom_agrees (I := I) h ha fun id hid => ht id (hid ▸ rfl)
    exact ⟨by simp only [effect, h₁], by simp [effect, Answer.Known], h₂⟩
  | assignment op =>
    have ha : (as.headD .off).Known hidden := by
      cases as with
      | nil => exact fun _ h => absurd h (by simp)
      | cons a as => exact has a (by simp)
    obtain ⟨h₁, h₂⟩ := assign_agrees (I := I) h op ha
      ((as.map (Answer.valueD I.undefined)).getLastD I.undefined)
    exact ⟨by simp only [effect, h₁], by simp [effect, Answer.Known], h₂⟩
  | temporaryTarget id =>
    refine ⟨rfl, fun a ha => ?_, h.moved⟩
    cases ha
    intro id' hid'
    cases hid'
    exact ht id rfl
  | unary op => exact perform _ _
  | binary op => exact perform _ _
  | member => exact perform _ _
  | lookup => exact perform _ _
  | propertyName => exact perform _ _
  | call => exact perform _ _
  | setVariable => exact ⟨rfl, by simp [effect, Answer.Known], (perform _ _).2.2⟩
  | declareVariable => exact ⟨rfl, by simp [effect, Answer.Known], (perform _ _).2.2⟩
  | trace => exact ⟨rfl, by simp [effect, Answer.Known], (perform _ _).2.2⟩
  | constantPool pool =>
    exact ⟨rfl, by simp [effect, Answer.Known], ⟨rfl, h.state, h.temporaries⟩, rfl, rfl,
      fun _ _ => rfl⟩
  | script | block | empty | expression | branch | ret | raise | logical op | sequence
  | conditional | input index | identifierTarget name | memberTarget | registerTarget index =>
    exact ⟨rfl, by simp [effect, Answer.Known], h.moved⟩

/-- An operation on the whole stack does the same to memories that agree on it. -/
theorem consuming_agrees (h : m₁.Agrees hidden m₂) (hs : m₁.stack = m₂.stack)
    (op : StackOperation) (vs : List V) :
    (I.consuming op vs m₁).1 = (I.consuming op vs m₂).1 ∧
      (I.consuming op vs m₁).2.Agrees hidden (I.consuming op vs m₂).2 ∧
      (I.consuming op vs m₁).2.stack = (I.consuming op vs m₂).2.stack := by
  simp only [consuming, h.state, hs]
  exact ⟨trivial, ⟨h.pool, rfl, h.temporaries⟩, trivial⟩

/-- A node that takes a number of values that is not known does the same to memories that agree on
the stack. -/
theorem effect_consuming (h : m₁.Agrees hidden m₂) (hs : m₁.stack = m₂.stack) {k : Kind}
    (hk : k = .stackCall ∨ k = .initArray ∨ k = .initObject) {as : List (Answer V)}
    (has : ∀ a ∈ as, a.Known hidden) :
    (I.effect k as m₁).1 = (I.effect k as m₂).1 ∧
      (∀ a, (I.effect k as m₁).1 = .done a → a.Known hidden) ∧
      (I.effect k as m₁).2.Agrees hidden (I.effect k as m₂).2 ∧
      (I.effect k as m₁).2.stack = (I.effect k as m₂).2.stack := by
  rcases hk with rfl | rfl | rfl
  · have ha : (as.getD 2 .off).Known hidden := by
      rw [List.getD_eq_getElem?_getD]
      cases hget : as[2]? with
      | none => exact nofun
      | some a => exact has a (List.mem_of_getElem? hget)
    obtain ⟨h₁, h₂, h₃⟩ := consuming_agrees (I := I) h hs .call
      ((as.map (Answer.valueD I.undefined)).take 2)
    have h₄ := (assign_agrees (I := I) h₂ .simple ha
      (I.consuming .call ((as.map (Answer.valueD I.undefined)).take 2) m₂).1).2
    refine ⟨rfl, by simp [effect, Answer.Known], ?_, ?_⟩
    · simp only [effect, h₁]
      exact h₄.agrees
    · simp only [effect, h₁]
      exact h₄.left.trans (h₃.trans h₄.right.symm)
  · obtain ⟨h₁, h₂, h₃⟩ := consuming_agrees (I := I) h hs .initArray
      (as.map (Answer.valueD I.undefined))
    exact ⟨by simp only [effect, h₁], by simp [effect, Answer.Known], h₂, h₃⟩
  · obtain ⟨h₁, h₂, h₃⟩ := consuming_agrees (I := I) h hs .initObject
      (as.map (Answer.valueD I.undefined))
    exact ⟨by simp only [effect, h₁], by simp [effect, Answer.Known], h₂, h₃⟩

end Interpretation

end ScriptRecovery
