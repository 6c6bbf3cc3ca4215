import ScriptRecovery.Proofs.Arena.Context
import ScriptRecovery.Proofs.Semantics.Agreement

/-!
# Runs by what they do to the operand stack

A run is seen here as the row of what it does to the stack (`StackEvent`), with the nodes that do
it.  `Rose.Runs` says which rows the runs of a numbered tree give, without any meaning of values: a
test can come out either way, a push can put any value on the stack, and a call, an array and an
object can take any number of values off.  Nothing else touches the stack.  A return and a raised
value end a run early, after what it has done so far.

Every run of an interpretation whose operations on the whole stack only take values off gives such
a row, and the row accounts for the stack it leaves (`Interpretation.exists_runs`).
-/

namespace ScriptRecovery

/-- What a node does to the operand stack. -/
inductive StackEvent (V : Type)
  /-- A push puts a value on top. -/
  | push (node : Nat) (v : V)
  /-- A pop takes the value on top off. -/
  | pop (node : Nat)
  /-- A call, an array or an object takes some values off. -/
  | take (node count : Nat)

namespace StackEvent

variable {V : Type}

/-- The stack after an event, from the top down. -/
def apply (stack : List V) : StackEvent V → List V
  | push _ v => v :: stack
  | pop _ => stack.tail
  | take _ count => stack.drop count

/-- The stack after events in a row. -/
def stackAfter (stack : List V) (es : List (StackEvent V)) : List V := es.foldl apply stack

@[simp] theorem stackAfter_nil (stack : List V) : stackAfter stack [] = stack := rfl

@[simp] theorem stackAfter_cons (stack : List V) (e : StackEvent V) (es : List (StackEvent V)) :
    stackAfter stack (e :: es) = stackAfter (e.apply stack) es := rfl

@[simp] theorem stackAfter_append (stack : List V) (es es' : List (StackEvent V)) :
    stackAfter stack (es ++ es') = stackAfter (stackAfter stack es) es' := List.foldl_append

end StackEvent

/-- Whether a node of a kind can do something to the stack by itself. -/
inductive Kind.Does {V : Type} (n : Nat) : Kind → List (StackEvent V) → Prop
  | push (v : V) : Does n .push [.push n v]
  | pop : Does n (.atom .pop) [.pop n]
  | take {kind : Kind} (hk : kind = .stackCall ∨ kind = .initArray ∨ kind = .initObject)
      (count : Nat) : Does n kind [.take n count]
  | quiet {kind : Kind} (hk : kind.Quiet) : Does n kind []

/-- Whether a node of a kind lets a run go on. -/
def Kind.continues : Kind → Bool
  | .ret | .raise => false
  | _ => true

namespace Rose

mutual

/-- Whether a run of a tree can do something to the stack, and come to its end or not. -/
inductive Runs {V : Type} : Rose (Nat × Form) → List (StackEvent V) → Bool → Prop
  | node {n : Nat} {form : Form} {parts : List (Rose (Nat × Form))} {es own : List (StackEvent V)}
      (hk : form.kind.isChoice = false) (hparts : RunsRow parts es true)
      (hown : form.kind.Does n own) :
      Runs (.node (n, form) parts) (es ++ own) form.kind.continues
  | cut {n : Nat} {form : Form} {parts : List (Rose (Nat × Form))} {es : List (StackEvent V)}
      (hk : form.kind.isChoice = false) (hparts : RunsRow parts es false) :
      Runs (.node (n, form) parts) es false
  | choice {n : Nat} {form : Form} {parts : List (Rose (Nat × Form))} {es : List (StackEvent V)}
      {done : Bool} (hk : form.kind.isChoice = true) (hparts : RunsChoice parts es done) :
      Runs (.node (n, form) parts) es done

/-- Whether a run of trees in a row can do something to the stack. -/
inductive RunsRow {V : Type} : List (Rose (Nat × Form)) → List (StackEvent V) → Bool → Prop
  | nil : RunsRow [] [] true
  | cons {part : Rose (Nat × Form)} {parts : List (Rose (Nat × Form))}
      {es es' : List (StackEvent V)} {done : Bool} (hpart : Runs part es true)
      (hparts : RunsRow parts es' done) : RunsRow (part :: parts) (es ++ es') done
  | cut {part : Rose (Nat × Form)} {parts : List (Rose (Nat × Form))} {es : List (StackEvent V)}
      (hpart : Runs part es false) : RunsRow (part :: parts) es false

/-- Whether a run of a test and at most one arm can do something to the stack.  Only where there are
less than two arms can there be none to run. -/
inductive RunsChoice {V : Type} : List (Rose (Nat × Form)) → List (StackEvent V) → Bool → Prop
  | nil : RunsChoice [] [] true
  | arm {test arm : Rose (Nat × Form)} {arms : List (Rose (Nat × Form))}
      {es es' : List (StackEvent V)} {done : Bool} (htest : Runs test es true) (harm : arm ∈ arms)
      (hruns : Runs arm es' done) : RunsChoice (test :: arms) (es ++ es') done
  | skip {test : Rose (Nat × Form)} {arms : List (Rose (Nat × Form))} {es : List (StackEvent V)}
      (htest : Runs test es true) (harms : arms.length < 2) : RunsChoice (test :: arms) es true
  | cut {test : Rose (Nat × Form)} {arms : List (Rose (Nat × Form))} {es : List (StackEvent V)}
      (htest : Runs test es false) : RunsChoice (test :: arms) es false

end

end Rose

/-- Whether an evaluation came to its end. -/
def Ending.isDone {V α : Type} : Ending V α → Bool
  | done _ => true
  | _ => false

namespace Interpretation

open Rose StackEvent

variable {V σ : Type} {I : Interpretation V σ}

/-- Whether the operations on the whole stack only take values off. -/
def TakesOnly (I : Interpretation V σ) : Prop :=
  ∀ op vs stack s, ∃ count, (I.consume op vs stack s).2.1 = stack.drop count

/-- Whether an evaluation does something to a stack that a run can do, and comes to its end if that
run does. -/
def Accounts {α : Type} (Run : List (StackEvent V) → Bool → Prop) (stack : List V)
    (r : Ending V α × Memory V σ) : Prop :=
  ∃ es, Run es r.1.isDone ∧ r.2.stack = stackAfter stack es

theorem Accounts.mono {α : Type} {Run Run' : List (StackEvent V) → Bool → Prop} {stack : List V}
    {r : Ending V α × Memory V σ} (h : Accounts Run stack r)
    (hrun : ∀ es done, Run es done → Run' es done) : Accounts Run' stack r := by
  obtain ⟨es, hes, hstack⟩ := h
  exact ⟨es, hrun es _ hes, hstack⟩

/-- What two evaluations in a row do is what they do one after the other, unless the first one ends
early. -/
theorem Accounts.andThen {α β : Type} {Run Run'' : List (StackEvent V) → Bool → Prop}
    {stack : List V} {r : Ending V α × Memory V σ}
    {k : α → Memory V σ → Ending V β × Memory V σ} (h : Accounts Run stack r)
    (Run' : List (StackEvent V) → Bool → Prop) (hk : ∀ a, Accounts Run' r.2.stack (k a r.2))
    (hseq : ∀ es es' done, Run es true → Run' es' done → Run'' (es ++ es') done)
    (hcut : ∀ es, Run es false → Run'' es false) :
    Accounts Run'' stack (Interpretation.andThen r k) := by
  obtain ⟨es, hes, hstack⟩ := h
  obtain ⟨e, m⟩ := r
  cases e with
  | done a =>
    obtain ⟨es', hes', hstack'⟩ := hk a
    exact ⟨es ++ es', hseq es es' _ hes hes', by rw [stackAfter_append, ← hstack, ← hstack']; rfl⟩
  | returned v => exact ⟨es, hcut es hes, hstack⟩
  | raised v => exact ⟨es, hcut es hes, hstack⟩

/-! ## Single nodes -/

theorem isDone_effect (kind : Kind) (answers : List (Answer V)) (m : Memory V σ) :
    (I.effect kind answers m).1.isDone = kind.continues := by
  cases kind <;> rfl

theorem stack_assign (op : AssignmentOperator) (target : Answer V) (v : V) (m : Memory V σ) :
    (I.assign op target v m).2.stack = m.stack := by
  unfold assign
  split <;> rfl

theorem stack_effect_of_quiet {kind : Kind} (hk : kind.Quiet) (answers : List (Answer V))
    (m : Memory V σ) : (I.effect kind answers m).2.stack = m.stack := by
  have hm : m.Agrees (fun _ => False) m := .refl m
  exact (effect_quiet hm hk (fun _ _ => id) fun _ _ _ _ => id).2.2.left

/-- The own effect of a node is one that its kind allows. -/
theorem TakesOnly.effect (hI : I.TakesOnly) (n : Nat) (kind : Kind) (answers : List (Answer V))
    (m : Memory V σ) : Accounts (fun own done => kind.Does n own ∧ done = kind.continues) m.stack
      (I.effect kind answers m) := by
  have hdone := isDone_effect (I := I) kind answers m
  by_cases hk : kind = .stackCall ∨ kind = .initArray ∨ kind = .initObject
  · have htake : ∃ count, (I.effect kind answers m).2.stack = m.stack.drop count := by
      rcases hk with rfl | rfl | rfl
      · obtain ⟨count, hcount⟩ :=
          hI .call ((answers.map (Answer.valueD I.undefined)).take 2) m.stack m.state
        exact ⟨count, (stack_assign ..).trans hcount⟩
      · exact hI .initArray _ m.stack m.state
      · exact hI .initObject _ m.stack m.state
    obtain ⟨count, hcount⟩ := htake
    exact ⟨[.take n count], ⟨.take hk count, hdone⟩, hcount⟩
  by_cases hpush : kind = .push
  · subst hpush
    exact ⟨[.push n _], ⟨.push _, hdone⟩, rfl⟩
  by_cases hpop : kind = .atom .pop
  · subst hpop
    exact ⟨[.pop n], ⟨.pop, hdone⟩, rfl⟩
  have hquiet : kind.Quiet := by
    simp only [not_or] at hk
    exact ⟨hpush, hpop, hk⟩
  exact ⟨[], ⟨.quiet hquiet, hdone⟩, stack_effect_of_quiet hquiet answers m⟩

/-! ## Trees -/

section

variable {n : Nat} {form : Form} {parts arms : List (Rose (Nat × Form))} {test : Rose (Nat × Form)}

theorem accounts_row (ih : ∀ part ∈ parts, ∀ m : Memory V σ,
      Accounts part.Runs m.stack (I.exec part.forms m)) (m : Memory V σ) :
    Accounts (RunsRow parts) m.stack (I.execRow (parts.map forms) m) := by
  induction parts generalizing m with
  | nil => exact ⟨[], .nil, rfl⟩
  | cons part parts ihparts =>
    rw [List.map_cons, execRow]
    refine (ih part (by simp) m).andThen (RunsRow parts) (fun a => ?_)
      (fun _ _ _ h h' => .cons h h') fun _ h => .cut h
    refine (ihparts (fun x hx => ih x (by simp [hx])) _).andThen
      (fun es done => es = [] ∧ done = true) (fun as => ⟨[], ⟨rfl, rfl⟩, rfl⟩) ?_ fun _ h => h
    rintro es es' done h ⟨rfl, rfl⟩
    simpa using h

/-- The arm that a test calls for is one of the arms, or there is no such arm. -/
theorem accounts_arm (ih : ∀ arm ∈ arms, ∀ m : Memory V σ,
      Accounts arm.Runs m.stack (I.exec arm.forms m)) (index : Nat) (m : Memory V σ) :
    Accounts (fun es done => (∃ arm ∈ arms, arm.Runs es done) ∨
        arms.length ≤ index ∧ es = [] ∧ done = true) m.stack
      (I.execArm index (arms.map forms) m) := by
  induction arms generalizing index with
  | nil => exact ⟨[], .inr ⟨Nat.zero_le _, rfl, rfl⟩, rfl⟩
  | cons arm arms iharms =>
    cases index with
    | zero =>
      rw [List.map_cons, execArm]
      exact (ih arm (by simp) m).mono fun es done h => .inl ⟨arm, by simp, h⟩
    | succ index =>
      rw [List.map_cons, execArm]
      refine (iharms (fun x hx => ih x (by simp [hx])) index).mono fun es done h => ?_
      rcases h with ⟨arm', harm', h⟩ | ⟨hlen, h⟩
      · exact .inl ⟨arm', by simp [harm'], h⟩
      · exact .inr ⟨by simpa using hlen, h⟩

theorem arm?_cases {kind : Kind} (hk : kind.isChoice = true) (holds : Bool) :
    (∃ index < 2, kind.arm? holds = some index) ∨
      (∃ op, kind = .logical op) ∧ kind.arm? holds = none := by
  cases kind with
  | logical op => cases op <;> cases holds <;> simp [Kind.arm?]
  | branch => cases holds <;> simp [Kind.arm?]
  | conditional => cases holds <;> simp [Kind.arm?]
  | _ => cases hk

theorem accounts_choice (hk : form.kind.isChoice = true)
    (hadmits : form.kind.admits ((parts.map forms).map category))
    (ih : ∀ part ∈ parts, ∀ m : Memory V σ,
      Accounts part.Runs m.stack (I.exec part.forms m)) (m : Memory V σ) :
    Accounts (RunsChoice parts) m.stack (I.execChoice form.kind (parts.map forms) m) := by
  cases parts with
  | nil => exact ⟨[], .nil, rfl⟩
  | cons test arms =>
    rw [List.map_cons, execChoice]
    refine (ih test (by simp) m).andThen (fun es done => (∃ arm ∈ arms, arm.Runs es done) ∨
      arms.length < 2 ∧ es = [] ∧ done = true) (fun a => ?_) (fun es es' done h h' => ?_)
      fun _ h => .cut h
    · obtain ⟨index, hindex, hi⟩ | ⟨⟨op, hop⟩, hi⟩ :=
        arm?_cases hk (I.holds (a.valueD I.undefined))
      · simp only [hi]
        refine (accounts_arm (fun x hx => ih x (by simp [hx])) index _).mono fun es done h => ?_
        exact h.imp_right fun ⟨hlen, h⟩ => ⟨by omega, h⟩
      · simp only [hi]
        rw [hop] at hadmits
        have hlen : arms.length = 1 := by simpa using congrArg List.length hadmits
        exact ⟨[], .inr ⟨by omega, rfl, rfl⟩, rfl⟩
    · rcases h' with ⟨arm, harm, h'⟩ | ⟨hlen, rfl, rfl⟩
      · exact .arm h harm h'
      · simpa using RunsChoice.skip h hlen

/-- The name of the trace function does nothing to the stack. -/
theorem runs_of_isTrace {callee : Rose (Nat × Form)} (hw : callee.forms.WellFormed)
    (htrace : I.isTrace callee.forms.label.kind = true) : callee.Runs (V := V) [] true := by
  obtain ⟨⟨n, form⟩, parts⟩ := callee
  obtain ⟨a, ha, hpop⟩ : ∃ a : Atom, form.kind = .atom a ∧ a ≠ .pop := by
    rcases I.atom_of_isTrace htrace with ha | ⟨name, ha⟩
    · exact ⟨_, ha, by simp⟩
    · exact ⟨_, ha, by simp⟩
  rw [forms_node] at hw
  obtain rfl : parts = [] := by simpa [ha, Kind.admits] using hw.admits
  have hquiet : form.kind.Quiet := by simpa [ha, Kind.Quiet] using hpop
  have hruns : (Rose.node (n, form) []).Runs (V := V) ([] ++ []) form.kind.continues :=
    .node (by rw [ha]; rfl) .nil (.quiet hquiet)
  rw [ha] at hruns
  exact hruns

theorem accounts_call (hI : I.TakesOnly) (hk : form.kind = .call)
    (hw : ∀ part ∈ parts, part.forms.WellFormed)
    (ih : ∀ part ∈ parts, ∀ m : Memory V σ,
      Accounts part.Runs m.stack (I.exec part.forms m)) (m : Memory V σ) :
    Accounts (Rose.node (n, form) parts).Runs m.stack (I.execCall (parts.map forms) m) := by
  have hchoice : form.kind.isChoice = false := by rw [hk]; rfl
  have hown : ∀ es own done, RunsRow parts es true →
      Kind.Does (V := V) n .call own ∧ done = Kind.continues .call →
      (Rose.node (n, form) parts).Runs (es ++ own) done := by
    rintro es own done hes ⟨hown, rfl⟩
    rw [← hk] at hown ⊢
    exact .node hchoice hes hown
  cases parts with
  | nil =>
    exact (hI.effect n .call [] m).mono fun own done h => hown [] own done .nil h
  | cons callee arguments =>
    rw [List.map_cons, execCall]
    have hrow : ∀ m : Memory V σ, Accounts (RunsRow arguments) m.stack
        (I.execRow (arguments.map forms) m) := accounts_row fun x hx => ih x (by simp [hx])
    split
    · next htrace =>
      have hcallee : callee.Runs (V := V) [] true :=
        runs_of_isTrace (hw callee (by simp)) htrace
      exact (hrow m).andThen (fun own done => Kind.Does n .call own ∧ done = Kind.continues .call)
        (fun as => ⟨[], ⟨.quiet (by simp [Kind.Quiet]), rfl⟩, rfl⟩)
        (fun es own done h => hown _ _ _ (.cons hcallee h))
        fun es h => .cut hchoice (.cons hcallee h)
    · refine (ih callee (by simp) m).andThen (fun es done => ∃ es₁ own, es = es₁ ++ own ∧
        (RunsRow arguments es₁ true ∧ Kind.Does n .call own ∧ done = Kind.continues .call ∨
          RunsRow arguments es₁ false ∧ own = [] ∧ done = false))
        (fun a => ?_) ?_ fun es h => .cut hchoice (.cut h)
      · exact (hrow _).andThen _ (fun as => hI.effect n .call (a :: as) _)
          (fun es own done h h' => ⟨es, own, rfl, .inl ⟨h, h'⟩⟩)
          fun es h => ⟨es, [], by simp, .inr ⟨h, rfl, rfl⟩⟩
      · rintro es _ done h ⟨es₁, own, rfl, ⟨hrow, hdoes⟩ | ⟨hrow, rfl, rfl⟩⟩
        · rw [← List.append_assoc]
          exact hown _ _ _ (.cons h hrow) hdoes
        · rw [List.append_nil]
          exact .cut hchoice (.cons h hrow)

/-- What a run does to the stack is what the tree allows. -/
theorem TakesOnly.accounts (hI : I.TakesOnly) (tree : Rose (Nat × Form))
    (hw : tree.forms.WellFormed) (m : Memory V σ) :
    Accounts tree.Runs m.stack (I.exec tree.forms m) := by
  induction tree using Rose.induct generalizing m with
  | h label parts ih =>
    obtain ⟨n, form⟩ := label
    rw [forms_node] at hw ⊢
    have hparts : ∀ part ∈ parts, ∀ m : Memory V σ,
        Accounts part.Runs m.stack (I.exec part.forms m) := fun part hpart =>
      ih part hpart (hw.parts _ (List.mem_map_of_mem hpart))
    cases hk : form.kind.isChoice with
    | true =>
      rw [exec_choice I hk]
      exact (accounts_choice hk hw.admits hparts m).mono fun _ _ => .choice hk
    | false =>
      by_cases hc : form.kind = .call
      · rw [exec_call I hc]
        have hwparts : ∀ part ∈ parts, part.forms.WellFormed := fun part hpart =>
          hw.parts _ (List.mem_map_of_mem hpart)
        exact accounts_call hI hc hwparts hparts m
      · rw [exec_sequential I hk hc]
        refine (accounts_row hparts m).andThen _ (fun as => hI.effect n form.kind as _) ?_
          fun es h => .cut hk h
        rintro es own done h ⟨hown, rfl⟩
        exact .node hk h hown

end

end Interpretation

end ScriptRecovery
