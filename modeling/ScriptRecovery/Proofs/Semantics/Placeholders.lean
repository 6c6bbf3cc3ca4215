import ScriptRecovery.Proofs.Script.Replacement
import ScriptRecovery.Proofs.Script.Temporaries
import ScriptRecovery.Proofs.Semantics.Agreement

/-!
# Placeholders and the temporaries that stand for them

An expression with placeholders is evaluated over values for them (`Interpretation.fed`).  With
temporaries that hold the values in place of the placeholders it is evaluated in the same way, if it
names none of these temporaries itself.

The two memories then agree outside the temporaries that were put in, which are hidden from the
expression with placeholders and keep what they hold (`Memory.Beside`).  One lemma for the own
effect of a node (`Memory.Beside.effect`) carries over to trees with their labels changed
(`Interpretation.exec_map`).  With all labels kept this says that a tree leaves the temporaries
alone that it does not name.
-/

namespace ScriptRecovery

variable {V σ : Type} {hidden : Nat → Prop} {held inputs : Nat → V}

/-- The same meaning of the operations, over other values for placeholders. -/
def Interpretation.fed (I : Interpretation V σ) (inputs : Nat → V) : Interpretation V σ :=
  { I with inputs }

/-- Whether a kind may stand where another one does: the same one, which names no hidden temporary,
or for a placeholder a hidden temporary that holds its value. -/
inductive Kind.Faces (hidden : Nat → Prop) (held inputs : Nat → V) : Kind → Kind → Prop
  | same {k : Kind} : (∀ i, k ≠ .input i) → (∀ id, k.temporary? = some id → ¬ hidden id) →
      Faces hidden held inputs k k
  | placeholder {i id : Nat} : hidden id → held id = inputs i →
      Faces hidden held inputs (.input i) (.atom (.temporary id))

namespace Kind.Faces

variable {k k' : Kind}

theorem eq_of_ne (h : k.Faces hidden held inputs k') (hk : ∀ i, k ≠ .input i) : k' = k := by
  cases h with
  | same => rfl
  | placeholder => exact absurd rfl (hk _)

theorem isChoice_eq (h : k.Faces hidden held inputs k') : k'.isChoice = k.isChoice := by
  cases h <;> rfl

theorem call : Faces hidden held inputs .call .call := .same nofun nofun

theorem call_iff (h : k.Faces hidden held inputs k') : k' = Kind.call ↔ k = Kind.call := by
  cases h <;> simp

end Kind.Faces

/-- Whether two memories are the same but for hidden temporaries, for which the second one has given
values. -/
structure Memory.Beside (hidden : Nat → Prop) (held : Nat → V) (m₁ m₂ : Memory V σ) : Prop where
  agrees : m₁.Agrees hidden m₂
  stack : m₁.stack = m₂.stack
  held : ∀ id, hidden id → m₂.temporaries id = held id

/-- Whether two runs end in the same way, with an answer of some sort, and with memories that are
the same but for hidden temporaries. -/
structure Parallel {α : Type} (hidden : Nat → Prop) (held : Nat → V) (known : α → Prop)
    (r₁ r₂ : Ending V α × Memory V σ) : Prop where
  ending : r₁.1 = r₂.1
  known : ∀ a, r₁.1 = .done a → known a
  memory : r₁.2.Beside hidden held r₂.2

theorem Parallel.andThen {α β : Type} {known : α → Prop} {known' : β → Prop}
    {r₁ r₂ : Ending V α × Memory V σ} {k₁ k₂ : α → Memory V σ → Ending V β × Memory V σ}
    (h : Parallel hidden held known r₁ r₂)
    (hk : ∀ {a m₁ m₂}, known a → m₁.Beside hidden held m₂ →
      Parallel hidden held known' (k₁ a m₁) (k₂ a m₂)) :
    Parallel hidden held known' (Interpretation.andThen r₁ k₁) (Interpretation.andThen r₂ k₂) := by
  obtain ⟨e₁, m₁⟩ := r₁
  obtain ⟨e₂, m₂⟩ := r₂
  obtain ⟨rfl, hknown, hm⟩ := h
  cases e₁ with
  | done a => exact hk (hknown a rfl) hm
  | returned v => exact ⟨rfl, nofun, hm⟩
  | raised v => exact ⟨rfl, nofun, hm⟩

/-! ## Single nodes -/

theorem Answer.known_value {v : V} : (Answer.value v).Known hidden := nofun

theorem Answer.known_off : (Answer.off : Answer V).Known hidden := nofun

namespace Memory.Beside

open Interpretation

variable {I : Interpretation V σ} {m₁ m₂ m₁' m₂' : Memory V σ}

theorem done {α : Type} {known : α → Prop} {a : α} (h : m₁.Beside hidden held m₂)
    (ha : known a) : Parallel hidden held known (.done a, m₁) (.done a, m₂) :=
  ⟨rfl, fun b hb => by cases hb; exact ha, h⟩

theorem moved (h : m₁.Beside hidden held m₂) (hm : Moved hidden m₁ m₂ m₁' m₂') :
    m₁'.Beside hidden held m₂' :=
  ⟨hm.agrees, by rw [hm.left, hm.right, h.stack],
    fun id hid => (hm.held id hid).trans (h.held id hid)⟩

/-- Memories whose stacks and states change to the same. -/
theorem replace (h : m₁.Beside hidden held m₂) (stack : List V) (state : σ) :
    Beside hidden held { m₁ with stack, state } { m₂ with stack, state } :=
  ⟨⟨h.agrees.pool, rfl, h.agrees.temporaries⟩, rfl, h.held⟩

theorem push (h : m₁.Beside hidden held m₂) (v : V) :
    Beside hidden held (m₁.push v) (m₂.push v) :=
  ⟨⟨h.agrees.pool, h.agrees.state, h.agrees.temporaries⟩, congrArg (v :: ·) h.stack, h.held⟩

theorem consuming (h : m₁.Beside hidden held m₂) (op : StackOperation) (vs : List V) :
    (I.consuming op vs m₁).1 = (I.consuming op vs m₂).1 ∧
      (I.consuming op vs m₁).2.Beside hidden held (I.consuming op vs m₂).2 := by
  simp only [Interpretation.consuming, h.agrees.state, h.stack]
  exact ⟨trivial, h.replace _ _⟩

/-- A node that names no hidden temporary does the same to both memories. -/
theorem effect (h : m₁.Beside hidden held m₂) {k : Kind}
    (ht : ∀ id, k.temporary? = some id → ¬ hidden id) {as : List (Answer V)}
    (has : ∀ a ∈ as, a.Known hidden) :
    Parallel hidden held (Answer.Known hidden) (I.effect k as m₁) (I.effect k as m₂) := by
  by_cases hq : k.Quiet
  · obtain ⟨hending, hknown, hmoved⟩ := effect_quiet (I := I) h.agrees hq ht has
    exact ⟨hending, hknown, h.moved hmoved⟩
  have hk : k = .push ∨ k = .atom .pop ∨ k = .stackCall ∨ k = .initArray ∨ k = .initObject := by
    simpa only [Kind.Quiet, not_and_or, not_not, ne_eq] using hq
  rcases hk with rfl | rfl | rfl | rfl | rfl
  · exact (h.push _).done Answer.known_off
  · simp only [Interpretation.effect, atom, h.stack]
    exact Beside.done ⟨⟨h.agrees.pool, h.agrees.state, h.agrees.temporaries⟩, rfl, h.held⟩
      Answer.known_value
  · have ha : (as.getD 2 .off).Known hidden := by
      rw [List.getD_eq_getElem?_getD]
      cases hget : as[2]? with
      | none => exact Answer.known_off
      | some a => exact has a (List.mem_of_getElem? hget)
    obtain ⟨hvalue, hbeside⟩ := h.consuming (I := I) .call
      ((as.map (Answer.valueD I.undefined)).take 2)
    simp only [Interpretation.effect, hvalue]
    exact (hbeside.moved (assign_agrees hbeside.agrees .simple ha _).2).done Answer.known_off
  all_goals
    obtain ⟨hvalue, hbeside⟩ := h.consuming (I := I) _ (as.map (Answer.valueD I.undefined))
    exact ⟨by simp only [Interpretation.effect, hvalue],
      by simp [Interpretation.effect, Answer.Known], hbeside⟩

end Memory.Beside

/-! ## Trees -/

theorem Rose.label_map {α β : Type} {f : α → β} {x : Rose α} : (x.map f).label = f x.label := by
  cases x
  rw [Rose.map_node]
  rfl

/-- Labels that are kept make the same tree. -/
theorem Rose.map_self {α : Type} : Rose.map (fun a : α => a) = fun x => x := by
  funext x
  induction x using Rose.induct with
  | h a parts ih => rw [Rose.map_node, List.map_congr_left ih, List.map_id']

namespace Interpretation

variable {I : Interpretation V σ} {m₁ m₂ : Memory V σ} {φ : Form → Form} {x : Rose Form}

/-- Only placeholders have to do with their values. -/
theorem effect_fed {k : Kind} (hk : ∀ i, k ≠ .input i) {as : List (Answer V)} {m : Memory V σ} :
    (I.fed inputs).effect k as m = I.effect k as m := by
  cases k with
  | input i => exact absurd rfl (hk i)
  | atom a => cases a <;> rfl
  | _ => rfl

/-- A kind does to the first memory what the one that stands in its place does to the second. -/
theorem effect_faces {k k' : Kind} (hk : k.Faces hidden held inputs k')
    (hm : m₁.Beside hidden held m₂) {as : List (Answer V)} (has : ∀ a ∈ as, a.Known hidden) :
    Parallel hidden held (Answer.Known hidden) ((I.fed inputs).effect k as m₁)
      (I.effect k' as m₂) := by
  cases hk with
  | same hinput ht =>
    rw [effect_fed hinput]
    exact hm.effect ht has
  | placeholder hid hvalue =>
    simp only [effect, atom, hm.held _ hid, hvalue]
    exact hm.done Answer.known_value

theorem isTrace_faces {k k' : Kind} (h : k.Faces hidden held inputs k') :
    (I.fed inputs).isTrace k = I.isTrace k' := by
  cases h <;> rfl

variable (I hidden held inputs φ)

/-- Whether a tree is run like the tree with its labels changed. -/
def Mapped (x : Rose Form) : Prop :=
  ∀ {m₁ m₂ : Memory V σ}, m₁.Beside hidden held m₂ →
    Parallel hidden held (Answer.Known hidden) ((I.fed inputs).exec x m₁) (I.exec (x.map φ) m₂)

variable {I hidden held inputs φ} {parts : List (Rose Form)}

theorem execRow_map (h : ∀ part ∈ parts, I.Mapped hidden held inputs φ part)
    (hm : m₁.Beside hidden held m₂) :
    Parallel hidden held (fun as => ∀ a ∈ as, a.Known hidden) ((I.fed inputs).execRow parts m₁)
      (I.execRow (parts.map (Rose.map φ)) m₂) := by
  induction parts generalizing m₁ m₂ with
  | nil => exact hm.done (by simp)
  | cons part parts ih =>
    rw [List.map_cons, execRow, execRow]
    refine (h part (by simp) hm).andThen fun {a _ _} ha hm => ?_
    refine (ih (fun part hpart => h part (by simp [hpart])) hm).andThen fun {as _ _} has hm => ?_
    exact hm.done (List.forall_mem_cons.2 ⟨ha, has⟩)

theorem execArm_map (h : ∀ part ∈ parts, I.Mapped hidden held inputs φ part) (index : Nat)
    (hm : m₁.Beside hidden held m₂) :
    Parallel hidden held (Answer.Known hidden) ((I.fed inputs).execArm index parts m₁)
      (I.execArm index (parts.map (Rose.map φ)) m₂) := by
  induction parts generalizing index with
  | nil =>
    rw [List.map_nil, execArm, execArm]
    exact hm.done Answer.known_off
  | cons part parts ih =>
    rw [List.map_cons]
    cases index with
    | zero =>
      rw [execArm, execArm]
      exact h part (by simp) hm
    | succ index =>
      rw [execArm, execArm]
      exact ih (fun part hpart => h part (by simp [hpart])) index

theorem execChoice_map (h : ∀ part ∈ parts, I.Mapped hidden held inputs φ part) (kind : Kind)
    (hm : m₁.Beside hidden held m₂) :
    Parallel hidden held (Answer.Known hidden) ((I.fed inputs).execChoice kind parts m₁)
      (I.execChoice kind (parts.map (Rose.map φ)) m₂) := by
  cases parts with
  | nil =>
    rw [List.map_nil, execChoice, execChoice]
    exact hm.done Answer.known_off
  | cons test arms =>
    rw [List.map_cons, execChoice, execChoice]
    refine (h test (by simp) hm).andThen fun {a _ _} ha hm => ?_
    rw [show (I.fed inputs).holds (a.valueD (I.fed inputs).undefined) =
      I.holds (a.valueD I.undefined) from rfl]
    cases kind.arm? (I.holds (a.valueD I.undefined)) with
    | some index => exact execArm_map (fun arm harm => h arm (by simp [harm])) index hm
    | none => exact hm.done ha

/-- A call is one of the trace function with placeholders and with temporaries, since neither of
them is a name. -/
theorem execCall_map (h : ∀ part ∈ parts, I.Mapped hidden held inputs φ part)
    (hnamed : ∀ part ∈ parts, part.label.kind.Faces hidden held inputs (φ part.label).kind)
    (hm : m₁.Beside hidden held m₂) :
    Parallel hidden held (Answer.Known hidden) ((I.fed inputs).execCall parts m₁)
      (I.execCall (parts.map (Rose.map φ)) m₂) := by
  cases parts with
  | nil =>
    rw [List.map_nil, execCall, execCall]
    exact effect_faces .call hm (List.forall_mem_nil _)
  | cons callee arguments =>
    have hrow := fun {m₁ m₂ : Memory V σ} (hm : m₁.Beside hidden held m₂) =>
      execRow_map (fun part hpart => h part (List.mem_cons_of_mem _ hpart)) hm
    rw [List.map_cons, execCall, execCall, Rose.label_map, isTrace_faces (hnamed callee (by simp))]
    split
    · refine (hrow hm).andThen fun {as m₁ m₂} _ hm => ?_
      obtain ⟨hvalue, hknown, hmoved⟩ := performing_agrees (I := I) hm.agrees
        .trace (as.map (Answer.valueD I.undefined))
      refine ⟨congrArg Ending.done hvalue, fun b hb => ?_, hm.moved hmoved⟩
      cases hb
      exact hknown
    · refine (h callee (by simp) hm).andThen fun ha hm => ?_
      exact (hrow hm).andThen fun has hm => effect_faces .call hm
        (List.forall_mem_cons.2 ⟨ha, has⟩)

/-- A tree is run like a tree of the same shape, the kinds of which stand for its own. -/
theorem exec_map (hx : ∀ form ∈ x.labels, form.kind.Faces hidden held inputs (φ form).kind) :
    I.Mapped hidden held inputs φ x := by
  induction x using Rose.induct with
  | h form parts ih =>
    have hform := hx form (by simp)
    have hbelow : ∀ part ∈ parts, ∀ f ∈ part.labels,
        f.kind.Faces hidden held inputs (φ f).kind := fun part hpart f hf => hx f (by
      rw [Rose.labels_node]
      exact List.mem_cons_of_mem _ (Rose.mem_labelsAll.2 ⟨part, hpart, hf⟩))
    have hparts : ∀ part ∈ parts, I.Mapped hidden held inputs φ part :=
      fun part hpart => ih part hpart (hbelow part hpart)
    intro m₁ m₂ hm
    rw [Rose.map_node]
    -- a placeholder neither chooses nor calls, so both nodes are evaluated in the same way
    by_cases hchoice : form.kind.isChoice = true
    · have hkind : (φ form).kind = form.kind :=
        hform.eq_of_ne fun i hi => by simp [hi, Kind.isChoice] at hchoice
      rw [exec_choice _ hchoice, exec_choice I (hkind ▸ hchoice), hkind]
      exact execChoice_map hparts _ hm
    rw [Bool.not_eq_true] at hchoice
    by_cases hcall : form.kind = .call
    · rw [exec_call _ hcall, exec_call I (hform.call_iff.2 hcall)]
      exact execCall_map hparts (fun part hpart => hbelow part hpart _ part.label_mem_labels) hm
    · rw [exec_sequential _ hchoice hcall,
        exec_sequential I (hform.isChoice_eq.trans hchoice) (mt hform.call_iff.1 hcall)]
      exact (execRow_map hparts hm).andThen fun has hm => effect_faces hform hm has

/-- Trees without placeholders leave the temporaries alone that they do not name. -/
theorem temporaries_execRow {m : Memory V σ}
    (hinput : ∀ form ∈ Rose.labelsAll parts, ∀ i, form.kind ≠ .input i)
    (ht : ∀ form ∈ Rose.labelsAll parts, ∀ id, form.kind.temporary? = some id → ¬ hidden id)
    {id : Nat} (hid : hidden id) : (I.execRow parts m).2.temporaries id = m.temporaries id := by
  have hm : m.Beside hidden m.temporaries m := ⟨.refl m, rfl, fun _ _ => rfl⟩
  have hrow : Parallel hidden m.temporaries (fun as => ∀ a ∈ as, a.Known hidden)
      ((I.fed I.inputs).execRow parts m) (I.execRow (parts.map (Rose.map fun form => form)) m) :=
    execRow_map (fun part hpart => exec_map fun form hform =>
      have hmem := Rose.mem_labelsAll.2 ⟨part, hpart, hform⟩
      .same (hinput form hmem) (ht form hmem)) hm
  rw [Rose.map_self, List.map_id'] at hrow
  exact hrow.memory.held id hid

end Interpretation

/-! ## Expressions -/

/-- A form, or the temporary for the placeholder that it is. -/
def Form.filled (slot : Nat → Nat) (form : Form) : Form :=
  match form.kind.input? with
  | some i => ⟨.atom (.temporary (slot i)), none⟩
  | none => form

theorem Rose.grafted_temporaries {slot : Nat → Nat} {r : Rose Form} (hr : r.WellFormed) :
    r.grafted (fun i => some (.temporary (slot i))) = r.map (Form.filled slot) := by
  induction r using Rose.induct with
  | h form parts ih =>
    rw [Rose.grafted, Rose.graftedAll_eq_map, Rose.map_node,
      List.map_congr_left fun r hpart => ih r hpart (hr.parts r hpart)]
    cases hk : form.kind.input? with
    | none => simp only [Form.filled, hk, Option.bind_none]
    | some i =>
      -- a placeholder has no parts
      have hadmits := hr.admits
      rw [Kind.input?_eq_some.1 hk] at hadmits
      obtain rfl : parts = [] := List.map_eq_nil_iff.1 hadmits
      simp only [Form.filled, hk, Option.bind_some]
      rfl

theorem Expr.rose_filled (e : Expr) (slot : Nat → Nat) :
    (e.substitute fun i => some (.temporary (slot i))).rose = e.rose.map (Form.filled slot) := by
  rw [e.rose_substitute, Rose.grafted_temporaries e.wellFormed_rose]

/-- An expression with hidden temporaries in place of its placeholders is evaluated like the
expression over the values that they hold. -/
theorem Interpretation.exec_filled {I : Interpretation V σ} {m₁ m₂ : Memory V σ} {e : Expr}
    {slot : Nat → Nat} (hi : ∀ i ∈ e.inputs, hidden (slot i) ∧ held (slot i) = inputs i)
    (ht : ∀ id ∈ e.rose.temporaries, ¬ hidden id) (hm : m₁.Beside hidden held m₂) :
    Parallel hidden held (Answer.Known hidden) ((I.fed inputs).exec e.rose m₁)
      (I.exec (e.substitute fun i => some (.temporary (slot i))).rose m₂) := by
  rw [e.rose_filled]
  refine exec_map (fun form hform => ?_) hm
  cases hk : form.kind.input? with
  | none =>
    rw [show form.filled slot = form by rw [Form.filled, hk]]
    exact .same (fun i h => by rw [h] at hk; cases hk) fun id hid =>
      ht id (List.mem_filterMap.2 ⟨form, hform, hid⟩)
  | some i =>
    rw [show form.filled slot = ⟨.atom (.temporary (slot i)), none⟩ by rw [Form.filled, hk]]
    obtain ⟨hslot, hvalue⟩ := hi i (e.inputs_eq ▸ List.mem_filterMap.2 ⟨form, hform, hk⟩)
    rw [Kind.input?_eq_some.1 hk]
    exact .placeholder hslot hvalue

end ScriptRecovery
