import ScriptRecovery.Proofs.Lower.Emission
import ScriptRecovery.Proofs.Script.Temporaries
import ScriptRecovery.Proofs.Semantics.Statements

/-!
# What lowered statements look like

The statements of a graph are pieces in a row (`Stmt.Emitted`).  A piece takes values off the stack
into new temporaries and then says something with these temporaries alone, or it takes a test and
chooses between two rows of pieces.  The temporaries of a piece are those that its scope gives out.

So the temporaries that statements assign are those between the scopes before and after them, each
once and in order (`Emitted.stored`), and they are read only in the piece that assigns them
(`Emitted.dominated`).  The only lists below these statements are the arms of choices
(`Emitted.tiered`).  Placeholders do not occur, nor do expressions that may leave a part unevaluated
(`Emitted.lowered`).
-/

namespace ScriptRecovery

variable {traceName : String}

open Rose

/-- Whether a kind can occur in what a piece says with temporaries of an interval. -/
def Kind.Said (first next : Nat) : Kind → Prop
  | .script | .block | .branch | .logical _ | .conditional | .assignment .add | .input _
  | .temporaryTarget _ => False
  | .atom (.temporary id) => first ≤ id ∧ id < next
  | _ => True

/-- Whether a kind can occur in lowered statements. -/
def Kind.Lowered : Kind → Prop
  | .logical _ | .conditional | .input _ => False
  | _ => True

/-- Whether statements are pieces in a row, with the temporaries from one up to another. -/
inductive Stmt.Emitted : Nat → Nat → List Stmt → Prop
  | nil {i : Nat} : Emitted i i []
  | append {i j k : Nat} {body body' : List Stmt} : Emitted i j body → Emitted j k body' →
      Emitted i k (body ++ body')
  | piece {i count : Nat} {say : List Stmt} :
      (∀ form ∈ labelsAll (Stmt.roses say), form.kind.Said i (i + count)) →
      Emitted i (i + count) (Stmt.pops count i ++ say)
  | call {i : Nat} : Emitted i (i + 3)
      [.popInto i, .popInto (i + 1),
        .stackCall (some (.temporary (i + 2) none)) (.lookup (.temporary i) none)
          (.temporary (i + 1)) none,
        .pushing (.temporary (i + 2))]
  | choice {i j k : Nat} {onTrue onFalse : List Stmt} : Emitted (i + 1) j onTrue →
      Emitted j k onFalse → Emitted i k [.popInto i, .choice i onTrue onFalse]

/-! ## Pieces -/

theorem Operand.said_toExpr {first next : Nat} (v : Operand) :
    ∀ form ∈ v.toExpr.rose.labels, form.kind.Said first next := by
  cases v <;> simp [toExpr, Expr.number, Expr.string, Expr.undefined, Expr.rose, labelsAll,
    Kind.Said]

/-- The statements of an action are a piece. -/
theorem Action.emitted_recipe {a : Action} {r : Recipe} (h : a.recipe? = some r) (first : Nat) :
    Stmt.Emitted first (first + r.temporaries) (r.body first) := by
  have taking : ∀ {count : Nat} {say : (Nat → Expr) → List Stmt}, .taking count say = r →
      (∀ form ∈ labelsAll (Stmt.roses (say fun i => .temporary (first + i))),
        form.kind.Said first (first + count)) →
      Stmt.Emitted first (first + r.temporaries) (r.body first) := by
    rintro count say rfl hsaid
    exact .piece hsaid
  cases a
  case push values =>
    refine taking (Option.some.inj h) fun form hform => ?_
    obtain ⟨r, hr, hform⟩ := mem_labelsAll.1 hform
    rw [Stmt.roses_eq_map, List.map_map, List.mem_map] at hr
    obtain ⟨v, -, rfl⟩ := hr
    simp only [Function.comp_apply, Stmt.pushing, Stmt.rose, labels_node, labelsAll,
      List.append_nil, List.mem_cons] at hform
    rcases hform with rfl | hform
    · exact trivial
    · exact v.said_toExpr form hform
  case callMethod | enumerate | branch | jump | play | stop | toNumber | toText | unknown =>
    cases h
  case callFunction =>
    cases h
    exact .call
  all_goals
    refine taking (Option.some.inj h) ?_
    simp [Stmt.roses, Stmt.rose, Expr.rose, Target.rose, Stmt.pushing, Stmt.evaluating,
      Expr.temporary, Expr.pop, Expr.assign, Expr.one, Expr.number, labelsAll, Kind.Said]

/-- What is drawn is said with the temporaries that are drawn. -/
theorem Expr.Draws.said {i j first next : Nat} {e : Expr} {ρ : Nat → Option Expr}
    (h : e.Draws traceName i j) (hρ : ∀ x, i ≤ x → x < j → ∃ id, ρ x = some (.temporary id) ∧
      first ≤ id ∧ id < next) :
    ∀ form ∈ (e.substitute ρ).rose.labels, form.kind.Said first next := by
  induction h with
  | @input i =>
    obtain ⟨id, hid, hle, hlt⟩ := hρ i (Nat.le_refl _) (Nat.lt_succ_self _)
    simp [substitute, hid, temporary, rose, labelsAll, Kind.Said, hle, hlt]
  | operand v =>
    rw [substitute_operand]
    exact v.said_toExpr
  | unary _ ih =>
    intro form hform
    simp only [substitute, rose, labels_node, labelsAll, List.append_nil, List.mem_cons] at hform
    rcases hform with rfl | hform
    · exact trivial
    · exact ih hρ form hform
  | @right i j op e h ih =>
    have hle := h.le
    obtain ⟨id, hid, hfirst, hnext⟩ := hρ i (Nat.le_refl _) (by omega)
    intro form hform
    simp only [substitute, hid, Option.getD_some, rose, temporary, labels_node, labelsAll,
      List.append_nil, List.mem_cons, List.mem_append, List.not_mem_nil, or_false] at hform
    rcases hform with rfl | rfl | hform
    · exact trivial
    · exact ⟨hfirst, hnext⟩
    · exact ih (fun x hx hlt => hρ x (by omega) hlt) form hform
  | @left i j op e e' h₁ h₂ ih₁ ih₂ =>
    have hle := h₁.le
    intro form hform
    simp only [substitute, rose, labels_node, labelsAll, List.append_nil, List.mem_cons,
      List.mem_append] at hform
    rcases hform with rfl | hform | hform
    · exact trivial
    · exact ih₁ hρ form hform
    · exact ih₂ (fun x hx hlt => hρ x (by omega) (by omega)) form hform
  | call _ ih =>
    intro form hform
    rw [substitute_call] at hform
    simp only [rose, roses, identifier, labels_node, labelsAll, List.append_nil, List.mem_cons,
      List.mem_append, List.not_mem_nil, or_false] at hform
    rcases hform with rfl | rfl | hform
    · exact trivial
    · exact trivial
    · exact ih hρ form hform

/-- The statements of a template are a piece. -/
theorem Template.Formed.emitted_recipe {t : Template} (h : t.Formed traceName) (first : Nat) :
    Stmt.Emitted first (first + t.recipe.temporaries) (t.recipe.body first) := by
  have hsaid : ∀ form ∈ (t.exprFrom first).rose.labels, form.kind.Said first (first + t.inputs) := by
    refine Expr.Draws.said h fun x _ hx => ⟨first + (t.inputs - 1 - x), if_pos hx, ?_, ?_⟩ <;> omega
  refine .piece fun form hform => ?_
  simp only [say, Stmt.roses, labelsAll, List.append_nil] at hform
  split at hform <;>
    simp only [Stmt.evaluating, Stmt.pushing, Stmt.rose, labels_node, labelsAll, List.append_nil,
      List.mem_cons] at hform <;>
    rcases hform with rfl | hform
  · exact trivial
  · exact hsaid form hform
  · exact trivial
  · exact hsaid form hform

/-! ## Rows of pieces -/

namespace Emission

/-- Whether what becomes of code that starts in a scope is pieces in a row, if it can be said. -/
def Emits (s : Scope) (e : Emission) : Prop :=
  ∀ body, e.statements = .ok body → Stmt.Emitted s.next e.scope.next body

variable {s : Scope}

theorem emits_nothing : Emits s (of [] s) := by
  intro body h
  cases h
  exact .nil

theorem emits_refused {fault : Fault} {s' : Scope} : Emits s (refused fault s') := by
  intro body h
  cases h

theorem Emits.followedBy {e : Emission} {more : Scope → Emission} (h : Emits s e)
    (hmore : ∀ s, Emits s (more s)) : Emits s (e.followedBy more) := by
  obtain ⟨fault | first, s₁⟩ := e
  · exact emits_refused
  · intro body hbody
    simp only [Emission.followedBy] at hbody ⊢
    cases hrest : (more s₁).statements with
    | error fault =>
      rw [hrest] at hbody
      cases hbody
    | ok rest =>
      rw [hrest] at hbody
      cases hbody
      exact (h first rfl).append (hmore s₁ rest hrest)

theorem emits_row {α : Type} {f : α → Scope → Emission} {xs : List α}
    (h : ∀ x ∈ xs, ∀ s, Emits s (f x s)) (s : Scope) : Emits s (row f xs s) := by
  induction xs generalizing s with
  | nil => exact emits_nothing
  | cons x xs ih =>
    exact (h x (by simp) s).followedBy fun s => ih (fun x hx => h x (by simp [hx])) s

theorem emits_choice {truthy falsy : Scope → Emission} (ht : ∀ s, Emits s (truthy s))
    (hf : ∀ s, Emits s (falsy s)) (s : Scope) : Emits s (choice truthy falsy s) := by
  unfold choice Scope.fresh
  by_cases hfits : s.fits 1 = true
  · rw [if_pos hfits]
    simp only
    have hfirst := ht (s.advance 1)
    generalize truthy (s.advance 1) = e₁ at hfirst ⊢
    obtain ⟨fault | onTrue, s₁⟩ := e₁
    · exact emits_refused
    have hsecond := hf s₁
    simp only
    generalize falsy s₁ = e₂ at hsecond ⊢
    obtain ⟨fault | onFalse, s₂⟩ := e₂
    · exact emits_refused
    intro body hbody
    cases hbody
    exact .choice (hfirst onTrue rfl) (hsecond onFalse rfl)
  · rw [if_neg hfits]
    exact emits_refused

end Emission

open Emission

theorem Recipe.emits {r : Recipe}
    (h : ∀ first, Stmt.Emitted first (first + r.temporaries) (r.body first)) (s : Scope) :
    Emits s (r.emit s) := by
  unfold Recipe.emit
  split
  · intro body hbody
    cases hbody
    exact h s.next
  · exact emits_refused

theorem Action.emits (a : Action) (s : Scope) : Emits s (a.emit s) := by
  unfold Action.emit
  split
  · exact emits_refused
  · next r hr => exact Recipe.emits (fun first => a.emitted_recipe hr first) s

theorem Template.Formed.emits {t : Template} (h : t.Formed traceName) (s : Scope) :
    Emits s (t.emit s) := by
  unfold Template.emit
  split
  · exact Recipe.emits (fun first => h.emitted_recipe first) s
  · exact emits_refused

/-- The statements of a lawful edge are pieces in a row. -/
theorem Edge.Lawful.emits {e : Edge} (h : e.Lawful traceName) (s : Scope) : Emits s (e.emit s) := by
  induction h generalizing s with
  | action a =>
    rw [Edge.emit]
    exact a.emits s
  | @template t ht =>
    rw [Edge.emit]
    exact ht.emits s
  | @conditional es es' _ _ ih ih' =>
    have harm : ∀ {es : List Edge}, (∀ e ∈ es, ∀ s, Emits s (e.emit s)) → ∀ s,
        Emits s (FlowGraph.emit (.linear es) s) := by
      intro es ih s
      rw [FlowGraph.emit_linear]
      refine (emits_row (fun e he => ?_) s).followedBy fun s => emits_nothing
      cases es with
      | nil =>
        obtain rfl : e = .plain := List.mem_singleton.1 he
        intro s
        rw [Edge.emit]
        exact emits_nothing
      | cons _ _ => exact ih e he
    rw [Edge.emit]
    exact emits_choice (harm ih) (harm ih') s
  | plain | ifTrue | ifFalse | ifTest =>
    rw [Edge.emit]
    exact emits_nothing

/-- The statements of a regular graph are pieces in a row. -/
theorem FlowGraph.Regular.emits {g : FlowGraph} (hg : g.Regular traceName) (s : Scope) :
    Emits s (FlowGraph.emit g s) := by
  rw [FlowGraph.emit_eq]
  refine (emits_row (fun e he => (hg.lawful_walk hg.sound.reachable_source e he).emits) s).followedBy
    fun s => ?_
  cases (Graph.path g).2.fault? with
  | none => exact emits_nothing
  | some fault => exact emits_refused

/-! ## Kinds and temporaries of pieces -/

namespace Kind

variable {first next : Nat} {k : Kind}

theorem Said.stored?_eq (h : k.Said first next) : k.stored? = none := by
  cases k <;> first | rfl | exact h.elim

theorem Said.of_temporary {id : Nat} (h : Kind.Said first next (.atom (.temporary id))) :
    first ≤ id ∧ id < next := h

theorem Said.temporary (h : k.Said first next) {id : Nat} (hid : k.temporary? = some id) :
    first ≤ id ∧ id < next := by
  cases k with
  | atom a => cases a <;> simp_all [temporary?, Said]
  | temporaryTarget id => exact h.elim
  | _ => cases hid

theorem Said.lowered (h : k.Said first next) : k.Lowered := by
  cases k <;> first | exact trivial | exact h.elim

/-- The parts of what is lowered are evaluated in order, unless it chooses between statements. -/
theorem Lowered.sequential (h : k.Lowered) : k.isSequential = true ∨ k = .branch := by
  cases k <;> first | exact .inl rfl | exact .inr rfl | exact h.elim

end Kind

namespace Stmt

variable {i j k id : Nat} {body : List Stmt} {known : Nat → Prop}

theorem roses_append {ss ss' : List Stmt} :
    Stmt.roses (ss ++ ss') = Stmt.roses ss ++ Stmt.roses ss' := by
  simp [roses_eq_map]

theorem storedIn_popInto : storedIn (popInto id).rose.labels = [id] := rfl

theorem assigns_popInto : Assigns id (popInto id).rose :=
  .part rfl (List.mem_singleton.2 rfl) (.store rfl (mem_stores.2 ⟨_, List.mem_cons_self, rfl⟩))

theorem dominated_popInto : Dominated known (popInto id).rose := by
  refine dominated_of_labels fun form hform => ?_
  have hform : form = ⟨.expression, none⟩ ∨ form = ⟨.assignment .simple, none⟩ ∨
      form = ⟨.temporaryTarget id, none⟩ ∨ form = ⟨.atom .pop, none⟩ := by
    simpa [popInto, binding, evaluating, Expr.assign, Expr.pop, Stmt.rose, Expr.rose, Target.rose,
      labelsAll] using hform
  rcases hform with rfl | rfl | rfl | rfl <;> simp

theorem mem_roses_pops {count : Nat} {r : Rose Form} :
    r ∈ Stmt.roses (pops count i) ↔ ∃ j < count, (popInto (i + j)).rose = r := by
  simp [roses_eq_map, pops]

theorem storedIn_pops {count : Nat} :
    storedIn (labelsAll (Stmt.roses (pops count i))) = List.range' i count := by
  have hflat : storedIn (labelsAll (Stmt.roses (pops count i))) =
      (List.range count).flatMap fun j => storedIn (popInto (i + j)).rose.labels := by
    rw [labelsAll_eq_flatMap, storedIn, List.filterMap_flatMap, roses_eq_map, pops, List.map_map,
      List.flatMap_map]
    rfl
  rw [hflat, List.range'_eq_map_range]
  simp only [storedIn_popInto]
  exact List.map_eq_flatMap.symm

theorem rose_choice {onTrue onFalse : List Stmt} : (choice id onTrue onFalse).rose =
    .node ⟨.branch, none⟩ (.node ⟨.atom (.temporary id), none⟩ [] ::
      .node ⟨.block, none⟩ (Stmt.roses onTrue) ::
        if onFalse.isEmpty then [] else [.node ⟨.block, none⟩ (Stmt.roses onFalse)]) := by
  unfold choice
  cases onFalse <;> rfl

theorem range'_trans (hij : i ≤ j) (hjk : j ≤ k) :
    List.range' i (j - i) ++ List.range' j (k - j) = List.range' i (k - i) := by
  obtain ⟨m, rfl⟩ := Nat.exists_eq_add_of_le hij
  obtain ⟨n, rfl⟩ := Nat.exists_eq_add_of_le hjk
  rw [Nat.add_sub_cancel_left, Nat.add_sub_cancel_left, Nat.add_assoc, Nat.add_sub_cancel_left,
    List.range'_append_1]

/-- Statements assign the temporaries that their scope gives out, each once and in order. -/
theorem Emitted.stored (h : Emitted i k body) :
    i ≤ k ∧ storedIn (labelsAll (Stmt.roses body)) = List.range' i (k - i) := by
  induction h with
  | nil => exact ⟨Nat.le_refl _, by simp [Stmt.roses, labelsAll, storedIn]⟩
  | append _ _ ih ih' =>
    refine ⟨Nat.le_trans ih.1 ih'.1, ?_⟩
    rw [roses_append, labelsAll_append, storedIn_append, ih.2, ih'.2, range'_trans ih.1 ih'.1]
  | @piece i count say hsaid =>
    rw [roses_append, labelsAll_append, storedIn_append, storedIn_pops,
      storedIn_eq_nil fun form hform => (hsaid form hform).stored?_eq]
    simp
  | call => exact ⟨by omega, by simp [List.range'_succ]; rfl⟩
  | @choice i j k onTrue onFalse _ _ ih ih' =>
    refine ⟨by omega, ?_⟩
    have hchoice : storedIn (Stmt.choice i onTrue onFalse).rose.labels =
        storedIn (labelsAll (Stmt.roses onTrue)) ++ storedIn (labelsAll (Stmt.roses onFalse)) := by
      rw [rose_choice]
      cases onFalse <;> simp [labelsAll, storedIn, Kind.stored?, Stmt.roses]
    have hfirst : List.range' i (k - i) = i :: List.range' (i + 1) (k - (i + 1)) := by
      rw [← List.range'_succ]
      congr 1
      omega
    rw [Stmt.roses, Stmt.roses, Stmt.roses, labelsAll, labelsAll, labelsAll, List.append_nil,
      storedIn_append, storedIn_popInto, hchoice, ih.2, ih'.2, range'_trans ih.1 ih'.1, hfirst]
    rfl

/-- Pieces read the temporaries that they assign. -/
theorem Emitted.dominated (h : Emitted i k body) : DominatedRow known (Stmt.roses body) := by
  induction h generalizing known with
  | nil => exact dominatedRow_nil
  | append _ _ ih ih' =>
    rw [roses_append]
    exact ih.append ih'
  | @piece i count say hsaid =>
    rw [roses_append]
    refine DominatedRow.append (dominatedRow_of_forall fun r hr => ?_)
      (dominatedRow_of_forall fun r hr => dominated_of_labels fun form hform => ?_)
    · obtain ⟨j, -, rfl⟩ := mem_roses_pops.1 hr
      exact dominated_popInto
    · have hform := hsaid form (mem_labelsAll.2 ⟨r, hr, hform⟩)
      refine ⟨fun hk => by simp [hk, Kind.Said] at hform, fun id hk => ?_⟩
      rw [hk] at hform
      obtain ⟨hle, hlt⟩ := hform.of_temporary
      refine .inr ⟨_, mem_roses_pops.2 ⟨id - i, by omega, rfl⟩, ?_⟩
      rw [Nat.add_sub_cancel' hle]
      exact assigns_popInto
  | @call i =>
    simp only [Stmt.roses, dominatedRow_cons]
    have hcall : Assigns (i + 2) (Stmt.stackCall (some (.temporary (i + 2) none))
        (.lookup (.temporary i) none) (.temporary (i + 1)) none).rose :=
      .store rfl
        (mem_stores.2 ⟨.node ⟨.temporaryTarget (i + 2), none⟩ [], by simp [Target.rose], rfl⟩)
    refine ⟨dominated_popInto, dominated_popInto, dominated_of_labels ?_, dominated_of_labels ?_,
      dominatedRow_nil⟩
    · simp [Stmt.rose, Expr.rose, Target.rose, Expr.temporary, labelsAll, assigns_popInto]
    · intro form hform
      have hform : form = ⟨.push, none⟩ ∨ form = ⟨.atom (.temporary (i + 2)), none⟩ := by
        simpa [Stmt.pushing, Stmt.rose, Expr.temporary, Expr.rose, labelsAll] using hform
      rcases hform with rfl | rfl
      · simp
      · refine ⟨by simp, fun id hid => .inr ?_⟩
        cases hid
        exact hcall
  | @choice i j k onTrue onFalse _ _ ih ih' =>
    have hblock : ∀ {known : Nat → Prop} {body : List Stmt}, DominatedRow known (Stmt.roses body) →
        Dominated known (.node ⟨.block, none⟩ (Stmt.roses body)) := fun h =>
      (dominated_list rfl).2 h
    simp only [Stmt.roses, dominatedRow_cons]
    refine ⟨dominated_popInto, ?_, dominatedRow_nil⟩
    rw [rose_choice, dominated_plain rfl]
    refine ⟨by simp [reads], fun r hr => ?_⟩
    rw [List.mem_cons, List.mem_cons] at hr
    rcases hr with rfl | rfl | hr
    · refine dominated_of_labels ?_
      simp [labelsAll, assigns_popInto]
    · exact hblock ih
    · split at hr
      · cases hr
      · obtain rfl := List.mem_singleton.1 hr
        exact hblock ih'

theorem tiered_of_said {first next : Nat} {r : Rose Form}
    (h : ∀ form ∈ r.labels, form.kind.Said first next) : r.Tiered := by
  obtain ⟨form, parts⟩ := r
  have hself := h form (by simp)
  refine .simple (fun hk => by simp [hk, Kind.Said] at hself) ?_
  cases hk : form.kind <;> simp [hk, Kind.Said] at hself <;> rfl

theorem tiered_popInto : (popInto id).rose.Tiered := .simple (by simp) rfl

/-- The only lists below these statements are the arms of choices. -/
theorem Emitted.tiered (h : Emitted i k body) : ∀ r ∈ Stmt.roses body, r.Tiered := by
  induction h with
  | nil => simp [Stmt.roses]
  | append _ _ ih ih' =>
    rw [roses_append]
    exact fun r hr => (List.mem_append.1 hr).elim (ih r) (ih' r)
  | @piece i count say hsaid =>
    rw [roses_append]
    intro r hr
    rcases List.mem_append.1 hr with hr | hr
    · obtain ⟨j, -, rfl⟩ := mem_roses_pops.1 hr
      exact tiered_popInto
    · exact tiered_of_said fun form hform => hsaid form (mem_labelsAll.2 ⟨r, hr, hform⟩)
  | call =>
    simp only [Stmt.roses, List.forall_mem_cons]
    exact ⟨tiered_popInto, tiered_popInto, .simple (by simp) rfl, .simple (by simp) rfl, by simp⟩
  | @choice i j k onTrue onFalse _ _ ih ih' =>
    have harm : ∀ arm ∈ (.node ⟨.block, none⟩ (Stmt.roses onTrue) ::
        if onFalse.isEmpty then [] else [.node ⟨.block, none⟩ (Stmt.roses onFalse)] :
          List (Rose Form)),
        arm = .node ⟨.block, none⟩ (Stmt.roses onTrue) ∨
          arm = .node ⟨.block, none⟩ (Stmt.roses onFalse) := by
      intro arm harm
      rcases List.mem_cons.1 harm with rfl | harm
      · exact .inl rfl
      · split at harm
        · cases harm
        · exact .inr (List.mem_singleton.1 harm)
    simp only [Stmt.roses, List.forall_mem_cons]
    refine ⟨tiered_popInto, ?_, by simp⟩
    rw [rose_choice]
    refine .choice rfl (fun arm h => ?_) fun arm h => ?_
    · rcases harm arm h with rfl | rfl <;> rfl
    · rcases harm arm h with rfl | rfl
      · exact ih
      · exact ih'

/-! ## What does not occur in pieces -/

theorem lowered_popInto : ∀ form ∈ (popInto id).rose.labels, form.kind.Lowered := by
  simp [popInto, binding, evaluating, Expr.assign, Expr.pop, Stmt.rose, Expr.rose, Target.rose,
    labelsAll, Kind.Lowered]

theorem temporary_popInto (hi : i ≤ id) (hk : id < k) : ∀ form ∈ (popInto id).rose.labels,
    ∀ x, form.kind.temporary? = some x → i ≤ x ∧ x < k := by
  simp [popInto, binding, evaluating, Expr.assign, Expr.pop, Stmt.rose, Expr.rose, Target.rose,
    labelsAll, Kind.temporary?, hi, hk]

/-- Placeholders do not occur in these statements, nor do expressions that may leave a part
unevaluated. -/
theorem Emitted.lowered (h : Emitted i k body) : ∀ form ∈ labelsAll (Stmt.roses body),
    form.kind.Lowered := by
  induction h with
  | nil => simp [Stmt.roses, labelsAll]
  | append _ _ ih ih' =>
    rw [roses_append, labelsAll_append]
    exact List.forall_mem_append.2 ⟨ih, ih'⟩
  | @piece i count say hsaid =>
    rw [roses_append, labelsAll_append]
    refine List.forall_mem_append.2 ⟨fun form hform => ?_, fun form hform =>
      (hsaid form hform).lowered⟩
    obtain ⟨r, hr, hform⟩ := mem_labelsAll.1 hform
    obtain ⟨j, -, rfl⟩ := mem_roses_pops.1 hr
    exact lowered_popInto form hform
  | call =>
    simp [popInto, binding, pushing, evaluating, Stmt.roses, Stmt.rose, Expr.rose, Target.rose,
      Expr.assign, Expr.pop, Expr.temporary, labelsAll, Kind.Lowered]
  | @choice i j k onTrue onFalse _ _ ih ih' =>
    simp only [Stmt.roses, rose_choice, labelsAll, labels_node, List.append_nil,
      List.forall_mem_append, List.forall_mem_cons]
    refine ⟨lowered_popInto, trivial, ⟨trivial, by simp⟩, ⟨trivial, ih⟩, ?_⟩
    split
    · simp [labelsAll]
    · simp only [labelsAll, labels_node, List.append_nil, List.forall_mem_cons]
      exact ⟨trivial, ih'⟩

/-- The temporaries that are named are those given out for these statements. -/
theorem Emitted.temporary (h : Emitted i k body) : ∀ form ∈ labelsAll (Stmt.roses body),
    ∀ id, form.kind.temporary? = some id → i ≤ id ∧ id < k := by
  induction h with
  | nil => simp [Stmt.roses, labelsAll]
  | append h h' ih ih' =>
    have hij := h.stored.1
    have hjk := h'.stored.1
    rw [roses_append, labelsAll_append]
    refine List.forall_mem_append.2 ⟨fun form hform id hid => ?_, fun form hform id hid => ?_⟩
    · have := ih form hform id hid
      omega
    · have := ih' form hform id hid
      omega
  | @piece i count say hsaid =>
    rw [roses_append, labelsAll_append]
    refine List.forall_mem_append.2 ⟨fun form hform => ?_, fun form hform id hid => ?_⟩
    · obtain ⟨r, hr, hform⟩ := mem_labelsAll.1 hform
      obtain ⟨j, hj, rfl⟩ := mem_roses_pops.1 hr
      exact temporary_popInto (Nat.le_add_right i j) (Nat.add_lt_add_left hj i) form hform
    · exact (hsaid form hform).temporary hid
  | call =>
    simp [popInto, binding, pushing, evaluating, Stmt.roses, Stmt.rose, Expr.rose, Target.rose,
      Expr.assign, Expr.pop, Expr.temporary, labelsAll, Kind.temporary?]
  | @choice i j k onTrue onFalse h h' ih ih' =>
    have hij := h.stored.1
    have hjk := h'.stored.1
    simp only [Stmt.roses, rose_choice, labelsAll, labels_node, List.append_nil,
      List.forall_mem_append, List.forall_mem_cons]
    have hnone : ∀ {kind : Kind}, kind.temporary? = none →
        ∀ id, kind.temporary? = some id → i ≤ id ∧ id < k :=
      fun hk id hid => by rw [hk] at hid; cases hid
    refine ⟨temporary_popInto (Nat.le_refl i) (by omega), hnone rfl, ⟨?_, by simp⟩,
      ⟨hnone rfl, fun form hform id hid => ?_⟩, ?_⟩
    · rintro id hid
      cases hid
      exact ⟨Nat.le_refl i, by omega⟩
    · have := ih form hform id hid
      omega
    · split
      · simp [labelsAll]
      · simp only [labelsAll, labels_node, List.append_nil, List.forall_mem_cons]
        refine ⟨hnone rfl, fun form hform id hid => ?_⟩
        have := ih' form hform id hid
        omega

/-- The parts of these statements evaluate all that is below them in order, unless they choose
between statements. -/
theorem Emitted.sequential (h : Emitted i k body) : ∀ form ∈ labelsAll (Stmt.roses body),
    form.kind.isSequential = true ∨ form.kind = .branch :=
  fun form hform => (h.lowered form hform).sequential

end Stmt

end ScriptRecovery
