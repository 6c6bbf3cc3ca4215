import ScriptRecovery.Lower.Graph
import ScriptRecovery.Proofs.Graph.Linear
import ScriptRecovery.Proofs.Reduce.Regular

/-!
# Lowering refuses what is not supported, and nothing else

The path of a regular graph ends at the end of the graph, at a branch or at a node it has passed
(`Sound.walk_cases`): it never runs into a place without a way out.  The arms of a conditional
edge are rows, whose paths are the rows themselves (`path_linear`).

An edge is either said in statements, or refused for an action in it that has no recipe or for a
counter at the end of its range (`Lawful.faults_emit`).  So a regular graph is said, or refused for
one of these or for how its path ends (`Regular.faults_emit`).
-/

namespace ScriptRecovery

/-- Whether a fault is a part without a rule or a counter at the end of its range. -/
def Fault.Expected (fault : Fault) : Prop :=
  (∃ name, fault = .unsupported name) ∨ fault = .counterOverflow

/-- Whether an action is that of an edge, or of an edge on the path through an arm of it. -/
inductive Edge.Holds (a : Action) : Edge → Prop
  | action : Holds a (.action a)
  | onTrue {t f : FlowGraph} {e : Edge} : e ∈ (Graph.path t).1 → Holds a e →
      Holds a (.conditional t f)
  | onFalse {t f : FlowGraph} {e : Edge} : e ∈ (Graph.path f).1 → Holds a e →
      Holds a (.conditional t f)

/-! ## Paths -/

namespace Graph

variable {ε : Type} {g : Graph ε}

/-- The path of a sound graph does not leave the arena or stop at a place without a way out. -/
theorem Sound.walk_cases (hg : g.Sound) {marks : Marks} {n : Nat} (hn : g.Reachable n) :
    (g.walk marks n).2 = .done ∨ (g.walk marks n).2 = .branch ∨ (g.walk marks n).2 = .loop := by
  fun_induction walk g marks n with
  | case1 marks n _ hnode =>
    obtain ⟨node, h⟩ := exists_node? hn.lt_size
    cases hnode.symm.trans h
  | case2 marks n _ hnode => exact absurd hnode (hg.complete hn)
  | case3 => exact .inl rfl
  | case4 => exact .inr (.inl rfl)
  | case5 marks n _ out hnode rest ih =>
    exact ih (hg.reachable_target hn (by simp [targets_of_simple hnode]))
  | case6 marks n _ =>
    simp [hn.lt_size]

section Linear

variable [PlainEdge ε] {edges : List ε}

/-- A row of edges is followed from any place on to its end. -/
theorem walk_linear {marks : Marks} {i : Nat} (hi : i ≤ (rowOf edges).length)
    (hfree : ∀ j, i ≤ j → j ≤ (rowOf edges).length → marks.isFree j) :
    (linear edges).walk marks i = ((rowOf edges).drop i, .done) := by
  induction hk : (rowOf edges).length - i generalizing marks i with
  | zero =>
    obtain rfl : i = (rowOf edges).length := by omega
    rw [walk, if_pos (hfree _ (Nat.le_refl _) hi), node_linear_last]
    simp
  | succ k ih =>
    have hlt : i < (rowOf edges).length := by omega
    rw [walk, if_pos (hfree _ (Nat.le_refl _) hi), node_linear hlt]
    simp only
    rw [ih (by omega) (fun j hj hj' => ?_) (by omega), List.drop_eq_getElem_cons hlt]
    rw [Marks.isFree_mark, hfree j (by omega) hj']
    simp
    omega

/-- The path of a row is the row. -/
theorem path_linear : (linear edges).path = (rowOf edges, .done) := by
  rw [path, source_linear, walk_linear (Nat.zero_le _) fun j _ hj => ?_, List.drop_zero]
  rw [Marks.isFree_none, size_linear]
  simpa using Nat.lt_succ_of_le hj

end Linear

end Graph

/-! ## Emissions -/

namespace Emission

variable {P : Fault → Prop}

/-- Whether code is said, or refused for a reason of some sort. -/
def Faults (P : Fault → Prop) (e : Emission) : Prop :=
  ∀ fault, e.statements = .error fault → P fault

theorem faults_of {body : List Stmt} {s : Scope} : (of body s).Faults P := fun _ h => by cases h

theorem faults_refused {fault : Fault} {s : Scope} (h : P fault) : (refused fault s).Faults P := by
  rintro _ hfault
  cases hfault
  exact h

theorem Faults.followedBy {e : Emission} {more : Scope → Emission} (h : e.Faults P)
    (hmore : ∀ s, (more s).Faults P) : (e.followedBy more).Faults P := by
  unfold Emission.followedBy
  intro fault hfault
  split at hfault
  · next hstatements => exact h fault hfault
  · next body _ =>
    simp only at hfault
    cases hrest : (more e.scope).statements with
    | error fault' =>
      rw [hrest] at hfault
      cases hfault
      exact hmore _ _ hrest
    | ok body' =>
      rw [hrest] at hfault
      cases hfault

theorem faults_row {α : Type} {f : α → Scope → Emission} {xs : List α}
    (h : ∀ x ∈ xs, ∀ s, (f x s).Faults P) (s : Scope) : (row f xs s).Faults P := by
  induction xs generalizing s with
  | nil => exact faults_of
  | cons x xs ih =>
    exact (h x (by simp) s).followedBy fun s => ih (fun x hx => h x (by simp [hx])) s

theorem faults_choice {truthy falsy : Scope → Emission} (hover : P .counterOverflow)
    (ht : ∀ s, (truthy s).Faults P) (hf : ∀ s, (falsy s).Faults P) (s : Scope) :
    (choice truthy falsy s).Faults P := by
  intro fault hfault
  unfold choice at hfault
  split at hfault
  · next fault' hfresh =>
    unfold Scope.fresh at hfresh
    split at hfresh
    · cases hfresh
    · cases hfresh
      cases hfault
      exact hover
  · next test s₁ _ =>
    split at hfault
    · next fault' s₂ htruthy =>
      cases hfault
      exact ht s₁ _ (by rw [htruthy])
    · next onTrue s₂ htruthy =>
      split at hfault
      · next fault' s₃ hfalsy =>
        cases hfault
        exact hf s₂ _ (by rw [hfalsy])
      · cases hfault

/-- Elements with a proof that they are in the list are said like the elements. -/
theorem row_attach {α : Type} (f : α → Scope → Emission) (xs : List α) (s : Scope) :
    row (fun (x : { x // x ∈ xs }) => f x.1) xs.attach s = row f xs s := by
  have key : ∀ (ys : List { x // x ∈ xs }) (s : Scope),
      row (fun (x : { x // x ∈ xs }) => f x.1) ys s = row f (ys.map Subtype.val) s := by
    intro ys
    induction ys with
    | nil => exact fun _ => rfl
    | cons y ys ih =>
      intro s
      rw [List.map_cons, row, row]
      congr 1
      exact funext ih
  rw [key, List.attach_map_subtype_val]

end Emission

open Emission

variable {P : Fault → Prop} {traceName : String}

theorem Recipe.faults_emit (r : Recipe) (hover : P .counterOverflow) (s : Scope) :
    (r.emit s).Faults P := by
  unfold Recipe.emit
  split
  · exact faults_of
  · exact faults_refused hover

theorem Action.faults_emit (a : Action) (hover : P .counterOverflow)
    (ha : a.recipe? = none → P (.unsupported a.name)) (s : Scope) : (a.emit s).Faults P := by
  unfold Action.emit
  split
  · next h => exact faults_refused (ha h)
  · exact Recipe.faults_emit _ hover s

theorem Template.faults_emit (t : Template) (hover : P .counterOverflow) (s : Scope) :
    (t.emit s).Faults P := by
  unfold Template.emit
  split
  · exact Recipe.faults_emit _ hover s
  · exact faults_refused hover

namespace FlowGraph

/-- A graph says its path, and what is wrong with its end. -/
theorem emit_eq (g : FlowGraph) (s : Scope) :
    FlowGraph.emit g s = (row Edge.emit (Graph.path g).1 s).followedBy fun s =>
      match (Graph.path g).2.fault? with
      | none => .of [] s
      | some fault => .refused fault s := by
  rw [FlowGraph.emit]
  exact congrArg (followedBy · _) (row_attach Edge.emit _ s)

theorem emit_linear (edges : List Edge) (s : Scope) :
    FlowGraph.emit (.linear edges) s =
      (row Edge.emit (Graph.rowOf edges) s).followedBy fun s => .of [] s := by
  rw [emit_eq, Graph.path_linear]
  rfl

end FlowGraph

/-- A lawful edge is said, or refused for an action without a recipe or a counter at the end of its
range. -/
theorem Edge.Lawful.faults_emit {e : Edge} (h : e.Lawful traceName) (hover : P .counterOverflow)
    (hact : ∀ a, e.Holds a → a.recipe? = none → P (.unsupported a.name)) (s : Scope) :
    (e.emit s).Faults P := by
  induction h generalizing s with
  | action a =>
    rw [Edge.emit]
    exact a.faults_emit hover (hact a .action) s
  | @template t _ =>
    rw [Edge.emit]
    exact t.faults_emit hover s
  | @conditional es es' _ _ ih ih' =>
    have harm : ∀ {es : List Edge}, (∀ e ∈ es, ∀ s, (e.emit s).Faults P) → ∀ s,
        (FlowGraph.emit (.linear es) s).Faults P := by
      intro es ih s
      rw [FlowGraph.emit_linear]
      refine (faults_row (fun e he => ?_) s).followedBy fun s => faults_of
      cases es with
      | nil =>
        obtain rfl : e = .plain := List.mem_singleton.1 he
        intro s
        rw [Edge.emit]
        exact faults_of
      | cons _ _ => exact ih e he
    rw [Edge.emit]
    refine faults_choice hover (harm fun e he => ih e he fun a ha => hact a (.onTrue ?_ ha))
      (harm fun e he => ih' e he fun a ha => hact a (.onFalse ?_ ha)) s
    · rw [Graph.path_linear]
      exact Graph.mem_rowOf he
    · rw [Graph.path_linear]
      exact Graph.mem_rowOf he
  | plain | ifTrue | ifFalse | ifTest =>
    rw [Edge.emit]
    exact faults_of

namespace FlowGraph

/-- The edges of the path of a regular graph are lawful. -/
theorem Regular.lawful_walk {g : FlowGraph} (hg : g.Regular traceName) {marks : Marks} {n : Nat}
    (hn : g.Reachable n) : ∀ e ∈ (Graph.walk g marks n).1, e.Lawful traceName := by
  fun_induction Graph.walk g marks n with
  | case5 marks n _ out hnode rest ih =>
    intro e he
    rcases List.mem_cons.1 he with rfl | he
    · exact hg.lawful hn hnode (List.mem_singleton.2 rfl)
    · refine ih (hg.sound.reachable_target hn ?_) e he
      simp [Graph.targets_of_simple (show g.node? n = _ from hnode)]
  | _ => simp

/-- A regular graph is said, or refused for an action without a recipe, a counter at the end of its
range or the end of its path. -/
theorem Regular.faults_emit {g : FlowGraph} (hg : g.Regular traceName) (hover : P .counterOverflow)
    (hact : ∀ e ∈ (Graph.path g).1, ∀ a, e.Holds a → a.recipe? = none → P (.unsupported a.name))
    (hend : ∀ fault, (Graph.path g).2.fault? = some fault → P fault) (s : Scope) :
    (FlowGraph.emit g s).Faults P := by
  rw [emit_eq]
  refine (faults_row (fun e he => ?_) s).followedBy fun s => ?_
  · exact (hg.lawful_walk hg.sound.reachable_source e he).faults_emit hover (hact e he)
  · cases hfault : (Graph.path g).2.fault? with
    | none => exact faults_of
    | some fault => exact faults_refused (hend fault hfault)

/-- A regular graph is said or refused for an expected reason. -/
theorem Regular.expected_emit {g : FlowGraph} (hg : g.Regular traceName) (s : Scope) :
    (FlowGraph.emit g s).Faults Fault.Expected := by
  refine hg.faults_emit (.inr rfl) (fun _ _ a _ _ => .inl ⟨_, rfl⟩) (fun fault hfault => ?_) s
  have hend : (Graph.path g).2 = .done ∨ (Graph.path g).2 = .branch ∨ (Graph.path g).2 = .loop :=
    hg.sound.walk_cases hg.sound.reachable_source
  rcases hend with h | h | h <;> rw [h] at hfault <;> cases hfault
  · exact .inl ⟨_, rfl⟩
  · exact .inl ⟨_, rfl⟩

end FlowGraph

end ScriptRecovery
