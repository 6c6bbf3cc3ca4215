import ScriptRecovery.Proofs.Arena.Context
import ScriptRecovery.Proofs.Graph.Totals
import ScriptRecovery.Proofs.Lower.Emission
import ScriptRecovery.Proofs.Script.Spans

/-!
# How many temporaries statements need

Statements take temporaries twice: when they are made, for the values that they take off the stack,
and when pushes are bound, one for each push at most.  The demand of an action, a template, an edge
or a graph counts both (`Action.demand`, `Template.demand`, `Edge.demand`, `FlowGraph.demandOfPath`).

Code that is given a scope with room for its demand does not run out of temporaries, and with the
pushes that it says it has not used up more (`Emission.Within`).  There is one rule for each way in
which code is put together, and edges and graphs follow by induction (`Edge.within_emit`,
`FlowGraph.within_emit`).
-/

namespace ScriptRecovery

open Rose

/-! ## Pushes -/

/-- The number of pushes in a statement. -/
def Stmt.pushes (s : Stmt) : Nat := s.rose.labels.countP fun form => form.kind = .push

/-- No push is in an expression. -/
theorem Expr.countP_push (e : Expr) :
    e.rose.labels.countP (fun form => form.kind = .push) = 0 := by
  rw [List.countP_eq_zero]
  intro form hform hpush
  refine e.wellFormed_rose.no_statement (by simp) (by simp) form hform ?_
  rw [decide_eq_true_eq] at hpush
  rw [hpush]
  rfl

namespace Stmt

/-- The pushes of a list of statements are those of its members. -/
theorem countP_roses (body : List Stmt) :
    (labelsAll (Stmt.roses body)).countP (fun form => form.kind = .push) = total pushes body := by
  induction body with
  | nil => rfl
  | cons s body ih => rw [Stmt.roses, labelsAll, List.countP_append, ih, total, pushes]

@[simp] theorem pushes_pushing (e : Expr) : (pushing e).pushes = 1 := by
  simp [pushes, pushing, Stmt.rose, labelsAll, e.countP_push]

@[simp] theorem pushes_evaluating (e : Expr) : (evaluating e).pushes = 0 := by
  simpa [pushes, evaluating, Stmt.rose, labelsAll] using List.countP_eq_zero.1 e.countP_push

@[simp] theorem pushes_popInto (id : Nat) : (popInto id).pushes = 0 := pushes_evaluating _

theorem pushes_pops (count : Nat) (f : Nat → Nat) :
    total pushes ((List.range count).map fun i => popInto (f i)) = 0 := by
  induction List.range count with
  | nil => rfl
  | cons i is ih => rw [List.map_cons, total, ih, pushes_popInto]

theorem pushes_stackCall (id : Nat) (callee count : Expr) (loc : Loc) :
    (stackCall (some (.temporary id none)) callee count loc).pushes = 0 := by
  have hcallee := callee.countP_push
  have hcount := count.countP_push
  rw [List.countP_eq_zero] at hcallee hcount
  simpa [pushes, Stmt.rose, Target.rose, labelsAll] using And.intro hcallee hcount

/-- The pushes of a choice are those of its arms. -/
theorem pushes_choice (test : Nat) (onTrue onFalse : List Stmt) :
    (choice test onTrue onFalse).pushes = total pushes onTrue + total pushes onFalse := by
  rw [← countP_roses, ← countP_roses]
  cases onFalse <;>
    simp [pushes, choice, Stmt.roses, Stmt.rose, labelsAll, Expr.rose, Expr.temporary]

end Stmt

/-! ## Demand -/

/-- The demand of a recipe: its temporaries and the pushes that it says. -/
def Recipe.demand (r : Recipe) : Nat := r.temporaries + total Stmt.pushes (r.body 0)

/-- The demand of an action.  That of a branch is the temporary of its test, and an action without a
recipe has none, since it is refused. -/
def Action.demand (a : Action) : Nat :=
  match a.recipe?, a with
  | some r, _ => r.demand
  | none, .branch _ => 1
  | none, _ => 0

/-- The demand of a template: its values, and the push of what it leaves. -/
def Template.demand (t : Template) : Nat := t.span + if t.void then 0 else 1

mutual

/-- The demand of an edge.  That of a choice is the temporary of its test and the demand of both its
arms. -/
def Edge.demand (e : Edge) : Nat :=
  match e with
  | .action a => a.demand
  | .template t => t.demand
  | .ifTest => 1
  | .conditional ifTrue ifFalse =>
      1 + (FlowGraph.demandOfPath ifTrue + FlowGraph.demandOfPath ifFalse)
  | .plain | .ifTrue | .ifFalse | .marker _ | .sub => 0
termination_by (sizeOf e, 0)
decreasing_by
  · exact Prod.Lex.left _ _ (by rw [Edge.conditional.sizeOf_spec]; omega)
  · exact Prod.Lex.left _ _ (by rw [Edge.conditional.sizeOf_spec]; omega)

/-- The demand of the edges on the path of a graph. -/
def FlowGraph.demandOfPath (g : FlowGraph) : Nat :=
  total (fun (e : { e // e ∈ (Graph.path g).1 }) => e.1.demand) (Graph.path g).1.attach
termination_by (sizeOf g, 1)
decreasing_by
  exact Prod.Lex.left _ _ (Graph.sizeOf_lt_of_mem_path e.2)

end

/-- The demand of the reachable edges of a graph. -/
def FlowGraph.demand (g : FlowGraph) : Nat := Graph.weight Edge.demand g

/-- The demand of the actions of a stream. -/
def Stream.demand (s : Stream) : Nat := total (fun entry => entry.action.demand) s

/-- The row of no edges has one that demands nothing. -/
theorem Edge.total_demand_rowOf (edges : List Edge) :
    total demand (Graph.rowOf edges) = total demand edges := by
  cases edges with
  | nil => rw [Graph.rowOf, total, total, total, PlainEdge.plain, instPlainEdgeEdge, Edge.demand]
  | cons _ _ => rfl

namespace FlowGraph

theorem demandOfPath_eq (g : FlowGraph) : g.demandOfPath = total Edge.demand (Graph.path g).1 := by
  rw [demandOfPath, ← total_map Edge.demand Subtype.val, List.attach_map_subtype_val]

theorem demandOfPath_linear (edges : List Edge) :
    demandOfPath (.linear edges) = total Edge.demand edges := by
  rw [demandOfPath_eq, Graph.path_linear, Edge.total_demand_rowOf]

end FlowGraph

/-! ## Code within a demand -/

namespace Emission

variable {d d' : Nat} {code more : Scope → Emission}

/-- Whether code that starts in a scope with room for some temporaries does not run out of them.
Those that it takes and the pushes that it says are together no more. -/
def Within (d : Nat) (code : Scope → Emission) : Prop :=
  ∀ s : Scope, s.next + d < counterBound →
    (code s).statements ≠ .error .counterOverflow ∧
      ∀ body, (code s).statements = .ok body →
        (code s).scope.next + total Stmt.pushes body ≤ s.next + d

theorem within_nothing : Within d (of []) := by
  intro s _
  refine ⟨nofun, fun body hbody => ?_⟩
  cases hbody
  exact Nat.le_add_right _ _

theorem within_refused {fault : Fault} (h : fault ≠ .counterOverflow) :
    Within d (refused fault) := by
  intro s _
  refine ⟨fun hfault => ?_, nofun⟩
  cases hfault
  exact h rfl

/-- Code in a row needs what its parts need. -/
theorem Within.followedBy (h : Within d code) (hmore : Within d' more) :
    Within (d + d') fun s => (code s).followedBy more := by
  intro s hs
  obtain ⟨hfits, hused⟩ := h s (by omega)
  simp only [Emission.followedBy]
  cases hcode : (code s).statements with
  | error fault =>
    simp only [hcode]
    exact ⟨hcode ▸ hfits, nofun⟩
  | ok body =>
    have hfirst := hused body hcode
    obtain ⟨hfits', hused'⟩ := hmore (code s).scope (by omega)
    simp only
    cases hrest : (more (code s).scope).statements with
    | error fault =>
      rw [hrest] at hfits'
      refine ⟨fun hfault => hfits' ?_, nofun⟩
      cases hfault
      rfl
    | ok body' =>
      have hsecond := hused' body' hrest
      refine ⟨nofun, fun whole hwhole => ?_⟩
      cases hwhole
      rw [total_append]
      omega

theorem within_row {α : Type} {f : α → Scope → Emission} {demand : α → Nat} {xs : List α}
    (h : ∀ x ∈ xs, Within (demand x) (f x)) : Within (total demand xs) (row f xs) := by
  induction xs with
  | nil => exact within_nothing
  | cons x xs ih =>
    rw [List.forall_mem_cons] at h
    exact h.1.followedBy (ih h.2)

/-- A choice needs a temporary for its test, and what its arms need. -/
theorem within_choice (ht : Within d code) (hf : Within d' more) :
    Within (1 + (d + d')) (choice code more) := by
  intro s hs
  have hroom : s.fits 1 = true := by
    rw [Scope.fits, decide_eq_true_eq]
    omega
  unfold choice Scope.fresh
  rw [if_pos hroom]
  simp only
  have hfirst := ht (s.advance 1) (by simp only [Scope.advance]; omega)
  generalize code (s.advance 1) = e₁ at hfirst ⊢
  obtain ⟨fault | onTrue, s₁⟩ := e₁
  · refine ⟨fun hfault => hfirst.1 ?_, nofun⟩
    cases hfault
    rfl
  have hused := hfirst.2 onTrue rfl
  simp only [Scope.advance] at hused
  have hsecond := hf s₁ (by omega)
  simp only
  generalize more s₁ = e₂ at hsecond ⊢
  obtain ⟨fault | onFalse, s₂⟩ := e₂
  · refine ⟨fun hfault => hsecond.1 ?_, nofun⟩
    cases hfault
    rfl
  have hused' := hsecond.2 onFalse rfl
  refine ⟨nofun, fun body hbody => ?_⟩
  cases hbody
  simp only [Emission.of] at hused' ⊢
  rw [total, total, total, Stmt.pushes_popInto, Stmt.pushes_choice]
  omega

end Emission

open Emission

/-! ## Edges and graphs -/

/-- A recipe needs its temporaries and a temporary for each push that it says. -/
theorem Recipe.within_emit {r : Recipe} {d : Nat}
    (h : ∀ first, r.temporaries + total Stmt.pushes (r.body first) ≤ d) : Within d r.emit := by
  intro s hs
  have hneeds := h s.next
  have hroom : s.fits r.temporaries = true := by
    rw [Scope.fits, decide_eq_true_eq]
    omega
  rw [Recipe.emit, if_pos hroom]
  refine ⟨nofun, fun body hbody => ?_⟩
  cases hbody
  simp only [Emission.of, Scope.advance]
  omega

/-- What an action pushes does not depend on its temporaries. -/
theorem Action.pushes_body {a : Action} {r : Recipe} (h : a.recipe? = some r) (first : Nat) :
    total Stmt.pushes (r.body first) = total Stmt.pushes (r.body 0) := by
  have taking : ∀ {count : Nat} {say : (Nat → Expr) → List Stmt}, .taking count say = r →
      total Stmt.pushes (say fun i => .temporary (first + i)) =
        total Stmt.pushes (say fun i => .temporary (0 + i)) →
      total Stmt.pushes (r.body first) = total Stmt.pushes (r.body 0) := by
    rintro count say rfl hsay
    rw [Recipe.taking, total_append, total_append, Stmt.pushes_pops, Stmt.pushes_pops, hsay]
  cases a
  case callMethod | enumerate | branch | jump | play | stop | toNumber | toText | unknown =>
    cases h
  case callFunction =>
    cases h
    simp [total, Stmt.pushes_stackCall]
  case defineLocal | defineLocal2 | ret | setVariable | raise | trace =>
    refine taking (Option.some.inj h) ?_
    simp [total, Stmt.pushes, Stmt.rose, Expr.rose, Expr.temporary, labelsAll]
  all_goals
    refine taking (Option.some.inj h) ?_
    simp [total]

theorem Action.within_emit (a : Action) : Within a.demand a.emit := by
  intro s hs
  cases hr : a.recipe? with
  | none =>
    simp only [Action.emit, hr]
    exact within_refused (by nofun) s hs
  | some r =>
    simp only [Action.demand, hr] at hs ⊢
    simp only [Action.emit, hr]
    exact Recipe.within_emit (fun first => by rw [a.pushes_body hr]; exact Nat.le_refl _) s hs

theorem Template.within_emit (t : Template) : Within t.demand t.emit := by
  intro s hs
  have hinputs := t.inputs_le_span
  have hpushes : ∀ first,
      t.recipe.temporaries + total Stmt.pushes (t.recipe.body first) ≤ t.demand := by
    intro first
    simp only [Template.recipe, total_append, Stmt.pushes_pops, Template.say, Template.demand]
    split <;> simp [total, hinputs]
  have hrange : t.inputsInRange = true := by
    rw [Template.inputsInRange, List.all_eq_true]
    intro i hi
    have := Template.lt_span hi
    simp only [Template.demand] at hs
    rw [decide_eq_true_eq]
    omega
  rw [Template.emit, if_pos hrange]
  exact Recipe.within_emit hpushes s hs

mutual

/-- The statements of an edge stay within its demand. -/
theorem Edge.within_emit : (e : Edge) → Within e.demand e.emit
  | .action a => by
      intro s hs
      rw [Edge.demand] at hs ⊢
      rw [Edge.emit]
      exact a.within_emit s hs
  | .template t => by
      intro s hs
      rw [Edge.demand] at hs ⊢
      rw [Edge.emit]
      exact t.within_emit s hs
  | .conditional ifTrue ifFalse => by
      have hTrue := FlowGraph.within_emit ifTrue
      have hFalse := FlowGraph.within_emit ifFalse
      intro s hs
      rw [Edge.demand] at hs ⊢
      rw [Edge.emit]
      exact within_choice hTrue hFalse s hs
  | .plain | .ifTrue | .ifFalse | .ifTest | .marker _ | .sub => by
      intro s hs
      rw [Edge.emit]
      exact within_nothing s hs
termination_by e => (sizeOf e, 0)
decreasing_by
  · exact Prod.Lex.left _ _ (by rw [Edge.conditional.sizeOf_spec]; omega)
  · exact Prod.Lex.left _ _ (by rw [Edge.conditional.sizeOf_spec]; omega)

/-- The statements of a graph stay within the demand of its path. -/
theorem FlowGraph.within_emit (g : FlowGraph) :
    Within (FlowGraph.demandOfPath g) (FlowGraph.emit g) := by
  intro s hs
  rw [FlowGraph.demandOfPath_eq] at hs ⊢
  rw [FlowGraph.emit_eq]
  have hrow : Within (total Edge.demand (Graph.path g).1) (row Edge.emit (Graph.path g).1) :=
    within_row fun e he => Edge.within_emit e
  refine (show Within (_ + 0) _ from hrow.followedBy fun s hs => ?_) s hs
  cases hend : (Graph.path g).2 with
  | done => exact within_nothing s hs
  | _ => exact within_refused (by nofun) s hs
termination_by (sizeOf g, 1)
decreasing_by
  exact Prod.Lex.left _ _ (Graph.sizeOf_lt_of_mem_path he)

end

/-! ## The path of a graph -/

namespace Graph

variable {ε : Type} {g : Graph ε} {w : ε → Nat}

/-- The nodes that a path passes, each once. -/
theorem Sound.exists_walked (hg : g.Sound) (marks : Marks) {n : Nat} (hn : g.Reachable n) :
    ∃ ns : List Nat, ns.Nodup ∧ (∀ m ∈ ns, g.Reachable m ∧ marks.isFree m) ∧
      total (g.weightAt w) ns = total w (g.walk marks n).1 := by
  fun_induction walk g marks n with
  | case5 marks n hfree out hnode rest ih =>
    have hnode : g.node? n = some (.simple out) := hnode
    obtain ⟨ns, hnd, hns, hweight⟩ := ih (hg.reachable_target hn (by simp [hnode]))
    refine ⟨n :: ns, List.nodup_cons.2 ⟨fun hmem => ?_, hnd⟩,
      List.forall_mem_cons.2 ⟨⟨hn, hfree⟩, fun m hm => ⟨(hns m hm).1, ?_⟩⟩, ?_⟩
    · have := (hns n hmem).2
      rw [Marks.isFree_mark] at this
      simp at this
    · have := (hns m hm).2
      rw [Marks.isFree_mark, Bool.and_eq_true] at this
      exact this.1
    · rw [total, total, weightAt_of_simple hnode, hweight]
  | _ => exact ⟨[], .nil, by simp, rfl⟩

end Graph

/-- The path of a graph demands no more than the graph. -/
theorem FlowGraph.demandOfPath_le {g : FlowGraph} (hg : Graph.Sound g) :
    g.demandOfPath ≤ g.demand := by
  obtain ⟨ns, hnd, hns, hweight⟩ := hg.exists_walked (w := Edge.demand) (.none g.size)
    hg.reachable_source
  rw [demandOfPath_eq, Graph.path, ← hweight]
  exact Graph.total_weightAt_le hnd fun m hm => (hns m hm).1

end ScriptRecovery
