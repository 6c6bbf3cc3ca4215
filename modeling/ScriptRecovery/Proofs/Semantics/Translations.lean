import ScriptRecovery.Proofs.Graph.Paths
import ScriptRecovery.Proofs.Reduce.Edges
import ScriptRecovery.Proofs.Semantics.Placeholders
import ScriptRecovery.Proofs.Semantics.Templates

/-!
# Actions and their templates do the same

An action that only computes can be run in two ways.  It says statements, which take its values off
the stack into temporaries, the top first, and its templates say an expression over placeholders,
of which the one with the highest number is the top.  Both orders are tables of their own, and this
file says that they agree on every path of a graph (`executions_formTemplates`).

A row of edges is run edge by edge (`Interpretation.crossRow`).  A template is run for any
expression, whether it draws its values in order or not (`Interpretation.feed`).  What the edges do
that are neither actions with statements nor templates is left open.

The graph with templates has the paths of the graph with actions, but for rows of templates in place
of some of the actions (`Translates`).  It has no others: a path that ends between two templates is
the first part of such a path.
-/

namespace ScriptRecovery

variable {V σ : Type}

namespace Interpretation

variable (I : Interpretation V σ)

/-- What a template does.  Its values are taken off the stack, the topmost one for the placeholder
with the highest number, its expression is evaluated, and the result is put on the stack unless it
is dropped. -/
def feed (t : Template) (c : Core V σ) : Effect V σ :=
  let inputs i := I.peek c.stack (t.inputs - 1 - i)
  let below : Core V σ := { c with stack := c.stack.drop t.inputs }
  Result.effect <| andThen ((I.fed inputs).exec t.expr.rose (below.filled I.undefined))
    fun a m => (.done (), if t.void then m else m.push (a.valueD I.undefined))

/-- What an edge does.  An action does what its statements do, and edges that are no templates and
have no statements do something that is not fixed. -/
def cross (other : Edge → Core V σ → Effect V σ) : Edge → Core V σ → Effect V σ
  | .plain, c => (.done (), c)
  | .template t, c => I.feed t c
  | .action a, c => (I.act a c).getD (other (.action a) c)
  | e, c => other e c

/-- What edges in a row do, up to the first that ends the run. -/
def crossRow (other : Edge → Core V σ → Effect V σ) : List Edge → Core V σ → Effect V σ
  | [], c => (.done (), c)
  | e :: es, c =>
      match I.cross other e c with
      | (.done _, c) => crossRow other es c
      | ended => ended

variable {I} {inputs : Nat → V} {other : Edge → Core V σ → Effect V σ} {e : Expr} {c c' : Core V σ}

/-! ## Templates -/

/-- An expression that draws its values is evaluated to the value that it has over them. -/
theorem exec_drawn {i j : Nat} (h : e.Draws I.names.trace i j) (m : Memory V σ) :
    (I.fed inputs).exec e.rose m = (.done (.value (I.value inputs m.pool e m.state).1),
      { m with state := (I.value inputs m.pool e m.state).2 }) := by
  have placeholder : ∀ (i : Nat) (m : Memory V σ),
      (I.fed inputs).exec (Expr.input i).rose m = (.done (.value (inputs i)), m) := fun i m => by
    rw [Expr.rose, exec_leaf _ rfl (by simp)]
    rfl
  induction h generalizing m with
  | input => exact placeholder _ m
  | operand v => cases v <;> rfl
  | unary _ ih =>
    rw [Expr.rose, exec_sequential _ rfl (by simp), execRow, ih]
    rfl
  | right _ ih =>
    rw [exec_binary (placeholder _ m) (ih m)]
    rfl
  | left _ _ ih₁ ih₂ =>
    rw [exec_binary (ih₁ m) (ih₂ _)]
    rfl
  | call _ ih =>
    rw [show I.names.trace = (I.fed inputs).names.trace from rfl, exec_traceCall, ih]
    rfl

/-- A template that draws its values in order does what it is to do. -/
theorem feed_eq_apply {t : Template} (h : t.Formed I.names.trace) :
    I.feed t c = (.done (), I.apply t c) := by
  simp only [feed, exec_drawn h, andThen, apply]
  cases t.void <;> rfl

/-! ## Rows -/

/-- An edge that does not end the run is passed. -/
theorem crossRow_append {es fs : List Edge} (h : I.crossRow other es c = (.done (), c')) :
    I.crossRow other (es ++ fs) c = I.crossRow other fs c' := by
  induction es generalizing c with
  | nil =>
    cases h
    rfl
  | cons e es ih =>
    rw [crossRow] at h
    rw [List.cons_append, crossRow]
    split at h
    · exact ih h
    · next hne => exact absurd h (hne () c')

/-- Templates that draw their values in order do in a row what each of them is to do. -/
theorem crossRow_map_template {ts : List Template} (h : ∀ t ∈ ts, t.Formed I.names.trace) :
    I.crossRow other (ts.map .template) c = (.done (), ts.foldl (fun c t => I.apply t c) c) := by
  induction ts generalizing c with
  | nil => rfl
  | cons t ts ih =>
    obtain ⟨ht, hts⟩ := List.forall_mem_cons.1 h
    rw [List.map_cons, crossRow, cross, feed_eq_apply ht]
    exact ih hts

/-- The templates of an action do in a row what the statements of the action do. -/
theorem crossRow_templates {a : Action} {ts : List Template}
    (h : a.templates? I.names.trace = some ts) (other : Edge → Core V σ → Effect V σ)
    (c : Core V σ) :
    ∃ c', I.cross other (.action a) c = (.done (), c') ∧
      I.crossRow other (Graph.rowOf (ts.map .template)) c = (.done (), c') := by
  refine ⟨ts.foldl (fun c t => I.apply t c) c, by rw [cross, act_templates h]; rfl, ?_⟩
  cases ts with
  | nil => rfl
  | cons t ts => exact crossRow_map_template (FlowGraph.formed_templates h)

end Interpretation

/-! ## Rows with templates in place of actions -/

/-- Whether a row of edges is another one with the rows of their templates in place of some of the
actions. -/
inductive Translates (traceName : String) : List Edge → List Edge → Prop
  | nil : Translates traceName [] []
  | keep {e : Edge} {es es' : List Edge} : Translates traceName es es' →
      Translates traceName (e :: es) (e :: es')
  | form {e : Edge} {row es es' : List Edge} : e.toTemplates? traceName = some row →
      Translates traceName es es' → Translates traceName (e :: es) (Graph.rowOf row ++ es')

namespace Translates

variable {traceName : String} {es es' fs fs' : List Edge}

theorem append (h : Translates traceName es es') (h' : Translates traceName fs fs') :
    Translates traceName (es ++ fs) (es' ++ fs') := by
  induction h with
  | nil => exact h'
  | keep _ ih => exact .keep ih
  | form hrow _ ih =>
    rw [List.append_assoc]
    exact .form hrow ih

/-- A row that is translated is run like the row it is a translation of, whatever the operations
mean and whatever the other edges do, when a trace is a call of the trace function. -/
theorem crossRow_eq {I : Interpretation V σ} (h : Translates traceName es es')
    (htrace : I.names.trace = traceName) (other : Edge → Core V σ → Effect V σ) (c : Core V σ) :
    I.crossRow other es' c = I.crossRow other es c := by
  induction h generalizing c with
  | nil => rfl
  | keep _ ih => simp only [Interpretation.crossRow, ih]
  | @form e row es es' hrow _ ih =>
    obtain ⟨a, ts, rfl, hts, rfl⟩ := FlowGraph.toTemplates?_eq_some hrow
    obtain ⟨c', hact, htemplates⟩ :=
      I.crossRow_templates (htrace ▸ hts) other c
    rw [Interpretation.crossRow_append htemplates, ih, Interpretation.crossRow, hact]

end Translates

/-! ## Paths -/

namespace Graph

variable {ε : Type} {g : Graph ε}

/-- A path goes on along a row. -/
theorem Path.row {es row : List ε} {low n dest : Nat} (h : g.Path es n)
    (hrow : g.Row low dest n row) : g.Path (es ++ row) dest := by
  induction hrow generalizing es with
  | nil => rwa [List.append_nil]
  | @cons n e next row _ hnode _ ih =>
    rw [List.append_cons]
    refine ih (h.snoc (e := ⟨n, next, e⟩) ?_)
    exact mem_outEdges.2 ⟨_, _, hnode, List.mem_singleton.2 rfl, rfl⟩

end Graph

namespace FlowGraph

variable {g g' : FlowGraph} {traceName : String} {es es' : List Edge} {n : Nat}

/-- Whether a graph has the rows of their templates in place of the actions of another one that have
some. -/
abbrev Formed (g : FlowGraph) (traceName : String) (g' : FlowGraph) : Prop :=
  g.Relaying (fun _ => Edge.toTemplates? traceName) id [] g'

/-- A node is as it was and has no action to translate, or the row of templates of its action is
laid from it, over new nodes. -/
theorem Formed.node_cases (h : g.Formed traceName g') (hn : g.Reachable n) :
    (g'.node? n = g.node? n ∧ ∀ e dest, g.node? n = some (.simple ⟨e, dest⟩) →
      e.toTemplates? traceName = none) ∨
    ∃ e dest row e' es next, g.node? n = some (.simple ⟨e, dest⟩) ∧
      e.toTemplates? traceName = some row ∧ Graph.rowOf row = e' :: es ∧
      g'.node? n = some (.simple ⟨e', next⟩) ∧ g'.Row g.size dest next es := by
  rcases h.nodes hn.lt_size with ⟨hsame, hleft⟩ |
    ⟨e, dest, row, hnode, hpicked, e', es, next, hrow, hfirst, hlaid⟩
  · refine .inl ⟨hsame, fun e dest hnode => ?_⟩
    cases hform : e.toTemplates? traceName with
    | none => rfl
    | some row => exact absurd (hleft row (mem_pickEdges_of hn hnode hform)) List.not_mem_nil
  · obtain ⟨-, e₁, dest₁, hnode₁, hform⟩ := mem_pickEdges hpicked
    cases hnode.symm.trans hnode₁
    exact .inr ⟨e, dest, row, e', es, next, hnode, hform, hrow, hfirst, hlaid⟩

/-- The row of templates of an action goes where the action went. -/
theorem Formed.row (h : g.Formed traceName g') (hn : g.Reachable n) {e : Edge} {dest : Nat}
    {row : List Edge} (hnode : g.node? n = some (.simple ⟨e, dest⟩))
    (hform : e.toTemplates? traceName = some row) : g'.Row 0 dest n (Graph.rowOf row) := by
  rcases h.node_cases hn with ⟨-, hnone⟩ | ⟨e₁, dest₁, row₁, e', es, next, hnode₁, hform₁, hrow,
    hfirst, hlaid⟩
  · cases (hnone e dest hnode).symm.trans hform
  · cases hnode.symm.trans hnode₁
    obtain rfl := Option.some.inj (hform.symm.trans hform₁)
    rw [hrow]
    exact .cons (Nat.zero_le _) hfirst (hlaid.mono (Nat.zero_le _))

/-- Every path has its translation. -/
theorem Formed.path (h : g.Formed traceName g') (hg : Graph.Sound g) (hpath : g.Path es n) :
    ∃ es', g'.Path es' n ∧ Translates traceName es es' := by
  induction hpath with
  | nil => exact ⟨[], h.source ▸ .nil, .nil⟩
  | @snoc es e hpath he ih =>
    obtain ⟨es', hpath', htranslates⟩ := ih
    have hn := hpath.reachable hg
    obtain ⟨u, d, e⟩ := e
    obtain ⟨node, l, hnode, hl, hedge⟩ := Graph.mem_outEdges.1 he
    cases hedge
    rcases h.node_cases hn with ⟨hsame, -⟩ | ⟨e₁, dest, row, e', rest, next, hold, hform, -, -, -⟩
    · have he' : (⟨u, l.dest, l.edge⟩ : BoundEdge Edge) ∈ g'.outEdges u :=
        Graph.mem_outEdges.2 ⟨node, l, hsame ▸ hnode, hl, rfl⟩
      exact ⟨es' ++ [l.edge], hpath'.snoc he', htranslates.append (.keep .nil)⟩
    · cases hnode.symm.trans hold
      obtain rfl := List.mem_singleton.1 hl
      have hwhole := htranslates.append (.form hform .nil)
      rw [List.append_nil] at hwhole
      exact ⟨es' ++ Graph.rowOf row, hpath'.row (h.row hn hold hform), hwhole⟩

/-- Every path is the translation of a path, as far as it goes: it may end in the middle of the row
of an action. -/
theorem Formed.path_back (h : g.Formed traceName g') (hg : Graph.Sound g) (hpath : g'.Path es' n) :
    ∃ es m post, g.Path es m ∧ g'.Row g.size m n post ∧
      Translates traceName es (es' ++ post) := by
  induction hpath with
  | nil => exact ⟨[], g.source, [], .nil, h.source ▸ .nil, .nil⟩
  | @snoc es' e' _ he' ih =>
    obtain ⟨es, m, post, hpath, hrow, htranslates⟩ := ih
    obtain ⟨u, d, e'⟩ := e'
    obtain ⟨node, l, hnode', hl, hedge⟩ := Graph.mem_outEdges.1 he'
    cases hedge
    cases hrow with
    | nil =>
      -- the path is at an old node, and goes on along an edge of it or into a row
      rw [List.append_nil] at htranslates
      rcases h.node_cases (hpath.reachable hg) with
        ⟨hsame, -⟩ | ⟨e, dest, row, e₁, rest, next, hnode, hform, hrow, hfirst, hlaid⟩
      · have he : (⟨u, l.dest, l.edge⟩ : BoundEdge Edge) ∈ g.outEdges u :=
          Graph.mem_outEdges.2 ⟨node, l, hsame ▸ hnode', hl, rfl⟩
        refine ⟨_, l.dest, [], hpath.snoc he, .nil, ?_⟩
        rw [List.append_nil]
        exact htranslates.append (.keep .nil)
      · cases hnode'.symm.trans hfirst
        obtain rfl := List.mem_singleton.1 hl
        have he : (⟨u, dest, e⟩ : BoundEdge Edge) ∈ g.outEdges u :=
          Graph.mem_outEdges.2 ⟨_, _, hnode, List.mem_singleton.2 rfl, rfl⟩
        have hwhole := htranslates.append (.form hform .nil)
        rw [hrow, List.append_nil, List.append_cons es'] at hwhole
        exact ⟨es ++ [e], dest, rest, hpath.snoc (e := ⟨u, dest, e⟩) he, hlaid, hwhole⟩
    | cons _ hnode hrest =>
      cases hnode'.symm.trans hnode
      obtain rfl := List.mem_singleton.1 hl
      exact ⟨es, m, _, hpath, hrest, by rwa [List.append_assoc]⟩

/-- Putting templates in place of actions preserves executions.  Every path of the graph has its
translation, which leads to the same node, and every path of the new graph is one, or the first part
of one when it leads to a new node.  Whatever the operations mean, a path and its translation do the
same from the same stack, when a trace is a call of the trace function, and so they end with the
same stack and the same state.  A push becomes one edge for each value, in order. -/
theorem executions_formTemplates {nodes : Array (Node Edge)} {source : Nat}
    (hg : Graph.ofNodes nodes source = .ok g) (traceName : String) (iteration : Nat) :
    ∃ g' changed, (Pass.formTemplates traceName).run iteration g = ⟨g', .ok changed⟩ ∧
      (∀ es n, g.Path es n → ∃ es', g'.Path es' n ∧ Translates traceName es es') ∧
      (∀ es' n, g'.Path es' n → ∃ es post m, g.Path es m ∧ g'.Path (es' ++ post) m ∧
        Translates traceName es (es' ++ post) ∧ (n < g.size → post = [] ∧ m = n)) ∧
      (∀ es es', Translates traceName es es' → ∀ (V σ : Type) (I : Interpretation V σ),
        I.names.trace = traceName → ∀ other c, I.crossRow other es' c = I.crossRow other es c) ∧
      ∀ n values dest, g.Reachable n → g.node? n = some (.simple ⟨.action (.push values), dest⟩) →
        g'.Row 0 dest n (Graph.rowOf (values.map fun v => .template (.value v.toExpr))) := by
  have hsound := (Graph.sound_of_ofNodes hg).1
  obtain ⟨g', happly, hformed⟩ :=
    relaying_spliceEdges hsound (fun _ => Edge.toTemplates? traceName) id
  obtain ⟨changed, hrun⟩ := Outcome.ofEdits_eq_of_applyAll happly
  refine ⟨g', changed, hrun, fun es n hpath => Formed.path hformed hsound hpath,
    fun es' n hpath' => ?_, fun es es' h V σ I htrace other c => h.crossRow_eq htrace other c,
    fun n values dest hn hnode => ?_⟩
  · obtain ⟨es, m, post, hpath, hrow, htranslates⟩ := Formed.path_back hformed hsound hpath'
    refine ⟨es, post, m, hpath, hpath'.row hrow, htranslates, fun hn => ?_⟩
    cases hrow with
    | nil => exact ⟨rfl, rfl⟩
    | cons hlow _ _ => exact absurd hn (Nat.not_lt.2 hlow)
  · exact Formed.row hformed hn hnode (by simp [Edge.toTemplates?, Action.templates?])

/-- A difference is printed in a loop, where values are texts that say what they were computed of
and the state is what was printed.  The templates print the same, with the operands in order. -/
theorem executions_formTemplates_difference :
    let nodes : Array (Node Edge) := #[
      .simple ⟨.action (.push [.string "a", .string "b"]), 1⟩,
      .simple ⟨.action (.binary .subtract), 2⟩, .simple ⟨.action .trace, 3⟩,
      .simple ⟨.action (.push []), 4⟩, .branch ⟨.ifTrue, 0⟩ ⟨.ifFalse, 5⟩, .done]
    let texts : Interpretation String (List String) := {
      names := { global := "_global", trace := "print" }
      inputs := fun _ => ""
      literal := fun | .string s => s | _ => ""
      holds := fun _ => false
      perform := fun op vs printed => match op, vs with
        | .binary _, [v, v'] => (v ++ " - " ++ v', printed)
        | .trace, [v] => ("", v :: printed)
        | _, _ => ("", printed)
      store := fun _ _ v printed => (v, printed)
      consume := fun _ _ stack printed => ("", stack, printed) }
    ∃ g' es' changed, Graph.ofNodes nodes 0 = .ok (Graph.indexed nodes 0) ∧
      (Pass.formTemplates "print").run 0 (Graph.indexed nodes 0) = ⟨g', .ok changed⟩ ∧
      g'.Path es' 4 ∧ texts.crossRow (fun _ c => (.done (), c)) es' ⟨[], [], []⟩ =
        (.done (), ⟨[], [], ["a - b"]⟩) := by
  intro nodes texts
  have h : Graph.ofNodes nodes 0 = .ok (Graph.indexed nodes 0) := by cbv
  have hrow : (Graph.indexed nodes 0).Row 0 4 0 [.action (.push [.string "a", .string "b"]),
      .action (.binary .subtract), .action .trace, .action (.push [])] :=
    .cons (Nat.zero_le _) rfl (.cons (Nat.zero_le _) rfl (.cons (Nat.zero_le _) rfl
      (.cons (Nat.zero_le _) rfl .nil)))
  have hpath := Graph.Path.row .nil hrow
  obtain ⟨g', changed, hrun, hforward, -, hsame, -⟩ := executions_formTemplates h "print" 0
  obtain ⟨es', hpath', htranslates⟩ := hforward _ _ hpath
  refine ⟨g', es', changed, h, hrun, hpath', ?_⟩
  rw [hsame _ _ htranslates _ _ texts rfl]
  rfl

end FlowGraph

end ScriptRecovery
