import ScriptRecovery.Flow.Edge
import ScriptRecovery.Lower.Recipe

/-!
# Graphs as statements

A graph can be said in statements when it is one path from its entry to its end.  A branch that is
left in it, and a path that comes back to a node it has passed, are not supported.

The edges of the path are said in order.  A conditional edge takes its test off the stack and
becomes a choice between the statements of its two graphs, of which the second is left out when it
has none.  A template takes its values off the stack into temporaries, the top first, and says its
expression over them.  Edges that only say where they go become nothing.
-/

namespace ScriptRecovery

/-! ## Paths -/

/-- How a path from the entry of a graph ends. -/
inductive PathEnd
  /-- At the end of the graph. -/
  | done
  /-- At a node with two ways out. -/
  | branch
  /-- At a node it has passed. -/
  | loop
  /-- At a place without a way out. -/
  | pending (node : Nat)
  /-- Outside the arena. -/
  | outside (node : Nat)

/-- Why a path that ends in this way cannot be said. -/
def PathEnd.fault? : PathEnd → Option Fault
  | done => none
  | branch => some (.unsupported "If")
  | loop => some (.unsupported "Loop")
  | pending node => some (.violation (.incompletePath node))
  | outside node => some (.nodeNotFound node)

namespace Graph

variable {ε : Type}

/-- The edges of the path from a node on, and how it ends. -/
def walk (g : Graph ε) (marks : Marks) (n : Nat) : List ε × PathEnd :=
  if marks.isFree n then
    match g.nodes[n]? with
    | none => ([], .outside n)
    | some .pending => ([], .pending n)
    | some .done => ([], .done)
    | some (.branch ..) => ([], .branch)
    | some (.simple out) =>
        let rest := g.walk (marks.mark n) out.dest
        (out.edge :: rest.1, rest.2)
  else ([], if n < g.size then .loop else .outside n)
termination_by marks.free
decreasing_by
  have := Marks.free_mark (m := marks) (i := n) (by assumption)
  omega

/-- The path from the entry. -/
def path (g : Graph ε) : List ε × PathEnd := g.walk (.none g.size) g.source

/-- The edges of a path are edges of nodes. -/
theorem mem_walk {g : Graph ε} {marks : Marks} {n : Nat} {e : ε} (h : e ∈ (g.walk marks n).1) :
    ∃ out : Link ε, Node.simple out ∈ g.nodes ∧ out.edge = e := by
  fun_induction walk g marks n with
  | case5 marks n _ out hn rest ih =>
    rcases List.mem_cons.1 h with rfl | h
    · exact ⟨out, Array.mem_of_getElem? hn, rfl⟩
    · exact ih h
  | _ => simp at h

/-- The edges of a path are smaller than the graph. -/
theorem sizeOf_lt_of_mem_path [SizeOf ε] {g : Graph ε} {e : ε} (h : e ∈ g.path.1) :
    sizeOf e < sizeOf g := by
  obtain ⟨⟨edge, dest⟩, hmem, rfl⟩ := mem_walk h
  have := Array.sizeOf_lt_of_mem hmem
  cases g
  simp_all
  omega

end Graph

/-! ## Statements -/

namespace Template

/-- Whether every placeholder has a successor in range. -/
def inputsInRange (t : Template) : Bool := t.expr.inputs.all (· + 1 < counterBound)

/-- The expression of a template over the temporaries of its values, the first of which holds the
top of the stack. -/
def exprFrom (t : Template) (first : Nat) : Expr :=
  t.expr.substitute fun i =>
    if i < t.inputs then some (.temporary (first + (t.inputs - 1 - i))) else none

/-- The statement of a template over the temporaries of its values. -/
def say (t : Template) (first : Nat) : Stmt :=
  if t.void then .evaluating (t.exprFrom first) else .pushing (t.exprFrom first)

/-- The recipe of a template. -/
def recipe (t : Template) : Recipe where
  temporaries := t.inputs
  body first := (List.range t.inputs).map (fun i => .popInto (first + i)) ++ [t.say first]

/-- The statements of a template. -/
def emit (t : Template) (s : Scope) : Emission :=
  if t.inputsInRange then t.recipe.emit s else .refused .counterOverflow s

end Template

/-- The choice between two lists of statements, by the temporary of the test. -/
def Stmt.choice (test : Nat) (truthy falsy : List Stmt) : Stmt :=
  .branch (.temporary test) (.block truthy none)
    (if falsy.isEmpty then none else some (.block falsy none)) none

/-- The statements of a choice, by those of its arms in the order in which they are said. -/
def Emission.choice (truthy falsy : Scope → Emission) (s : Scope) : Emission :=
  match s.fresh with
  | .error fault => .refused fault s
  | .ok (test, s) =>
      match truthy s with
      | ⟨.error fault, s⟩ => .refused fault s
      | ⟨.ok onTrue, s⟩ =>
          match falsy s with
          | ⟨.error fault, s⟩ => .refused fault s
          | ⟨.ok onFalse, s⟩ => .of [.popInto test, .choice test onTrue onFalse] s

mutual

/-- The statements of an edge. -/
def Edge.emit (e : Edge) (s : Scope) : Emission :=
  match e with
  | .action a => a.emit s
  | .template t => t.emit s
  | .conditional ifTrue ifFalse =>
      .choice (fun s => FlowGraph.emit ifTrue s) (fun s => FlowGraph.emit ifFalse s) s
  | .plain | .ifTrue | .ifFalse | .ifTest | .marker _ | .sub => .of [] s
termination_by (sizeOf e, 0)
decreasing_by
  · exact Prod.Lex.left _ _ (by rw [Edge.conditional.sizeOf_spec]; omega)
  · exact Prod.Lex.left _ _ (by rw [Edge.conditional.sizeOf_spec]; omega)

/-- The statements of a graph. -/
def FlowGraph.emit (g : FlowGraph) (s : Scope) : Emission :=
  let edges := (Graph.path g).1.attach
  (Emission.row (fun (e : { e // e ∈ (Graph.path g).1 }) => e.1.emit) edges s).followedBy fun s =>
    match (Graph.path g).2.fault? with
    | none => .of [] s
    | some fault => .refused fault s
termination_by (sizeOf g, 1)
decreasing_by
  exact Prod.Lex.left _ _ (Graph.sizeOf_lt_of_mem_path e.2)

end

/-- The script of a graph, with the temporaries of a scope. -/
def FlowGraph.toScript (g : FlowGraph) (s : Scope) : Except Fault Script :=
  (FlowGraph.emit g s).statements.map fun body => { body }

end ScriptRecovery
