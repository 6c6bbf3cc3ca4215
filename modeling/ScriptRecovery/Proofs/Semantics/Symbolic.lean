import Mathlib.Tactic.IntervalCases
import ScriptRecovery.Proofs.Reduce.Spans
import ScriptRecovery.Proofs.Script.Substitution
import ScriptRecovery.Proofs.Semantics.Executions

/-!
# Symbolic execution of graphs

A graph can be executed on expressions in place of values.  A template takes expressions off a stack
that has no bottom, puts them in place of its placeholders, all at once, and pushes the expression
it has become, or lets it be seen when its value is dropped.  Plain edges do nothing.  Every other
edge, conditional ones among them, may do anything to the stack and to whatever else there is, and
is seen with what it found (`Environment`).  At a branching node anything may decide.

A merged edge is passed like its two parts (`Environment.passAll_merge`): replacing placeholders
once by what the first template builds is replacing them twice.  For that the templates must be
closed, since a placeholder beyond the values that are taken would be counted among those of the
second part.  Rows are merged by merging neighbours, so they are passed alike as well
(`Environment.passAll_reduceRow`).

When a chain gives way to such a row, the executions before and after it meet again at the end of
the chain, and everywhere else they go in step (`Environment.sameSymbolic_of_spliced`).
-/

namespace ScriptRecovery

/-! ## Closed graphs -/

/-- Whether the template of an edge mentions no placeholder beyond the values it takes. -/
def Edge.Closed (e : Edge) : Prop := ∀ t, e = .template t → t.Closed

/-- Whether all templates of a graph are closed. -/
def FlowGraph.Closed (g : FlowGraph) : Prop :=
  ∀ {n : Nat} {node : Node Edge} {l : Link Edge}, g.Reachable n → g.node? n = some node →
    l ∈ node.links → l.edge.Closed

/-- The edges along a row of a closed graph are closed. -/
theorem FlowGraph.Closed.row {g : FlowGraph} (hc : g.Closed) (hg : Graph.Sound g)
    {low dest x : Nat} {es : List Edge} (h : g.Row low dest x es) (hx : g.Reachable x) :
    ∀ e ∈ es, e.Closed := by
  induction h with
  | nil => simp
  | @cons x _ _ _ _ hnode _ ih =>
    have hnext := ih (hg.reachable_target hx (by simp [Graph.targets_of_simple hnode]))
    exact List.forall_mem_cons.2 ⟨hc hx hnode (List.mem_singleton.2 rfl), hnext⟩

/-! ## Executions -/

/-- A stack of expressions without a bottom, the top first, and whatever else there is. -/
structure Symbolic (σ : Type) where
  /-- The stack. -/
  stack : Nat → Expr
  /-- Whatever else there is. -/
  rest : σ

/-- What is seen of a symbolic execution. -/
inductive Seen (σ : Type)
  /-- An expression whose value is dropped. -/
  | emitted (expr : Expr)
  /-- An edge that is not understood, with what it found. -/
  | passed (edge : Edge) (found : Symbolic σ)

namespace Symbolic

variable {σ : Type}

/-- The expressions for the placeholders of a template that takes `n` values. -/
def values (m : Symbolic σ) (n : Nat) (i : Nat) : Option Expr :=
  if i < n then some (m.stack (n - 1 - i)) else none

/-- Takes values off the stack. -/
def drop (m : Symbolic σ) (n : Nat) : Symbolic σ := { m with stack := fun i => m.stack (n + i) }

/-- Puts an expression on the stack. -/
def push (m : Symbolic σ) (e : Expr) : Symbolic σ :=
  { m with stack := fun
      | 0 => e
      | i + 1 => m.stack i }

/-- Of the values taken together, the later ones are those that are taken first. -/
theorem values_add (m : Symbolic σ) (n i k : Nat) : m.values (n + k) (i + k) = m.values n i := by
  unfold values
  have hindex : n + k - 1 - (i + k) = n - 1 - i := by omega
  simp [hindex]

/-- The last value is the one on top. -/
theorem values_push_last (m : Symbolic σ) (e : Expr) (k : Nat) :
    (m.push e).values (k + 1) k = some e := by
  simp [values, push]

/-- The values before the last one are those below it. -/
theorem values_push_drop (m : Symbolic σ) (e : Expr) {n i k : Nat} (h : i < k) :
    ((m.drop n).push e).values (k + 1) i = m.values (n + k) i := by
  obtain ⟨j, rfl⟩ := Nat.exists_eq_add_of_lt h
  have hindex : i + j + 1 + 1 - 1 - i = j + 1 := by omega
  have hindex' : n + (i + j + 1) - 1 - i = n + j := by omega
  simp only [values, push, drop, hindex, hindex', show i < i + j + 1 + 1 by omega,
    show i < n + (i + j + 1) by omega, if_true]

/-- What is taken above a value and with it leaves what is taken below it. -/
theorem drop_push (m : Symbolic σ) (e : Expr) (n k : Nat) :
    ((m.drop n).push e).drop (k + 1) = m.drop (n + k) := by
  have hindex : ∀ i, k + 1 + i = (k + i) + 1 := by omega
  simp [drop, push, hindex, Nat.add_assoc]

end Symbolic

/-- What is left open: what the other edges do, and how branching nodes decide. -/
structure Environment (σ : Type) where
  /-- What an edge does. -/
  act : Edge → Symbolic σ → Symbolic σ
  /-- What a branching node decides, and what is left after that. -/
  choose : Nat → Symbolic σ → Bool × Symbolic σ

namespace Environment

variable {σ : Type}

/-- Passing an edge: what is seen of it, and what it leaves. -/
def pass (E : Environment σ) (e : Edge) (m : Symbolic σ) : List (Seen σ) × Symbolic σ :=
  match e with
  | .plain => ([], m)
  | .template t =>
      let built := t.expr.substitute (m.values t.inputs)
      let m := m.drop t.inputs
      if t.void then ([.emitted built], m) else ([], m.push built)
  | e => ([.passed e m], E.act e m)

/-- Passing edges in a row. -/
def passAll (E : Environment σ) : List Edge → Symbolic σ → List (Seen σ) × Symbolic σ
  | [], m => ([], m)
  | e :: es, m =>
      let (seen, m) := E.pass e m
      let (more, m) := E.passAll es m
      (seen ++ more, m)

/-- A step of a symbolic execution: from a node along one of its ways out. -/
def step (E : Environment σ) (g : FlowGraph) :
    Automaton (Nat × Symbolic σ) (Seen σ) (Halt (Symbolic σ))
  | (n, m) =>
      match g.node? n with
      | some (.simple out) =>
          let (seen, m) := E.pass out.edge m
          .go seen (out.dest, m)
      | some (.branch onTrue onFalse) =>
          let (holds, m) := E.choose n m
          let out := if holds then onTrue else onFalse
          let (seen, m) := E.pass out.edge m
          .go seen (out.dest, m)
      | some .done => .rest (.ended m)
      | some .pending | none => .rest (.incomplete m)

/-- Whether two graphs are executed alike on expressions, whatever the other edges do and however
branching nodes decide. -/
def SameSymbolic (g g' : FlowGraph) : Prop :=
  ∀ (σ : Type) (E : Environment σ) (m : Symbolic σ),
    (E.step g).Alike (E.step g') (g.source, m) (g'.source, m)

theorem SameSymbolic.refl (g : FlowGraph) : SameSymbolic g g := fun _ E _ => .refl (E.step g) _

theorem SameSymbolic.trans {g g' g'' : FlowGraph} (h : SameSymbolic g g')
    (h' : SameSymbolic g' g'') : SameSymbolic g g'' :=
  fun σ E m => (h σ E m).trans (h' σ E m)

/-! ## Rows -/

variable (E : Environment σ)

theorem step_simple {g : FlowGraph} {n : Nat} {out : Link Edge}
    (h : g.node? n = some (.simple out)) (m : Symbolic σ) :
    E.step g (n, m) = .go (E.pass out.edge m).1 (out.dest, (E.pass out.edge m).2) := by
  simp only [step, h]

/-- A step leads along a link. -/
theorem mem_targets_of_step {g : FlowGraph} {n : Nat} {m : Symbolic σ} {seen : List (Seen σ)}
    {c : Nat × Symbolic σ} (h : E.step g (n, m) = .go seen c) : c.1 ∈ g.targets n := by
  unfold step at h
  cases hnode : g.node? n with
  | none => simp [hnode] at h
  | some node =>
    rw [Graph.targets_of_node? hnode]
    cases node with
    | pending | done => simp [hnode] at h
    | simple out =>
      simp only [hnode, Move.go.injEq] at h
      simp [← h.2, Node.targets, Node.links]
    | branch a b =>
      simp only [hnode, Move.go.injEq] at h
      rw [← h.2]
      dsimp only
      split <;> simp [Node.targets, Node.links]

theorem passAll_append (es es' : List Edge) (m : Symbolic σ) :
    E.passAll (es ++ es') m =
      ((E.passAll es m).1 ++ (E.passAll es' (E.passAll es m).2).1,
        (E.passAll es' (E.passAll es m).2).2) := by
  induction es generalizing m with
  | nil => rfl
  | cons e es ih => simp [passAll, ih, List.append_assoc]

theorem passAll_rowOf (es : List Edge) (m : Symbolic σ) :
    E.passAll (Graph.rowOf es) m = E.passAll es m := by
  cases es <;> rfl

/-- A row of a graph is passed step by step. -/
theorem goes_row {g : FlowGraph} {low dest x : Nat} {es : List Edge} (h : g.Row low dest x es)
    (m : Symbolic σ) :
    (E.step g).Goes es.length (x, m) (E.passAll es m).1 (dest, (E.passAll es m).2) := by
  induction h generalizing m with
  | nil => exact .zero
  | cons _ hnode _ ih => exact .succ (E.step_simple hnode m) (ih _)

/-! ## Merged edges -/

/-- What a merged template builds is what the second one builds of what the first one pushes. -/
theorem substitute_merge {t₁ t₂ t : Template} (h₁ : t₁.Closed) (h₂ : t₂.Closed)
    (h : t₁.merge t₂ = .ok (some t)) (m : Symbolic σ) :
    t.expr.substitute (m.values t.inputs) = t₂.expr.substitute
      (((m.drop t₁.inputs).push (t₁.expr.substitute (m.values t₁.inputs))).values t₂.inputs) := by
  obtain ⟨-, k, hk, hinputs, -, hexpr⟩ := Template.merge_eq_ok h
  rw [hexpr, Expr.substitute_substitute, hinputs, hk]
  refine t₂.expr.substitute_congr fun i hi => ?_
  have hlt := h₂ i hi
  by_cases hik : i = k
  · subst hik
    have hfirst : (Template.shiftInputs i t₁.expr).substitute (m.values (t₁.inputs + i)) =
        t₁.expr.substitute (m.values t₁.inputs) := by
      rw [Template.substitute_shiftInputs]
      refine t₁.expr.substitute_congr fun j hj => ?_
      simp only [Expr.put, Symbolic.values_add, Option.getD_some]
      simp [Symbolic.values, h₁ j hj]
    simpa [Expr.put, Symbolic.values_push_last] using hfirst
  · have hbelow := m.values_push_drop (t₁.expr.substitute (m.values t₁.inputs))
      (n := t₁.inputs) (show i < k by omega)
    simp [Expr.put, hik, Expr.substitute, hbelow]

/-- A merged edge is closed, and passed like its two parts. -/
theorem passAll_merge {a b both : Edge} (ha : a.Closed) (hb : b.Closed)
    (h : a.merge b = .ok (some both)) :
    both.Closed ∧ ∀ {σ : Type} (E : Environment σ) (m : Symbolic σ),
      E.passAll [a, b] m = E.passAll [both] m := by
  obtain ⟨rfl, rfl⟩ | ⟨rfl, rfl⟩ | ⟨t₁, t₂, t, rfl, rfl, hmerge, rfl⟩ := Edge.merge_eq_ok h
  · exact ⟨hb, fun _ _ => rfl⟩
  · exact ⟨ha, fun E m => by simp [passAll, pass]⟩
  · have h₁ := ha t₁ rfl
    have h₂ := hb t₂ rfl
    refine ⟨?_, fun E m => ?_⟩
    · intro t' ht'
      cases ht'
      exact h₁.merge h₂ hmerge
    · obtain ⟨hpush, k, hk, hinputs, hvoid, -⟩ := Template.merge_eq_ok hmerge
      have hbuilt := substitute_merge h₁ h₂ hmerge m
      have hleft := m.drop_push (t₁.expr.substitute (m.values t₁.inputs)) t₁.inputs k
      rw [hk] at hbuilt
      simp only [passAll, pass, hpush, hvoid, hk, hinputs] at hbuilt ⊢
      cases t₂.void <;> simp [hbuilt, hleft]

/-- A row is passed like the row it is merged into. -/
theorem passAll_reduceRow {row row' : List Edge} (hr : ∀ e ∈ row, e.Closed)
    (h : Edge.reduceRow row = .ok (some row')) :
    (∀ e ∈ row', e.Closed) ∧ ∀ {σ : Type} (E : Environment σ) (m : Symbolic σ),
      E.passAll row m = E.passAll row' m := by
  replace h := Edge.reduceRow_merges h
  induction h with
  | refl => exact ⟨hr, fun _ _ => rfl⟩
  | tail _ hlast ih =>
    obtain ⟨hclosed, hpass⟩ := ih
    obtain @⟨a, b, both, pre, post, hmerge⟩ := hlast
    simp only [List.forall_mem_append, List.forall_mem_cons] at hclosed ⊢
    obtain ⟨hpre, ha, hb, hpost⟩ := hclosed
    obtain ⟨hboth, hsame⟩ := passAll_merge ha hb hmerge
    refine ⟨⟨hpre, hboth, hpost⟩, fun E m => (hpass E m).trans ?_⟩
    rw [show pre ++ a :: b :: post = pre ++ [a, b] ++ post by simp,
      show pre ++ both :: post = pre ++ [both] ++ post by simp]
    simp only [passAll_append, hsame]

/-! ## Splices -/

section Splice

variable {g g' : FlowGraph} {n dest : Nat} {gone : Nat → Prop} {row : List Edge}

/-- A graph with a row in place of another one that is passed alike is executed like the graph
before. -/
theorem sameSymbolic_of_spliced (hs : g.Spliced g' n dest gone row) (hg : Graph.Sound g)
    (hr : g.Region n dest gone) {e : Edge} {es : List Edge} (hold : g.Row 0 dest n (e :: es))
    (hpass : ∀ {σ : Type} (E : Environment σ) (m : Symbolic σ),
      E.passAll (e :: es) m = E.passAll row m) : SameSymbolic g g' := by
  intro σ E m
  rw [hs.source]
  refine Automaton.alike_of_meets
    (R := fun c c' => c = c' ∧ g.Reachable c.1 ∧ ¬ gone c.1) ?_
    ⟨rfl, hg.reachable_source, hr.source_kept⟩
  rintro ⟨y, m⟩ _ ⟨rfl, hy, hgone⟩
  by_cases hyn : y = n
  · subst hyn
    obtain ⟨e', es', next, rfl, hnode, hlaid⟩ := hs.laid
    have hnew : g'.Row 0 dest y (e' :: es') :=
      .cons (Nat.zero_le _) hnode (hlaid.mono (Nat.zero_le _))
    have hgo := E.goes_row hnew m
    rw [← hpass] at hgo
    exact .go (E.goes_row hold m) hgo ⟨rfl, hr.exit, hr.exit_kept⟩
  · obtain ⟨hsame, hnext⟩ := hs.onward hg hr hy hgone hyn
    have hstep : E.step g' (y, m) = E.step g (y, m) := by simp only [step, hsame]
    cases hmove : E.step g (y, m) with
    | rest o => exact .rest .zero hmove .zero (hstep.trans hmove)
    | go seen c =>
      exact .step hmove (hstep.trans hmove) ⟨rfl, hnext _ (E.mem_targets_of_step hmove)⟩

end Splice

end Environment

/-! ## The pass -/

namespace FlowGraph

open Environment

variable {g : FlowGraph}

/-- The splice of a chain keeps a graph closed, and executed alike. -/
theorem StillChain.sameSymbolic {g₁ g₂ : FlowGraph} {r : List Nat × List Edge}
    (h : g.StillChain g₁ r) (hg : Graph.Sound g₁) (hclosed : g₁.Closed)
    (hcarried : (g.chainPatch r).Carried g₁ g₂) : g₂.Closed ∧ SameSymbolic g₁ g₂ := by
  obtain ⟨chain, row⟩ := r
  obtain ⟨es, hchain, hreduce⟩ := h
  obtain ⟨hregion, hspliced⟩ := hcarried
  simp only [chainPatch] at hchain hreduce hregion hspliced
  generalize g.chainDest chain = dest at hchain hregion hspliced
  cases hchain with
  | @mk n x e ns es hn hnode hlane _ =>
    have hold : g₁.Row 0 dest n (e :: es) := .cons (Nat.zero_le _) hnode hlane.row
    have hes := hclosed.row hg hold hn
    refine ⟨hspliced.forall_edges hg hregion hclosed ?_, ?_⟩
    · exact Graph.forall_mem_rowOf (fun t ht => by cases ht) (passAll_reduceRow hes hreduce).1
    · refine sameSymbolic_of_spliced hspliced hg hregion hold fun E m => ?_
      rw [E.passAll_rowOf]
      exact (passAll_reduceRow hes hreduce).2 E m

/-- On a graph that was accepted and whose templates are closed, merging along chains succeeds and
does not change how the graph is executed on expressions, unless a counter is at the end of its
range.  It is not while the spans of the templates are together within the range. -/
theorem sameSymbolic_mergeChains {nodes : Array (Node Edge)} {source : Nat}
    (ho : Graph.ofNodes nodes source = .ok g) (hclosed : g.Closed) (iteration : Nat) :
    (g.span < counterBound →
      (Pass.mergeChains.run iteration g).changed ≠ .error .counterOverflow) ∧
    ((Pass.mergeChains.run iteration g).changed ≠ .error .counterOverflow →
      (∃ changed, (Pass.mergeChains.run iteration g).changed = .ok changed) ∧
        SameSymbolic g (Pass.mergeChains.run iteration g).state) := by
  have hg := (Graph.sound_of_ofNodes ho).1
  refine ⟨fun hspan => changed_mergeChains_ne hg hspan iteration, fun hrun => ?_⟩
  rcases merged_cases hg with h | ⟨rs, h, hrs, hapart⟩
  · simp [Pass.mergeChains, h, Outcome.ofEdits, Outcome.failed] at hrun
  · have hstep : ∀ {g₁ : FlowGraph} {r}, Graph.Sound g₁ ∧ g₁.Closed → g.StillChain g₁ r →
        ∃ g₂ : FlowGraph, g₁.spliceChain r.1 r.2 = .ok g₂ ∧ (Graph.Sound g₂ ∧ g₂.Closed) ∧
          (g.chainPatch r).Carried g₁ g₂ ∧ SameSymbolic g₁ g₂ := by
      rintro g₁ r ⟨hg₁, hclosed₁⟩ hv
      obtain ⟨g₂, hsplice, hg₂, hcarried⟩ := hv.splice hg₁
      obtain ⟨hclosed₂, hsame⟩ := hv.sameSymbolic hg₁ hclosed₁ hcarried
      exact ⟨g₂, hsplice, ⟨hg₂, hclosed₂⟩, hcarried, hsame⟩
    obtain ⟨g', happly, -, hsteps, -⟩ := applyAll_eq_ok (p := g.chainPatch) (R := SameSymbolic)
      And.left StillChain.gone_lt_size StillChain.keeps hstep ⟨hg, hclosed⟩ hrs hapart
    obtain ⟨changed, hchanged⟩ := Outcome.ofEdits_eq_of_applyAll happly
    have hresult : Pass.mergeChains.run iteration g = ⟨g', .ok changed⟩ := by
      rw [← hchanged]
      simp [Pass.mergeChains, h]
    rw [hresult]
    refine ⟨⟨changed, rfl⟩, ?_⟩
    clear happly hresult hchanged
    induction hsteps with
    | refl => exact .refl g
    | tail _ hlast ih => exact ih.trans hlast

/-- What lies on the stack less a variable is traced.  Three templates become one, and the same is
traced before and after. -/
theorem sameSymbolic_mergeChains_difference :
    let difference (left right : Expr) : Expr := .binary .subtract left right none
    let traced (e : Expr) : Expr := .call (.identifier "trace") [e] none
    let nodes : Array (Node Edge) := #[.simple ⟨.template (.value (.identifier "y")), 1⟩,
      .simple ⟨.template ⟨2, difference (.input 0) (.input 1), false⟩, 2⟩,
      .simple ⟨.template ⟨1, traced (.input 0), true⟩, 3⟩, .done]
    let g' := (Pass.mergeChains.run 0 (Graph.indexed nodes 0)).state
    let E : Environment Unit := ⟨fun _ m => m, fun _ m => (true, m)⟩
    let m : Symbolic Unit := ⟨fun _ => .identifier "x", ()⟩
    Graph.ofNodes nodes 0 = .ok (Graph.indexed nodes 0) ∧
      FlowGraph.Closed (Graph.indexed nodes 0) ∧ FlowGraph.span (Graph.indexed nodes 0) = 3 ∧
      (Pass.mergeChains.run 0 (Graph.indexed nodes 0)).changed = .ok true ∧
      SameSymbolic (Graph.indexed nodes 0) g' ∧
      ∃ m', (E.step g').Ends (g'.source, m)
        [.emitted (traced (difference (.identifier "x") (.identifier "y")))] (.ended m') := by
  intro difference traced nodes g' E m
  have ho : Graph.ofNodes nodes 0 = .ok (Graph.indexed nodes 0) := by cbv
  have hclosed : FlowGraph.Closed (Graph.indexed nodes 0) := by
    intro n node l hn hnode hl t ht i hi
    have hlt : n < 4 := hn.lt_size
    interval_cases n <;> cases hnode
    · cases List.mem_singleton.1 hl
      cases ht
      simp [Template.value, Expr.identifier, Expr.inputs] at hi
    · cases List.mem_singleton.1 hl
      cases ht
      have hi' : i = 0 ∨ i = 1 := by simpa [difference, Expr.inputs] using hi
      rcases hi' with rfl | rfl <;> decide
    · cases List.mem_singleton.1 hl
      cases ht
      obtain rfl : i = 0 := by
        simpa [traced, Expr.identifier, Expr.inputs, Expr.inputsAll] using hi
      decide
    · cases hl
  have hmerged : (Pass.mergeChains.run 0 (Graph.indexed nodes 0)).changed = .ok true := by cbv
  have hspan : FlowGraph.span (Graph.indexed nodes 0) = 3 := by cbv
  obtain ⟨hroom, hmerges⟩ := sameSymbolic_mergeChains ho hclosed 0
  have hsame := (hmerges (hroom (by rw [hspan]; decide))).2
  have hgo : ∃ m', (E.step (Graph.indexed nodes 0)).Goes 3 (0, m)
      ([] ++ ([] ++ ([.emitted (traced (difference (.identifier "x") (.identifier "y")))] ++ [])))
      (3, m') :=
    ⟨_, .succ rfl (.succ rfl (.succ rfl .zero))⟩
  obtain ⟨m', hgo⟩ := hgo
  exact ⟨ho, hclosed, hspan, hmerged, hsame, m',
    ((hsame Unit E m).ends _ _).1 ⟨3, _, hgo, rfl⟩⟩

end FlowGraph

end ScriptRecovery
