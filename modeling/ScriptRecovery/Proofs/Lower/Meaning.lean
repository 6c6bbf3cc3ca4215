import ScriptRecovery.Proofs.Lower.Statements
import ScriptRecovery.Proofs.Meaning
import ScriptRecovery.Proofs.Semantics.Placeholders

/-!
# What a lowered graph does

A graph is walked from its source to its end (`FlowGraph.Walks`).  On the way an action runs its own
statements, a template is evaluated over the values that it takes off the stack, and a conditional
edge takes its test off the stack and walks one of its graphs.  The script of a graph does the same,
apart from the temporaries that its scope gives out (`FlowGraph.walks_of_toScript`).

The statements of an edge come out of the scope as the edges before it leave it, and the walk knows
nothing of that.  So the two are compared below the temporaries of the first scope, and from any
memories that agree there (`Emission.Renders`).  For an action this is uniformity in the temporaries
together with the fact that it names none from before its scope.  For a template it is that the
temporaries of its values are hidden from its expression.
-/

namespace ScriptRecovery

variable {V σ : Type}

/-! ## Walks -/

/-- What a template does.  The last of the values it takes is the top of the stack. -/
def Interpretation.evaluate (I : Interpretation V σ) (t : Template) (m : Memory V σ) :
    Result V σ :=
  andThen ((I.fed fun i => I.peek m.stack (t.inputs - 1 - i)).exec t.expr.rose
    { m with stack := m.stack.drop t.inputs }) fun a m =>
      (.done (), if t.void then m else m.push (a.valueD I.undefined))

/-- What it does to pass an edge that holds no graphs, with temporaries of a scope for the
statements of actions. -/
def Interpretation.cross? (I : Interpretation V σ) (s : Scope) (m : Memory V σ) :
    Edge → Option (Result V σ)
  | .action a => (a.emit s).statements.toOption.map fun body => I.play body m
  | .template t => some (I.evaluate t m)
  | .conditional .. => none
  | .plain | .ifTrue | .ifFalse | .ifTest | .marker _ | .sub => some (.done (), m)

/-- What it does to walk a graph from a node on.  The walk goes on behind an edge unless the run has
ended there. -/
inductive FlowGraph.Walks (I : Interpretation V σ) (s : Scope) :
    FlowGraph → Nat → Memory V σ → Result V σ → Prop
  | ended {g : FlowGraph} {n : Nat} {m : Memory V σ} : g.node? n = some .done →
      Walks I s g n m (.done (), m)
  | simple {g : FlowGraph} {n : Nat} {l : Link Edge} {m : Memory V σ} {r₁ r : Result V σ} :
      g.node? n = some (.simple l) → I.cross? s m l.edge = some r₁ →
      (∀ m', r₁ = (.done (), m') → Walks I s g l.dest m' r) → (r₁.1 ≠ .done () → r = r₁) →
      Walks I s g n m r
  | conditional {g t f arm : FlowGraph} {n d : Nat} {m : Memory V σ} {r₁ r : Result V σ} :
      g.node? n = some (.simple ⟨.conditional t f, d⟩) →
      arm = (if I.holds (I.peek m.stack 0) then t else f) → Walks I s arm arm.source m.pop r₁ →
      (∀ m', r₁ = (.done (), m') → Walks I s g d m' r) → (r₁.1 ≠ .done () → r = r₁) →
      Walks I s g n m r

variable {I : Interpretation V σ} {s : Scope}

/-- Two results behind a run are the same if they are where the run goes on. -/
theorem Result.eq_behind {r₁ r r' : Result V σ} {next : Memory V σ → Result V σ → Prop}
    (hon : ∀ m, r₁ = (.done (), m) → ∀ {r'}, next m r' → r = r')
    (hend : r₁.1 ≠ .done () → r = r₁) (hon' : ∀ m, r₁ = (.done (), m) → next m r')
    (hend' : r₁.1 ≠ .done () → r' = r₁) : r = r' := by
  obtain ⟨e, m⟩ := r₁
  cases e with
  | done => exact hon m rfl (hon' m rfl)
  | returned v => rw [hend nofun, hend' nofun]
  | raised v => rw [hend nofun, hend' nofun]

/-- A graph is walked in one way. -/
theorem FlowGraph.Walks.unique {g : FlowGraph} {n : Nat} {m : Memory V σ} {r r' : Result V σ}
    (h : g.Walks I s n m r) (h' : g.Walks I s n m r') : r = r' := by
  induction h generalizing r' with
  | ended hn =>
    cases h' with
    | ended => rfl
    | simple hn' => cases hn.symm.trans hn'
    | conditional hn' => cases hn.symm.trans hn'
  | simple hn hcross _ hend ih =>
    cases h' with
    | ended hn' => cases hn.symm.trans hn'
    | simple hn' hcross' hon' hend' =>
      cases hn.symm.trans hn'
      cases hcross.symm.trans hcross'
      exact Result.eq_behind (fun m' hm' => ih m' hm') hend hon' hend'
    | conditional hn' =>
      cases hn.symm.trans hn'
      cases hcross
  | conditional hn harm _ _ hend iharm ih =>
    cases h' with
    | ended hn' => cases hn.symm.trans hn'
    | simple hn' hcross' =>
      cases hn.symm.trans hn'
      cases hcross'
    | conditional hn' harm' hwalk' hon' hend' =>
      cases hn.symm.trans hn'
      subst harm harm'
      cases iharm hwalk'
      exact Result.eq_behind (fun m' hm' => ih m' hm') hend hon' hend'

/-! ## Memories that agree below a temporary -/

/-- Whether two memories are the same but for the temporaries from one on. -/
structure Memory.AgreesBelow (k : Nat) (m m' : Memory V σ) : Prop where
  core : m.core = m'.core
  temporaries : ∀ id < k, m.temporaries id = m'.temporaries id

/-- Whether two runs end in the same way, with memories that are the same but for the temporaries
from one on. -/
structure SameBelow (k : Nat) (r r' : Result V σ) : Prop where
  ending : r.1 = r'.1
  memory : r.2.AgreesBelow k r'.2

namespace Memory

variable {k : Nat} {m m' : Memory V σ}

theorem AgreesBelow.refl (m : Memory V σ) : m.AgreesBelow k m := ⟨rfl, fun _ _ => rfl⟩

theorem AgreesBelow.pop (h : m.AgreesBelow k m') : m.pop.AgreesBelow k m'.pop :=
  ⟨congrArg Core.pop h.core, h.temporaries⟩

theorem AgreesBelow.bind (h : m.AgreesBelow k m') {id : Nat} (hid : k ≤ id) (v : V) :
    m.AgreesBelow k (m'.bind id v) :=
  ⟨h.core, fun x hx => (h.temporaries x hx).trans
    (Function.update_of_ne (Nat.ne_of_lt (Nat.lt_of_lt_of_le hx hid)) _ _).symm⟩

theorem Beside.agreesBelow {held : Nat → V} (h : m.Beside (k ≤ ·) held m') :
    m.AgreesBelow k m' :=
  ⟨by rw [core, core, h.stack, h.agrees.pool, h.agrees.state],
    fun id hid => h.agrees.temporaries id (Nat.not_le.2 hid)⟩

end Memory

theorem Parallel.sameBelow {k : Nat} {held : Nat → V} {known : Unit → Prop} {r r' : Result V σ}
    (h : Parallel (k ≤ ·) held known r r') : SameBelow k r r' := ⟨h.ending, h.memory.agreesBelow⟩

/-! ## Templates -/

/-- Whether a template mentions no placeholder beyond the values it takes, and no temporary from one
on. -/
structure Template.Confined (k : Nat) (t : Template) : Prop where
  closed : t.Closed
  temporaries : ∀ id ∈ t.expr.rose.temporaries, id < k

namespace Interpretation

variable {k first : Nat} {m m' : Memory V σ}

theorem play_say {t : Template} : I.play [t.say first] m =
    andThen (I.exec (t.exprFrom first).rose m) fun a m =>
      (.done (), if t.void then m else m.push (a.valueD I.undefined)) := by
  have hsay : (t.say first).rose =
      .node ⟨if t.void then .expression else .push, none⟩ [(t.exprFrom first).rose] := by
    rw [Template.say]
    split <;> rfl
  rw [play_cons, hsay, exec_sequential I (by cases t.void <;> rfl) (by cases t.void <;> simp),
    execRow]
  rcases I.exec (t.exprFrom first).rose m with ⟨e, m'⟩
  cases t.void <;> cases e <;> rfl

/-- The statements of a template do what the template does. -/
theorem evaluate_sameBelow {t : Template} (ht : t.Confined k) (hk : k ≤ first)
    (hm : m.AgreesBelow k m') :
    SameBelow k (I.evaluate t m) (I.play (t.recipe.body first) m') := by
  have hexpr : t.exprFrom first =
      t.expr.substitute fun i => some (.temporary (first + (t.inputs - 1 - i))) :=
    t.expr.substitute_congr fun i hi => by rw [Expr.put, Expr.put, if_pos (ht.closed i hi)]
  -- what the pops have changed are temporaries that the expression does not name
  have hbeside : Memory.Beside (k ≤ ·) (I.taken m' t.inputs first).temporaries
      { m with stack := m.stack.drop t.inputs } (I.taken m' t.inputs first) := by
    obtain ⟨stack, pool, state, temporaries⟩ := m
    obtain ⟨stack', pool', state', temporaries'⟩ := m'
    obtain ⟨hcore, htemporaries⟩ := hm
    cases hcore
    refine ⟨⟨rfl, rfl, fun id hid => ?_⟩, rfl, fun _ _ => rfl⟩
    rw [htemporaries id (Nat.not_le.1 hid)]
    exact (if_neg (by omega)).symm
  have hexec : Parallel (k ≤ ·) (I.taken m' t.inputs first).temporaries (Answer.Known (k ≤ ·))
      ((I.fed fun i => I.peek m.stack (t.inputs - 1 - i)).exec t.expr.rose
        { m with stack := m.stack.drop t.inputs })
      (I.exec (t.exprFrom first).rose (I.taken m' t.inputs first)) := by
    rw [hexpr]
    refine exec_filled (fun i hi => ⟨Nat.le_add_right_of_le hk, ?_⟩)
      (fun id hid => Nat.not_le.2 (ht.temporaries id hid)) hbeside
    have hlt := ht.closed i hi
    have hstack : m.stack = m'.stack := congrArg Core.stack hm.core
    rw [hstack]
    simp only [taken]
    rw [if_pos (by omega), Nat.add_sub_cancel_left]
  have hsame : Parallel (k ≤ ·) (I.taken m' t.inputs first).temporaries (fun _ => True)
      (I.evaluate t m) (I.play (t.recipe.body first) m') := by
    change Parallel _ _ _ _ (I.play (Stmt.pops t.inputs first ++ [t.say first]) m')
    rw [play_pops, play_say]
    refine hexec.andThen fun {a _ _} _ hm => ?_
    cases t.void with
    | true => exact hm.done trivial
    | false => exact (hm.push _).done trivial
  exact hsame.sameBelow

/-! ## Actions -/

/-- Statements leave the temporaries alone that were given out before them. -/
theorem temporaries_play {body : List Stmt} {next id : Nat} (h : Stmt.Emitted first next body)
    (hid : id < first) : (I.play body m).2.temporaries id = m.temporaries id := by
  refine @temporaries_execRow _ _ (· < first) _ _ _ (fun form hform i hi => ?_)
    (fun form hform x hx => Nat.not_lt.2 (h.temporary form hform x hx).1) _ hid
  have hlowered := h.lowered form hform
  rw [hi] at hlowered
  exact hlowered

/-- The statements of an action do the same with any temporaries, apart from these. -/
theorem play_sameBelow {a : Action} {r : Recipe} (h : a.recipe? = some r) {first' : Nat}
    (hk : k ≤ first) (hk' : k ≤ first') (hm : m.AgreesBelow k m') :
    SameBelow k (I.play (r.body first) m) (I.play (r.body first') m') := by
  have heffect : (I.play (r.body first) m).effect = (I.play (r.body first') m').effect :=
    Option.some.inj ((act_play h first m).symm.trans (hm.core ▸ act_play h first' m'))
  obtain ⟨hending, hcore⟩ := Prod.mk.inj heffect
  refine ⟨hending, hcore, fun id hid => ?_⟩
  rw [temporaries_play (a.emitted_recipe h first) (Nat.lt_of_lt_of_le hid hk),
    temporaries_play (a.emitted_recipe h first') (Nat.lt_of_lt_of_le hid hk'),
    hm.temporaries id hid]

end Interpretation

/-! ## Edges -/

/-- Whether the templates of an edge, and of the paths through its graphs, are confined. -/
inductive Edge.Confined (k : Nat) : Edge → Prop
  | template {t : Template} : t.Confined k → Confined k (.template t)
  | conditional {t f : FlowGraph} : (∀ e ∈ (Graph.path t).1, Confined k e) →
      (∀ e ∈ (Graph.path f).1, Confined k e) → Confined k (.conditional t f)
  | other {e : Edge} : e.template? = none → (∀ t f, e ≠ .conditional t f) → Confined k e

theorem Edge.Confined.action {k : Nat} {a : Action} : Edge.Confined k (.action a) :=
  .other rfl nofun

theorem Edge.Confined.sub {k : Nat} : Edge.Confined k .sub := .other rfl nofun

/-- What it does to pass an edge. -/
def Edge.Crosses (I : Interpretation V σ) (s : Scope) (m : Memory V σ) (r : Result V σ) :
    Edge → Prop
  | .conditional t f =>
      let g : FlowGraph := if I.holds (I.peek m.stack 0) then t else f
      g.Walks I s g.source m.pop r
  | e => I.cross? s m e = some r

/-- A walk passes an edge and goes on behind it. -/
theorem FlowGraph.Walks.behind {g : FlowGraph} {n : Nat} {l : Link Edge} {m : Memory V σ}
    {r₁ r : Result V σ} (hn : g.node? n = some (.simple l)) (hl : l.edge.Crosses I s m r₁)
    (hon : ∀ m', r₁ = (.done (), m') → g.Walks I s l.dest m' r)
    (hend : r₁.1 ≠ .done () → r = r₁) : g.Walks I s n m r := by
  obtain ⟨e, d⟩ := l
  cases e with
  | conditional t f => exact .conditional hn rfl hl hon hend
  | _ => exact .simple hn hl hon hend

/-! ## Emissions -/

namespace Scope

variable {s' : Scope} {count : Nat}

theorem fits_of_le (hs : s.next ≤ s'.next) (h : s'.fits count = true) : s.fits count = true := by
  simp only [fits, decide_eq_true_eq] at h ⊢
  omega

theorem le_advance : s.next ≤ (s.advance count).next := Nat.le_add_right _ _

end Scope

/-- A recipe is said where its temporaries can be given out. -/
theorem Recipe.statements_emit {r : Recipe} {body : List Stmt} :
    (r.emit s).statements = .ok body ↔ s.fits r.temporaries = true ∧ r.body s.next = body := by
  unfold Recipe.emit
  split
  · next h => simp [Emission.of, h]
  · next h => simp [Emission.refused, h]

theorem Recipe.le_emit {r : Recipe} : s.next ≤ (r.emit s).scope.next := by
  unfold Recipe.emit
  split
  · exact Scope.le_advance
  · exact Nat.le_refl _

namespace Emission

/-- Code behind other code starts in the scope that this leaves. -/
theorem scope_followedBy {e : Emission} {more : Scope → Emission} {body : List Stmt}
    (h : e.statements = .ok body) : (e.followedBy more).scope = (more e.scope).scope := by
  rw [followedBy, h]

/-- A choice is said when both its arms are, the second one in the scope that the first leaves. -/
theorem choice_cases {truthy falsy : Scope → Emission} {body : List Stmt}
    (h : (choice truthy falsy s).statements = .ok body) :
    ∃ onTrue onFalse, (truthy (s.advance 1)).statements = .ok onTrue ∧
      (falsy (truthy (s.advance 1)).scope).statements = .ok onFalse ∧
      body = [.popInto s.next, .choice s.next onTrue onFalse] ∧
      (choice truthy falsy s).scope = (falsy (truthy (s.advance 1)).scope).scope := by
  unfold choice at h ⊢
  cases hfits : s.fits 1 with
  | false =>
    simp only [Scope.fresh, hfits, Bool.false_eq_true, if_false] at h
    cases h
  | true =>
    simp only [Scope.fresh, hfits, if_true] at h ⊢
    rcases htrue : truthy (s.advance 1) with ⟨fault | onTrue, s₁⟩
    · rw [htrue] at h
      cases h
    rcases hfalse : falsy s₁ with ⟨fault | onFalse, s₂⟩
    · simp only [htrue, hfalse] at h
      cases h
    · simp only [htrue, hfalse] at h ⊢
      exact ⟨onTrue, onFalse, rfl, rfl, (Except.ok.inj h).symm, rfl⟩

/-- Whether code in any later scope does what is to be done, apart from the temporaries from the
first scope on. -/
def Renders (I : Interpretation V σ) (s : Scope) (emit : Scope → Emission)
    (does : Memory V σ → Result V σ → Prop) : Prop :=
  ∀ {s' : Scope} {body : List Stmt}, s.next ≤ s'.next → (emit s').statements = .ok body →
    s.next ≤ (emit s').scope.next ∧ ∀ {m m' : Memory V σ}, m.AgreesBelow s.next m' →
      ∃ r, does m r ∧ SameBelow s.next r (I.play body m')

theorem renders_action {a : Action} :
    Renders I s (Edge.action a).emit fun m r => (Edge.action a).Crosses I s m r := by
  intro s' body hs h
  rw [Edge.emit] at h ⊢
  obtain ⟨r, hr, -⟩ := Action.emit_eq_ok h
  have hemit : ∀ s : Scope, a.emit s = r.emit s := fun s => by rw [Action.emit, hr]
  rw [hemit, Recipe.statements_emit] at h
  obtain ⟨hfits, rfl⟩ := h
  refine ⟨hemit s' ▸ Nat.le_trans hs Recipe.le_emit, fun {m m'} hm => ?_⟩
  refine ⟨I.play (r.body s.next) m, ?_, Interpretation.play_sameBelow hr (Nat.le_refl _) hs hm⟩
  have hsaid : (a.emit s).statements = .ok (r.body s.next) := by
    rw [hemit, Recipe.statements_emit]
    exact ⟨Scope.fits_of_le hs hfits, rfl⟩
  simp only [Edge.Crosses, Interpretation.cross?, hsaid]
  rfl

theorem renders_template {t : Template} (ht : t.Confined s.next) :
    Renders I s (Edge.template t).emit fun m r => (Edge.template t).Crosses I s m r := by
  intro s' body hs h
  rw [Edge.emit, Template.emit] at h ⊢
  split at h
  · rw [Recipe.statements_emit] at h
    obtain ⟨-, rfl⟩ := h
    refine ⟨?_, fun {m m'} hm => ⟨I.evaluate t m, rfl, Interpretation.evaluate_sameBelow ht hs hm⟩⟩
    rw [if_pos (by assumption)]
    exact Nat.le_trans hs Recipe.le_emit
  · cases h

theorem renders_row {g : FlowGraph} {d n : Nat} {es : List Edge} (hrow : g.Row 0 d n es)
    (hd : g.node? d = some .done)
    (h : ∀ e ∈ es, Renders I s e.emit fun m r => e.Crosses I s m r) :
    Renders I s (row Edge.emit es) fun m r => g.Walks I s n m r := by
  induction hrow with
  | nil =>
    intro s' body hs hbody
    cases hbody
    exact ⟨hs, fun {m m'} hm => ⟨(.done (), m), .ended hd, rfl, hm⟩⟩
  | cons _ hn _ ih =>
    intro s' body hs hbody
    obtain ⟨first, rest, hfirst, hrest, rfl⟩ := followedBy_eq_ok hbody
    obtain ⟨hs₁, hfirst'⟩ := h _ (by simp) hs hfirst
    obtain ⟨hs₂, hrest'⟩ := ih (fun e he => h e (by simp [he])) hs₁ hrest
    refine ⟨by rw [row, scope_followedBy hfirst]; exact hs₂, fun {m m'} hm => ?_⟩
    obtain ⟨⟨e, m₁⟩, hcross, hsame⟩ := hfirst' hm
    rw [Interpretation.play_append]
    rcases hplay : I.play first m' with ⟨e', m₁'⟩
    rw [hplay] at hsame
    obtain ⟨rfl, hm₁⟩ := hsame
    cases e with
    | done =>
      obtain ⟨r, hwalk, hr⟩ := hrest' hm₁
      refine ⟨r, .behind hn hcross (fun m hm => ?_) (absurd rfl), hr⟩
      cases hm
      exact hwalk
    | returned v => exact ⟨_, .behind hn hcross (fun _ h => by cases h) fun _ => rfl, rfl, hm₁⟩
    | raised v => exact ⟨_, .behind hn hcross (fun _ h => by cases h) fun _ => rfl, rfl, hm₁⟩

theorem renders_graph {g : FlowGraph}
    (h : ∀ e ∈ (Graph.path g).1, Renders I s e.emit fun m r => e.Crosses I s m r) :
    Renders I s (FlowGraph.emit g) fun m r => g.Walks I s g.source m r := by
  intro s' body hs hbody
  obtain ⟨hdone, hrow⟩ := FlowGraph.path_of_emit hbody
  obtain ⟨d, hpath, hd⟩ := Graph.row_of_walk hdone
  obtain ⟨hs', hwalk⟩ := renders_row hpath hd h hs hrow
  refine ⟨?_, hwalk⟩
  rw [FlowGraph.emit_eq, scope_followedBy hrow, hdone]
  exact hs'

theorem renders_conditional {t f : FlowGraph}
    (ht : Renders I s (FlowGraph.emit t) fun m r => t.Walks I s t.source m r)
    (hf : Renders I s (FlowGraph.emit f) fun m r => f.Walks I s f.source m r) :
    Renders I s (Edge.conditional t f).emit fun m r => (Edge.conditional t f).Crosses I s m r := by
  intro s' body hs h
  rw [Edge.emit] at h ⊢
  obtain ⟨onTrue, onFalse, htrue, hfalse, rfl, hscope⟩ := choice_cases h
  obtain ⟨hs₁, htrue'⟩ := ht (Nat.le_trans hs Scope.le_advance) htrue
  obtain ⟨hs₂, hfalse'⟩ := hf hs₁ hfalse
  refine ⟨hscope ▸ hs₂, fun {m m'} hm => ?_⟩
  have hstack : m.stack = m'.stack := congrArg Core.stack hm.core
  -- the test is kept in a temporary of the later scope, so the memories still agree
  have hm' := hm.pop.bind hs (I.peek m'.stack 0)
  rw [Interpretation.play_choice]
  simp only [Edge.Crosses, hstack]
  cases I.holds (I.peek m'.stack 0) with
  | true => exact htrue' hm'
  | false => exact hfalse' hm'

/-- The statements of a confined edge do what it does to pass the edge. -/
theorem renders_edge {e : Edge} (he : e.Confined s.next) :
    Renders I s e.emit fun m r => e.Crosses I s m r := by
  induction he with
  | template ht => exact renders_template ht
  | conditional _ _ ih ih' => exact renders_conditional (renders_graph ih) (renders_graph ih')
  | @other e htemplate hconditional =>
    cases e with
    | action a => exact renders_action
    | template t => cases htemplate
    | conditional t f => exact absurd rfl (hconditional t f)
    | _ =>
      intro s' body hs h
      rw [Edge.emit] at h ⊢
      cases h
      exact ⟨hs, fun {m m'} hm => ⟨(.done (), m), rfl, rfl, hm⟩⟩

end Emission

/-! ## Graphs -/

namespace FlowGraph

/-- Whether the templates on the path through a graph, and on those through the graphs of its
conditional edges, mention no placeholder beyond the values they take and no temporary from one
on. -/
def Confined (k : Nat) (g : FlowGraph) : Prop := ∀ e ∈ (Graph.path g).1, e.Confined k

theorem Confined.linear {k : Nat} {es : List Edge} (h : ∀ e ∈ es, e.Confined k) :
    FlowGraph.Confined k (.linear es) := by
  rw [Confined, Graph.path_linear]
  cases es with
  | nil =>
    intro e he
    obtain rfl : e = .plain := List.mem_singleton.1 he
    exact .other rfl nofun
  | cons e es => exact h

/-- The script of a graph does what walking the graph does, under every meaning of the operations
and from every memory, apart from the temporaries that the scope gives out.  A graph with a script
can be walked. -/
theorem walks_of_toScript {g : FlowGraph} {script : Script} (h : g.toScript s = .ok script)
    (hg : g.Confined s.next) (I : Interpretation V σ) (m : Memory V σ) :
    (∃ r, g.Walks I s g.source m r) ∧ ∀ r, g.Walks I s g.source m r →
      SameBelow s.next r ((I.run script m).1.map fun _ => (), (I.run script m).2) := by
  obtain ⟨body, hbody, rfl⟩ : ∃ body, (FlowGraph.emit g s).statements = .ok body ∧
      ({ body } : Script) = script := by
    rw [toScript] at h
    cases hbody : (FlowGraph.emit g s).statements with
    | error fault =>
      rw [hbody] at h
      cases h
    | ok body =>
      rw [hbody] at h
      exact ⟨body, rfl, Except.ok.inj h⟩
  obtain ⟨-, hwalk⟩ := Emission.renders_graph (I := I)
    (fun e he => Emission.renders_edge (hg e he)) (Nat.le_refl _) hbody
  obtain ⟨r, hr, hsame⟩ := hwalk (.refl m)
  refine ⟨⟨r, hr⟩, fun r' hr' => ?_⟩
  obtain ⟨hending, hmemory⟩ := Interpretation.run_eq_play (I := I) (s := { body }) (m := m)
  rw [hr'.unique hr, hending, hmemory]
  exact hsame

/-- A test within a test, with a template that uses its value twice and one that leaves a value out
and reads a temporary.  The arms leave different stacks. -/
theorem walks_of_toScript_nested :
    let square : Template := ⟨1, .binary .multiply (.input 0) (.input 0) none, false⟩
    let second : Template := ⟨2, .binary .subtract (.input 0) (.temporary 3) none, false⟩
    let inner : FlowGraph := .linear [.template second, .sub]
    let g : FlowGraph := .linear [.template square, .conditional
      (.linear [.conditional inner (.linear []), .action .trace]) (.linear [.action .pop]),
      .action .ret]
    ∃ script, g.toScript ⟨4⟩ = .ok script ∧ g.Confined 4 ∧
      ∀ (I : Interpretation Nat (List Nat)) (m : Memory Nat (List Nat)),
        (∃ r, g.Walks I ⟨4⟩ g.source m r) ∧ ∀ r, g.Walks I ⟨4⟩ g.source m r →
          SameBelow 4 r ((I.run script m).1.map fun _ => (), (I.run script m).2) := by
  intro square second inner g
  obtain ⟨script, h⟩ : ∃ script, g.toScript ⟨4⟩ = .ok script := ⟨_, by cbv⟩
  have hsquare : square.Confined 4 := ⟨by unfold Template.Closed; decide, by decide⟩
  have hsecond : second.Confined 4 := ⟨by unfold Template.Closed; decide, by decide⟩
  have hinner : inner.Confined 4 := .linear (by
    simpa using ⟨.template hsecond, .sub⟩)
  have hempty : FlowGraph.Confined 4 (.linear []) := .linear (List.forall_mem_nil _)
  have htrue : FlowGraph.Confined 4
      (.linear [.conditional inner (.linear []), .action .trace]) := .linear (by
    simpa using ⟨.conditional hinner hempty, .action⟩)
  have hfalse : FlowGraph.Confined 4 (.linear [.action .pop]) := .linear (by
    simpa using Edge.Confined.action)
  have hg : g.Confined 4 := .linear (by
    simpa using ⟨.template hsquare, .conditional htrue hfalse, .action⟩)
  exact ⟨script, h, hg, fun I m => walks_of_toScript h hg I m⟩

end FlowGraph

end ScriptRecovery
