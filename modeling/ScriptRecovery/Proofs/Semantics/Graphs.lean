import ScriptRecovery.Proofs.Lower.Emission
import ScriptRecovery.Proofs.Semantics.Templates

/-!
# Runs of graphs

A graph is run from a node on, with a row of edges to pass before it is there (`FlowGraph.Runs`).
The row is what makes runs easy to compare: an edge of a node is put on the row when the node is
left, and a conditional edge puts the row of one of its arms there.  So passing a row at once and
passing it node by node are the same (`runs_snoc`).

When a regular graph is said in statements, they do what a run of the graph does (`Regular.runs`).
-/

namespace ScriptRecovery

variable {V σ : Type}

/-- What an edge does that holds no graphs, if it is of the sorts that are run. -/
def Interpretation.pass? (I : Interpretation V σ) : Edge → Core V σ → Option (Effect V σ)
  | .plain, c | .ifTrue, c | .ifFalse, c | .ifTest, c => some (.done (), c)
  | .action a, c => I.act a c
  | .template t, c => some (.done (), I.apply t c)
  | .conditional .., _ | .marker _, _ | .sub, _ => none

namespace FlowGraph

/-- The runs of a graph that pass a row of edges and go on at a node, with how they end. -/
inductive Runs (I : Interpretation V σ) (g : FlowGraph) :
    List Edge → Nat → Core V σ → Effect V σ → Prop
  | ended {n : Nat} {c : Core V σ} : g.node? n = some .done → Runs I g [] n c (.done (), c)
  | simple {n : Nat} {l : Link Edge} {c : Core V σ} {r : Effect V σ} :
      g.node? n = some (.simple l) → Runs I g [l.edge] l.dest c r → Runs I g [] n c r
  | branch {n : Nat} {a b l : Link Edge} {c : Core V σ} {r : Effect V σ} :
      g.node? n = some (.branch a b) → l = (if I.holds (I.peek c.stack 0) then a else b) →
      Runs I g [l.edge] l.dest c.pop r → Runs I g [] n c r
  | pass {e : Edge} {es : List Edge} {n : Nat} {c c' : Core V σ} {r : Effect V σ} :
      I.pass? e c = some (.done (), c') → Runs I g es n c' r → Runs I g (e :: es) n c r
  | stop {e : Edge} {es : List Edge} {n : Nat} {c : Core V σ} {r : Effect V σ} :
      I.pass? e c = some r → r.1 ≠ .done () → Runs I g (e :: es) n c r
  | choose {t f : FlowGraph} {es : List Edge} {n : Nat} {c : Core V σ} {r : Effect V σ} :
      Runs I g ((Graph.path (if I.holds (I.peek c.stack 0) then t else f)).1 ++ es) n c.pop r →
      Runs I g (.conditional t f :: es) n c r

variable {I : Interpretation V σ} {g : FlowGraph} {es es' : List Edge} {n n' : Nat} {c : Core V σ}
  {r : Effect V σ}

/-! ## Rows -/

/-- An edge that does not end the run is passed. -/
theorem Runs.passed {e : Edge} {c' : Core V σ} (h : g.Runs I (e :: es) n c r)
    (he : I.pass? e c = some (.done (), c')) : g.Runs I es n c' r := by
  cases h with
  | pass he' h =>
    cases he.symm.trans he'
    exact h
  | stop he' hne =>
    cases he.symm.trans he'
    exact absurd rfl hne
  | choose _ => cases he

/-- What comes after a row can be replaced. -/
theorem Runs.append (h : g.Runs I (es ++ es') n c r) {es'' : List Edge}
    (hnext : ∀ {c}, g.Runs I es' n c r → g.Runs I es'' n' c r) :
    g.Runs I (es ++ es'') n' c r := by
  generalize hrow : es ++ es' = row at h
  induction h generalizing es with
  | ended hn =>
    obtain ⟨rfl, rfl⟩ := List.append_eq_nil_iff.1 hrow
    exact hnext (.ended hn)
  | simple hn h _ =>
    obtain ⟨rfl, rfl⟩ := List.append_eq_nil_iff.1 hrow
    exact hnext (.simple hn h)
  | branch hn hl h _ =>
    obtain ⟨rfl, rfl⟩ := List.append_eq_nil_iff.1 hrow
    exact hnext (.branch hn hl h)
  | pass he h ih =>
    cases es with
    | nil =>
      obtain rfl : es' = _ := hrow
      exact hnext (.pass he h)
    | cons e es =>
      obtain ⟨rfl, rfl⟩ := List.cons.inj hrow
      exact .pass he (ih hnext rfl)
  | stop he hr =>
    cases es with
    | nil =>
      obtain rfl : es' = _ := hrow
      exact hnext (.stop he hr)
    | cons e es =>
      obtain ⟨rfl, rfl⟩ := List.cons.inj hrow
      exact .stop he hr
  | choose h ih =>
    cases es with
    | nil =>
      obtain rfl : es' = _ := hrow
      exact hnext (.choose h)
    | cons e es =>
      obtain ⟨rfl, rfl⟩ := List.cons.inj hrow
      have hrest := ih hnext (List.append_assoc _ _ _)
      rw [List.append_assoc] at hrest
      exact .choose hrest

/-- Passing a row and then the edge out of a node is the same as passing the row to the node. -/
theorem runs_snoc {e : Edge} {x : Nat} (hn : g.node? n = some (.simple ⟨e, x⟩)) :
    g.Runs I (es ++ [e]) x c r ↔ g.Runs I es n c r := by
  constructor
  · intro h
    have hnode : g.Runs I (es ++ []) n c r := h.append fun h => .simple hn h
    rwa [List.append_nil] at hnode
  · intro h
    rw [← List.append_nil es] at h
    refine h.append fun h => ?_
    cases h with
    | ended hn' => cases hn.symm.trans hn'
    | simple hn' h =>
      cases hn.symm.trans hn'
      exact h
    | branch hn' => cases hn.symm.trans hn'

/-- A row that is laid through a graph is passed at once or node by node. -/
theorem runs_row {low dest : Nat} (h : g.Row low dest n es') :
    g.Runs I (es ++ es') dest c r ↔ g.Runs I es n c r := by
  induction h generalizing es with
  | nil => rw [List.append_nil]
  | cons _ hn _ ih => rw [List.append_cons, ih, runs_snoc hn]

/-! ## Statements -/

/-- Whether statements do what a row of edges does. -/
def Says (I : Interpretation V σ) (g : FlowGraph) (es : List Edge) (body : List Stmt) : Prop :=
  ∀ {post : List Edge} {n : Nat} {m : Memory V σ} {r : Effect V σ},
    (∀ m', I.play body m = (.done (), m') → g.Runs I post n m'.core r) →
    ((I.play body m).1 ≠ .done () → r = (I.play body m).effect) → g.Runs I (es ++ post) n m.core r

theorem says_nil : g.Says I [] [] := fun hnext _ => hnext _ rfl

theorem Says.append {body body' : List Stmt} (h : g.Says I es body) (h' : g.Says I es' body') :
    g.Says I (es ++ es') (body ++ body') := by
  intro post n m r hnext hstop
  rw [Interpretation.play_append] at hnext hstop
  rw [List.append_assoc]
  refine h (fun m' hm' => ?_) fun hne => ?_
  · rw [hm'] at hnext hstop
    exact h' hnext hstop
  · rcases hplay : I.play body m with ⟨x, m'⟩
    rw [hplay] at hne hstop
    cases x with
    | done => exact absurd rfl hne
    | returned v => exact hstop (by simp [Interpretation.andThen])
    | raised v => exact hstop (by simp [Interpretation.andThen])

/-- Statements that do what an edge does that holds no graphs. -/
theorem says_of_pass {e : Edge} {body : List Stmt}
    (h : ∀ m : Memory V σ, I.pass? e m.core = some (I.play body m).effect) :
    g.Says I [e] body := by
  intro post n m r hnext hstop
  have hpass := h m
  rcases hplay : I.play body m with ⟨x, m'⟩
  rw [hplay] at hpass hstop
  cases x with
  | done => exact .pass hpass (hnext m' hplay)
  | returned v =>
    rw [hstop (by simp)]
    exact .stop hpass (by simp [Result.effect])
  | raised v =>
    rw [hstop (by simp)]
    exact .stop hpass (by simp [Result.effect])

end FlowGraph

namespace Interpretation

variable {I : Interpretation V σ}

theorem exec_block {body : List Stmt} {loc : Loc} {m : Memory V σ} :
    I.exec (Stmt.block body loc).rose m = andThen (I.play body m) fun _ m => (.done .off, m) := by
  rw [Stmt.rose, exec_sequential I rfl (by simp), play]
  rcases I.execRow (Stmt.roses body) m with ⟨x, m'⟩
  cases x <;> rfl

/-- A choice takes its test off the stack and then goes on with one of two lists of statements. -/
theorem play_choice {test : Nat} {onTrue onFalse : List Stmt} {m : Memory V σ} :
    I.play [.popInto test, .choice test onTrue onFalse] m =
      I.play (if I.holds (I.peek m.stack 0) then onTrue else onFalse)
        (m.pop.bind test (I.peek m.stack 0)) := by
  have hblock : ∀ (body : List Stmt) (m : Memory V σ),
      andThen (I.exec (Stmt.block body none).rose m) (fun _ m => I.play [] m) = I.play body m := by
    intro body m
    rw [exec_block]
    rcases I.play body m with ⟨x, m'⟩
    cases x <;> rfl
  rw [play_cons, exec_popInto]
  simp only [andThen]
  rw [play_cons]
  have htest : ∀ m : Memory V σ, I.exec (Expr.temporary test).rose m =
      (.done (.value (m.temporaries test)), m) := fun _ => rfl
  have hheld : (m.pop.bind test (I.peek m.stack 0)).temporaries test = I.peek m.stack 0 :=
    Function.update_self ..
  cases onFalse with
  | nil =>
    change andThen (I.exec (.node ⟨.branch, none⟩
      [(Expr.temporary test).rose, (Stmt.block onTrue none).rose]) _) _ = _
    rw [exec_choice I rfl, execChoice, htest]
    simp only [andThen, Answer.valueD, hheld]
    cases I.holds (I.peek m.stack 0) with
    | true => exact hblock onTrue _
    | false => rfl
  | cons s ss =>
    change andThen (I.exec (.node ⟨.branch, none⟩ [(Expr.temporary test).rose,
      (Stmt.block onTrue none).rose, (Stmt.block (s :: ss) none).rose]) _) _ = _
    rw [exec_choice I rfl, execChoice, htest]
    simp only [andThen, Answer.valueD, hheld]
    cases I.holds (I.peek m.stack 0) with
    | true => exact hblock onTrue _
    | false => exact hblock (s :: ss) _

end Interpretation

/-! ## Emissions -/

namespace Emission

variable {s : Scope} {body : List Stmt}

/-- Code in a row is said when both pieces are. -/
theorem followedBy_eq_ok {e : Emission} {more : Scope → Emission}
    (h : (e.followedBy more).statements = .ok body) :
    ∃ first rest, e.statements = .ok first ∧ (more e.scope).statements = .ok rest ∧
      body = first ++ rest := by
  unfold followedBy at h
  cases hfirst : e.statements with
  | error fault =>
    simp only [hfirst] at h
    cases h
  | ok first =>
    simp only [hfirst] at h
    cases hrest : (more e.scope).statements with
    | error fault =>
      rw [hrest] at h
      cases h
    | ok rest =>
      rw [hrest] at h
      exact ⟨first, rest, rfl, rfl, (Except.ok.inj h).symm⟩

/-- A choice is said when both its arms are. -/
theorem choice_eq_ok {truthy falsy : Scope → Emission}
    (h : (choice truthy falsy s).statements = .ok body) :
    ∃ test s₁ s₂ onTrue onFalse, (truthy s₁).statements = .ok onTrue ∧
      (falsy s₂).statements = .ok onFalse ∧
        body = [.popInto test, .choice test onTrue onFalse] := by
  unfold choice at h
  split at h
  · cases h
  · next test s₁ _ =>
    split at h
    · cases h
    · next onTrue s₂ htruthy =>
      split at h
      · cases h
      · next onFalse s₃ hfalsy =>
        exact ⟨test, s₁, s₂, onTrue, onFalse, by rw [htruthy], by rw [hfalsy],
          (Except.ok.inj h).symm⟩

end Emission

theorem Recipe.emit_eq_ok {r : Recipe} {s : Scope} {body : List Stmt}
    (h : (r.emit s).statements = .ok body) : body = r.body s.next := by
  unfold emit at h
  split at h
  · exact (Except.ok.inj h).symm
  · cases h

theorem Action.emit_eq_ok {a : Action} {s : Scope} {body : List Stmt}
    (h : (a.emit s).statements = .ok body) :
    ∃ r, a.recipe? = some r ∧ body = r.body s.next := by
  unfold emit at h
  split at h
  · cases h
  · next r hr => exact ⟨r, hr, Recipe.emit_eq_ok h⟩

namespace FlowGraph

variable {I : Interpretation V σ} {g : FlowGraph}

/-- The statements of edges in a row do what the row does. -/
theorem says_row {es : List Edge} (h : ∀ e ∈ es, ∀ {s body}, (e.emit s).statements = .ok body →
    g.Says I [e] body) {s : Scope} {body : List Stmt}
    (hbody : (Emission.row Edge.emit es s).statements = .ok body) : g.Says I es body := by
  induction es generalizing s body with
  | nil =>
    cases hbody
    exact says_nil
  | cons e es ih =>
    obtain ⟨first, rest, hfirst, hrest, rfl⟩ := Emission.followedBy_eq_ok hbody
    exact Says.append (h e (by simp) hfirst) (ih (fun e he => h e (by simp [he])) hrest)

/-- The statements of a lawful edge do what the edge does. -/
theorem says_edge {e : Edge} (he : e.Lawful I.names.trace) {s : Scope} {body : List Stmt}
    (h : (e.emit s).statements = .ok body) : g.Says I [e] body := by
  induction he generalizing s body with
  | plain | ifTrue | ifFalse | ifTest =>
    rw [Edge.emit] at h
    cases h
    exact says_of_pass (I := I) fun m => rfl
  | action a =>
    rw [Edge.emit] at h
    obtain ⟨r, hr, rfl⟩ := Action.emit_eq_ok h
    exact says_of_pass (I := I) (e := .action a) fun m => Interpretation.act_play hr s.next m
  | @template t ht =>
    rw [Edge.emit, Template.emit] at h
    split at h
    · obtain rfl := Recipe.emit_eq_ok h
      exact says_of_pass (I := I) (e := .template t) fun m =>
        congrArg some (Interpretation.play_recipe ht s.next m).symm
    · cases h
  | @conditional es es' _ _ ih ih' =>
    have harm : ∀ {es : List Edge}, (∀ e ∈ es, ∀ {s body}, (e.emit s).statements = .ok body →
        g.Says I [e] body) → ∀ {s body}, (FlowGraph.emit (.linear es) s).statements = .ok body →
        g.Says I (Graph.path (.linear es : FlowGraph)).1 body := by
      intro es ih s body h
      rw [emit_linear] at h
      obtain ⟨first, rest, hfirst, hrest, rfl⟩ := Emission.followedBy_eq_ok h
      cases hrest
      rw [Graph.path_linear, List.append_nil]
      refine says_row (fun e he => ?_) hfirst
      cases es with
      | nil =>
        obtain rfl : e = .plain := List.mem_singleton.1 he
        intro s body h
        rw [Edge.emit] at h
        cases h
        exact says_of_pass (I := I) fun m => rfl
      | cons _ _ => exact ih e he
    rw [Edge.emit] at h
    obtain ⟨test, s₁, s₂, onTrue, onFalse, htrue, hfalse, rfl⟩ := Emission.choice_eq_ok h
    intro post n m r hnext hstop
    rw [Interpretation.play_choice] at hnext hstop
    refine .choose ?_
    change g.Runs I ((Graph.path (if I.holds (I.peek m.stack 0) then Graph.linear es
      else Graph.linear es')).1 ++ post) n (m.pop.bind test (I.peek m.stack 0)).core r
    cases hholds : I.holds (I.peek m.stack 0) with
    | true =>
      rw [hholds, if_pos rfl] at hnext hstop
      rw [if_pos rfl]
      exact harm ih htrue hnext hstop
    | false =>
      rw [hholds, if_neg (by simp)] at hnext hstop
      rw [if_neg (by simp)]
      exact harm ih' hfalse hnext hstop

end FlowGraph

/-! ## Paths that end -/

namespace Graph

variable {ε : Type} {g : Graph ε}

/-- A path that ends is a row to an end. -/
theorem row_of_walk {marks : Marks} {n : Nat} (h : (g.walk marks n).2 = .done) :
    ∃ d, g.Row 0 d n (g.walk marks n).1 ∧ g.node? d = some .done := by
  fun_induction walk g marks n with
  | case3 marks n _ hn => exact ⟨n, .nil, hn⟩
  | case5 marks n _ out hn rest ih =>
    obtain ⟨d, hrow, hd⟩ := ih h
    exact ⟨d, .cons (Nat.zero_le _) hn hrow, hd⟩
  | case6 => split at h <;> cases h
  | _ => cases h

/-- What a path that ends passes is closed under links, and nothing of it leads back to where the
path starts. -/
theorem closed_of_walk {marks : Marks} {n : Nat} (h : (g.walk marks n).2 = .done) :
    ∃ ns : List Nat, n ∈ ns ∧ (∀ x ∈ ns, marks.isFree x) ∧
      ∀ x ∈ ns, ∀ y ∈ g.targets x, y ∈ ns ∧ y ≠ n := by
  fun_induction walk g marks n with
  | case3 marks n hfree hn =>
    refine ⟨[n], by simp, by simpa using hfree, fun x hx y hy => ?_⟩
    obtain rfl := List.mem_singleton.1 hx
    simp [targets_of_node? (show g.node? x = _ from hn), Node.targets, Node.links] at hy
  | case5 marks n hfree out hn rest ih =>
    obtain ⟨ns, hout, hfrees, hclosed⟩ := ih h
    have hfrees' : ∀ x ∈ ns, marks.isFree x ∧ n ≠ x := fun x hx => by simpa using hfrees x hx
    refine ⟨n :: ns, by simp, fun x hx => ?_, fun x hx y hy => ?_⟩
    · rcases List.mem_cons.1 hx with rfl | hx
      · exact hfree
      · exact (hfrees' x hx).1
    · have hy : y ∈ ns := by
        rcases List.mem_cons.1 hx with rfl | hx
        · rw [targets_of_simple hn, List.mem_singleton] at hy
          exact hy ▸ hout
        · exact (hclosed x hx y hy).1
      exact ⟨List.mem_cons_of_mem _ hy, (hfrees' y hy).2.symm⟩
  | case6 => split at h <;> cases h
  | _ => cases h

/-- Nothing leads back to where a path starts that ends. -/
theorem no_return_of_path (h : g.path.2 = .done) {m : Nat} (hm : g.Reachable m) :
    g.source ∉ g.targets m := by
  obtain ⟨ns, hsource, -, hclosed⟩ := closed_of_walk h
  have hmem : m ∈ ns := hm.mem_of_closed hsource fun x hx y hy _ => (hclosed x hx y hy).1
  exact fun hback => (hclosed m hmem _ hback).2 rfl

end Graph

namespace FlowGraph

variable {I : Interpretation V σ} {g : FlowGraph}

/-- A graph is said in statements when its path ends, and by the edges of the path. -/
theorem path_of_emit {s : Scope} {body : List Stmt}
    (h : (FlowGraph.emit g s).statements = .ok body) : (Graph.path g).2 = .done ∧
      (Emission.row Edge.emit (Graph.path g).1 s).statements = .ok body := by
  rw [emit_eq] at h
  obtain ⟨first, rest, hfirst, hrest, rfl⟩ := Emission.followedBy_eq_ok h
  cases hend : (Graph.path g).2 with
  | done =>
    rw [hend] at hrest
    cases hrest
    exact ⟨rfl, by rw [hfirst, List.append_nil]⟩
  | _ =>
    rw [hend] at hrest
    cases hrest

/-- When a regular graph is said in statements, they do what a run of the graph does. -/
theorem Regular.runs (hg : g.Regular I.names.trace) {s : Scope} {body : List Stmt}
    (h : (FlowGraph.emit g s).statements = .ok body) (m : Memory V σ) :
    g.Runs I [] g.source m.core (I.play body m).effect := by
  obtain ⟨hdone, hbody⟩ := path_of_emit h
  obtain ⟨d, hpath, hend⟩ := Graph.row_of_walk hdone
  have hlawful := @Regular.lawful_walk _ g hg (.none g.size) g.source hg.sound.reachable_source
  have hsays : g.Says I (Graph.path g).1 body :=
    says_row (fun e he _ _ h => says_edge (hlawful e he) h) hbody
  have hruns : g.Runs I ((Graph.path g).1 ++ []) d m.core (I.play body m).effect := by
    refine hsays (fun m' hm' => ?_) fun _ => rfl
    rw [hm']
    exact .ended hend
  rw [List.append_nil] at hruns
  exact (runs_row hpath).1 hruns

end FlowGraph

end ScriptRecovery
