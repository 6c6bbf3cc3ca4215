import ScriptRecovery.Lower.Recipe
import ScriptRecovery.Proofs.Semantics.Evaluation

/-!
# Actions as statements on temporaries

What an action or a template says begins with pops into temporaries, and what it says then reads
them (`Interpretation.play_pops`).  So which temporaries these are, and what the temporaries held
before, makes no difference but to the temporaries.  `Core` is a memory without them, and
`Interpretation.act` is what an action does to it (`Interpretation.act_play`).

No action but a definition touches the constant pool in force (`Interpretation.pool_of_act`).
-/

namespace ScriptRecovery

variable {V σ : Type}

/-- How a run of statements ends, and the memory it leaves. -/
abbrev Result (V σ : Type) := Ending V Unit × Memory V σ

/-- A memory without its temporaries. -/
structure Core (V σ : Type) where
  /-- The operand stack, from the top down. -/
  stack : List V
  /-- The constant pool in force. -/
  pool : List String
  /-- The state that operations change. -/
  state : σ

/-- How a run ends, and what it leaves apart from temporaries. -/
abbrev Effect (V σ : Type) := Ending V Unit × Core V σ

/-- The memory without its temporaries. -/
def Memory.core (m : Memory V σ) : Core V σ := ⟨m.stack, m.pool, m.state⟩

/-- The memory without the top of the stack. -/
def Memory.pop (m : Memory V σ) : Memory V σ := { m with stack := m.stack.tail }

/-- The core without the top of the stack. -/
def Core.pop (c : Core V σ) : Core V σ := { c with stack := c.stack.tail }

/-- The memory with the same temporary everywhere. -/
def Core.filled (c : Core V σ) (v : V) : Memory V σ := ⟨c.stack, c.pool, c.state, fun _ => v⟩

/-- The result apart from temporaries. -/
def Result.effect (r : Result V σ) : Effect V σ := (r.1, r.2.core)

/-- The pops of the topmost values into temporaries from `first` on, the top first. -/
def Stmt.pops (count first : Nat) : List Stmt :=
  (List.range count).map fun i => .popInto (first + i)

/-- The pool in force after an action. -/
def Action.poolAfter (pool : List String) : Action → List String
  | .constantPool pool => pool
  | _ => pool

namespace Interpretation

variable (I : Interpretation V σ) {m : Memory V σ}

/-- The value at a depth of a stack. -/
def peek (stack : List V) (depth : Nat) : V := stack.getD depth I.undefined

/-- The run of statements in a row. -/
def play (body : List Stmt) (m : Memory V σ) : Result V σ :=
  ((I.execRow (Stmt.roses body) m).1.map fun _ => (), (I.execRow (Stmt.roses body) m).2)

theorem play_nil : I.play [] m = (.done (), m) := rfl

theorem play_cons {s : Stmt} {ss : List Stmt} :
    I.play (s :: ss) m = andThen (I.exec s.rose m) fun _ m => I.play ss m := by
  simp only [play, Stmt.roses, execRow]
  rcases I.exec s.rose m with ⟨e, m'⟩
  cases e with
  | done a =>
    simp only [andThen]
    rcases I.execRow (Stmt.roses ss) m' with ⟨e, m''⟩
    cases e <;> rfl
  | returned v => rfl
  | raised v => rfl

theorem andThen_andThen {α β γ : Type} {r : Ending V α × Memory V σ}
    {k : α → Memory V σ → Ending V β × Memory V σ}
    {k' : β → Memory V σ → Ending V γ × Memory V σ} :
    andThen (andThen r k) k' = andThen r fun a m => andThen (k a m) k' := by
  rcases r with ⟨e, m⟩
  cases e <;> rfl

theorem play_append {ss ss' : List Stmt} :
    I.play (ss ++ ss') m = andThen (I.play ss m) fun _ m => I.play ss' m := by
  induction ss generalizing m with
  | nil => rfl
  | cons s ss ih =>
    rw [List.cons_append, play_cons, play_cons, andThen_andThen]
    congr 1
    funext a m
    exact ih

/-! ## Values taken into temporaries -/

/-- The memory after the topmost values are taken into temporaries from `first` on. -/
def taken (m : Memory V σ) (count first : Nat) : Memory V σ :=
  { m with
    stack := m.stack.drop count
    temporaries := fun id =>
      if first ≤ id ∧ id < first + count then I.peek m.stack (id - first) else m.temporaries id }

theorem exec_popInto {id : Nat} :
    I.exec (Stmt.popInto id).rose m = (.done .off, m.pop.bind id (I.peek m.stack 0)) := by
  have hpop : I.execRow [Expr.pop.rose] m = (.done [.value (I.peek m.stack 0)], m.pop) := by
    obtain ⟨stack, pool, state, temporaries⟩ := m
    rw [execRow, Expr.pop, Expr.rose, exec_leaf I rfl (by simp)]
    cases stack <;> rfl
  change I.exec (.node ⟨.expression, none⟩ [.node ⟨.assignment .simple, none⟩
    [.node ⟨.temporaryTarget id, none⟩ [], Expr.pop.rose]]) m = _
  rw [exec_binding, hpop]
  rfl

theorem taken_succ {count first : Nat} :
    (I.taken m count first).pop.bind (first + count) (I.peek (I.taken m count first).stack 0) =
      I.taken m (count + 1) first := by
  have hpeek : I.peek (I.taken m count first).stack 0 = I.peek m.stack count := by
    simp [peek, taken, List.getD_eq_getElem?_getD, List.getElem?_drop]
  rw [hpeek]
  simp only [taken, Memory.pop, Memory.bind, List.tail_drop, Memory.mk.injEq, true_and]
  funext id
  by_cases hid : id = first + count
  · subst hid
    simp
  · rw [Function.update_of_ne hid]
    congr 1
    rw [eq_iff_iff]
    omega

/-- Taking values into temporaries does not fail. -/
theorem play_pops {count first : Nat} {rest : List Stmt} :
    I.play (Stmt.pops count first ++ rest) m = I.play rest (I.taken m count first) := by
  unfold Stmt.pops
  induction count generalizing rest with
  | zero =>
    have hnone : I.taken m 0 first = m := by
      simp only [taken, List.drop_zero]
      congr 1
      funext id
      exact if_neg (by omega)
    rw [hnone]
    rfl
  | succ count ih =>
    rw [List.range_succ, List.map_append, List.append_assoc, ih]
    simp only [List.map_cons, List.map_nil, List.singleton_append]
    rw [play_cons, exec_popInto, ← taken_succ]
    rfl

/-! ## Actions -/

variable {m' : Memory V σ}

/-- Whether it makes no difference which temporaries hold the values that statements begin with,
and the statements leave a pool that is known. -/
def Uniform (count : Nat) (say : (Nat → Nat) → List Stmt) (pool : List String → List String) :
    Prop :=
  ∀ {slot slot' : Nat → Nat} {m m' : Memory V σ}, m.core = m'.core →
    (∀ i < count, m.temporaries (slot i) = m'.temporaries (slot' i)) →
    (I.play (say slot) m).effect = (I.play (say slot') m').effect ∧
      (I.play (say slot) m).2.pool = pool m.pool

variable {I}

theorem Uniform.pops {count : Nat} {say : (Nat → Nat) → List Stmt}
    {pool : List String → List String} (h : I.Uniform count say pool) (hm : m.core = m'.core)
    (first first' : Nat) :
    (I.play (Stmt.pops count first ++ say (first + ·)) m).effect =
        (I.play (Stmt.pops count first' ++ say (first' + ·)) m').effect ∧
      (I.play (Stmt.pops count first ++ say (first + ·)) m).2.pool = pool m.pool := by
  rw [play_pops, play_pops]
  obtain ⟨stack, p, state, temporaries⟩ := m
  obtain ⟨stack', p', state', temporaries'⟩ := m'
  cases hm
  refine h rfl fun i hi => ?_
  simp [taken, hi]

/-- Values that are pushed are of no temporaries. -/
theorem uniform_push (values : List Operand) :
    I.Uniform 0 (fun _ => values.map fun v => .pushing v.toExpr) id := by
  intro slot slot' m m' hm _
  induction values generalizing m m' with
  | nil => exact ⟨congrArg (Prod.mk _) hm, rfl⟩
  | cons v values ih =>
    obtain ⟨stack, p, state, temporaries⟩ := m
    obtain ⟨stack', p', state', temporaries'⟩ := m'
    cases hm
    simp only [List.map_cons, play_cons]
    cases v <;> exact ih rfl (by simp)

/-- What an action says is uniform in its temporaries. -/
theorem uniform_recipe {a : Action} {r : Recipe} (h : a.recipe? = some r) :
    ∃ count say, (∀ first, r.body first = Stmt.pops count first ++ say (first + ·)) ∧
      I.Uniform count say a.poolAfter := by
  have taking : ∀ {count : Nat} {say : (Nat → Expr) → List Stmt}, .taking count say = r →
      I.Uniform count (fun slot => say fun i => .temporary (slot i)) a.poolAfter →
      ∃ count say, (∀ first, r.body first = Stmt.pops count first ++ say (first + ·)) ∧
        I.Uniform count say a.poolAfter := by
    rintro count say rfl hu
    exact ⟨count, _, fun _ => rfl, hu⟩
  cases a
  case push values => exact taking (Option.some.inj h) (uniform_push values)
  case callMethod | enumerate | branch | jump | play | stop | toNumber | toText | unknown =>
    cases h
  case callFunction =>
    cases h
    refine ⟨2, fun slot => [.stackCall (some (.temporary (slot 2) none))
      (.lookup (.temporary (slot 0)) none) (.temporary (slot 1)) none,
      .pushing (.temporary (slot 2))], fun _ => rfl, ?_⟩
    intro slot slot' m m' hm ht
    obtain ⟨stack, p, state, temporaries⟩ := m
    obtain ⟨stack', p', state', temporaries'⟩ := m'
    cases hm
    simp only at ht
    simp [play, Result.effect, Memory.core, Stmt.roses, Stmt.rose, Target.rose, Expr.rose, exec,
      execRow, Stmt.pushing, Expr.temporary, Kind.isChoice, andThen, effect, performing, consuming,
      atom, assign, Answer.valueD, Ending.map, Memory.push, Memory.bind, Action.poolAfter, ht]
  all_goals
    refine taking (Option.some.inj h) fun {slot slot' m m'} hm ht => ?_
    obtain ⟨stack, p, state, temporaries⟩ := m
    obtain ⟨stack', p', state', temporaries'⟩ := m'
    cases hm
    simp only at ht
    simp [play, Result.effect, Memory.core, Stmt.roses, Stmt.rose, Expr.rose, Target.rose, exec,
      execRow, Stmt.pushing, Stmt.evaluating, Expr.temporary, Expr.pop, Expr.assign, Expr.one,
      Expr.number, Kind.isChoice, andThen, effect, performing, consuming, atom, assign,
      Answer.valueD, Ending.map, Memory.push, Action.poolAfter, ht]

variable (I)

/-- What an action does, if it has a recipe. -/
def act (a : Action) (c : Core V σ) : Option (Effect V σ) :=
  a.recipe?.map fun r => (I.play (r.body 0) (c.filled I.undefined)).effect

variable {I}

/-- The statements of an action do what the action does, whatever their temporaries are. -/
theorem act_play {a : Action} {r : Recipe} (h : a.recipe? = some r) (first : Nat)
    (m : Memory V σ) : I.act a m.core = some (I.play (r.body first) m).effect := by
  obtain ⟨count, say, hbody, hu⟩ := uniform_recipe (I := I) h
  rw [act, h, Option.map_some, hbody, hbody]
  have hcore : (m.core.filled I.undefined).core = m.core := rfl
  exact congrArg some (hu.pops hcore 0 first).1

theorem pool_of_act {a : Action} {c : Core V σ} {e : Effect V σ} (h : I.act a c = some e) :
    e.2.pool = a.poolAfter c.pool := by
  obtain ⟨r, hr, rfl⟩ := Option.map_eq_some_iff.1 h
  obtain ⟨count, say, hbody, hu⟩ := uniform_recipe (I := I) hr
  rw [hbody]
  exact (hu.pops (m := c.filled I.undefined) rfl 0 0).2

end Interpretation

end ScriptRecovery
