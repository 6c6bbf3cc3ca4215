import ScriptRecovery.Lower.Graph
import ScriptRecovery.Proofs.Script.Draws
import ScriptRecovery.Proofs.Semantics.Statements
import ScriptRecovery.Reduce.Pools
import ScriptRecovery.Reduce.Templates

/-!
# The meaning of templates

An expression that draws its values has a value that is a function of them, of the pool and of the
state (`Interpretation.value`).  A template takes its values off the stack and puts that value there
(`Interpretation.apply`), and so do the statements that say it (`play_recipe`).

A merged template does what its two parts do one after the other (`apply_merge`), since the second
one evaluates nothing before the value that the first one leaves but values that are on the stack
all along.  An action that has templates does what they do in a row (`act_templates`).
-/

namespace ScriptRecovery

variable {V σ : Type}

namespace Interpretation

variable (I : Interpretation V σ)

/-- The value of an expression over values for its placeholders, and the state after it.  The only
calls are those of the trace function. -/
def value (inputs : Nat → V) (pool : List String) : Expr → σ → V × σ
  | .input i, s => (inputs i, s)
  | .atom a _, s =>
      let r := I.atom a ⟨[], pool, s, fun _ => I.undefined⟩
      (r.1, r.2.state)
  | .unary op e _, s =>
      let r := value inputs pool e s
      I.perform (.unary op) [r.1] r.2
  | .binary op e e' _, s =>
      let r := value inputs pool e s
      let r' := value inputs pool e' r.2
      I.perform (.binary op) [r.1, r'.1] r'.2
  | .call _ [e] _, s =>
      let r := value inputs pool e s
      I.perform .trace [r.1] r.2
  | _, s => (I.undefined, s)

/-- What a template does. -/
def apply (t : Template) (c : Core V σ) : Core V σ :=
  let r := I.value (fun i => I.peek c.stack (t.inputs - 1 - i)) c.pool t.expr c.state
  { c with
    stack := if t.void then c.stack.drop t.inputs else r.1 :: c.stack.drop t.inputs
    state := r.2 }

variable {I} {traceName : String} {inputs inputs' : Nat → V} {pool : List String} {s : σ}
  {e p : Expr} {i j k : Nat}

/-! ## Values -/

theorem value_call {callee : Expr} :
    I.value inputs pool (.call callee [e] none) s =
      I.perform .trace [(I.value inputs pool e s).1] (I.value inputs pool e s).2 := rfl

theorem value_congr (h : e.Draws traceName i j)
    (hi : ∀ x, i ≤ x → x < j → inputs x = inputs' x) :
    I.value inputs pool e s = I.value inputs' pool e s := by
  induction h generalizing s with
  | input => simp [value, hi _ (Nat.le_refl _) (Nat.lt_succ_self _)]
  | operand v => cases v <;> rfl
  | unary _ ih => simp only [value, ih hi]
  | right h ih =>
    have := h.le
    simp only [value, hi _ (Nat.le_refl _) (by omega), ih fun x hx hlt => hi x (by omega) hlt]
  | left h₁ h₂ ih₁ ih₂ =>
    simp only [value, ih₁ hi, ih₂ fun x hx hlt => absurd hlt (by omega)]
  | call _ ih => simp only [value_call, ih hi]

theorem value_shiftInputs (h : e.Draws traceName i j) :
    I.value inputs pool (Template.shiftInputs k e) s =
      I.value (fun x => inputs (x + k)) pool e s := by
  unfold Template.shiftInputs
  split
  · next hk => simp [hk]
  induction h generalizing s with
  | input => simp [Expr.substitute, value]
  | operand v => rw [Expr.substitute_operand]; cases v <;> rfl
  | unary _ ih => simp only [Expr.substitute, value, ih]
  | right _ ih => simp only [Expr.substitute, value, Option.getD_some, ih]
  | left _ _ ih₁ ih₂ => simp only [Expr.substitute, value, ih₁, ih₂]
  | call _ ih => simp only [Expr.substitute_call, value_call, ih]

/-- An expression in place of the last value drawn is evaluated first. -/
theorem value_substitute_last (h : e.Draws traceName i j) (hj : j = k + 1) (hik : i ≤ k) {l : Nat}
    (hp : p.Draws traceName k l) :
    I.value inputs pool (e.substitute fun x => if x = k then some p else none) s =
      I.value (Function.update inputs k (I.value inputs pool p s).1) pool e
        (I.value inputs pool p s).2 := by
  induction h generalizing s with
  | @input i =>
    obtain rfl : i = k := by omega
    simp [Expr.substitute, value]
  | operand v => omega
  | unary _ ih => simp only [Expr.substitute, value, ih hj hik]
  | @right i j op e h ih =>
    rcases Nat.eq_or_lt_of_le hik with rfl | hlt
    · rw [Expr.substitute, h.substitute_eq_self fun x hx _ => if_neg (by omega)]
      simp only [Expr.substitute, if_pos, Option.getD_some, value, Function.update_self]
      rw [value_congr h fun x hx hlt => absurd hlt (by omega)]
    · simp only [Expr.substitute, if_neg (Nat.ne_of_lt hlt), Option.getD_none, value,
        ih hj hlt, Function.update_of_ne (Nat.ne_of_lt hlt)]
  | @left i j op e e' h₁ h₂ ih₁ ih₂ =>
    rw [Expr.substitute, h₂.substitute_eq_self fun x hx _ => if_neg (by omega)]
    simp only [value, ih₁ hj hik]
    rw [value_congr h₂ fun x hx hlt => absurd hlt (by omega)]
  | call _ ih => simp only [Expr.substitute_call, value_call, ih hj hik]

/-- A merged template does what its parts do. -/
theorem apply_merge {t₁ t₂ t : Template} (h₁ : t₁.Formed traceName) (h₂ : t₂.Formed traceName)
    (h : t₁.merge t₂ = .ok (some t)) (c : Core V σ) :
    I.apply t c = I.apply t₂ (I.apply t₁ c) := by
  obtain ⟨hvoid, k, hk, hinputs, hvoid', hexpr⟩ := Template.merge_eq_ok h
  have hp := h₁.shiftInputs k
  rw [Nat.zero_add] at hp
  obtain ⟨stack, pool, state⟩ := c
  -- the first part finds the same values, above those of the second
  have hfirst : I.value (fun x => I.peek stack (t₁.inputs + k - 1 - x)) pool
      (Template.shiftInputs k t₁.expr) state =
      I.value (fun x => I.peek stack (t₁.inputs - 1 - x)) pool t₁.expr state := by
    rw [value_shiftInputs h₁]
    refine value_congr h₁ fun x _ hx => ?_
    rw [show t₁.inputs + k - 1 - (x + k) = t₁.inputs - 1 - x by omega]
  simp only [apply, hvoid, hk, hinputs, hvoid', hexpr, Bool.false_eq_true, if_false,
    Nat.add_sub_cancel, List.drop_succ_cons, List.drop_drop]
  rw [value_substitute_last h₂ hk (Nat.zero_le _) hp, hfirst]
  generalize I.value (fun x => I.peek stack (t₁.inputs - 1 - x)) pool t₁.expr state = r
  -- and the second part finds its value on top
  have hsecond : ∀ x, 0 ≤ x → x < t₂.inputs →
      Function.update (fun x => I.peek stack (t₁.inputs + k - 1 - x)) k r.1 x =
        I.peek (r.1 :: stack.drop t₁.inputs) (k - x) := by
    intro x _ hx
    rcases Nat.eq_or_lt_of_le (show x ≤ k by omega) with rfl | hlt
    · simp [peek]
    · obtain ⟨d, rfl⟩ : ∃ d, k = x + d + 1 := ⟨k - x - 1, by omega⟩
      rw [Function.update_of_ne (by omega), show x + d + 1 - x = d + 1 by omega,
        show t₁.inputs + (x + d + 1) - 1 - x = t₁.inputs + d by omega]
      simp [peek, List.getD_eq_getElem?_getD, List.getElem?_drop]
  rw [value_congr h₂ hsecond]

/-! ## Statements of templates -/

/-- Two operands in a row are evaluated from left to right. -/
theorem exec_binary {op : BinaryOperator} {e e' : Expr} {m m' m'' : Memory V σ} {v v' : V}
    (h : I.exec e.rose m = (.done (.value v), m'))
    (h' : I.exec e'.rose m' = (.done (.value v'), m'')) :
    I.exec (Expr.binary op e e' none).rose m =
      (.done (.value (I.perform (.binary op) [v, v'] m''.state).1),
        { m'' with state := (I.perform (.binary op) [v, v'] m''.state).2 }) := by
  rw [Expr.rose, exec_sequential I rfl (by simp), execRow, h]
  simp only [andThen, execRow, h']
  rfl

/-- An expression over temporaries has the value it has over what they hold. -/
theorem exec_substitute (h : e.Draws I.names.trace i j) {f : Nat → Option Expr} {m : Memory V σ}
    (hf : ∀ x, i ≤ x → x < j → ∃ id, f x = some (.temporary id) ∧ m.temporaries id = inputs x) :
    I.exec (e.substitute f).rose m =
      (.done (.value (I.value inputs m.pool e m.state).1),
        { m with state := (I.value inputs m.pool e m.state).2 }) := by
  have placeholder : ∀ {i : Nat} {m : Memory V σ}, (∃ id, f i = some (.temporary id) ∧
      m.temporaries id = inputs i) →
      I.exec ((Expr.input i).substitute f).rose m = (.done (.value (inputs i)), m) := by
    rintro i m ⟨id, hid, hvalue⟩
    rw [Expr.substitute, hid, Option.getD_some, Expr.temporary, Expr.rose,
      exec_leaf I rfl (by simp), ← hvalue]
    rfl
  induction h generalizing m with
  | input => exact placeholder (hf _ (Nat.le_refl _) (Nat.lt_succ_self _))
  | operand v =>
    rw [Expr.substitute_operand]
    cases v <;> rfl
  | unary _ ih =>
    rw [Expr.substitute, Expr.rose, exec_sequential I rfl (by simp), execRow, ih hf]
    rfl
  | right h ih =>
    have := h.le
    rw [Expr.substitute, exec_binary (placeholder (hf _ (Nat.le_refl _) (by omega)))
      (ih fun x hx hlt => hf x (by omega) hlt)]
    rfl
  | left h₁ h₂ ih₁ ih₂ =>
    rw [Expr.substitute, exec_binary (ih₁ hf) (ih₂ fun x hx hlt => absurd hlt (by omega))]
    rfl
  | call _ ih =>
    rw [Expr.substitute_call, exec_traceCall, ih hf]
    rfl

/-- The statements of a template do what the template does. -/
theorem play_recipe {t : Template} (h : t.Formed I.names.trace) (first : Nat) (m : Memory V σ) :
    (I.play (t.recipe.body first) m).effect = (.done (), I.apply t m.core) := by
  change (I.play (Stmt.pops t.inputs first ++ [t.say first]) m).effect = _
  have hexec : I.exec (t.exprFrom first).rose (I.taken m t.inputs first) = _ :=
    exec_substitute h fun x _ hx => ⟨_, if_pos hx, show _ = I.peek m.stack (t.inputs - 1 - x) by
      simp [taken]
      omega⟩
  rw [play_pops, play_cons]
  cases hvoid : t.void with
  | true =>
    have hsay : (t.say first).rose = .node ⟨.expression, none⟩ [(t.exprFrom first).rose] := by
      rw [Template.say, if_pos hvoid]
      rfl
    rw [hsay, exec_sequential I rfl (by simp), execRow, hexec]
    simp [andThen, execRow, effect, play_nil, apply, hvoid, Result.effect, Memory.core, taken]
  | false =>
    have hsay : (t.say first).rose = .node ⟨.push, none⟩ [(t.exprFrom first).rose] := by
      rw [Template.say, if_neg (by simp [hvoid])]
      rfl
    rw [hsay, exec_sequential I rfl (by simp), execRow, hexec]
    simp [andThen, execRow, effect, play_nil, apply, hvoid, Result.effect, Memory.core, taken,
      Memory.push, Answer.valueD]

/-! ## Actions as templates -/

/-- A push does what the templates of its values do in a row. -/
theorem act_push (values : List Operand) (c : Core V σ) :
    I.act (.push values) c = some (.done (),
      (values.map fun v => Template.value v.toExpr).foldl (fun c t => I.apply t c) c) := by
  have key : ∀ m : Memory V σ, (I.play (values.map fun v => .pushing v.toExpr) m).effect =
      (.done (), (values.map fun v => Template.value v.toExpr).foldl (fun c t => I.apply t c)
        m.core) := by
    induction values with
    | nil => exact fun _ => rfl
    | cons v values ih =>
      intro m
      rw [List.map_cons, List.map_cons, List.foldl_cons, play_cons]
      cases v <;> exact ih _
  exact congrArg some (key (c.filled I.undefined))

/-- An action does what its templates do in a row. -/
theorem act_templates {a : Action} {ts : List Template} (h : a.templates? I.names.trace = some ts)
    (c : Core V σ) :
    I.act a c = some (.done (), ts.foldl (fun c t => I.apply t c) c) := by
  obtain ⟨stack, pool, state⟩ := c
  cases a with
  | push values =>
    cases h
    exact act_push values _
  | not =>
    cases h
    cases stack <;> rfl
  | binary op =>
    cases h
    rcases stack with _ | ⟨v, _ | ⟨v', stack⟩⟩ <;> rfl
  | trace =>
    cases h
    cases stack <;> rfl
  | _ => cases h

/-- A text in place of a pool entry is the entry of the pool in force. -/
theorem apply_resolve (v : Operand) (c : Core V σ) :
    I.apply (.value (v.resolve c.pool).toExpr) c = I.apply (.value v.toExpr) c := by
  cases v with
  | constant index =>
    simp only [Operand.resolve, apply, Template.value, Operand.toExpr, value, atom]
    cases c.pool[index.toNat]? <;> rfl
  | _ => rfl

/-- Texts in place of pool entries do what the entries do. -/
theorem act_resolve (values : List Operand) (c : Core V σ) :
    I.act (.push (values.map (Operand.resolve c.pool))) c = I.act (.push values) c := by
  rw [act_push, act_push]
  refine congrArg (fun c => some (Ending.done (), c)) ?_
  obtain ⟨pool, hpool⟩ : ∃ pool, c.pool = pool := ⟨_, rfl⟩
  rw [hpool]
  induction values generalizing c with
  | nil => rfl
  | cons v values ih =>
    simp only [List.map_cons, List.foldl_cons]
    rw [← hpool, apply_resolve, hpool]
    exact ih _ hpool

end Interpretation

end ScriptRecovery
