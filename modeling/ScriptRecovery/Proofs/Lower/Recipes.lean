import ScriptRecovery.Lower.Emitter
import ScriptRecovery.Proofs.Lower.Statements
import ScriptRecovery.Proofs.Semantics.Graphs

/-!
# Recipes in a row

The statements of actions in a row are those of the first actions and then those of the others,
which start in the scope that the first leave (`Action.emitAll_append`).  Where the counter is large
enough for what the actions need (`Action.needed`), they take no more and no less than that
(`Action.scope_emitAll`), and nothing but an action without a recipe is refused.

A recipe does not look at the number it starts with: from a greater one it says the same with every
temporary raised (`Action.body_raised`).  That is the one fact which takes a look at every recipe,
and with it a row of actions says the same from wherever it starts (`Action.emitAll_raised`).
-/

namespace ScriptRecovery

open Rose

/-! ## Raised temporaries -/

mutual

/-- An expression with its temporaries raised by a number. -/
def Expr.raised (d : Nat) : Expr → Expr
  | .atom (.temporary id) loc => .atom (.temporary (id + d)) loc
  | .unary op argument loc => .unary op (argument.raised d) loc
  | .binary op left right loc => .binary op (left.raised d) (right.raised d) loc
  | .logical op left right loc => .logical op (left.raised d) (right.raised d) loc
  | .assignment op target value loc => .assignment op (target.raised d) (value.raised d) loc
  | .member base key loc => .member (base.raised d) (key.raised d) loc
  | .call callee arguments loc => .call (callee.raised d) (Expr.raisedAll d arguments) loc
  | .sequence expressions loc => .sequence (Expr.raisedAll d expressions) loc
  | .conditional test truthy falsy loc =>
      .conditional (test.raised d) (truthy.raised d) (falsy.raised d) loc
  | .lookup name loc => .lookup (name.raised d) loc
  | .propertyName index loc => .propertyName (index.raised d) loc
  | .initArray itemCount loc => .initArray (itemCount.raised d) loc
  | .initObject itemCount loc => .initObject (itemCount.raised d) loc
  | e => e

/-- A target with its temporaries raised by a number. -/
def Target.raised (d : Nat) : Target → Target
  | .member base key loc => .member (base.raised d) (key.raised d) loc
  | .temporary id loc => .temporary (id + d) loc
  | p => p

/-- Expressions in order with their temporaries raised by a number. -/
def Expr.raisedAll (d : Nat) : List Expr → List Expr
  | [] => []
  | e :: es => e.raised d :: Expr.raisedAll d es

end

mutual

/-- A statement with its temporaries raised by a number. -/
def Stmt.raised (d : Nat) : Stmt → Stmt
  | .block body loc => .block (Stmt.raisedAll d body) loc
  | .expression e loc => .expression (e.raised d) loc
  | .branch test truthy none loc => .branch (test.raised d) (truthy.raised d) none loc
  | .branch test truthy (some falsy) loc =>
      .branch (test.raised d) (truthy.raised d) (some (falsy.raised d)) loc
  | .ret argument loc => .ret (argument.map (Expr.raised d)) loc
  | .raise argument loc => .raise (argument.raised d) loc
  | .setVariable name value loc => .setVariable (name.raised d) (value.raised d) loc
  | .declareVariable name value loc =>
      .declareVariable (name.raised d) (value.map (Expr.raised d)) loc
  | .push value loc => .push (value.raised d) loc
  | .trace value loc => .trace (value.raised d) loc
  | .stackCall target callee argCount loc =>
      .stackCall (target.map (Target.raised d)) (callee.raised d) (argCount.raised d) loc
  | s => s

/-- Statements in order with their temporaries raised by a number. -/
def Stmt.raisedAll (d : Nat) : List Stmt → List Stmt
  | [] => []
  | s :: ss => s.raised d :: Stmt.raisedAll d ss

end

theorem Stmt.raisedAll_eq_map (d : Nat) (ss : List Stmt) :
    Stmt.raisedAll d ss = ss.map (Stmt.raised d) := by
  induction ss with
  | nil => rfl
  | cons s ss ih => rw [Stmt.raisedAll, ih, List.map_cons]

theorem Operand.raised_toExpr (d : Nat) (v : Operand) : v.toExpr.raised d = v.toExpr := by
  cases v <;> rfl

theorem Stmt.raisedAll_append (d : Nat) (ss ss' : List Stmt) :
    Stmt.raisedAll d (ss ++ ss') = Stmt.raisedAll d ss ++ Stmt.raisedAll d ss' := by
  simp only [Stmt.raisedAll_eq_map, List.map_append]

/-- Pops into temporaries from a greater number on. -/
theorem Stmt.raised_pops (d count first : Nat) :
    Stmt.raisedAll d (Stmt.pops count first) = Stmt.pops count (first + d) := by
  simp only [Stmt.raisedAll_eq_map, Stmt.pops, List.map_map, Nat.add_right_comm first d]
  rfl

namespace Action

/-- A recipe says the same from every number on. -/
theorem body_raised {a : Action} {r : Recipe} (h : a.recipe? = some r) (d first : Nat) :
    r.body (first + d) = Stmt.raisedAll d (r.body first) := by
  have taking : ∀ {count : Nat} {say : (Nat → Expr) → List Stmt}, .taking count say = r →
      (say fun i => .temporary (first + d + i)) =
        Stmt.raisedAll d (say fun i => .temporary (first + i)) →
      r.body (first + d) = Stmt.raisedAll d (r.body first) := by
    rintro count say rfl hsay
    show Stmt.pops count (first + d) ++ _ = Stmt.raisedAll d (Stmt.pops count first ++ _)
    rw [Stmt.raisedAll_append, Stmt.raised_pops, hsay]
  have hadd : ∀ i, first + d + i = first + i + d := fun i => Nat.add_right_comm first d i
  cases a
  case push values =>
    refine taking (Option.some.inj h) ?_
    simp [Stmt.raisedAll_eq_map, Stmt.pushing, Stmt.raised, Operand.raised_toExpr]
  case callMethod | enumerate | branch | jump | play | stop | toNumber | toText | unknown =>
    cases h
  case callFunction =>
    cases h
    simp [Stmt.raisedAll, Stmt.raised, Expr.raised, Target.raised, Stmt.popInto, Stmt.binding,
      Stmt.evaluating, Stmt.pushing, Expr.assign, Expr.pop, Expr.temporary, hadd]
  all_goals
    refine taking (Option.some.inj h) ?_
    simp [Stmt.raisedAll, Stmt.raised, Expr.raised, Target.raised, Stmt.evaluating, Stmt.pushing,
      Expr.assign, Expr.pop, Expr.temporary, Expr.one, Expr.number, hadd]

end Action

/-! ## Rows -/

namespace Emission

/-- What a piece of code becomes, with the temporaries and the scope after it raised. -/
def raised (d : Nat) (e : Emission) : Emission :=
  ⟨e.statements.map (Stmt.raisedAll d), ⟨e.scope.next + d⟩⟩

theorem of_nil_followedBy (more : Scope → Emission) (s : Scope) :
    (of [] s).followedBy more = more s := by
  show (⟨(more s).statements.map ([] ++ ·), (more s).scope⟩ : Emission) = more s
  obtain ⟨fault | body, scope⟩ := more s <;> rfl

theorem followedBy_assoc (e : Emission) (f g : Scope → Emission) :
    (e.followedBy f).followedBy g = e.followedBy fun s => (f s).followedBy g := by
  obtain ⟨fault | body, s⟩ := e
  · rfl
  · simp only [followedBy]
    obtain ⟨fault | body', s'⟩ := f s
    · rfl
    · simp only [Except.map]
      obtain ⟨fault | body'', s''⟩ := g s'
      · rfl
      · simp

/-- Code in two rows is that of the first and then that of the second. -/
theorem row_append {α : Type} (f : α → Scope → Emission) (xs ys : List α) (s : Scope) :
    row f (xs ++ ys) s = (row f xs s).followedBy (row f ys) := by
  induction xs generalizing s with
  | nil => exact (of_nil_followedBy _ s).symm
  | cons x xs ih =>
    rw [List.cons_append, row, row, followedBy_assoc]
    congr 1
    funext s
    exact ih s

end Emission

namespace Action

variable {a : Action} {as xs ys : List Action} {r : Recipe} {s : Scope} {d : Nat}
  {body : List Stmt}

/-- The number of temporaries that actions take before the first one without a recipe. -/
def needed : List Action → Nat
  | [] => 0
  | a :: as =>
      match a.recipe? with
      | none => 0
      | some r => r.temporaries + needed as

/-- The statements of actions in two rows are those of the first and then those of the second. -/
theorem emitAll_append (xs ys : List Action) (s : Scope) :
    emitAll (xs ++ ys) s = (emitAll xs s).followedBy (emitAll ys) :=
  Emission.row_append emit xs ys s

theorem emitAll_cons_none (h : a.recipe? = none) :
    emitAll (a :: as) s = .refused (.unsupported a.name) s := by
  rw [emitAll, Emission.row, emit, h]
  rfl

theorem emitAll_cons_some (h : a.recipe? = some r) (hfits : s.next + r.temporaries < counterBound) :
    emitAll (a :: as) s =
      (Emission.of (r.body s.next) (s.advance r.temporaries)).followedBy (emitAll as) := by
  rw [emitAll, Emission.row, emit, h]
  simp only [Recipe.emit, Scope.fits, hfits, decide_true, if_true]
  rfl

/-- Actions that have what they need leave their scope behind what they take. -/
theorem scope_emitAll (hfits : s.next + needed as < counterBound) :
    (emitAll as s).scope = s.advance (needed as) := by
  induction as generalizing s with
  | nil => rfl
  | cons a as ih =>
    cases ha : a.recipe? with
    | none =>
      rw [emitAll_cons_none ha, needed, ha]
      rfl
    | some r =>
      simp only [needed, ha] at hfits ⊢
      rw [emitAll_cons_some ha (by omega), Emission.followedBy]
      simp only [Emission.of]
      rw [ih (by simp only [Scope.advance]; omega)]
      simp [Scope.advance, Nat.add_assoc]

/-- Actions that have what they need are said when all of them have recipes. -/
theorem emitAll_eq_ok_iff (hfits : s.next + needed as < counterBound) :
    (∃ body, (emitAll as s).statements = .ok body) ↔ ∀ a ∈ as, a.recipe?.isSome = true := by
  induction as generalizing s with
  | nil => simp [emitAll, Emission.row, Emission.of]
  | cons a as ih =>
    rw [List.forall_mem_cons]
    cases ha : a.recipe? with
    | none => simp [emitAll_cons_none ha, Emission.refused]
    | some r =>
      simp only [needed, ha] at hfits
      have hrest := ih (s := s.advance r.temporaries) (by simp only [Scope.advance]; omega)
      rw [emitAll_cons_some ha (by omega), ← hrest]
      simp only [Emission.followedBy, Emission.of]
      cases (emitAll as (s.advance r.temporaries)).statements <;> simp [Except.map]

/-- From a greater number on, actions say the same with every temporary raised. -/
theorem emitAll_raised (hfits : s.next + d + needed as < counterBound) :
    emitAll as ⟨s.next + d⟩ = (emitAll as s).raised d := by
  induction as generalizing s with
  | nil => rfl
  | cons a as ih =>
    cases ha : a.recipe? with
    | none =>
      rw [emitAll_cons_none ha, emitAll_cons_none ha]
      rfl
    | some r =>
      simp only [needed, ha] at hfits
      have hrest := ih (s := s.advance r.temporaries) (by simp only [Scope.advance]; omega)
      have hscope : (⟨s.next + d⟩ : Scope).advance r.temporaries =
          ⟨(s.advance r.temporaries).next + d⟩ := by
        simp only [Scope.advance, Nat.add_right_comm]
      rw [emitAll_cons_some ha (by simp only; omega), emitAll_cons_some ha (by omega), hscope,
        body_raised ha]
      simp only [Emission.followedBy, Emission.of, Emission.raised, hrest]
      cases (emitAll as (s.advance r.temporaries)).statements <;>
        simp [Except.map, Stmt.raisedAll_append]

/-- The first action without a recipe is refused, in the scope that the actions before it leave. -/
theorem emitAll_refused {pre post : List Action} (hpre : ∀ b ∈ pre, b.recipe?.isSome = true)
    (ha : a.recipe? = none) (hfits : s.next + needed pre < counterBound) :
    (∃ body, (emitAll pre s).statements = .ok body) ∧ emitAll (pre ++ a :: post) s =
      ⟨.error (.unsupported a.name), (emitAll pre s).scope⟩ := by
  obtain ⟨body, hbody⟩ := (emitAll_eq_ok_iff hfits).2 hpre
  refine ⟨⟨body, hbody⟩, ?_⟩
  rw [emitAll_append, Emission.followedBy, hbody]
  simp only [emitAll_cons_none ha, Emission.refused]
  rfl

theorem needed_append_le : needed xs ≤ needed (xs ++ ys) := by
  induction xs with
  | nil => exact Nat.zero_le _
  | cons a xs ih =>
    rw [List.cons_append, needed, needed]
    cases a.recipe? with
    | none => exact Nat.le_refl 0
    | some r => exact Nat.add_le_add_left ih _

end Action

/-! ## Writing -/

namespace Writing

variable {α β : Type} {i : Nat} {scope : Scope} {ss : List Stmt}

/-- A computation after one that answers goes on where that left off. -/
theorem result_bind {x : Writing α} {f : α → Writing β} {m m' : Emitter} {a : α}
    (h : x.result m = (.ok a, m')) : (x >>= f).result m = (f a).result m' := by
  have hrun : x.run.run m = (.ok a, m') := h
  show (x >>= f).run.run m = (f a).run.run m'
  simp only [ExceptT.run_bind, StateT.run_bind, hrun]
  rfl

/-- A computation after one that is refused is not carried out. -/
theorem result_bind_error {x : Writing α} {f : α → Writing β} {m m' : Emitter} {fault : Fault}
    (h : x.result m = (.error fault, m')) : (x >>= f).result m = (.error fault, m') := by
  have hrun : x.run.run m = (.error fault, m') := h
  show (x >>= f).run.run m = (.error fault, m')
  simp only [ExceptT.run_bind, StateT.run_bind, hrun]
  rfl

theorem result_temporary (h : i + 1 < counterBound) :
    temporary.result ⟨⟨i⟩, ss⟩ = (.ok i, ⟨⟨i + 1⟩, ss⟩) := by
  have hfresh : (⟨i⟩ : Scope).fresh = .ok (i, ⟨i + 1⟩) := by
    simp [Scope.fresh, Scope.fits, Scope.advance, h]
  have hget : (get : Writing Emitter).result ⟨⟨i⟩, ss⟩ = (.ok ⟨⟨i⟩, ss⟩, ⟨⟨i⟩, ss⟩) := rfl
  rw [temporary, result_bind hget]
  simp only [hfresh]
  rfl

theorem result_write (s : Stmt) :
    (write s).result ⟨scope, ss⟩ = (.ok (), ⟨scope, ss ++ [s]⟩) := rfl

theorem result_pop (h : i + 1 < counterBound) :
    pop.result ⟨⟨i⟩, ss⟩ = (.ok i, ⟨⟨i + 1⟩, ss ++ [.popInto i]⟩) := by
  rw [pop, result_bind (result_temporary h), result_bind (result_write _)]
  rfl

theorem result_pop_bind (h : i + 1 < counterBound) (f : Nat → Writing β) :
    (pop >>= f).result ⟨⟨i⟩, ss⟩ = (f i).result ⟨⟨i + 1⟩, ss ++ [.popInto i]⟩ :=
  result_bind (result_pop h)

theorem result_temporary_bind (h : i + 1 < counterBound) (f : Nat → Writing β) :
    (temporary >>= f).result ⟨⟨i⟩, ss⟩ = (f i).result ⟨⟨i + 1⟩, ss⟩ :=
  result_bind (result_temporary h)

theorem result_write_bind (s : Stmt) (f : Unit → Writing β) :
    (write s >>= f).result ⟨scope, ss⟩ = (f ()).result ⟨scope, ss ++ [s]⟩ :=
  result_bind (result_write s)

theorem result_operands (values : List Operand) : (operands values).result ⟨scope, ss⟩ =
    (.ok (), ⟨scope, ss ++ values.map fun v => .pushing v.toExpr⟩) := by
  induction values generalizing ss with
  | nil => rw [List.map_nil, List.append_nil]; rfl
  | cons v values ih =>
    rw [operands, push, result_write_bind, ih, List.append_assoc]
    rfl

/-- Writing an action that has what it needs takes the temporaries and writes the statements of its
recipe. -/
theorem result_action {a : Action} {r : Recipe} (h : a.recipe? = some r)
    (hfits : i + r.temporaries < counterBound) : (action a).result ⟨⟨i⟩, ss⟩ =
      (.ok (), ⟨⟨i + r.temporaries⟩, ss ++ r.body i⟩) := by
  cases a
  case push values =>
    cases h
    exact result_operands values
  case callMethod | enumerate | branch | jump | play | stop | toNumber | toText | unknown =>
    cases h
  all_goals
    cases h
    simp only [Recipe.taking] at hfits
    unfold action
    simp (disch := omega) only [push, result_pop_bind, result_temporary_bind,
      result_write_bind, result_write]
    simp [Recipe.taking, List.range_succ]

/-- An action without a recipe takes and writes nothing. -/
theorem result_action_none {a : Action} (h : a.recipe? = none) (m : Emitter) :
    (action a).result m = (.error (.unsupported a.name), m) := by
  cases a <;> first | rfl | cases h

/-- Writing actions that have what they need leaves the scope that is left by saying them, and the
statements if there are any. -/
theorem result_actions {as : List Action} (hfits : i + Action.needed as < counterBound) :
    ∃ written, (actions as).result ⟨⟨i⟩, ss⟩ =
        ((Action.emitAll as ⟨i⟩).statements.map fun _ => (),
          ⟨(Action.emitAll as ⟨i⟩).scope, ss ++ written⟩) ∧
      ∀ body, (Action.emitAll as ⟨i⟩).statements = .ok body → written = body := by
  induction as generalizing i ss with
  | nil =>
    refine ⟨[], by rw [List.append_nil]; rfl, fun body h => ?_⟩
    exact Except.ok.inj h
  | cons a as ih =>
    cases ha : a.recipe? with
    | none =>
      rw [Action.emitAll_cons_none ha]
      refine ⟨[], ?_, fun body h => by cases h⟩
      rw [List.append_nil, actions, result_bind_error (result_action_none ha _)]
      rfl
    | some r =>
      simp only [Action.needed, ha] at hfits
      obtain ⟨written, hrun, hwritten⟩ := @ih (i + r.temporaries) (ss ++ r.body i) (by omega)
      rw [Action.emitAll_cons_some ha (by simp only; omega), actions,
        result_bind (result_action ha (by omega)), hrun]
      refine ⟨r.body i ++ written, ?_, fun body hbody => ?_⟩
      · simp only [Emission.followedBy, Emission.of, Scope.advance, List.append_assoc]
        cases (Action.emitAll as ⟨i + r.temporaries⟩).statements <;> rfl
      · obtain ⟨first, rest, hfirst, hrest, rfl⟩ := Emission.followedBy_eq_ok hbody
        rw [← Except.ok.inj hfirst, hwritten rest hrest]

end Writing

/-! ## Numbers -/

/-- Whether statements assign the temporaries from one up to another, each once and in order, and
name no others. -/
structure Stmt.Numbered (first next : Nat) (body : List Stmt) : Prop where
  le : first ≤ next
  assigned : storedIn (labelsAll (Stmt.roses body)) = List.range' first (next - first)
  named : ∀ form ∈ labelsAll (Stmt.roses body), ∀ id, form.kind.temporary? = some id →
    first ≤ id ∧ id < next

/-- The statements of actions are numbered from the scope before them to the scope after them. -/
theorem Action.numbered {as : List Action} {s : Scope} {body : List Stmt}
    (h : (emitAll as s).statements = .ok body) :
    Stmt.Numbered s.next (emitAll as s).scope.next body := by
  have hemits : Stmt.Emitted s.next (emitAll as s).scope.next body :=
    Emission.emits_row (fun a _ s => a.emits s) s body h
  exact ⟨hemits.stored.1, hemits.stored.2, hemits.temporary⟩

/-- Actions in two rows are said when all of them have recipes, if the counter is large enough.
Their statements are those of the first row and then those of the second, which goes on with the
temporary that the first ends with, and all the temporaries on the way are assigned once.  From a
greater number on the same is said with the temporaries raised.  The first action without a recipe
is refused, and the next temporary is the one that the actions before it lead to.  Writing the
statements one at a time comes to the same. -/
theorem Action.emitAll_composes (xs ys : List Action) (s : Scope) (d : Nat)
    (hfits : s.next + d + needed (xs ++ ys) < counterBound) :
    ((∃ body, (emitAll (xs ++ ys) s).statements = .ok body) ↔
      ∀ a ∈ xs ++ ys, a.recipe?.isSome = true) ∧
    (∀ body, (emitAll (xs ++ ys) s).statements = .ok body → ∃ first rest,
      (emitAll xs s).statements = .ok first ∧
      emitAll ys (emitAll xs s).scope = ⟨.ok rest, (emitAll (xs ++ ys) s).scope⟩ ∧
      body = first ++ rest ∧
      Stmt.Numbered s.next (emitAll (xs ++ ys) s).scope.next body) ∧
    emitAll (xs ++ ys) ⟨s.next + d⟩ = (emitAll (xs ++ ys) s).raised d ∧
    (∀ pre a post, xs ++ ys = pre ++ a :: post → (∀ b ∈ pre, b.recipe?.isSome = true) →
      a.recipe? = none → (∃ body, (emitAll pre s).statements = .ok body) ∧
        emitAll (xs ++ ys) s = ⟨.error (.unsupported a.name), (emitAll pre s).scope⟩) ∧
    ∃ written, (Writing.actions (xs ++ ys)).result ⟨s, []⟩ =
        ((emitAll (xs ++ ys) s).statements.map fun _ => (),
          ⟨(emitAll (xs ++ ys) s).scope, written⟩) ∧
      ∀ body, (emitAll (xs ++ ys) s).statements = .ok body → written = body := by
  have hnear : s.next + needed (xs ++ ys) < counterBound := by omega
  refine ⟨emitAll_eq_ok_iff hnear, fun body hbody => ?_, emitAll_raised hfits,
    fun pre a post hsplit hpre ha => ?_, Writing.result_actions hnear⟩
  · have hwhole := hbody
    rw [emitAll_append] at hbody
    obtain ⟨first, rest, hfirst, hrest, rfl⟩ := Emission.followedBy_eq_ok hbody
    refine ⟨first, rest, hfirst, ?_, rfl, numbered hwhole⟩
    rw [emitAll_append, Emission.followedBy, hfirst, ← hrest]
  · rw [hsplit] at hnear ⊢
    refine emitAll_refused hpre ha (Nat.lt_of_le_of_lt ?_ hnear)
    exact Nat.add_le_add_left needed_append_le _

/-- A call and a write to a property take seven temporaries from any number on.  A method call
between them is refused behind the temporaries of the call. -/
theorem Action.emitAll_composes_call :
    let xs : List Action := [.push [.string "f"], .callFunction]
    let ys : List Action := [.setProperty, .increment]
    5 + 7 + needed (xs ++ ys) < counterBound ∧
      (∃ body, (emitAll (xs ++ ys) ⟨5⟩).statements = .ok body ∧ Stmt.Numbered 5 12 body ∧
        emitAll (xs ++ ys) ⟨12⟩ = ⟨.ok (Stmt.raisedAll 7 body), ⟨19⟩⟩) ∧
      emitAll (xs ++ .callMethod :: ys) ⟨5⟩ = ⟨.error (.unsupported "CallMethod"), ⟨8⟩⟩ := by
  intro xs ys
  obtain ⟨hok, hbody, hraised, -⟩ := emitAll_composes xs ys ⟨5⟩ 7 (by decide)
  obtain ⟨-, -, -, hrefused, -⟩ := emitAll_composes xs (.callMethod :: ys) ⟨5⟩ 0 (by decide)
  obtain ⟨body, h⟩ := hok.2 (by decide)
  obtain ⟨-, -, -, -, -, hnumbered⟩ := hbody body h
  refine ⟨by decide, ⟨body, h, hnumbered, ?_⟩, (hrefused xs .callMethod ys rfl (by decide) rfl).2⟩
  rw [hraised, Emission.raised, h]
  rfl

end ScriptRecovery
