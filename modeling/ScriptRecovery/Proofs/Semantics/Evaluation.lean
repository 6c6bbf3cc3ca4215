import Mathlib.Logic.Function.Basic
import ScriptRecovery.Arena.Form
import ScriptRecovery.Cleanup.Builtins

/-!
# Evaluation of syntax trees

`Interpretation.exec` runs a tree of kinds.  The children of a node are evaluated in order and
before the node's own effect, but for choices: a branch evaluates its test and then one arm, and a
logical operator may leave its right operand alone.  A return and a raised value end the run at
once.

A call evaluates its callee, then its arguments, and then does what it does.  One name is not
evaluated as a callee, that of the trace function.  A call of it and a trace statement are the same
operation on the same values, so that a recovered script can say one for the other.

What operators, variables, members, registers and calls do is not fixed.  An `Interpretation` gives
it as a change of a state, about which nothing is known.  Of the memory beside this state, the
operations that take a number of values that is not known may do anything to the operand stack
(`Interpretation.consume`).  All others reach the stack through pushes and pops alone, and the
temporaries and the constant pool in force by name.

`Interpretation.names` says which identifier the global object is, and which the trace function.
-/

namespace ScriptRecovery

/-- A value that is written down. -/
inductive Literal
  | boolean (value : Bool) | number (value : Double) | string (value : String) | null | undefined

/-- What changes the state beside operand stack, temporaries and pool. -/
inductive Operation
  | identifier (name : String) | register (index : UInt8) | lookup | propertyName | member
  | unary (operator : UnaryOperator) | binary (operator : BinaryOperator)
  | call | trace | setVariable | declareVariable

/-- What takes a number of values off the stack that is not known. -/
inductive StackOperation
  | call | initArray | initObject

/-- What a store writes to, apart from temporaries. -/
inductive Place (V : Type)
  | identifier (name : String) | member (base key : V) | register (index : UInt8)

/-- A meaning of the operations over values in `V` and states in `σ`. -/
structure Interpretation (V σ : Type) where
  /-- The names of the builtins. -/
  names : BuiltinNames
  /-- The values of placeholders. -/
  inputs : Nat → V
  /-- The value that is written down. -/
  literal : Literal → V
  /-- Whether a test holds. -/
  holds : V → Bool
  /-- An operation on values: its result, and the state after it. -/
  perform : Operation → List V → σ → V × σ
  /-- A store, with its result. -/
  store : AssignmentOperator → Place V → V → σ → V × σ
  /-- An operation on values and the whole stack: its result, and the stack and the state after
  it. -/
  consume : StackOperation → List V → List V → σ → V × List V × σ

/-- What a script works on. -/
structure Memory (V σ : Type) where
  /-- The operand stack, from the top down. -/
  stack : List V
  /-- The constant pool in force. -/
  pool : List String
  /-- The state that operations change. -/
  state : σ
  /-- The temporaries. -/
  temporaries : Nat → V

/-- What the evaluation of a node gives. -/
inductive Answer (V : Type)
  /-- A value. -/
  | value (v : V)
  /-- A place to store to. -/
  | place (p : Place V)
  /-- A temporary to store to. -/
  | slot (id : Nat)
  /-- Nothing. -/
  | off

/-- How the evaluation of a node ends, with an answer in `α` or early. -/
inductive Ending (V : Type) (α : Type)
  | done (a : α)
  | returned (v : Option V)
  | raised (v : V)

namespace Ending

variable {V α β : Type}

/-- The ending with another answer. -/
def map (f : α → β) : Ending V α → Ending V β
  | done a => done (f a)
  | returned v => returned v
  | raised v => raised v

end Ending

/-- The value of an answer, or another one. -/
def Answer.valueD {V : Type} (default : V) : Answer V → V
  | value v => v
  | _ => default

namespace Memory

variable {V σ : Type}

/-- The memory with a temporary set. -/
def bind (m : Memory V σ) (id : Nat) (v : V) : Memory V σ :=
  { m with temporaries := Function.update m.temporaries id v }

/-- The memory with a value on top of the stack. -/
def push (m : Memory V σ) (v : V) : Memory V σ := { m with stack := v :: m.stack }

end Memory

/-- The arm of a choice by its test, counted from zero, if one is evaluated. -/
def Kind.arm? (holds : Bool) : Kind → Option Nat
  | .logical .and => if holds then some 0 else none
  | .logical .or => if holds then none else some 0
  | _ => some (if holds then 0 else 1)

/-- Whether a node of a kind evaluates its first child and then at most one other. -/
def Kind.isChoice : Kind → Bool
  | .branch | .logical _ | .conditional => true
  | _ => false

/-- Whether the own effect of a kind leaves the stack alone. -/
def Kind.Quiet (k : Kind) : Prop :=
  k ≠ .push ∧ k ≠ .atom .pop ∧ k ≠ .stackCall ∧ k ≠ .initArray ∧ k ≠ .initObject

namespace Interpretation

variable {V σ : Type} (I : Interpretation V σ)

/-- The value that is read where there is none. -/
def undefined : V := I.literal .undefined

/-- An operation that gives a value. -/
def performing (op : Operation) (vs : List V) (m : Memory V σ) : Answer V × Memory V σ :=
  let r := I.perform op vs m.state
  (.value r.1, { m with state := r.2 })

/-- An operation on the whole stack that gives a value. -/
def consuming (op : StackOperation) (vs : List V) (m : Memory V σ) : V × Memory V σ :=
  let r := I.consume op vs m.stack m.state
  (r.1, { m with stack := r.2.1, state := r.2.2 })

/-- Whether a kind is the name of the trace function. -/
def isTrace : Kind → Bool
  | .atom (.identifier name) => name == I.names.trace
  | .atom .global => I.names.global == I.names.trace
  | _ => false

@[simp] theorem isTrace_trace : I.isTrace (.atom (.identifier I.names.trace)) = true :=
  beq_self_eq_true _

/-- What is the name of the trace function is an identifier or the global object. -/
theorem atom_of_isTrace {k : Kind} (h : I.isTrace k = true) :
    k = .atom .global ∨ ∃ name, k = .atom (.identifier name) := by
  unfold isTrace at h
  split at h
  · exact .inr ⟨_, rfl⟩
  · exact .inl rfl
  · cases h

/-- The evaluation of an atom. -/
def atom : Atom → Memory V σ → V × Memory V σ
  | .identifier name, m => ((I.perform (.identifier name) [] m.state).1,
      { m with state := (I.perform (.identifier name) [] m.state).2 })
  | .boolean b, m => (I.literal (.boolean b), m)
  | .number n, m => (I.literal (.number n), m)
  | .string s, m => (I.literal (.string s), m)
  | .null, m => (I.literal .null, m)
  | .undefined, m => (I.undefined, m)
  | .constant index, m =>
      (((m.pool[index.toNat]?).map fun s => I.literal (.string s)).getD I.undefined, m)
  | .register index, m => ((I.perform (.register index) [] m.state).1,
      { m with state := (I.perform (.register index) [] m.state).2 })
  | .temporary id, m => (m.temporaries id, m)
  | .global, m => ((I.perform (.identifier I.names.global) [] m.state).1,
      { m with state := (I.perform (.identifier I.names.global) [] m.state).2 })
  | .pop, m => (m.stack.headD I.undefined, { m with stack := m.stack.tail })

/-- A store of a value to what a target answers. -/
def assign (op : AssignmentOperator) (target : Answer V) (v : V) (m : Memory V σ) :
    V × Memory V σ :=
  match op, target with
  | op, .place p =>
      let r := I.store op p v m.state
      (r.1, { m with state := r.2 })
  | .simple, .slot id => (v, m.bind id v)
  | .add, .slot id =>
      let r := I.perform (.binary .add) [m.temporaries id, v] m.state
      (r.1, { m with state := r.2 }.bind id r.1)
  | _, _ => (v, m)

/-- The answer and the memory after the own effect of a node whose children have answered. -/
def effect (kind : Kind) (answers : List (Answer V)) (m : Memory V σ) :
    Ending V (Answer V) × Memory V σ :=
  let values := answers.map (Answer.valueD I.undefined)
  let value := values.getLastD I.undefined
  match kind with
  | .ret => (.returned values.head?, m)
  | .raise => (.raised value, m)
  | .atom a => let r := I.atom a m; (.done (.value r.1), r.2)
  | .input index => (.done (.value (I.inputs index)), m)
  | .sequence => (.done (.value value), m)
  | .unary op => let r := I.performing (.unary op) values m; (.done r.1, r.2)
  | .binary op => let r := I.performing (.binary op) values m; (.done r.1, r.2)
  | .member => let r := I.performing .member values m; (.done r.1, r.2)
  | .lookup => let r := I.performing .lookup values m; (.done r.1, r.2)
  | .propertyName => let r := I.performing .propertyName values m; (.done r.1, r.2)
  | .call => let r := I.performing .call values m; (.done r.1, r.2)
  | .initArray => let r := I.consuming .initArray values m; (.done (.value r.1), r.2)
  | .initObject => let r := I.consuming .initObject values m; (.done (.value r.1), r.2)
  | .assignment op =>
      let r := I.assign op (answers.headD .off) value m
      (.done (.value r.1), r.2)
  | .identifierTarget name => (.done (.place (.identifier name)), m)
  | .memberTarget => (.done (.place (.member (values.headD I.undefined) value)), m)
  | .registerTarget index => (.done (.place (.register index)), m)
  | .temporaryTarget id => (.done (.slot id), m)
  | .push => (.done .off, m.push value)
  | .constantPool pool => (.done .off, { m with pool })
  | .setVariable => (.done .off, (I.performing .setVariable values m).2)
  | .declareVariable => (.done .off, (I.performing .declareVariable values m).2)
  | .trace => (.done .off, (I.performing .trace values m).2)
  | .stackCall =>
      let r := I.consuming .call (values.take 2) m
      (.done .off, (I.assign .simple (answers.getD 2 .off) r.1 r.2).2)
  | .script | .block | .empty | .expression | .branch | .logical _ | .conditional =>
      (.done .off, m)

/-- Goes on after an evaluation, unless it ended early. -/
def andThen {α β : Type} (r : Ending V α × Memory V σ)
    (k : α → Memory V σ → Ending V β × Memory V σ) : Ending V β × Memory V σ :=
  match r with
  | (.done a, m) => k a m
  | (.returned v, m) => (.returned v, m)
  | (.raised v, m) => (.raised v, m)

mutual

/-- The run of a tree. -/
def exec : Rose Form → Memory V σ → Ending V (Answer V) × Memory V σ
  | .node form parts, m =>
      if form.kind.isChoice then execChoice form.kind parts m
      else if form.kind = .call then execCall parts m
      else andThen (execRow parts m) (I.effect form.kind)

/-- The run of trees in a row, with their answers. -/
def execRow : List (Rose Form) → Memory V σ → Ending V (List (Answer V)) × Memory V σ
  | [], m => (.done [], m)
  | part :: parts, m =>
      andThen (exec part m) fun a m => andThen (execRow parts m) fun as m => (.done (a :: as), m)

/-- The run of a test and of the arm that its value calls for. -/
def execChoice (kind : Kind) :
    List (Rose Form) → Memory V σ → Ending V (Answer V) × Memory V σ
  | [], m => (.done .off, m)
  | test :: arms, m =>
      andThen (exec test m) fun a m =>
        match kind.arm? (I.holds (a.valueD I.undefined)) with
        | some index => execArm index arms m
        | none => (.done a, m)

/-- The run of one of some arms. -/
def execArm : Nat → List (Rose Form) → Memory V σ → Ending V (Answer V) × Memory V σ
  | _, [], m => (.done .off, m)
  | 0, arm :: _, m => exec arm m
  | index + 1, _ :: arms, m => execArm index arms m

/-- The run of a callee and its arguments, or of the arguments of the trace function. -/
def execCall : List (Rose Form) → Memory V σ → Ending V (Answer V) × Memory V σ
  | [], m => I.effect .call [] m
  | callee :: arguments, m =>
      if I.isTrace callee.label.kind then
        andThen (execRow arguments m) fun as m =>
          let r := I.performing .trace (as.map (Answer.valueD I.undefined)) m
          (.done r.1, r.2)
      else
        andThen (exec callee m) fun a m => andThen (execRow arguments m) fun as m =>
          I.effect .call (a :: as) m

end

/-- The run of a script. -/
def run (s : Script) (m : Memory V σ) : Ending V (Answer V) × Memory V σ := I.exec s.rose m

/-! ## Single nodes -/

variable {m : Memory V σ} {form : Form} {parts : List (Rose Form)}

theorem exec_sequential (hk : form.kind.isChoice = false) (hc : form.kind ≠ .call) :
    I.exec (.node form parts) m = andThen (I.execRow parts m) (I.effect form.kind) := by
  rw [exec, hk, if_neg (by simp), if_neg hc]

theorem exec_choice (hk : form.kind.isChoice = true) :
    I.exec (.node form parts) m = I.execChoice form.kind parts m := by
  rw [exec, hk, if_pos rfl]

theorem exec_call (hk : form.kind = .call) :
    I.exec (.node form parts) m = I.execCall parts m := by
  rw [exec, hk, if_neg (by simp [Kind.isChoice]), if_pos rfl]

theorem exec_leaf (hk : form.kind.isChoice = false) (hc : form.kind ≠ .call) :
    I.exec (.node form []) m = I.effect form.kind [] m := by
  rw [exec_sequential I hk hc, execRow]
  rfl

/-- A call of the trace function on one value. -/
theorem exec_traceCall (e : Expr) :
    I.exec (Expr.call (.identifier I.names.trace) [e] none).rose m =
    andThen (I.exec e.rose m) fun a m =>
      (.done (I.performing .trace [a.valueD I.undefined] m).1,
        (I.performing .trace [a.valueD I.undefined] m).2) := by
  have htrace : I.isTrace (Expr.identifier I.names.trace).rose.label.kind = true := I.isTrace_trace
  rw [Expr.rose, exec_call I rfl, execCall, if_pos htrace, Expr.roses, Expr.roses, execRow]
  rcases I.exec e.rose m with ⟨ending, m'⟩
  cases ending with
  | done a =>
    simp only [andThen, execRow]
    rfl
  | returned v => rfl
  | raised v => rfl

/-- The statement that stores in a temporary. -/
theorem exec_binding {id : Nat} :
    I.exec (.node ⟨.expression, none⟩
      [.node ⟨.assignment .simple, none⟩ (.node ⟨.temporaryTarget id, none⟩ [] :: parts)]) m =
    andThen (I.execRow parts m) fun as m =>
      (.done .off, m.bind id ((as.map (Answer.valueD I.undefined)).getLastD I.undefined)) := by
  rw [exec_sequential I rfl (by simp), execRow, exec_sequential I rfl (by simp), execRow,
    exec_leaf I rfl (by simp)]
  simp only [effect, andThen]
  rcases I.execRow parts m with ⟨e, m'⟩
  cases e with
  | done as =>
    simp only [execRow, assign, List.map_cons, Answer.valueD, List.getLastD_cons,
      List.headD_cons]
  | returned v => rfl
  | raised v => rfl

end Interpretation

end ScriptRecovery
