import ScriptRecovery.Proofs.Arena.Coherence

/-!
# Planting loses nothing

What is read from the tree of a piece of syntax is that piece of syntax (`Script.ofRose?_rose`), so
trees of forms tell pieces of syntax apart (`Script.rose_injective`).  A new arena therefore gives
its script back, and it has one slot for every part of the script, in preorder
(`toScript_ofScript`).

The parts of a script are counted on the syntax alone (`Script.partCount`).
-/

namespace ScriptRecovery

open Rose

/-! ## Reading the trees of syntax -/

mutual

/-- Reading the tree of an expression gives the expression. -/
theorem Expr.ofRose?_rose : (e : Expr) → Expr.ofRose? e.rose = some e
  | .atom .. | .input _ => rfl
  | .unary _ a _ | .lookup a _ | .propertyName a _ | .initArray a _ | .initObject a _ => by
      simp [Expr.rose, Expr.ofRose?, a.ofRose?_rose]
  | .binary _ a b _ | .logical _ a b _ | .member a b _ => by
      simp [Expr.rose, Expr.ofRose?, a.ofRose?_rose, b.ofRose?_rose]
  | .assignment _ p a _ => by
      simp [Expr.rose, Expr.ofRose?, p.ofRose?_rose, a.ofRose?_rose]
  | .conditional a b c _ => by
      simp [Expr.rose, Expr.ofRose?, a.ofRose?_rose, b.ofRose?_rose, c.ofRose?_rose]
  | .call a es _ => by
      simp [Expr.rose, Expr.ofRose?, a.ofRose?_rose, Expr.ofRoses?_roses es]
  | .sequence es _ => by
      simp [Expr.rose, Expr.ofRose?, Expr.ofRoses?_roses es]

/-- Reading the tree of a target gives the target. -/
theorem Target.ofRose?_rose : (p : Target) → Target.ofRose? p.rose = some p
  | .identifier .. | .register .. | .temporary .. => rfl
  | .member a b _ => by
      simp [Target.rose, Target.ofRose?, a.ofRose?_rose, b.ofRose?_rose]

theorem Expr.ofRoses?_roses : (es : List Expr) → Expr.ofRoses? (Expr.roses es) = some es
  | [] => rfl
  | e :: es => by
      simp [Expr.roses, Expr.ofRoses?, e.ofRose?_rose, Expr.ofRoses?_roses es]

end

mutual

/-- Reading the tree of a statement gives the statement. -/
theorem Stmt.ofRose?_rose : (s : Stmt) → Stmt.ofRose? s.rose = some s
  | .empty _ | .constantPool .. | .ret none _ => rfl
  | .block ss _ => by simp [Stmt.rose, Stmt.ofRose?, Stmt.ofRoses?_roses ss]
  | .expression a _ | .ret (some a) _ | .raise a _ | .push a _ | .trace a _
  | .declareVariable a none _ => by
      simp [Stmt.rose, Stmt.ofRose?, a.ofRose?_rose]
  | .branch a s none _ => by
      simp [Stmt.rose, Stmt.ofRose?, a.ofRose?_rose, s.ofRose?_rose]
  | .branch a s (some s') _ => by
      simp [Stmt.rose, Stmt.ofRose?, a.ofRose?_rose, s.ofRose?_rose, s'.ofRose?_rose]
  | .setVariable a b _ | .declareVariable a (some b) _ | .stackCall none a b _ => by
      simp [Stmt.rose, Stmt.ofRose?, a.ofRose?_rose, b.ofRose?_rose]
  | .stackCall (some p) a b _ => by
      simp [Stmt.rose, Stmt.ofRose?, p.ofRose?_rose, a.ofRose?_rose, b.ofRose?_rose]

theorem Stmt.ofRoses?_roses : (ss : List Stmt) → Stmt.ofRoses? (Stmt.roses ss) = some ss
  | [] => rfl
  | s :: ss => by
      simp [Stmt.roses, Stmt.ofRoses?, s.ofRose?_rose, Stmt.ofRoses?_roses ss]

end

/-- Reading the tree of a script gives the script. -/
theorem Script.ofRose?_rose (s : Script) : Script.ofRose? s.rose = some s := by
  simp [Script.rose, Script.ofRose?, Stmt.ofRoses?_roses]

/-- Expressions with one tree are one expression. -/
theorem Expr.rose_injective : Function.Injective Expr.rose := by
  intro e e' h
  have hread := e.ofRose?_rose
  rw [h, e'.ofRose?_rose] at hread
  exact (Option.some.inj hread).symm

/-- Scripts with one tree are one script. -/
theorem Script.rose_injective : Function.Injective Script.rose := by
  intro s s' h
  have hread := s.ofRose?_rose
  rw [h, s'.ofRose?_rose] at hread
  exact (Option.some.inj hread).symm

/-! ## The parts of a script -/

mutual

/-- The number of parts of an expression, itself included. -/
def Expr.partCount : Expr → Nat
  | .atom .. | .input _ => 1
  | .unary _ a _ | .lookup a _ | .propertyName a _ | .initArray a _ | .initObject a _ =>
      a.partCount + 1
  | .binary _ a b _ | .logical _ a b _ | .member a b _ => a.partCount + b.partCount + 1
  | .assignment _ target value _ => target.partCount + value.partCount + 1
  | .conditional a b c _ => a.partCount + b.partCount + c.partCount + 1
  | .call callee arguments _ => callee.partCount + Expr.partCounts arguments + 1
  | .sequence expressions _ => Expr.partCounts expressions + 1

/-- The number of parts of a target, itself included. -/
def Target.partCount : Target → Nat
  | .identifier .. | .register .. | .temporary .. => 1
  | .member base key _ => base.partCount + key.partCount + 1

/-- The number of parts of some expressions. -/
def Expr.partCounts : List Expr → Nat
  | [] => 0
  | e :: es => e.partCount + Expr.partCounts es

end

mutual

/-- The number of parts of a statement, itself included. -/
def Stmt.partCount : Stmt → Nat
  | .empty _ | .constantPool .. | .ret none _ => 1
  | .block body _ => Stmt.partCounts body + 1
  | .expression a _ | .ret (some a) _ | .raise a _ | .push a _ | .trace a _
  | .declareVariable a none _ => a.partCount + 1
  | .branch test truthy none _ => test.partCount + truthy.partCount + 1
  | .branch test truthy (some falsy) _ =>
      test.partCount + truthy.partCount + falsy.partCount + 1
  | .setVariable a b _ | .declareVariable a (some b) _ | .stackCall none a b _ =>
      a.partCount + b.partCount + 1
  | .stackCall (some target) a b _ => target.partCount + a.partCount + b.partCount + 1

/-- The number of parts of some statements. -/
def Stmt.partCounts : List Stmt → Nat
  | [] => 0
  | s :: ss => s.partCount + Stmt.partCounts ss

end

/-- The number of parts of a script, itself included. -/
def Script.partCount (s : Script) : Nat := Stmt.partCounts s.body + 1

mutual

theorem Expr.length_labels_rose : (e : Expr) → e.rose.labels.length = e.partCount
  | .atom .. | .input _ => rfl
  | .unary _ a _ | .lookup a _ | .propertyName a _ | .initArray a _ | .initObject a _ => by
      simp [Expr.rose, Expr.partCount, labelsAll, a.length_labels_rose]
  | .binary _ a b _ | .logical _ a b _ | .member a b _ => by
      simp [Expr.rose, Expr.partCount, labelsAll, a.length_labels_rose, b.length_labels_rose]
  | .assignment _ p a _ => by
      simp [Expr.rose, Expr.partCount, labelsAll, p.length_labels_rose, a.length_labels_rose]
  | .conditional a b c _ => by
      simp [Expr.rose, Expr.partCount, labelsAll, a.length_labels_rose, b.length_labels_rose,
        c.length_labels_rose, Nat.add_assoc]
  | .call a es _ => by
      simp [Expr.rose, Expr.partCount, labelsAll, a.length_labels_rose,
        Expr.length_labels_roses es]
  | .sequence es _ => by
      simp [Expr.rose, Expr.partCount, Expr.length_labels_roses es]

theorem Target.length_labels_rose : (p : Target) → p.rose.labels.length = p.partCount
  | .identifier .. | .register .. | .temporary .. => rfl
  | .member a b _ => by
      simp [Target.rose, Target.partCount, labelsAll, a.length_labels_rose, b.length_labels_rose]

theorem Expr.length_labels_roses : (es : List Expr) →
    (labelsAll (Expr.roses es)).length = Expr.partCounts es
  | [] => rfl
  | e :: es => by
      simp [Expr.roses, Expr.partCounts, labelsAll, e.length_labels_rose,
        Expr.length_labels_roses es]

end

mutual

theorem Stmt.length_labels_rose : (s : Stmt) → s.rose.labels.length = s.partCount
  | .empty _ | .constantPool .. | .ret none _ => rfl
  | .block ss _ => by simp [Stmt.rose, Stmt.partCount, Stmt.length_labels_roses ss]
  | .expression a _ | .ret (some a) _ | .raise a _ | .push a _ | .trace a _
  | .declareVariable a none _ => by
      simp [Stmt.rose, Stmt.partCount, labelsAll, a.length_labels_rose]
  | .branch a s none _ => by
      simp [Stmt.rose, Stmt.partCount, labelsAll, a.length_labels_rose, s.length_labels_rose]
  | .branch a s (some s') _ => by
      simp [Stmt.rose, Stmt.partCount, labelsAll, a.length_labels_rose, s.length_labels_rose,
        s'.length_labels_rose, Nat.add_assoc]
  | .setVariable a b _ | .declareVariable a (some b) _ | .stackCall none a b _ => by
      simp [Stmt.rose, Stmt.partCount, labelsAll, a.length_labels_rose, b.length_labels_rose]
  | .stackCall (some p) a b _ => by
      simp [Stmt.rose, Stmt.partCount, labelsAll, p.length_labels_rose, a.length_labels_rose,
        b.length_labels_rose]
      omega

theorem Stmt.length_labels_roses : (ss : List Stmt) →
    (labelsAll (Stmt.roses ss)).length = Stmt.partCounts ss
  | [] => rfl
  | s :: ss => by
      simp [Stmt.roses, Stmt.partCounts, labelsAll, s.length_labels_rose,
        Stmt.length_labels_roses ss]

end

/-- The tree of a script has a node for each of its parts. -/
theorem Script.length_labels_rose (s : Script) : s.rose.labels.length = s.partCount := by
  simp [Script.rose, Script.partCount, Stmt.length_labels_roses]

/-! ## New arenas -/

namespace SyntaxTree

/-- The nodes of a new arena are numbered in preorder. -/
theorem numbers_ofScript (s : Script) :
    (s.rose.tagged 0 1).numbers = List.range s.partCount := by
  have hcount : s.partCount - 1 + 1 = s.partCount := rfl
  rw [numbers_tagged, s.length_labels_rose, ← hcount, Nat.add_sub_cancel, List.range_eq_range',
    List.range'_succ]

/-- A new arena has no empty slots. -/
theorem live_ofScript (s : Script) : (ofScript s).live = List.range s.partCount := by
  have hsize : (ofScript s).slots.size = s.partCount := by
    have hsize : (ofScript s).slots.size + 1 = 1 + s.rose.labels.length := size_plantAt
    rw [← s.length_labels_rose]
    omega
  rw [live, hsize, List.filter_eq_self]
  intro n hn
  rwa [(tidy_ofScript s).isSome_iff, numbers_ofScript]

/-- What a number stands for is the label at it, when a tree is numbered in preorder. -/
theorem form_eq_labels {t : SyntaxTree} {r : Rose (Nat × Form)} {count : Nat} (h : t.Tidy r)
    (hn : r.numbers = List.range count) (n : Nat) :
    (t.slot? n).map Slot.form = r.forms.labels[n]? := by
  have hlength : r.labels.length = count := by
    rw [← length_numbers, hn, List.length_range]
  rw [forms, labels_map, List.getElem?_map]
  cases hat : r.labels[n]? with
  | none =>
    rw [List.getElem?_eq_none_iff] at hat
    have hempty : ¬(t.slot? n).isSome := by
      rw [h.isSome_iff, hn, List.mem_range]
      omega
    rw [Option.not_isSome_iff_eq_none.1 hempty]
    rfl
  | some label =>
    obtain ⟨k, form⟩ := label
    have hk : k = n := by
      have hnumber : r.numbers[n]? = some k := by
        rw [numbers, List.getElem?_map, hat]
        rfl
      rw [hn, List.getElem?_range (by have := (List.getElem?_eq_some_iff.1 hat).1; omega)]
        at hnumber
      exact (Option.some.inj hnumber).symm
    subst hk
    obtain ⟨C, parts, rfl, -⟩ := h.represents.exists_plug (List.mem_of_getElem? hat)
    obtain ⟨link, hheld, -⟩ := h.represents.holds.plug
    rw [hheld.slot?]
    rfl

/-- A new arena gives its script back.  It has one slot for each part of the script and no others,
and the parts are numbered in preorder. -/
theorem toScript_ofScript (s : Script) :
    (ofScript s).toScript = .ok s ∧ (ofScript s).live = List.range s.partCount ∧
      (∀ n, ((ofScript s).slot? n).map Slot.form = s.rose.labels[n]?) ∧
      ∃ b, (ofScript s).branch? root = some b ∧ b.forms = s.rose ∧
        b.numbers = List.range s.partCount := by
  have h := tidy_ofScript s
  refine ⟨?_, live_ofScript s, fun n => ?_, _, ?_, forms_tagged s.rose, numbers_ofScript s⟩
  · obtain ⟨s', hs', hrose⟩ := h.represents.toScript_eq_ok h.wellFormed h.category
    rw [forms_tagged] at hrose
    rw [hs', s'.rose_injective hrose]
  · rw [form_eq_labels h (numbers_ofScript s), forms_tagged]
  · rw [← h.represents.root]
    exact h.represents.holds.branch? h.represents.nodup

end SyntaxTree

end ScriptRecovery
