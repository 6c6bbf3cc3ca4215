import ScriptRecovery.Arena.Form

/-!
# Well-formed trees

A tree of kinds is syntax when every node has the children its kind calls for.  What a kind calls
for depends on the categories of the children alone (`Kind.admits`), so a well-formed tree stays
well-formed when a part of it gives way to a well-formed one of the same category.

The trees of syntax are well-formed, and every well-formed tree is the tree of the syntax that is
read from it.
-/

namespace ScriptRecovery

/-- Whether a node of a kind can have children of some categories. -/
def Kind.admits (kind : Kind) (cs : List Category) : Prop :=
  match kind with
  | .script | .block => ∀ c ∈ cs, c = .statement
  | .empty | .constantPool _ | .atom _ | .input _ | .identifierTarget _ | .registerTarget _
  | .temporaryTarget _ => cs = []
  | .expression | .raise | .push | .trace | .unary _ | .lookup | .propertyName | .initArray
  | .initObject => cs = [.expression]
  | .setVariable | .binary _ | .logical _ | .member | .memberTarget =>
      cs = [.expression, .expression]
  | .ret => cs = [] ∨ cs = [.expression]
  | .branch => cs = [.expression, .statement] ∨ cs = [.expression, .statement, .statement]
  | .declareVariable => cs = [.expression] ∨ cs = [.expression, .expression]
  | .stackCall => cs = [.expression, .expression] ∨ cs = [.expression, .expression, .target]
  | .assignment _ => cs = [.target, .expression]
  | .call => ∃ rest, cs = .expression :: rest ∧ ∀ c ∈ rest, c = .expression
  | .sequence => ∀ c ∈ cs, c = .expression
  | .conditional => cs = [.expression, .expression, .expression]

/-- Scripts are the only kind of their category. -/
theorem Kind.eq_script_of_category {kind : Kind} (h : kind.category = .script) :
    kind = .script := by
  cases kind <;> first | rfl | cases h

/-- No kind calls for a script among its children. -/
theorem Kind.not_script_of_admits {kind : Kind} {cs : List Category} (h : kind.admits cs) :
    ∀ c ∈ cs, c ≠ .script := by
  cases kind <;> simp only [Kind.admits] at h <;> grind

/-- A statement is an element of a list or an arm of a choice. -/
theorem Kind.statement_of_admits {kind : Kind} {cs : List Category} (h : kind.admits cs) {i : Nat}
    (hi : cs[i]? = some .statement) :
    (kind = .script ∨ kind = .block) ∨ kind = .branch ∧ i ≠ 0 := by
  have hmem := List.mem_of_getElem? hi
  cases kind <;> simp only [Kind.admits] at h
  case script => exact .inl (.inl rfl)
  case block => exact .inl (.inr rfl)
  all_goals grind

namespace Rose

/-- The category of the root. -/
def category (r : Rose Form) : Category := r.label.kind.category

@[simp] theorem category_node {form : Form} {parts : List (Rose Form)} :
    (Rose.node form parts).category = form.kind.category := rfl

/-- Whether every node has the children its kind calls for.  Placeholders come from nowhere. -/
inductive WellFormed : Rose Form → Prop
  | node {form : Form} {parts : List (Rose Form)} :
      form.kind.admits (parts.map category) →
      (∀ index, form.kind = .input index → form.loc = none) →
      (∀ r ∈ parts, WellFormed r) → WellFormed (.node form parts)

theorem WellFormed.admits {form : Form} {parts : List (Rose Form)}
    (h : WellFormed (.node form parts)) : form.kind.admits (parts.map category) := by
  cases h with
  | node h _ _ => exact h

theorem WellFormed.parts {form : Form} {parts : List (Rose Form)}
    (h : WellFormed (.node form parts)) : ∀ r ∈ parts, r.WellFormed := by
  cases h with
  | node _ _ h => exact h

end Rose

open Rose

/-! ## The trees of syntax are well-formed -/

@[simp] theorem Expr.category_rose (e : Expr) : e.rose.category = .expression := by
  cases e <;> rfl

@[simp] theorem Target.category_rose (p : Target) : p.rose.category = .target := by
  cases p <;> rfl

@[simp] theorem Stmt.category_rose (s : Stmt) : s.rose.category = .statement := by
  cases s with
  | branch test truthy falsy loc => cases falsy <;> rfl
  | _ => rfl

theorem Expr.roses_eq_map (es : List Expr) : Expr.roses es = es.map Expr.rose := by
  induction es with
  | nil => rfl
  | cons e es ih => rw [Expr.roses, ih, List.map_cons]

theorem Stmt.roses_eq_map (ss : List Stmt) : Stmt.roses ss = ss.map Stmt.rose := by
  induction ss with
  | nil => rfl
  | cons s ss ih => rw [Stmt.roses, ih, List.map_cons]

mutual

theorem Expr.wellFormed_rose : (e : Expr) → e.rose.WellFormed
  | .atom .. => .node rfl (by simp) (by simp)
  | .unary _ a _ => .node (by simp [Kind.admits]) (by simp) (by simp [a.wellFormed_rose])
  | .binary _ a b _ =>
      .node (by simp [Kind.admits]) (by simp) (by simp [a.wellFormed_rose, b.wellFormed_rose])
  | .logical _ a b _ =>
      .node (by simp [Kind.admits]) (by simp) (by simp [a.wellFormed_rose, b.wellFormed_rose])
  | .assignment _ p a _ =>
      .node (by simp [Kind.admits]) (by simp) (by simp [p.wellFormed_rose, a.wellFormed_rose])
  | .member a b _ =>
      .node (by simp [Kind.admits]) (by simp) (by simp [a.wellFormed_rose, b.wellFormed_rose])
  | .call a es _ =>
      .node ⟨_, by simp; rfl, by simp [Expr.roses_eq_map]⟩ (by simp) (by
        simpa [a.wellFormed_rose] using Expr.wellFormed_roses es)
  | .sequence es _ =>
      .node (by simp [Kind.admits, Expr.roses_eq_map]) (by simp) (Expr.wellFormed_roses es)
  | .conditional a b c _ =>
      .node (by simp [Kind.admits]) (by simp)
        (by simp [a.wellFormed_rose, b.wellFormed_rose, c.wellFormed_rose])
  | .lookup a _ => .node (by simp [Kind.admits]) (by simp) (by simp [a.wellFormed_rose])
  | .propertyName a _ => .node (by simp [Kind.admits]) (by simp) (by simp [a.wellFormed_rose])
  | .initArray a _ => .node (by simp [Kind.admits]) (by simp) (by simp [a.wellFormed_rose])
  | .initObject a _ => .node (by simp [Kind.admits]) (by simp) (by simp [a.wellFormed_rose])
  | .input _ => .node rfl (by simp) (by simp)

theorem Target.wellFormed_rose : (p : Target) → p.rose.WellFormed
  | .identifier .. | .register .. | .temporary .. => .node rfl (by simp) (by simp)
  | .member a b _ =>
      .node (by simp [Kind.admits]) (by simp) (by simp [a.wellFormed_rose, b.wellFormed_rose])

theorem Expr.wellFormed_roses : (es : List Expr) → ∀ r ∈ Expr.roses es, r.WellFormed
  | [] => by simp [Expr.roses]
  | e :: es => by
      simpa [Expr.roses, e.wellFormed_rose] using Expr.wellFormed_roses es

end

mutual

theorem Stmt.wellFormed_rose : (s : Stmt) → s.rose.WellFormed
  | .block ss _ =>
      .node (by simp [Kind.admits, Stmt.roses_eq_map]) (by simp) (Stmt.wellFormed_roses ss)
  | .empty _ | .constantPool .. | .ret none _ => .node (by simp [Kind.admits]) (by simp) (by simp)
  | .expression a _ | .ret (some a) _ | .raise a _ | .push a _ | .trace a _
  | .declareVariable a none _ =>
      .node (by simp [Kind.admits]) (by simp) (by simp [a.wellFormed_rose])
  | .branch a s none _ =>
      .node (by simp [Kind.admits]) (by simp) (by simp [a.wellFormed_rose, s.wellFormed_rose])
  | .branch a s (some s') _ =>
      .node (by simp [Kind.admits]) (by simp)
        (by simp [a.wellFormed_rose, s.wellFormed_rose, s'.wellFormed_rose])
  | .setVariable a b _ | .declareVariable a (some b) _ | .stackCall none a b _ =>
      .node (by simp [Kind.admits]) (by simp) (by simp [a.wellFormed_rose, b.wellFormed_rose])
  | .stackCall (some p) a b _ =>
      .node (by simp [Kind.admits]) (by simp)
        (by simp [a.wellFormed_rose, b.wellFormed_rose, p.wellFormed_rose])

theorem Stmt.wellFormed_roses : (ss : List Stmt) → ∀ r ∈ Stmt.roses ss, r.WellFormed
  | [] => by simp [Stmt.roses]
  | s :: ss => by
      simpa [Stmt.roses, s.wellFormed_rose] using Stmt.wellFormed_roses ss

end

theorem Script.wellFormed_rose (s : Script) : s.rose.WellFormed :=
  .node (by simp [Kind.admits, Stmt.roses_eq_map]) (by simp) (Stmt.wellFormed_roses s.body)

/-! ## Well-formed trees are syntax -/

/-- Whether a tree is that of the expression read from it. -/
def Expr.IsRead (r : Rose Form) : Prop := ∃ e, Expr.ofRose? r = some e ∧ e.rose = r

/-- Whether a tree is that of the target read from it. -/
def Target.IsRead (r : Rose Form) : Prop := ∃ p, Target.ofRose? r = some p ∧ p.rose = r

/-- Whether a tree is that of the statement read from it. -/
def Stmt.IsRead (r : Rose Form) : Prop := ∃ s, Stmt.ofRose? r = some s ∧ s.rose = r

theorem Expr.ofRoses?_eq_some {rs : List (Rose Form)} (h : ∀ r ∈ rs, Expr.IsRead r) :
    ∃ es, Expr.ofRoses? rs = some es ∧ Expr.roses es = rs := by
  induction rs with
  | nil => exact ⟨[], rfl, rfl⟩
  | cons r rs ih =>
    obtain ⟨e, he, hr⟩ := h r (by simp)
    obtain ⟨es, hes, hrs⟩ := ih fun r hr => h r (by simp [hr])
    exact ⟨e :: es, by simp [Expr.ofRoses?, he, hes], by simp [Expr.roses, hr, hrs]⟩

theorem Stmt.ofRoses?_eq_some {rs : List (Rose Form)} (h : ∀ r ∈ rs, Stmt.IsRead r) :
    ∃ ss, Stmt.ofRoses? rs = some ss ∧ Stmt.roses ss = rs := by
  induction rs with
  | nil => exact ⟨[], rfl, rfl⟩
  | cons r rs ih =>
    obtain ⟨s, hs, hr⟩ := h r (by simp)
    obtain ⟨ss, hss, hrs⟩ := ih fun r hr => h r (by simp [hr])
    exact ⟨s :: ss, by simp [Stmt.ofRoses?, hs, hss], by simp [Stmt.roses, hr, hrs]⟩

namespace Rose

variable {form : Form} {parts : List (Rose Form)}

theorem map_eq_pair {α β : Type} {f : α → β} {l : List α} {a b : β} (h : l.map f = [a, b]) :
    ∃ x y, l = [x, y] ∧ f x = a ∧ f y = b := by
  obtain ⟨x, t, rfl, hx, h⟩ := List.map_eq_cons_iff.1 h
  obtain ⟨y, rfl, hy⟩ := List.map_eq_singleton_iff.1 h
  exact ⟨x, y, rfl, hx, hy⟩

theorem map_eq_triple {α β : Type} {f : α → β} {l : List α} {a b c : β}
    (h : l.map f = [a, b, c]) : ∃ x y z, l = [x, y, z] ∧ f x = a ∧ f y = b ∧ f z = c := by
  obtain ⟨x, t, rfl, hx, h⟩ := List.map_eq_cons_iff.1 h
  obtain ⟨y, z, rfl, hy, hz⟩ := map_eq_pair h
  exact ⟨x, y, z, rfl, hx, hy, hz⟩

theorem read_parts {p : Rose Form → Prop} {c : Category} (hc : ∀ c' ∈ parts.map category, c' = c)
    (h : ∀ r ∈ parts, r.category = c → p r) : ∀ r ∈ parts, p r :=
  fun r hr => h r hr (hc _ (List.mem_map_of_mem hr))

/-- Parts that are to be one expression are the tree of one. -/
theorem read_one (hc : parts.map category = [.expression])
    (h : ∀ r ∈ parts, r.category = .expression → Expr.IsRead r) :
    ∃ a, parts = [a.rose] ∧ Expr.ofRose? a.rose = some a := by
  obtain ⟨x, rfl, hx⟩ := List.map_eq_singleton_iff.1 hc
  obtain ⟨a, ha, rfl⟩ := h x (by simp) hx
  exact ⟨a, rfl, ha⟩

/-- Parts that are to be two expressions are the trees of two. -/
theorem read_two (hc : parts.map category = [.expression, .expression])
    (h : ∀ r ∈ parts, r.category = .expression → Expr.IsRead r) :
    ∃ a b, parts = [a.rose, b.rose] ∧ Expr.ofRose? a.rose = some a ∧
      Expr.ofRose? b.rose = some b := by
  obtain ⟨x, y, rfl, hx, hy⟩ := map_eq_pair hc
  obtain ⟨a, ha, rfl⟩ := h x (by simp) hx
  obtain ⟨b, hb, rfl⟩ := h y (by simp) hy
  exact ⟨a, b, rfl, ha, hb⟩

/-- A well-formed tree of an expression or target is the tree of what is read from it. -/
theorem WellFormed.read {r : Rose Form} (h : r.WellFormed) :
    (r.category = .expression → Expr.IsRead r) ∧ (r.category = .target → Target.IsRead r) := by
  induction h with
  | @node form parts hadmits hinput _ ih =>
    have he := fun r hr => (ih r hr).1
    have ht := fun r hr => (ih r hr).2
    obtain ⟨kind, loc⟩ := form
    cases kind <;> simp only [category_node, Kind.category, reduceCtorEq, false_implies,
      true_implies, and_true, true_and]
    case atom a =>
      obtain rfl := List.map_eq_nil_iff.1 hadmits
      exact ⟨.atom a loc, rfl, rfl⟩
    case input index =>
      obtain rfl := List.map_eq_nil_iff.1 hadmits
      obtain rfl : loc = none := hinput index rfl
      exact ⟨.input index, rfl, rfl⟩
    case unary op =>
      obtain ⟨a, rfl, ha⟩ := read_one hadmits he
      exact ⟨.unary op a loc, by simp [Expr.ofRose?, ha], rfl⟩
    case lookup =>
      obtain ⟨a, rfl, ha⟩ := read_one hadmits he
      exact ⟨.lookup a loc, by simp [Expr.ofRose?, ha], rfl⟩
    case propertyName =>
      obtain ⟨a, rfl, ha⟩ := read_one hadmits he
      exact ⟨.propertyName a loc, by simp [Expr.ofRose?, ha], rfl⟩
    case initArray =>
      obtain ⟨a, rfl, ha⟩ := read_one hadmits he
      exact ⟨.initArray a loc, by simp [Expr.ofRose?, ha], rfl⟩
    case initObject =>
      obtain ⟨a, rfl, ha⟩ := read_one hadmits he
      exact ⟨.initObject a loc, by simp [Expr.ofRose?, ha], rfl⟩
    case binary op =>
      obtain ⟨a, b, rfl, ha, hb⟩ := read_two hadmits he
      exact ⟨.binary op a b loc, by simp [Expr.ofRose?, ha, hb], rfl⟩
    case logical op =>
      obtain ⟨a, b, rfl, ha, hb⟩ := read_two hadmits he
      exact ⟨.logical op a b loc, by simp [Expr.ofRose?, ha, hb], rfl⟩
    case member =>
      obtain ⟨a, b, rfl, ha, hb⟩ := read_two hadmits he
      exact ⟨.member a b loc, by simp [Expr.ofRose?, ha, hb], rfl⟩
    case memberTarget =>
      obtain ⟨a, b, rfl, ha, hb⟩ := read_two hadmits he
      exact ⟨.member a b loc, by simp [Target.ofRose?, ha, hb], rfl⟩
    case conditional =>
      obtain ⟨x, y, z, rfl, hx, hy, hz⟩ := map_eq_triple hadmits
      obtain ⟨a, ha, rfl⟩ := he x (by simp) hx
      obtain ⟨b, hb, rfl⟩ := he y (by simp) hy
      obtain ⟨c, hc, rfl⟩ := he z (by simp) hz
      exact ⟨.conditional a b c loc, by simp [Expr.ofRose?, ha, hb, hc], rfl⟩
    case assignment op =>
      obtain ⟨x, y, rfl, hx, hy⟩ := map_eq_pair hadmits
      obtain ⟨p, hp, rfl⟩ := ht x (by simp) hx
      obtain ⟨a, ha, rfl⟩ := he y (by simp) hy
      exact ⟨.assignment op p a loc, by simp [Expr.ofRose?, hp, ha], rfl⟩
    case call =>
      obtain ⟨rest, hrest, hall⟩ := hadmits
      obtain ⟨x, xs, rfl, hx, rfl⟩ := List.map_eq_cons_iff.1 hrest
      obtain ⟨a, ha, rfl⟩ := he x (by simp) hx
      obtain ⟨es, hes, rfl⟩ := Expr.ofRoses?_eq_some
        (read_parts hall fun r hr => he r (by simp [hr]))
      exact ⟨.call a es loc, by simp [Expr.ofRose?, ha, hes], rfl⟩
    case sequence =>
      obtain ⟨es, hes, rfl⟩ := Expr.ofRoses?_eq_some (read_parts hadmits he)
      exact ⟨.sequence es loc, by simp [Expr.ofRose?, hes], rfl⟩
    case identifierTarget name =>
      obtain rfl := List.map_eq_nil_iff.1 hadmits
      exact ⟨.identifier name loc, rfl, rfl⟩
    case registerTarget index =>
      obtain rfl := List.map_eq_nil_iff.1 hadmits
      exact ⟨.register index loc, rfl, rfl⟩
    case temporaryTarget id =>
      obtain rfl := List.map_eq_nil_iff.1 hadmits
      exact ⟨.temporary id loc, rfl, rfl⟩

/-- A well-formed tree of a statement is the tree of what is read from it. -/
theorem WellFormed.read_stmt {r : Rose Form} (h : r.WellFormed) (hr : r.category = .statement) :
    Stmt.IsRead r := by
  induction h with
  | @node form parts hadmits hinput hparts ih =>
    have he := fun r hr => (hparts r hr).read.1
    have ht := fun r hr => (hparts r hr).read.2
    obtain ⟨kind, loc⟩ := form
    cases kind <;> simp only [category_node, Kind.category, reduceCtorEq] at hr
    case block =>
      obtain ⟨ss, hss, rfl⟩ := Stmt.ofRoses?_eq_some (read_parts hadmits ih)
      exact ⟨.block ss loc, by simp [Stmt.ofRose?, hss], rfl⟩
    case empty =>
      obtain rfl := List.map_eq_nil_iff.1 hadmits
      exact ⟨.empty loc, rfl, rfl⟩
    case constantPool pool =>
      obtain rfl := List.map_eq_nil_iff.1 hadmits
      exact ⟨.constantPool pool loc, rfl, rfl⟩
    case expression =>
      obtain ⟨a, rfl, ha⟩ := read_one hadmits he
      exact ⟨.expression a loc, by simp [Stmt.ofRose?, ha], rfl⟩
    case raise =>
      obtain ⟨a, rfl, ha⟩ := read_one hadmits he
      exact ⟨.raise a loc, by simp [Stmt.ofRose?, ha], rfl⟩
    case push =>
      obtain ⟨a, rfl, ha⟩ := read_one hadmits he
      exact ⟨.push a loc, by simp [Stmt.ofRose?, ha], rfl⟩
    case trace =>
      obtain ⟨a, rfl, ha⟩ := read_one hadmits he
      exact ⟨.trace a loc, by simp [Stmt.ofRose?, ha], rfl⟩
    case ret =>
      rcases hadmits with hadmits | hadmits
      · obtain rfl := List.map_eq_nil_iff.1 hadmits
        exact ⟨.ret none loc, rfl, rfl⟩
      · obtain ⟨a, rfl, ha⟩ := read_one hadmits he
        exact ⟨.ret (some a) loc, by simp [Stmt.ofRose?, ha], rfl⟩
    case setVariable =>
      obtain ⟨a, b, rfl, ha, hb⟩ := read_two hadmits he
      exact ⟨.setVariable a b loc, by simp [Stmt.ofRose?, ha, hb], rfl⟩
    case declareVariable =>
      rcases hadmits with hadmits | hadmits
      · obtain ⟨a, rfl, ha⟩ := read_one hadmits he
        exact ⟨.declareVariable a none loc, by simp [Stmt.ofRose?, ha], rfl⟩
      · obtain ⟨a, b, rfl, ha, hb⟩ := read_two hadmits he
        exact ⟨.declareVariable a (some b) loc, by simp [Stmt.ofRose?, ha, hb], rfl⟩
    case branch =>
      rcases hadmits with hadmits | hadmits
      · obtain ⟨x, y, rfl, hx, hy⟩ := map_eq_pair hadmits
        obtain ⟨a, ha, rfl⟩ := he x (by simp) hx
        obtain ⟨s, hs, rfl⟩ := ih y (by simp) hy
        exact ⟨.branch a s none loc, by simp [Stmt.ofRose?, ha, hs], rfl⟩
      · obtain ⟨x, y, z, rfl, hx, hy, hz⟩ := map_eq_triple hadmits
        obtain ⟨a, ha, rfl⟩ := he x (by simp) hx
        obtain ⟨s, hs, rfl⟩ := ih y (by simp) hy
        obtain ⟨s', hs', rfl⟩ := ih z (by simp) hz
        exact ⟨.branch a s (some s') loc, by simp [Stmt.ofRose?, ha, hs, hs'], rfl⟩
    case stackCall =>
      rcases hadmits with hadmits | hadmits
      · obtain ⟨a, b, rfl, ha, hb⟩ := read_two hadmits he
        exact ⟨.stackCall none a b loc, by simp [Stmt.ofRose?, ha, hb], rfl⟩
      · obtain ⟨x, y, z, rfl, hx, hy, hz⟩ := map_eq_triple hadmits
        obtain ⟨a, ha, rfl⟩ := he x (by simp) hx
        obtain ⟨b, hb, rfl⟩ := he y (by simp) hy
        obtain ⟨p, hp, rfl⟩ := ht z (by simp) hz
        exact ⟨.stackCall (some p) a b loc, by simp [Stmt.ofRose?, ha, hb, hp], rfl⟩

/-- A well-formed tree of a script is the tree of what is read from it. -/
theorem WellFormed.read_script {r : Rose Form} (h : r.WellFormed) (hr : r.category = .script) :
    ∃ s, Script.ofRose? r = some s ∧ s.rose = r := by
  cases h with
  | @node form parts hadmits _ hparts =>
    obtain ⟨kind, loc⟩ := form
    cases kind <;> simp only [category_node, Kind.category, reduceCtorEq] at hr
    case script =>
      obtain ⟨ss, hss, rfl⟩ := Stmt.ofRoses?_eq_some
        (read_parts hadmits fun r hr => (hparts r hr).read_stmt)
      exact ⟨⟨ss, loc⟩, by simp [Script.ofRose?, hss], rfl⟩

/-- The tree of an expression or target has no statement in it. -/
theorem WellFormed.no_statement {r : Rose Form} (h : r.WellFormed) (hc : r.category ≠ .statement)
    (hs : r.category ≠ .script) : ∀ form ∈ r.labels, form.kind.category ≠ .statement := by
  induction h with
  | @node form parts hadmits _ _ ih =>
    intro x hx
    have hparts : ∀ p ∈ parts, p.category ≠ .statement ∧ p.category ≠ .script := by
      intro p hp
      have hp' : p.category ∈ parts.map category := List.mem_map_of_mem hp
      obtain ⟨kind, loc⟩ := form
      cases kind <;> simp only [category_node, Kind.category, ne_eq, reduceCtorEq,
        not_false_eq_true, not_true_eq_false] at hc hs
      all_goals simp only [Kind.admits] at hadmits
      case call =>
        obtain ⟨rest, hrest, hall⟩ := hadmits
        rw [hrest, List.mem_cons] at hp'
        rcases hp' with h | h
        · simp [h]
        · simp [hall _ h]
      case sequence => simp [hadmits _ hp']
      all_goals
        rw [hadmits] at hp'
        grind
    rw [labels, List.mem_cons, labelsAll_eq_flatMap, List.mem_flatMap] at hx
    rcases hx with rfl | ⟨p, hp, hx⟩
    · exact hc
    · exact ih p hp (hparts p hp).1 (hparts p hp).2 x hx

end Rose

end ScriptRecovery
