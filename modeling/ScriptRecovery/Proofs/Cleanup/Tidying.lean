import Mathlib.Logic.Relation
import ScriptRecovery.Cleanup.Builtins
import ScriptRecovery.Cleanup.Statements
import ScriptRecovery.Proofs.Stack.Binding

/-!
# Cleanup of a script

The edits that name builtins and drop statements succeed on every script that can be edited, and
each of them changes one place.  `Rose.Named` and `Rose.Dropped` say what happens there, and
`Rose.Locally` puts it into a tree, so the stages are chains of such changes.

What is left of the edits stays possible: the nodes of the other edits keep their numbers and their
lists, as an edited node has no other node of an edit below it (`SyntaxTree.Editable.applyAll`).
Every edit takes one node of a sort away.  There are as many edits as such nodes, so none is left at
the end (`SyntaxTree.Editable.applyAll_spent`).
-/

namespace ScriptRecovery

open Relation Rose

/-- Whether a node of a kind is a builtin. -/
def Kind.isBuiltin (k : Kind) : Bool := k = .atom .global || k = .trace

namespace Rose

/-! ## Changes in one place -/

/-- Whether two trees differ in one place, by related trees there. -/
def Locally (R : Rose Form → Rose Form → Prop) (r r' : Rose Form) : Prop :=
  ∃ (C : Context Form) (x x' : Rose Form), r = C.plug x ∧ r' = C.plug x' ∧ R x x'

/-- Whether a builtin gives way to its name. -/
inductive Named (names : BuiltinNames) : Rose Form → Rose Form → Prop
  | global (loc : Loc) :
      Named names (.node ⟨.atom .global, loc⟩ []) (Expr.identifier names.global).rose
  | trace (value : Expr) (loc : Loc) :
      Named names (Stmt.trace value loc).rose
        (Stmt.expression (.call (.identifier names.trace) [value] none) none).rose

/-- Whether a statement without parts goes, out of its list or for an empty one that stays. -/
inductive Dropped (p : Kind → Prop) : Rose Form → Rose Form → Prop
  | emptied {form : Form} : p form.kind → ¬p .empty →
      Dropped p (.node form []) (Stmt.empty none).rose
  | removed {form part : Form} {left right : List (Rose Form)} :
      form.kind = .script ∨ form.kind = .block → p part.kind →
      Dropped p (.node form (left ++ .node part [] :: right)) (.node form (left ++ right))

/-- Whether a relation of trees goes through contexts. -/
structure Congruence (S : Rose Form → Rose Form → Prop) : Prop where
  refl : ∀ x, S x x
  trans : ∀ {x y z}, S x y → S y z → S x z
  plug : ∀ {C : Context Form} {x x'}, S x x' → S (C.plug x) (C.plug x')

/-- Changes one after another, in one place each, are related when every change is. -/
theorem Congruence.of_steps {R S : Rose Form → Rose Form → Prop} (hS : Congruence S)
    (hR : ∀ {x x'}, R x x' → S x x') {r r' : Rose Form} (h : ReflTransGen (Locally R) r r') :
    S r r' := by
  induction h with
  | refl => exact hS.refl r
  | tail _ hstep ih =>
    obtain ⟨C, x, x', rfl, rfl, hx⟩ := hstep
    exact hS.trans ih (hS.plug (hR hx))

theorem locally_forms {R : Rose Form → Rose Form → Prop} {C : Context (Nat × Form)}
    {x x' : Rose (Nat × Form)} (h : R x.forms x'.forms) :
    Locally R (C.plug x).forms (C.plug x').forms :=
  ⟨C.map Prod.snd, x.forms, x'.forms, map_plug _ _ _, map_plug _ _ _, h⟩

/-- What each change takes away one of is one fewer. -/
theorem Locally.countP {R : Rose Form → Rose Form → Prop} {q : Form → Bool} {r r' : Rose Form}
    (hR : ∀ {x x' : Rose Form}, R x x' → x'.labels.countP q + 1 = x.labels.countP q)
    (h : Locally R r r') : r'.labels.countP q + 1 = r.labels.countP q := by
  obtain ⟨C, x, x', rfl, rfl, hx⟩ := h
  have := hR hx
  simp only [labels_plug, List.countP_append]
  omega

theorem countP_named {names : BuiltinNames} {x x' : Rose Form} (h : Named names x x') :
    x'.labels.countP (·.kind.isBuiltin) + 1 = x.labels.countP (·.kind.isBuiltin) := by
  cases h with
  | global loc => rfl
  | trace value loc =>
    simp [Stmt.rose, Expr.rose, Expr.roses, Expr.identifier, labelsAll, Kind.isBuiltin]

theorem countP_dropped {p : Kind → Prop} {q : Kind → Bool} (hq : ∀ k, q k = true ↔ p k)
    {x x' : Rose Form} (h : Dropped p x x') :
    x'.labels.countP (q ·.kind) + 1 = x.labels.countP (q ·.kind) := by
  cases h with
  | @emptied form hk hstays =>
    have hempty : q .empty = false := Bool.eq_false_iff.2 fun h => hstays ((hq _).1 h)
    simp [Stmt.rose, labelsAll, (hq _).2 hk, hempty]
  | @removed form part left right _ hk =>
    simp only [labels_node, labelsAll_append, labelsAll, List.countP_cons, List.countP_append,
      (hq _).2 hk, if_true, List.countP_nil]
    omega

/-! ## Elements of lists that stay -/

theorem number_plug {C : Context (Nat × Form)} {r r' : Rose (Nat × Form)}
    (h : r'.number = r.number) : (C.plug r').number = (C.plug r).number := by
  cases C with
  | nil => exact h
  | cons c C => rfl

theorem Listed.plug {C : Context (Nat × Form)} {n : Nat} {r : Rose (Nat × Form)}
    (h : Listed n r) : Listed n (C.plug r) := by
  induction C with
  | nil => exact h
  | cons c C ih => exact .there (by simp) ih

/-- An element stays in its list when it does where a tree gives way to one with the same number at
its root. -/
theorem Listed.plug_imp {C : Context (Nat × Form)} {n : Nat} {r r' : Rose (Nat × Form)}
    (h : Listed n (C.plug r)) (himp : Listed n r → Listed n r') (hnum : r'.number = r.number) :
    Listed n (C.plug r') := by
  induction C with
  | nil => exact himp h
  | cons c C ih =>
    obtain ⟨⟨i, f⟩, before, after⟩ := c
    simp only [Context.plug] at h ⊢
    cases h with
    | @here _ _ _ x hk hx hn =>
      rw [List.mem_append, List.mem_cons] at hx
      rcases hx with hx | rfl | hx
      · exact .here hk (List.mem_append_left _ hx) hn
      · exact .here (x := Context.plug C r') hk (by simp) ((number_plug hnum).trans hn)
      · exact .here hk (List.mem_append_right _ (List.mem_cons_of_mem _ hx)) hn
    | there hx hl =>
      rw [List.mem_append, List.mem_cons] at hx
      rcases hx with hx | rfl | hx
      · exact .there (List.mem_append_left _ hx) hl
      · exact .there (by simp) (ih hl)
      · exact .there (List.mem_append_right _ (List.mem_cons_of_mem _ hx)) hl

/-- An element stays in its list when another one without parts goes. -/
theorem Listed.remove {C : Context (Nat × Form)} {n m k : Nat} {form part : Form}
    {left right : List (Rose (Nat × Form))}
    (h : Listed m (C.plug (.node (k, form) (left ++ .node (n, part) [] :: right)))) (hm : m ≠ n) :
    Listed m (C.plug (.node (k, form) (left ++ right))) := by
  have hkeep : ∀ {x : Rose (Nat × Form)}, x ∈ left ++ .node (n, part) [] :: right →
      x = .node (n, part) [] ∨ x ∈ left ++ right := by
    intro x hx
    rw [List.mem_append, List.mem_cons] at hx
    rw [List.mem_append]
    tauto
  have hlist : Listed m (.node (k, form) (left ++ .node (n, part) [] :: right)) →
      Listed m (.node (k, form) (left ++ right)) := by
    intro h
    cases h with
    | here hk hx hn =>
      rcases hkeep hx with rfl | hx
      · exact absurd hn.symm hm
      · exact .here hk hx hn
    | there hx hl =>
      rcases hkeep hx with rfl | hx
      · cases hl with
        | here _ hy _ => cases hy
        | there hy _ => cases hy
      · exact .there hx hl
  exact h.plug_imp hlist rfl

/-- An element was in its list before another one went. -/
theorem Listed.of_remove {C : Context (Nat × Form)} {n k : Nat} {form : Form}
    {left right : List (Rose (Nat × Form))} {x : Rose (Nat × Form)}
    (h : Listed n (C.plug (.node (k, form) (left ++ right)))) :
    Listed n (C.plug (.node (k, form) (left ++ x :: right))) := by
  have hsub : left ++ right ⊆ left ++ x :: right :=
    List.append_subset.2 ⟨List.subset_append_left _ _, fun y hy => by simp [hy]⟩
  have hlist : Listed n (.node (k, form) (left ++ right)) →
      Listed n (.node (k, form) (left ++ x :: right)) := by
    intro h
    cases h with
    | here hk hx hn => exact .here hk (hsub hx) hn
    | there hx hl => exact .there (hsub hx) hl
  exact h.plug_imp hlist rfl

/-! ## Statements outside lists -/

/-- Whether the arms of all choices are blocks. -/
inductive Braced : Rose Form → Prop
  | node {form : Form} {parts : List (Rose Form)} :
      (form.kind = .branch → ∀ arm ∈ parts.drop 1, arm.label.kind = .block) →
      (∀ r ∈ parts, Braced r) → Braced (.node form parts)

/-- Where the arms are blocks, every other statement is in a list. -/
theorem Braced.listed {r : Rose (Nat × Form)} (hb : r.forms.Braced) (hw : r.forms.WellFormed)
    {n : Nat} {form : Form} (hn : (n, form) ∈ r.labels) (hroot : (n, form) ≠ r.label)
    (hc : form.kind.category = .statement) (hk : form.kind ≠ .block) : Listed n r := by
  induction r using Rose.induct with
  | h label parts ih =>
    obtain ⟨k, f⟩ := label
    rw [forms_node] at hb hw
    obtain ⟨harms, hparts⟩ := hb
    obtain ⟨x, hx, hmem⟩ :=
      mem_labelsAll.1 ((List.mem_cons.1 (labels_node ▸ hn)).resolve_left hroot)
    by_cases hself : (n, form) = x.label
    · obtain ⟨⟨m, g⟩, below⟩ := x
      obtain ⟨rfl, rfl⟩ := Prod.mk.inj hself
      obtain ⟨i, hi⟩ := List.mem_iff_getElem?.1 hx
      have hcat : ((parts.map forms).map category)[i]? = some .statement := by
        simp [hi, hc]
      rcases Kind.statement_of_admits hw.admits hcat with hlist | ⟨hbranch, hne⟩
      · exact .here hlist hx rfl
      · obtain ⟨i, rfl⟩ := Nat.exists_eq_succ_of_ne_zero hne
        refine absurd (harms hbranch (forms (.node (n, form) below)) ?_) (by rwa [forms_node])
        refine List.mem_iff_getElem?.2 ⟨i, ?_⟩
        rw [List.getElem?_drop, Nat.add_comm, List.getElem?_map, hi]
        rfl
    · exact .there hx (ih x hx (hparts _ (List.mem_map_of_mem hx))
        (hw.parts _ (List.mem_map_of_mem hx)) hmem hself)

end Rose

namespace SyntaxTree

variable {t : SyntaxTree} {r : Rose (Nat × Form)}

/-- What is an element of a list is one in the arena. -/
theorem Editable.inList (h : t.Editable r) {n : Nat} (hl : Listed n r) : t.inList n = true := by
  obtain ⟨C, k, form, left, x, right, rfl, rfl, hk⟩ := hl.exists_plug
  obtain ⟨link, hheld, -⟩ := h.represents.holds.plug
  have hx := (hheld.part (i := left.length) (r := x) (by simp)).parent?_eq
  have hbody : form.kind.fieldAt left.length = .body := by
    rcases hk with hk | hk <;> rw [hk, Kind.fieldAt]
  simp [SyntaxTree.inList, hx, hbody]

/-! ## Edits of several nodes -/

/-- Edits that each succeed, and leave what the others are for, all succeed. -/
theorem Editable.applyAll_ok {ns : List Nat} {edit : SyntaxTree → Nat → Except Fault SyntaxTree}
    {T : Rose (Nat × Form) → List Nat → Prop}
    (hstep : ∀ {t r n ns}, t.Editable r → (n :: ns).Nodup → T r (n :: ns) →
      ∃ t' r', edit t n = .ok t' ∧ t'.Editable r' ∧ T r' ns)
    (h : t.Editable r) (hn : ns.Nodup) (hT : T r ns) :
    ∃ t' r', Outcome.applyAll edit t ns = ⟨t', .ok true⟩ ∧ t'.Editable r' ∧ T r' [] := by
  induction ns generalizing t r with
  | nil => exact ⟨t, r, rfl, h, hT⟩
  | cons n ns ih =>
    obtain ⟨t₁, r₁, hok, h₁, hT₁⟩ := hstep h hn hT
    obtain ⟨t', r', hrun, h', hT'⟩ := ih h₁ (List.nodup_cons.1 hn).2 hT₁
    exact ⟨t', r', by simpa only [Outcome.applyAll, hok] using hrun, h', hT'⟩

/-- Edits that each change one place, and leave what the others are for, change a script place by
place. -/
theorem Editable.applyAll {R : Rose Form → Rose Form → Prop} {ns : List Nat}
    {edit : SyntaxTree → Nat → Except Fault SyntaxTree} {T : Rose (Nat × Form) → List Nat → Prop}
    (hstep : ∀ {t r n ns}, t.Editable r → (n :: ns).Nodup → T r (n :: ns) →
      ∃ t' r', edit t n = .ok t' ∧ t'.Editable r' ∧ Locally R r.forms r'.forms ∧ T r' ns)
    (h : t.Editable r) (hn : ns.Nodup) (hT : T r ns) :
    ∃ t' r', (Outcome.ofEdits edit t (.ok ns)).toExcept = .ok t' ∧ t'.Editable r' ∧
      ReflTransGen (Locally R) r.forms r'.forms ∧ T r' [] := by
  obtain ⟨t', r', hrun, h', hsteps, hT'⟩ := h.applyAll_ok
    (T := fun r' ns' => ReflTransGen (Locally R) r.forms r'.forms ∧ T r' ns')
    (fun h₁ hn₁ ⟨hsteps, hT₁⟩ => by
      obtain ⟨t₂, r₂, hok, h₂, hlocal, hT₂⟩ := hstep h₁ hn₁ hT₁
      exact ⟨t₂, r₂, hok, h₂, hsteps.tail hlocal, hT₂⟩) hn ⟨.refl, hT⟩
  refine ⟨t', r', ?_, h', hsteps, hT'⟩
  rw [Outcome.toExcept_ofEdits, hrun]
  rfl

/-- Edits that each change one place, and take one of a sort of nodes away there, leave none of
them. -/
theorem Editable.applyAll_spent {R : Rose Form → Rose Form → Prop} {ns : List Nat}
    {edit : SyntaxTree → Nat → Except Fault SyntaxTree} {T : Rose (Nat × Form) → List Nat → Prop}
    {q : Kind → Bool}
    (hR : ∀ {x x' : Rose Form}, R x x' →
      x'.labels.countP (q ·.kind) + 1 = x.labels.countP (q ·.kind))
    (hstep : ∀ {t r n ns}, t.Editable r → (n :: ns).Nodup → T r (n :: ns) →
      ∃ t' r', edit t n = .ok t' ∧ t'.Editable r' ∧ Locally R r.forms r'.forms ∧ T r' ns)
    (h : t.Editable r) (hn : ns.Nodup) (hT : T r ns) :
    ∃ t' r', (Outcome.ofEdits edit t (.ok ns)).toExcept = .ok t' ∧ t'.Editable r' ∧
      ReflTransGen (Locally R) r.forms r'.forms ∧
      (r.forms.labels.countP (q ·.kind) = ns.length →
        ∀ form ∈ r'.forms.labels, q form.kind = false) := by
  refine (h.applyAll (T := fun r' ns' => T r' ns' ∧
      (r.forms.labels.countP (q ·.kind) = ns.length →
        r'.forms.labels.countP (q ·.kind) = ns'.length))
    (fun {t₁ r₁ n ns₁} h₁ hn₁ ⟨hT₁, hcount⟩ => ?_) hn ⟨hT, id⟩).imp
    fun t' ⟨r', hok, h', hsteps, _, hcount⟩ =>
      ⟨r', hok, h', hsteps, fun hall form hform => ?_⟩
  · obtain ⟨t₂, r₂, hok, h₂, hlocal, hT₂⟩ := hstep h₁ hn₁ hT₁
    refine ⟨t₂, r₂, hok, h₂, hlocal, hT₂, fun hall => ?_⟩
    have hone := hlocal.countP hR
    have hleft := hcount hall
    rw [List.length_cons] at hleft
    omega
  · simpa using List.countP_eq_zero.1 (hcount hall) form hform

/-! ## Names in place of builtins -/

/-- Whether numbers are those of uses of the global object, and then of traces. -/
def Builtins (r : Rose (Nat × Form)) (ns : List Nat) : Prop :=
  ∃ globals traces, ns = globals ++ traces ∧
    (∀ n ∈ globals, ∃ loc, (n, (⟨.atom .global, loc⟩ : Form)) ∈ r.labels) ∧
    ∀ n ∈ traces, ∃ loc, (n, (⟨.trace, loc⟩ : Form)) ∈ r.labels

theorem Represents.kind?_eq_some {n : Nat} {form : Form} (h : t.Represents r)
    (hn : (n, form) ∈ r.labels) : t.kind? n = some form.kind := by
  obtain ⟨C, parts, rfl, -⟩ := h.exists_plug hn
  obtain ⟨link, hl, -⟩ := h.holds.plug
  rw [kind?, hl.slot?]
  rfl

/-- A name takes the place of a use of the global object, and leaves the other nodes. -/
theorem Editable.name_global (names : BuiltinNames) {n : Nat} {loc : Loc} (h : t.Editable r)
    (hn : (n, (⟨.atom .global, loc⟩ : Form)) ∈ r.labels) :
    ∃ t' r', t.replaceExpression n (.identifier names.global) = .ok t' ∧ t'.Editable r' ∧
      Locally (Named names) r.forms r'.forms ∧
        ∀ m ≠ n, ∀ form, (m, form) ∈ r.labels → (m, form) ∈ r'.labels := by
  obtain ⟨C, parts, rfl, -⟩ := h.represents.exists_plug hn
  obtain rfl : parts = [] := by
    simpa [Kind.admits, mapAll_eq_map] using h.of_plug.admits
  obtain ⟨t', hok, ht'⟩ := h.replace_eq_ok
    (Expr.wellFormed_rose (.identifier names.global)) rfl
  refine ⟨t', _, hok, ht', locally_forms ?_, fun m hm form hin => ?_⟩
  · rw [forms_tagged]
    exact .global loc
  · refine mem_labels_of_ne hin fun hin' => hm ?_
    simpa [labelsAll] using congrArg Prod.fst (List.mem_singleton.1 (labels_node ▸ hin'))

/-- A call with the value of a trace takes its place, and leaves the other statements. -/
theorem Editable.name_trace (names : BuiltinNames) {n : Nat} {loc : Loc} (h : t.Editable r)
    (hn : (n, (⟨.trace, loc⟩ : Form)) ∈ r.labels) : ∃ value,
      t.statement n = .ok (.trace value loc) ∧
        (∃ v, t.child? n .value = some v ∧ t.expression v = .ok value) ∧
      ∃ t' r', t.replaceStatement n
          (.expression (.call (.identifier names.trace) [value] none) none) = .ok t' ∧
        t'.Editable r' ∧ Locally (Named names) r.forms r'.forms ∧
        ∀ m ≠ n, ∀ form, form.kind.category = .statement → (m, form) ∈ r.labels →
          (m, form) ∈ r'.labels := by
  obtain ⟨C, parts, rfl, -⟩ := h.represents.exists_plug hn
  obtain ⟨v, e, rfl, hv, he, hev, hquiet⟩ := h.of_plug.exists_operand fun _ h => h
  obtain ⟨link, hheld, -⟩ := h.represents.holds.plug
  have hnodup := h.represents.nodup_plug.1
  have hpart := hheld.part (i := 0) (r := v) rfl
  have hread : t.statement n = .ok (.trace e loc) :=
    hheld.readAs_eq_ok hnodup rfl (by
      rw [forms_node]
      simp [Stmt.ofRose?, he])
  have hvalue : t.expression v.number = .ok e :=
    hpart.readAs_eq_ok (nodup_part hnodup v (by simp)).1 hv he
  have hchild : t.child? n .value = some v.number := by
    rw [SyntaxTree.child?, SyntaxTree.children, hheld.slot?]
    simp [hpart.parent?_eq, Kind.fieldAt]
  obtain ⟨t', hok, ht'⟩ := h.replace_eq_ok (Stmt.wellFormed_rose
    (.expression (.call (.identifier names.trace) [e] none) none)) rfl
  refine ⟨e, hread, ⟨v.number, hchild, hvalue⟩, t', _, hok, ht', locally_forms ?_,
    fun m hm form hc hin => mem_labels_of_ne hin fun hin' => ?_⟩
  · rw [forms_tagged, forms_node, List.map_singleton, ← hev]
    exact .trace e loc
  · rcases List.mem_cons.1 (labels_node ▸ hin') with heq | hin'
    · exact hm (congrArg Prod.fst heq)
    · -- what is below the trace belongs to an expression
      rw [labelsAll, labelsAll, List.append_nil] at hin'
      exact hquiet _ hin' hc

theorem Editable.nameBuiltin {names : BuiltinNames} {n : Nat} {ns : List Nat} (h : t.Editable r)
    (hn : (n :: ns).Nodup) (hb : Builtins r (n :: ns)) :
    ∃ t' r', t.nameBuiltin names n = .ok t' ∧ t'.Editable r' ∧
      Locally (Named names) r.forms r'.forms ∧ Builtins r' ns := by
  obtain ⟨globals, traces, hns, hglobal, htrace⟩ := hb
  have hne : ∀ m ∈ ns, m ≠ n := by
    rintro m hm rfl
    exact (List.nodup_cons.1 hn).1 hm
  cases globals with
  | nil =>
    obtain rfl : n :: ns = traces := hns
    obtain ⟨loc, hl⟩ := htrace n (by simp)
    obtain ⟨value, hread, -, t', r', hok, ht', hstep, hkeep⟩ := h.name_trace names hl
    refine ⟨t', r', ?_, ht', hstep, [], ns, rfl, by simp, fun m hm => ?_⟩
    · simp only [SyntaxTree.nameBuiltin, h.represents.kind?_eq_some hl, hread, bind, Except.bind]
      exact hok
    · obtain ⟨loc', hm'⟩ := htrace m (List.mem_cons_of_mem _ hm)
      exact ⟨loc', hkeep m (hne m hm) _ rfl hm'⟩
  | cons g globals =>
    obtain ⟨rfl, rfl⟩ : n = g ∧ ns = globals ++ traces := by simpa using hns
    obtain ⟨loc, hl⟩ := hglobal n (by simp)
    obtain ⟨t', r', hok, ht', hstep, hkeep⟩ := h.name_global names hl
    refine ⟨t', r', ?_, ht', hstep, globals, traces, rfl, fun m hm => ?_, fun m hm => ?_⟩
    · simp only [SyntaxTree.nameBuiltin, h.represents.kind?_eq_some hl]
      exact hok
    · obtain ⟨loc', hm'⟩ := hglobal m (List.mem_cons_of_mem _ hm)
      exact ⟨loc', hkeep m (hne m (List.mem_append_left _ hm)) _ hm'⟩
    · obtain ⟨loc', hm'⟩ := htrace m hm
      exact ⟨loc', hkeep m (hne m (List.mem_append_right _ hm)) _ hm'⟩

theorem Represents.nodup_filter (h : t.Represents r) (p : Nat × Form → Bool) :
    ((t.nodes.filter p).map Prod.fst).Nodup := by
  rw [h.nodes]
  exact h.nodup.sublist (List.filter_sublist.map _)

theorem Represents.mem_filter (h : t.Represents r) {p : Nat × Form → Bool} {n : Nat} :
    n ∈ (t.nodes.filter p).map Prod.fst ↔ ∃ form, (n, form) ∈ r.labels ∧ p (n, form) = true := by
  rw [h.nodes]
  simp

theorem Represents.countP_forms (h : t.Represents r) (q : Kind → Bool) :
    r.forms.labels.countP (q ·.kind) = t.nodes.countP (q ·.2.kind) := by
  rw [forms, labels_map, h.nodes, List.countP_map]
  rfl

theorem countP_isBuiltin (l : List (Nat × Form)) : l.countP (·.2.kind.isBuiltin) =
    l.countP (·.2.kind = .atom .global) + l.countP (·.2.kind = .trace) := by
  induction l with
  | nil => rfl
  | cons x l ih =>
    rw [List.countP_cons, List.countP_cons, List.countP_cons, ih]
    by_cases hglobal : x.2.kind = .atom .global
    · simp [Kind.isBuiltin, hglobal]
      omega
    · simp [Kind.isBuiltin, hglobal]
      omega

/-- There are as many numbers to name as there are builtins. -/
theorem Represents.length_builtins (h : t.Represents r) :
    t.builtins.length = r.forms.labels.countP (·.kind.isBuiltin) := by
  rw [h.countP_forms, countP_isBuiltin, builtins, List.length_map, List.length_append,
    ← List.countP_eq_length_filter, ← List.countP_eq_length_filter]

theorem Represents.nodup_builtins (h : t.Represents r) : t.builtins.Nodup := by
  rw [builtins, List.map_append]
  refine List.nodup_append.2
    ⟨h.nodup_filter _, h.nodup_filter _, fun n hn m hm heq => ?_⟩
  obtain ⟨form, hn, hk⟩ := h.mem_filter.1 hn
  obtain ⟨form', hm, hk'⟩ := h.mem_filter.1 hm
  obtain rfl : form = form' := congrArg Prod.snd (h.eq_of_number hn hm heq)
  have hk : form.kind = .atom .global := by simpa using hk
  simp [hk] at hk'

/-- Builtins give way to their names. -/
theorem Editable.nameBuiltins (h : t.Editable r) (names : BuiltinNames) :
    ∃ t' r', (t.nameBuiltins names).toExcept = .ok t' ∧ t'.Editable r' ∧
      ReflTransGen (Locally (Named names)) r.forms r'.forms ∧
      ∀ form ∈ r'.forms.labels, form.kind.isBuiltin = false := by
  refine (h.applyAll_spent (T := Builtins) countP_named (fun h hn hb => h.nameBuiltin hn hb)
    h.represents.nodup_builtins ⟨_, _, List.map_append, fun n hn => ?_, fun n hn => ?_⟩).imp
      fun t' ⟨r', hok, h', hsteps, hnone⟩ =>
        ⟨r', hok, h', hsteps, hnone h.represents.length_builtins.symm⟩
  · obtain ⟨⟨kind, loc⟩, hn, hk⟩ := h.represents.mem_filter.1 hn
    obtain rfl : kind = .atom .global := by simpa using hk
    exact ⟨loc, hn⟩
  · obtain ⟨⟨kind, loc⟩, hn, hk⟩ := h.represents.mem_filter.1 hn
    obtain rfl : kind = .trace := by simpa using hk
    exact ⟨loc, hn⟩

/-! ## Statements taken out -/

variable {p : Kind → Prop}

/-- A statement without parts is taken out of its list. -/
theorem Editable.remove_at (hp : ∀ {kind : Kind} {cs : List Category}, p kind → kind.admits cs →
    cs = []) {n : Nat} {form : Form} (h : t.Editable r) (hn : (n, form) ∈ r.labels)
    (hk : p form.kind) (hl : Listed n r) : ∃ (t' : SyntaxTree) (C : Context (Nat × Form)) (k : Nat)
      (f : Form) (left right : List (Rose (Nat × Form))),
      r = C.plug (.node (k, f) (left ++ .node (n, form) [] :: right)) ∧
        (f.kind = .script ∨ f.kind = .block) ∧ t.removeStatement n = .ok t' ∧
          t'.Editable (C.plug (.node (k, f) (left ++ right))) := by
  obtain ⟨C, k, f, left, x, right, rfl, rfl, hf⟩ := hl.exists_plug
  obtain ⟨⟨i, form'⟩, below⟩ := x
  have hmem : (i, form') ∈
      (C.plug (.node (k, f) (left ++ .node (i, form') below :: right))).labels := by
    rw [labels_plug, labels_node, labelsAll_append]
    simp [labelsAll]
  obtain rfl : form' = form := congrArg Prod.snd (h.represents.eq_of_number hmem hn rfl)
  have hw := h.of_plug
  rw [forms_node] at hw
  obtain rfl : below = [] := by
    have hpart := hw.parts (.node form' (below.map forms)) (by simp)
    simpa using hp hk hpart.admits
  obtain ⟨t', hok, ht'⟩ := h.removeStatement_eq_ok hf
  exact ⟨t', C, k, f, left, right, rfl, hf, hok, ht'⟩

/-- Taking a statement without parts out of its list leaves the other nodes and lists. -/
theorem Editable.remove (hp : ∀ {kind : Kind} {cs : List Category}, p kind → kind.admits cs →
    cs = []) {n : Nat} {form : Form} (h : t.Editable r) (hn : (n, form) ∈ r.labels)
    (hk : p form.kind) (hl : Listed n r) :
    ∃ t' r', t.removeStatement n = .ok t' ∧ t'.Editable r' ∧
      Locally (Dropped p) r.forms r'.forms ∧ ∀ m ≠ n, (Listed m r → Listed m r') ∧
        ∀ form', (m, form') ∈ r.labels → (m, form') ∈ r'.labels := by
  obtain ⟨t', C, k, f, left, right, rfl, hf, hok, ht'⟩ := h.remove_at hp hn hk hl
  refine ⟨t', _, hok, ht', locally_forms ?_, fun m hm => ⟨fun hl => hl.remove hm, ?_⟩⟩
  · simp only [forms_node, List.map_append, List.map_cons, List.map_nil]
    exact .removed hf hk
  · intro form'' hin
    have hne : (m, form'') ≠ (n, form) := fun heq => hm (congrArg Prod.fst heq)
    simpa [labels_plug, labelsAll_append, labelsAll, hne] using hin

/-- The place of a statement without parts is emptied. -/
theorem Editable.clear_at (hp : ∀ {kind : Kind} {cs : List Category}, p kind → kind.admits cs →
    cs = []) {n : Nat} {form : Form} (h : t.Editable r) (hn : (n, form) ∈ r.labels)
    (hk : p form.kind) (hc : form.kind.category = .statement) :
    ∃ (t' : SyntaxTree) (C : Context (Nat × Form)),
      r = C.plug (.node (n, form) []) ∧ t.replaceStatement n (.empty none) = .ok t' ∧
        t'.Editable (C.plug (.node (n, ⟨.empty, none⟩) [])) := by
  obtain ⟨C, parts, rfl, -⟩ := h.represents.exists_plug hn
  obtain rfl : parts = [] := by
    have hw := h.of_plug
    rw [forms_node] at hw
    simpa [mapAll_eq_map] using hp hk hw.admits
  obtain ⟨t', hok, ht'⟩ := h.replace_eq_ok (Stmt.wellFormed_rose (.empty none))
    (by rw [forms_node, category_node, hc]; rfl)
  exact ⟨t', C, rfl, hok, ht'⟩

/-- Emptying the place of a statement without parts leaves the other nodes. -/
theorem Editable.clear (hp : ∀ {kind : Kind} {cs : List Category}, p kind → kind.admits cs →
    cs = []) (hempty : ¬p .empty) {n : Nat} {form : Form} (h : t.Editable r)
    (hn : (n, form) ∈ r.labels) (hk : p form.kind) (hc : form.kind.category = .statement) :
    ∃ t' r', t.replaceStatement n (.empty none) = .ok t' ∧ t'.Editable r' ∧
      Locally (Dropped p) r.forms r'.forms ∧
        ∀ m ≠ n, ∀ form', (m, form') ∈ r.labels → (m, form') ∈ r'.labels := by
  obtain ⟨t', C, rfl, hok, ht'⟩ := h.clear_at hp hn hk hc
  refine ⟨t', _, hok, ht', locally_forms ?_, fun m hm form' hin => mem_labels_of_ne hin ?_⟩
  · rw [forms_node, forms_node]
    exact .emptied hk hempty
  · intro hin'
    exact hm (congrArg Prod.fst (List.mem_singleton.1 (labels_node ▸ hin')))

theorem definesPool_iff {kind : Kind} :
    definesPool kind = true ↔ ∃ pool, kind = .constantPool pool := by
  cases kind <;> simp [definesPool]

/-- Definitions of constant pools have no parts. -/
theorem eq_nil_of_definesPool {kind : Kind} {cs : List Category} (hk : definesPool kind = true)
    (hcs : kind.admits cs) : cs = [] := by
  obtain ⟨pool, rfl⟩ := definesPool_iff.1 hk
  exact hcs

/-- Whether numbers are those of definitions of constant pools. -/
def Pools (r : Rose (Nat × Form)) (ns : List Nat) : Prop :=
  ∀ n ∈ ns, ∃ form, (n, form) ∈ r.labels ∧ definesPool form.kind = true

theorem Editable.dropStatement {n : Nat} {ns : List Nat} (h : t.Editable r) (hn : (n :: ns).Nodup)
    (hp : Pools r (n :: ns)) :
    ∃ t' r', t.dropStatement n = .ok t' ∧ t'.Editable r' ∧
      Locally (Dropped fun k => definesPool k = true) r.forms r'.forms ∧ Pools r' ns := by
  have hne : ∀ m ∈ ns, m ≠ n := by
    rintro m hm rfl
    exact (List.nodup_cons.1 hn).1 hm
  obtain ⟨form, hl, hk⟩ := hp n (by simp)
  rw [SyntaxTree.dropStatement]
  split
  · next hin =>
    obtain ⟨t', r', hok, h', hstep, hrest⟩ := h.remove eq_nil_of_definesPool hl hk
      (h.listed (List.mem_map_of_mem hl) hin)
    refine ⟨t', r', hok, h', hstep, fun m hm => ?_⟩
    obtain ⟨form', hm', hk'⟩ := hp m (List.mem_cons_of_mem _ hm)
    exact ⟨form', (hrest m (hne m hm)).2 form' hm', hk'⟩
  · obtain ⟨pool, hpool⟩ := definesPool_iff.1 hk
    obtain ⟨t', r', hok, h', hstep, hrest⟩ := h.clear eq_nil_of_definesPool (by simp [definesPool])
      hl hk (by rw [hpool]; rfl)
    refine ⟨t', r', hok, h', hstep, fun m hm => ?_⟩
    obtain ⟨form', hm', hk'⟩ := hp m (List.mem_cons_of_mem _ hm)
    exact ⟨form', hrest m (hne m hm) form' hm', hk'⟩

/-- Unless an entry is used, the definitions of constant pools go. -/
theorem Editable.dropUnusedPools (h : t.Editable r) :
    ∃ t' r', t.dropUnusedPools.toExcept = .ok t' ∧ t'.Editable r' ∧ (r' = r ∨
      (∀ form ∈ r.forms.labels, usesPool form.kind = false) ∧
        ReflTransGen (Locally (Dropped fun k => definesPool k = true)) r.forms r'.forms) ∧
      ((∃ form ∈ r'.forms.labels, usesPool form.kind = true) ∨
        ∀ form ∈ r'.forms.labels, definesPool form.kind = false) := by
  have hforms : ∀ x, x ∈ r.labels → x.2 ∈ r.forms.labels := fun x hx => by
    rw [forms, labels_map]
    exact List.mem_map_of_mem hx
  rw [SyntaxTree.dropUnusedPools, unusedPools]
  split
  · next huses =>
    rw [h.represents.nodes, List.any_eq_true] at huses
    obtain ⟨x, hx, hu⟩ := huses
    exact ⟨t, r, rfl, h, .inl rfl, .inl ⟨x.2, hforms x hx, hu⟩⟩
  · next huses =>
    have hunused : ∀ form ∈ r.forms.labels, usesPool form.kind = false := by
      intro form hform
      rw [forms, labels_map] at hform
      obtain ⟨x, hx, rfl⟩ := List.mem_map.1 hform
      rw [h.represents.nodes, List.any_eq_true] at huses
      exact Bool.eq_false_iff.2 fun hu => huses ⟨x, hx, hu⟩
    obtain ⟨t', r', hok, h', hsteps, hnone⟩ := h.applyAll_spent
      (countP_dropped fun _ => Iff.rfl) (fun h hn hp => h.dropStatement hn hp)
      (List.nodup_reverse.2 (h.represents.nodup_filter fun n => definesPool n.2.kind))
      (T := Pools) fun n hn => h.represents.mem_filter.1 (List.mem_reverse.1 hn)
    refine ⟨t', r', hok, h', .inr ⟨hunused, hsteps⟩, .inr (hnone ?_)⟩
    rw [h.represents.countP_forms, List.length_reverse, List.length_map,
      List.countP_eq_length_filter]

/-- Empty statements go out of their lists, so that none is left where the arms are blocks. -/
theorem Editable.dropEmptyStatements (h : t.Editable r) :
    ∃ t' r', t.dropEmptyStatements.toExcept = .ok t' ∧ t'.Editable r' ∧
      ReflTransGen (Locally (Dropped (· = .empty))) r.forms r'.forms ∧
      (r.forms.Braced → ∀ form ∈ r'.forms.labels, form.kind ≠ .empty) := by
  have hleaf : ∀ {kind : Kind} {cs : List Category}, kind = .empty → kind.admits cs → cs = [] := by
    rintro kind cs rfl hcs
    exact hcs
  have hall (hb : r.forms.Braced) :
      r.forms.labels.countP (fun form => decide (form.kind = .empty)) =
        t.emptyStatements.length := by
    rw [h.represents.countP_forms (fun k => decide (k = .empty)), emptyStatements,
      List.length_reverse, List.length_map, ← List.countP_eq_length_filter]
    refine List.countP_congr fun ⟨n, form⟩ hx => ?_
    rw [h.represents.nodes] at hx
    have hlisted (hk : form.kind = .empty) : t.inList n = true := by
      refine h.inList (hb.listed h.wellFormed hx (fun hroot => ?_) (by rw [hk]; rfl) (by simp [hk]))
      have hc := h.category
      obtain ⟨label, parts⟩ := r
      obtain rfl : (n, form) = label := hroot
      rw [forms_node, category_node, hk] at hc
      cases hc
    simpa using hlisted
  refine (h.applyAll_spent (q := fun k => decide (k = .empty))
    (T := fun r ns => ∀ n ∈ ns, Listed n r ∧ ∃ form, (n, form) ∈ r.labels ∧ form.kind = .empty)
    (countP_dropped fun _ => decide_eq_true_iff) (fun {t r n ns} h hn hT => ?_)
    (List.nodup_reverse.2 (h.represents.nodup_filter _)) fun n hn => ?_).imp
      fun t' ⟨r', hok, h', hsteps, hnone⟩ => ⟨r', hok, h', hsteps, fun hb form hform =>
        of_decide_eq_false (hnone (hall hb) form hform)⟩
  · obtain ⟨hl, form, hin, hk⟩ := hT n (by simp)
    obtain ⟨t', r', hok, h', hstep, hrest⟩ := h.remove hleaf hin hk hl
    refine ⟨t', r', hok, h', hstep, fun m hm => ?_⟩
    obtain ⟨hl', form', hm', hk'⟩ := hT m (List.mem_cons_of_mem _ hm)
    have hne : m ≠ n := by
      rintro rfl
      exact (List.nodup_cons.1 hn).1 hm
    exact ⟨(hrest m hne).1 hl', form', (hrest m hne).2 form' hm', hk'⟩
  · obtain ⟨form, hl, hk⟩ := h.represents.mem_filter.1 (List.mem_reverse.1 hn)
    obtain ⟨hk, hin⟩ : form.kind = .empty ∧ t.inList n = true := by simpa using hk
    exact ⟨h.listed (List.mem_map_of_mem hl) hin, form, hl, hk⟩

end SyntaxTree

end ScriptRecovery
