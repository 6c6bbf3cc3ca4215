import ScriptRecovery.Proofs.Lower.Statements
import ScriptRecovery.Proofs.Recovery
import ScriptRecovery.Proofs.Stack.Assignments

/-!
# A recovered script is in single assignment form

Every temporary of a recovered script is assigned once, and it is read only behind the statement that
assigns it, in the same list of statements or in one below (`Config.singleAssignment_recover`).

* Lowered statements are pieces, and a piece reads what it assigns (`Stmt.Emitted.dominated`).
* A temporary in place of a push is new, and it is read where the push was on top of the stack
  (`Rose.Plan.dominated_bound`, `Rose.Plan.nodup_storedIn_bound`).
* The other edits change one place at a time, where what is left stores the same and reads no more
  (`Rose.Suits`).
-/

namespace ScriptRecovery

open Relation Rose SyntaxTree

/-- The temporaries that a script assigns, as often as it does.  The targets of a script are those of
its assignments and of its calls on stack items. -/
def Script.assigned (s : Script) : List Nat := storedIn s.rose.labels

/-- Whether a script is in single assignment form. -/
structure Script.SingleAssignment (s : Script) : Prop where
  /-- Every temporary is assigned once. -/
  once : ∀ id ∈ s.temporaries, s.assigned.count id = 1
  /-- A statement before a read, in a list around it, assigns what is read. -/
  behind : ∀ (C : Context Form) (x : Rose Form) (id : Nat), s.rose = C.plug x → id ∈ x.reads →
    C.Assigned id
  /-- On every way through the script, a temporary is written before it is read. -/
  written : ∀ es, Evaluates s.rose es → ∀ before id after, es = before ++ .read id :: after →
    .write id ∈ before

namespace Rose

variable {x x' : Rose Form} {id : Nat}

theorem Context.Assigned.mem_storedIn {C : Context Form} (h : C.Assigned id) :
    id ∈ storedIn (C.plug x).labels := by
  obtain ⟨A, c, B, rfl, -, y, hy, hid⟩ := h
  obtain ⟨form, hform, hkind⟩ := Rose.mem_storedIn.1 hid.mem_storedIn
  refine Rose.mem_storedIn.2 ⟨form, ?_, hkind⟩
  have hplace : form ∈ (Context.plug (c :: B) x).labels := by
    rw [Context.plug, labels_node]
    exact List.mem_cons_of_mem _ (mem_labelsAll.2 ⟨y, List.mem_append_left _ hy, hform⟩)
  induction A with
  | nil => exact hplace
  | cons a A ih =>
    rw [List.cons_append, Context.plug, labels_node]
    exact List.mem_cons_of_mem _ (mem_labelsAll.2 ⟨_, List.mem_append_right _ List.mem_cons_self, ih⟩)

/-- A tree is in single assignment form when it stores to no temporary twice and relies on none. -/
theorem singleAssignment {s : Script} (hstored : s.assigned.Nodup)
    (hd : Dominated (fun _ => False) s.rose) : s.SingleAssignment := by
  have hbehind : ∀ (C : Context Form) (x : Rose Form) (id : Nat), s.rose = C.plug x → id ∈ x.reads →
      C.Assigned id := fun C x id hs hid => (hd C x id hs hid).resolve_left not_false
  refine ⟨fun id hid => ?_, hbehind, fun es he before id after heq => ?_⟩
  · refine List.count_eq_one_of_mem hstored ?_
    obtain ⟨⟨kind, loc⟩, hform, htemp⟩ := List.mem_filterMap.1 hid
    cases kind <;> try (cases htemp; done)
    case temporaryTarget =>
      cases htemp
      exact mem_storedIn.2 ⟨_, hform, rfl⟩
    case atom a =>
      cases a <;> cases htemp
      obtain ⟨C, ⟨form, parts⟩, hs, rfl⟩ := exists_plug hform
      have hread := hbehind C _ id hs (by simp [reads])
      rw [Script.assigned, hs]
      exact hread.mem_storedIn
  · exact (hd.ordered he before id after heq).resolve_left not_false

/-! ## Edits of one place -/

theorem suits_named {names : BuiltinNames} (h : Named names x x') : Suits x x' := by
  cases h with
  | global loc =>
    refine ⟨rfl, rfl, fun id hid => absurd hid not_assigns_leaf, fun known _ => ?_⟩
    exact dominated_of_labels (by simp [Expr.identifier, Expr.rose, labelsAll])
  | trace value loc =>
    refine ⟨rfl, ?_, fun id hid => ?_, fun known hd => ?_⟩
    · simp [Stmt.rose, Expr.rose, Expr.roses, Expr.identifier, storedIn, labelsAll, Kind.stored?]
    · obtain ⟨-, hid⟩ := assigns_node.1 hid
      refine .part rfl (List.mem_singleton.2 rfl) (assigns_node.2 ⟨rfl, hid.imp ?_ ?_⟩)
      · rw [mem_stores, mem_stores]
        rintro ⟨p, hp, hk⟩
        exact ⟨p, List.mem_cons_of_mem _ hp, hk⟩
      · rintro ⟨p, hp, ha⟩
        exact ⟨p, List.mem_cons_of_mem _ hp, ha⟩
    · obtain ⟨-, hvalue⟩ := (dominated_plain rfl).1 hd
      refine (dominated_plain rfl).2 ⟨by simp [reads], fun r hr => ?_⟩
      obtain rfl := List.mem_singleton.1 hr
      refine (dominated_plain rfl).2 ⟨by simp [reads], fun r hr => ?_⟩
      rcases List.mem_cons.1 hr with rfl | hr
      · exact dominated_of_labels (by simp [Expr.identifier, Expr.rose, labelsAll])
      · exact hvalue r hr

theorem suits_dropped {p : Kind → Prop} (hp : ∀ {k}, p k → k.stored? = none) (h : Dropped p x x') :
    Suits x x' := by
  cases h with
  | @emptied form hk _ =>
    have hnone : storedIn (node form []).labels = [] :=
      storedIn_eq_nil (by simp [labelsAll, hp hk])
    refine ⟨(hp hk).symm, ?_, fun id hid => absurd hid not_assigns_leaf, fun known _ => ?_⟩
    · rw [hnone]
      rfl
    · exact dominated_of_labels (by simp [Stmt.rose, labelsAll])
  | @removed form part left right hk hpart =>
    have hlist : form.kind.isList = true := Kind.isList_iff.2 hk
    have hsame : stores (.node form (left ++ right)) =
        stores (.node form (left ++ .node part [] :: right)) := by
      simp [stores, Rose.parts, label, hp hpart]
    refine ⟨rfl, ?_, fun id hid => ?_, fun known => ?_⟩
    · rw [storedIn_node, storedIn_node, labelsAll_append, labelsAll_append, labelsAll]
      simp [storedIn, labelsAll, hp hpart]
    · rw [assigns_node] at hid
      simp [Kind.isStraight, hlist] at hid
    · rw [dominated_list hlist, dominated_list hlist]
      intro hrow
      clear hsame
      induction left generalizing known with
      | nil =>
        exact (dominatedRow_cons.1 hrow).2.mono fun id hid => hid.resolve_right not_assigns_leaf
      | cons y left ih =>
        rw [List.cons_append, dominatedRow_cons] at hrow ⊢
        exact ⟨hrow.1, ih _ hrow.2⟩

/-- Edits one after the other leave what suits, if each of them does. -/
theorem suits_of_steps {R : Rose Form → Rose Form → Prop} (hR : ∀ {x x'}, R x x' → Suits x x')
    (h : ReflTransGen (Locally R) x x') : Suits x x' :=
  Congruence.of_steps (S := Suits) ⟨.refl, .trans, .plug⟩ (fun hx => hR hx) h

end Rose

namespace Config

variable {c : Config}

/-- A cleanup keeps the single assignment form of statements in rows. -/
theorem singleAssignment_clean {s s' : Script} (h : c.clean s = .ok s') (hstored : s.assigned.Nodup)
    (hd : Dominated (fun _ => False) s.rose) (htier : ∀ r ∈ s.rose.parts, r.Tiered) :
    s'.SingleAssignment := by
  have he := editable_ofScript s
  obtain ⟨r₁, r₂, r₃, f, g, kept, usage, hbound, hnamed, hpools, hempty, -⟩ := clean_eq_ok h
  obtain ⟨out, ht, -⟩ := hbound.thread
  have hforms : (s.rose.tagged 0 1).forms = s.rose := forms_tagged _
  have hd₁ : Dominated (fun _ => False) r₁.forms := by
    have hcovered : StackState.Covered g (fun _ => False) default := trivial
    have hroot := hbound.plan.dominated_bound (s.rose.tagged 0 1) ⟨[], rfl⟩ ht (fun p hp => hp)
      hcovered
    rw [hforms, ← hbound.forms] at hroot
    exact (hroot hd).2 rfl htier
  have hstored₁ : (storedIn r₁.forms.labels).Nodup := by
    rw [hbound.forms]
    exact hbound.plan.nodup_storedIn_bound he.represents.nodup (hforms.symm ▸ hstored)
  have hsuits : Suits r₁.forms s'.rose := by
    refine ((suits_of_steps suits_named hnamed).trans ?_).trans
      (suits_of_steps (suits_dropped fun hk => by rw [hk]; rfl) hempty)
    rcases hpools with rfl | ⟨-, hsteps⟩
    · exact .refl _
    · refine suits_of_steps (suits_dropped fun hk => ?_) hsteps
      obtain ⟨pool, rfl⟩ := definesPool_iff.1 hk
      rfl
  exact singleAssignment (by rwa [Script.assigned, hsuits.storedIn]) (hsuits.dominated _ hd₁)

/-- The temporaries of a recovered script are in single assignment form. -/
theorem singleAssignment_recover {s : Stream} {script : Script} (h : c.recover s = .ok script) :
    script.SingleAssignment := by
  obtain ⟨g, g', changed, body, hg, hrun, hbody, hclean⟩ := recover_eq_ok h
  have hemitted := (regular_run (FlowGraph.regular_ofStream hg) hrun).emits {} body hbody
  refine singleAssignment_clean hclean ?_ ?_ hemitted.tiered
  · have hstored : Script.assigned { body } = storedIn (labelsAll (Stmt.roses body)) := rfl
    rw [hstored, hemitted.stored.2]
    exact List.nodup_range'
  · exact (dominated_list rfl).2 hemitted.dominated

/-- A call whose result decides whether null is printed: the temporaries of its own statements and
those in place of pushes are assigned once. -/
theorem singleAssignment_recover_call :
    let s : Stream := [⟨0, .push [.int32 0, .string "f"], 9⟩, ⟨9, .callFunction, 10⟩,
      ⟨10, .branch 3, 15⟩, ⟨15, .push [.null], 17⟩, ⟨17, .trace, 18⟩]
    ∃ script, (default : Config).recover s = .ok script ∧
      script.temporaries = [4, 5, 0, 5, 1, 4, 0, 1, 2, 6, 2, 3, 6, 3] ∧
      script.assigned = [4, 5, 0, 1, 2, 6, 3] ∧ script.SingleAssignment := by
  intro s
  obtain ⟨script, h, htemporaries, hassigned⟩ : ∃ script, (default : Config).recover s = .ok script ∧
      script.temporaries = [4, 5, 0, 5, 1, 4, 0, 1, 2, 6, 2, 3, 6, 3] ∧
      script.assigned = [4, 5, 0, 1, 2, 6, 3] := ⟨_, by cbv, by cbv, by cbv⟩
  exact ⟨script, h, htemporaries, hassigned, singleAssignment_recover h⟩

end Config

end ScriptRecovery
