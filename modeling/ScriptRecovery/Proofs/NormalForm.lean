import ScriptRecovery.Proofs.Lower.Statements
import ScriptRecovery.Proofs.Recovery
import ScriptRecovery.Proofs.Stack.Assignments
import ScriptRecovery.Proofs.Stack.Exposure

/-!
# The normal form of recovered scripts

What the stages of a recovery take away does not come back (`Config.normal_recover`).

* Lowered statements have no placeholders and no expressions that may leave a part unevaluated
  (`Stmt.Emitted.lowered`), and the edits bring none in.
* A stage that takes builtins, unused constant pools or empty statements away leaves none of them.
  For the empty statements this needs that they are all in lists, as the arms of choices are blocks
  (`Rose.Braced`).
* When the pushes are bound, no pop sees a push (`SyntaxTree.Bound.exposed`), and the later edits
  leave the count of the pushes on top of the stack as it is.
-/

namespace ScriptRecovery

open Relation Rose SyntaxTree

/-- Whether a kind can occur in a recovered script: it is no placeholder, no builtin, no expression
that may leave a part unevaluated and no empty statement. -/
def Kind.Resolved : Kind → Prop
  | .input _ | .trace | .atom .global | .logical _ | .conditional | .empty => False
  | _ => True

/-- Whether a script is in normal form. -/
structure Script.Normal (s : Script) : Prop where
  /-- No node is of a kind that a recovery takes away. -/
  resolved : ∀ form ∈ s.rose.labels, form.kind.Resolved
  /-- Constant pools are defined only in scripts that use an entry. -/
  pools : ∀ form ∈ s.rose.labels, definesPool form.kind = true →
    ∃ form ∈ s.rose.labels, usesPool form.kind = true
  /-- The use of the stack can be followed, and no pop sees a push. -/
  pops : ∃ usage, (ofScript s).stackUsage = .ok usage ∧
    ∀ x ∈ (ofScript s).nodes, x.2.kind = .atom .pop →
      ∃ p, passageAt? usage x.1 = some p ∧ p.input.topPush? = none

theorem Kind.Lowered.resolved {k : Kind} (h : k.Lowered) (hb : k.isBuiltin = false)
    (he : k ≠ .empty) : k.Resolved := by
  cases k <;> first | exact absurd rfl he | exact h.elim | exact trivial | skip
  case trace => cases hb
  case atom a => cases a <;> first | exact trivial | cases hb

namespace Rose

variable {names : BuiltinNames} {p : Kind → Prop} {P : Form → Prop} {f : Nat → Option Nat}
  {x x' : Rose Form} {r : Rose (Nat × Form)}

/-! ## Labels -/

theorem congruence_labels :
    Congruence fun x x' => (∀ form ∈ x.labels, P form) → ∀ form ∈ x'.labels, P form where
  refl _ := id
  trans h h' := h' ∘ h
  plug h := by
    simp only [labels_plug, List.forall_mem_append]
    rintro ⟨⟨hbefore, hx⟩, hafter⟩
    exact ⟨⟨hbefore, h hx⟩, hafter⟩

theorem congruence_mem {form : Form} :
    Congruence fun x x' => form ∈ x.labels → form ∈ x'.labels where
  refl _ := id
  trans h h' := h' ∘ h
  plug h := by
    simp only [labels_plug, List.mem_append]
    exact Or.imp_left (Or.imp_right h)

theorem lowered_named (h : Named names x x') (hx : ∀ form ∈ x.labels, form.kind.Lowered) :
    ∀ form ∈ x'.labels, form.kind.Lowered := by
  cases h with
  | global loc => simp [Expr.identifier, Expr.rose, labelsAll, Kind.Lowered]
  | trace value loc =>
    simp only [Stmt.rose, labels_node, labelsAll, List.append_nil, List.forall_mem_cons] at hx
    simp only [Stmt.rose, Expr.rose, Expr.roses, Expr.identifier, labels_node, labelsAll,
      List.append_nil, List.cons_append, List.nil_append, List.forall_mem_cons]
    exact ⟨trivial, trivial, trivial, hx.2⟩

/-- Statements that are taken out leave nothing but empty statements behind. -/
theorem forall_dropped (hempty : P ⟨.empty, none⟩) (h : Dropped p x x')
    (hx : ∀ form ∈ x.labels, P form) : ∀ form ∈ x'.labels, P form := by
  cases h with
  | emptied _ _ => simpa [Stmt.rose, labelsAll] using hempty
  | removed _ _ =>
    simp only [labels_node, labelsAll_append, labelsAll, List.forall_mem_cons,
      List.forall_mem_append] at hx ⊢
    exact ⟨hx.1, hx.2.1, hx.2.2.2⟩

theorem mem_dropped {form : Form} (hp : ¬p form.kind) (h : Dropped p x x')
    (hform : form ∈ x.labels) : form ∈ x'.labels := by
  cases h with
  | emptied hk _ =>
    obtain rfl : form = _ := by simpa [labelsAll] using hform
    exact absurd hk hp
  | @removed _ part left right _ hk =>
    have hne : form ≠ part := by
      rintro rfl
      exact hp hk
    simpa [labelsAll_append, labelsAll, hne] using hform

/-- Temporaries in place of pushes and pops are said with what is lowered. -/
theorem lowered_bound (h : ∀ form ∈ r.forms.labels, form.kind.Lowered) :
    ∀ form ∈ (r.bound f).labels, form.kind.Lowered := by
  induction r using Rose.induct with
  | h label parts ih =>
    obtain ⟨n, form⟩ := label
    rw [forms_node, labels_node, List.forall_mem_cons] at h
    have hparts : ∀ form ∈ labelsAll (boundAll f parts), form.kind.Lowered := by
      intro form hform
      rw [boundAll_eq_map] at hform
      obtain ⟨_, hmem, hform⟩ := mem_labelsAll.1 hform
      obtain ⟨part, hpart, rfl⟩ := List.mem_map.1 hmem
      exact ih part hpart (fun form hform =>
        h.2 form (mem_labelsAll.2 ⟨_, List.mem_map_of_mem hpart, hform⟩)) form hform
    rw [bound]
    split
    · simp [labelsAll, Kind.Lowered]
    · simp only [labels_node, labelsAll, List.append_nil, List.cons_append, List.nil_append,
        List.forall_mem_cons]
      exact ⟨trivial, trivial, trivial, hparts⟩
    · rw [labels_node, List.forall_mem_cons]
      exact ⟨h.1, hparts⟩

/-! ## Arms -/

theorem braced_node {form : Form} {parts : List (Rose Form)} (hk : form.kind ≠ .branch)
    (h : ∀ y ∈ parts, y.Braced) : (node form parts).Braced :=
  .node (fun hbranch => absurd hbranch hk) h

theorem braced_of_labels (h : ∀ form ∈ x.labels, form.kind ≠ .branch) : x.Braced := by
  induction x using Rose.induct with
  | h form parts ih =>
    rw [labels_node, List.forall_mem_cons] at h
    exact braced_node h.1 fun r hr => ih r hr fun form hform =>
      h.2 form (mem_labelsAll.2 ⟨r, hr, hform⟩)

theorem Tiered.braced (h : x.Tiered) (hw : x.WellFormed) : x.Braced := by
  have hinner {y : Rose Form} (hy : y.WellFormed)
      (hc : y.category ≠ .statement ∧ y.category ≠ .script) : y.Braced :=
    braced_of_labels fun form hform hk =>
      hy.no_statement hc.1 hc.2 form hform (by rw [hk]; rfl)
  induction h with
  | @simple form parts hbranch hl =>
    have hcs := Kind.no_statement_of_admits hw.admits hbranch hl
    exact braced_node hbranch fun r hr =>
      hinner (hw.parts r hr) (hcs _ (List.mem_map_of_mem hr))
  | @choice form test arms hbranch hblock _ ih =>
    have htest : test.category = .expression := by
      have hadmits := hw.admits
      rw [hbranch] at hadmits
      rcases hadmits with hcs | hcs <;> exact (List.cons.inj hcs).1
    have hparts := hw.parts
    rw [List.forall_mem_cons] at hparts
    refine .node (fun _ => hblock) (List.forall_mem_cons.2
      ⟨hinner hparts.1 (by simp [htest]), fun arm harm => ?_⟩)
    obtain ⟨⟨kind, loc⟩, stmts⟩ := arm
    obtain rfl : kind = .block := hblock _ harm
    exact braced_node (by simp) fun r hr => ih _ harm r hr ((hparts.2 _ harm).parts r hr)

theorem braced_bound (h : r.forms.Braced) : (r.bound f).Braced := by
  induction r using Rose.induct with
  | h label parts ih =>
    obtain ⟨n, form⟩ := label
    rw [forms_node] at h
    obtain ⟨harms, hparts⟩ := h
    have hall : ∀ y ∈ boundAll f parts, y.Braced := by
      rw [boundAll_eq_map, List.forall_mem_map]
      exact fun y hy => ih y hy (hparts _ (List.mem_map_of_mem hy))
    rw [bound]
    split
    · exact braced_node (by simp) (by simp)
    · refine braced_node (by simp) (List.forall_mem_singleton.2 (braced_node (by simp) ?_))
      exact List.forall_mem_cons.2 ⟨braced_node (by simp) (by simp), hall⟩
    · refine .node (fun hk => ?_) hall
      have harms := harms hk
      rw [boundAll_eq_map]
      rw [← List.map_drop, List.forall_mem_map] at harms ⊢
      intro arm harm
      have hblock := harms arm harm
      obtain ⟨⟨m, form⟩, stmts⟩ := arm
      have hblock : form.kind = .block := hblock
      rw [bound_of_other (by simp [hblock]) (by simp [hblock])]
      exact hblock

/-- Whether a tree goes well in the place of another among arms. -/
def Bracing (x x' : Rose Form) : Prop :=
  (x.label.kind = .block → x'.label.kind = .block) ∧ (x.Braced → x'.Braced)

theorem bracing_plug {C : Context Form} (h : Bracing x x') : Bracing (C.plug x) (C.plug x') := by
  induction C with
  | nil => exact h
  | cons c C ih =>
    obtain ⟨form, left, right⟩ := c
    refine ⟨id, ?_⟩
    rintro ⟨harms, hparts⟩
    refine .node (fun hk => ?_) ?_
    · have harms := harms hk
      cases left with
      | nil => exact harms
      | cons y left =>
        simp only [List.cons_append, List.drop_succ_cons, List.drop_zero, List.forall_mem_append,
          List.forall_mem_cons] at harms ⊢
        exact ⟨harms.1, ih.1 harms.2.1, harms.2.2⟩
    · simp only [List.forall_mem_append, List.forall_mem_cons] at hparts ⊢
      exact ⟨hparts.1, ih.2 hparts.2.1, hparts.2.2⟩

theorem congruence_bracing : Congruence Bracing where
  refl _ := ⟨id, id⟩
  trans h h' := ⟨h'.1 ∘ h.1, h'.2 ∘ h.2⟩
  plug := bracing_plug

theorem bracing_named (h : Named names x x') : Bracing x x' := by
  cases h with
  | global loc =>
    exact ⟨fun hk => (by cases hk), fun _ => braced_node (by simp) (by simp)⟩
  | trace value loc =>
    refine ⟨fun hk => (by cases hk), ?_⟩
    rintro ⟨-, hparts⟩
    refine braced_node (by simp) (List.forall_mem_singleton.2 (braced_node (by simp) ?_))
    exact List.forall_mem_cons.2 ⟨braced_node (by simp) (by simp), hparts⟩

theorem bracing_dropped (hp : ¬p .block) (h : Dropped p x x') : Bracing x x' := by
  cases h with
  | @emptied form hk _ =>
    exact ⟨fun h => absurd (h ▸ hk) hp, fun _ => braced_node (by simp) (by simp)⟩
  | @removed form part left right hk _ =>
    refine ⟨id, ?_⟩
    rintro ⟨-, hparts⟩
    refine braced_node ?_ fun r hr => hparts r ?_
    · rcases hk with hk | hk <;> simp [hk]
    · simp only [List.mem_append, List.mem_cons] at hr ⊢
      tauto

/-! ## Pushes on top of the stack -/

theorem congruence_exposed :
    Congruence fun x x' => ∀ before, exposed before x' = exposed before x where
  refl _ _ := rfl
  trans h h' before := (h' before).trans (h before)
  plug := exposed_plug

theorem exposed_named (h : Named names x x') (before : Nat) :
    exposed before x' = exposed before x := by
  cases h with
  | global loc => rfl
  | trace value loc =>
    simp [Stmt.rose, Expr.rose, Expr.roses, Expr.identifier, exposed, exposedRow, Kind.expose]

theorem exposed_dropped (hp : ∀ k, p k → k ≠ .branch ∧ ∀ before after : Nat,
    k.expose before after = some after) (h : Dropped p x x') (before : Nat) :
    exposed before x' = exposed before x := by
  have hleaf {form : Form} (hk : p form.kind) {before : Nat} :
      exposed before (node form []) = some before :=
    exposed_quiet (hp _ hk).1 (hp _ hk).2
  cases h with
  | emptied hk _ =>
    rw [hleaf hk]
    rfl
  | @removed form part left right hk hpart =>
    have hrow : exposedRow before (left ++ node part [] :: right) =
        exposedRow before (left ++ right) := by
      simp only [exposedRow_append, exposedRow, hleaf hpart, Option.bind_eq_bind, Option.bind_some]
    have hbranch : form.kind ≠ .branch := by
      rcases hk with hk | hk <;> simp [hk]
    rw [exposed, exposed, if_neg hbranch, if_neg hbranch, hrow]

end Rose

/-- The use of the stack can be followed in a script that the count passes, and no pop sees a
push. -/
theorem SyntaxTree.pops_of_exposed {s : Script} {count : Nat} (h : s.rose.exposed 0 = some count) :
    ∃ usage, (ofScript s).stackUsage = .ok usage ∧
      ∀ x ∈ (ofScript s).nodes, x.2.kind = .atom .pop →
        ∃ p, passageAt? usage x.1 = some p ∧ p.input.topPush? = none := by
  have hr := (editable_ofScript s).represents
  have hforms : (s.rose.tagged 0 1).forms = s.rose := forms_tagged _
  rw [← hforms] at h
  obtain ⟨out, usage, ht, -, hpops⟩ := @StackState.thread_of_exposed
    (fun n => ∃ loc, (n, (⟨.atom .pop, loc⟩ : Form)) ∈ (s.rose.tagged 0 1).labels) [] _
    (s.rose.tagged 0 1) hr.roles.pop h
  refine ⟨usage, by rw [hr.stackUsage_eq, ht]; rfl, ?_⟩
  rintro ⟨n, kind, loc⟩ hx hk
  obtain rfl : kind = .atom .pop := hk
  rw [hr.nodes] at hx
  obtain ⟨p, hp, rfl⟩ := List.mem_map.1
    ((Rule.perm_thread _ ht).mem_iff.2 (List.mem_map_of_mem hx))
  exact ⟨p, passageAt?_eq_some (hr.nodup_usage ht) hp, hpops p hp ⟨loc, hx⟩⟩

namespace Config

variable {c : Config} {s s' : Script} {r₁ r₂ r₃ : Rose (Nat × Form)} {f g : Nat → Option Nat}
  {kept : Nat → Prop} {usage : List (Passage StackState)}

/-- A cleanup leaves nothing of what its stages take away. -/
theorem resolved_clean (h : c.Cleaned s s' r₁ r₂ r₃ f g kept usage)
    (hlowered : ∀ form ∈ s.rose.labels, form.kind.Lowered) (hbraced : s.rose.Braced) :
    ∀ form ∈ s'.rose.labels, form.kind.Resolved := by
  have hforms : (s.rose.tagged 0 1).forms = s.rose := forms_tagged _
  have hnamed : ∀ form ∈ r₂.forms.labels, form.kind.Lowered := by
    refine congruence_labels.of_steps lowered_named h.named ?_
    rw [h.bound.forms]
    exact lowered_bound (by rwa [hforms])
  have hbraced₂ : r₂.forms.Braced := by
    refine (congruence_bracing.of_steps bracing_named h.named).2 ?_
    rw [h.bound.forms]
    exact braced_bound (by rwa [hforms])
  have hleft : ∀ form ∈ r₂.forms.labels, form.kind.Lowered ∧ form.kind.isBuiltin = false :=
    fun form hform => ⟨hnamed form hform, h.noBuiltin form hform⟩
  have hkeep {p : Kind → Prop} {x x' : Rose Form} (hx : Dropped p x x') :=
    forall_dropped (P := fun form => form.kind.Lowered ∧ form.kind.isBuiltin = false)
      ⟨trivial, rfl⟩ hx
  have hpools : r₃.forms.Braced ∧
      ∀ form ∈ r₃.forms.labels, form.kind.Lowered ∧ form.kind.isBuiltin = false := by
    rcases h.pools with rfl | ⟨-, hsteps⟩
    · exact ⟨hbraced₂, hleft⟩
    · have hbracing := congruence_bracing.of_steps (bracing_dropped (by simp [definesPool])) hsteps
      exact ⟨hbracing.2 hbraced₂, congruence_labels.of_steps hkeep hsteps hleft⟩
  have hall := congruence_labels.of_steps hkeep h.dropped hpools.2
  exact fun form hform => (hall form hform).1.resolved (hall form hform).2
    (h.noEmpty hpools.1 form hform)

/-- A cleanup leaves a definition of a constant pool only if an entry is used. -/
theorem pools_clean (h : c.Cleaned s s' r₁ r₂ r₃ f g kept usage) {form : Form}
    (hform : form ∈ s'.rose.labels) (hpool : definesPool form.kind = true) :
    ∃ form ∈ s'.rose.labels, usesPool form.kind = true := by
  rcases h.used with ⟨entry, hentry, huses⟩ | hnone
  · refine ⟨entry, congruence_mem.of_steps (mem_dropped ?_) h.dropped hentry, huses⟩
    intro hk
    rw [hk] at huses
    cases huses
  · have hnone := congruence_labels.of_steps
      (forall_dropped (P := fun form => definesPool form.kind = false) rfl) h.dropped hnone
    cases hpool.symm.trans (hnone form hform)

/-- A cleanup leaves a script that the count passes. -/
theorem exposed_clean (h : c.Cleaned s s' r₁ r₂ r₃ f g kept usage) :
    ∃ count, s'.rose.exposed 0 = some count := by
  obtain ⟨out, ht, -⟩ := h.bound.thread
  have hbound := h.bound.exposed (s.rose.tagged 0 1) ⟨[], rfl⟩ ht fun p hp => hp
  rw [← h.bound.forms] at hbound
  have hnamed := congruence_exposed.of_steps exposed_named h.named
  have hpools (before : Nat) : r₃.forms.exposed before = r₂.forms.exposed before := by
    rcases h.pools with rfl | ⟨-, hsteps⟩
    · rfl
    · refine congruence_exposed.of_steps (exposed_dropped fun k hk => ?_) hsteps before
      obtain ⟨pool, rfl⟩ := definesPool_iff.1 hk
      exact ⟨by simp, fun _ _ => rfl⟩
  have hdropped := congruence_exposed.of_steps
    (exposed_dropped fun k (hk : k = .empty) => hk ▸ ⟨by simp, fun _ _ => rfl⟩) h.dropped
  exact ⟨_, (hdropped 0).trans ((hpools 0).trans ((hnamed 0).trans hbound))⟩

/-- A cleanup puts lowered statements whose arms are blocks into normal form. -/
theorem normal_clean (h : c.clean s = .ok s') (hlowered : ∀ form ∈ s.rose.labels, form.kind.Lowered)
    (hbraced : s.rose.Braced) : s'.Normal := by
  obtain ⟨r₁, r₂, r₃, f, g, kept, usage, hclean⟩ := clean_eq_ok h
  obtain ⟨count, hcount⟩ := exposed_clean hclean
  exact ⟨resolved_clean hclean hlowered hbraced, fun form hform => pools_clean hclean hform,
    pops_of_exposed hcount⟩

/-- Recovered scripts are in normal form. -/
theorem normal_recover {s : Stream} {script : Script} (h : c.recover s = .ok script) :
    script.Normal := by
  obtain ⟨g, g', changed, body, hg, hrun, hbody, hclean⟩ := recover_eq_ok h
  have hemitted := (regular_run (FlowGraph.regular_ofStream hg) hrun).emits {} body hbody
  have hwell := Script.wellFormed_rose { body }
  refine normal_clean hclean ?_ ?_
  · exact List.forall_mem_cons.2 ⟨trivial, hemitted.lowered⟩
  · exact braced_node (by simp) fun r hr => (hemitted.tiered r hr).braced (hwell.parts r hr)

/-- A call whose result decides about a trace, behind a constant pool that nothing uses: the pool is
gone, and the pop that is left takes what the stream started with. -/
theorem normal_recover_call :
    let s : Stream := [⟨0, .constantPool ["a"], 6⟩, ⟨6, .push [.int32 0, .string "f"], 15⟩,
      ⟨15, .callFunction, 16⟩, ⟨16, .branch 1, 21⟩, ⟨21, .trace, 22⟩]
    ∃ script, (default : Config).recover s = .ok script ∧
      (script.rose.labels.filter (·.kind = .atom .pop)).length = 1 ∧ script.Normal := by
  intro s
  obtain ⟨script, h, hpops⟩ : ∃ script, (default : Config).recover s = .ok script ∧
      (script.rose.labels.filter (·.kind = .atom .pop)).length = 1 := ⟨_, by cbv, by cbv⟩
  exact ⟨script, h, hpops, normal_recover h⟩

end Config

end ScriptRecovery
