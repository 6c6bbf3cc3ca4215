import ScriptRecovery.Proofs.Cleanup.Tidying
import ScriptRecovery.Proofs.Lower.Statements
import ScriptRecovery.Proofs.Reduce.Demand
import ScriptRecovery.Proofs.Stack.Room
import ScriptRecovery.Recovery

/-!
# Faults of a recovery

The stages of a recovery hand on what the next one relies on: the passes keep the graph of a stream
regular, a regular graph is said in statements or has a part without a rule, and the tree of the
statements stays a script that can be edited.  So a recovery contradicts nothing
(`Config.recover_cases`): it fails at a part without a rule, or when a counter is at the end of its
range.

They hand on a demand for temporaries as well, which no stage raises.  The reduced graph of a stream
demands no more than its actions, and what its statements have not taken of that is left for one
temporary for each of their pushes.  So no counter is at the end of its range when the actions
demand less than that (`Config.recover_ne_overflow`).
-/

namespace ScriptRecovery

open Relation Rose SyntaxTree

namespace Config

variable {c : Config}

/-- The passes leave a regular graph. -/
theorem regular_run {g g' : FlowGraph} {changed : Bool} (hg : g.Regular c.names.trace)
    (h : c.schedule.run g = ⟨g', .ok changed⟩) : g'.Regular c.names.trace := by
  have hleaves : (c.schedule.run g).Leaves (FlowGraph.Regular c.names.trace) :=
    leaves_pipeline hg
  rw [h] at hleaves
  exact (hleaves.resolve_left nofun).2

/-- A stream has a reduced graph, and it is regular. -/
theorem graphOf_cases (c : Config) (s : Stream) :
    (∃ g, c.graphOf s = .ok g ∧ g.Regular c.names.trace) ∨
      c.graphOf s = .error .counterOverflow := by
  obtain ⟨g, _, hg, -⟩ := FlowGraph.depicts_ofStream s
  have hrun : c.graphOf s = (c.schedule.run g).toExcept := by
    rw [graphOf, hg]
    rfl
  rw [hrun, Outcome.toExcept]
  rcases leaves_pipeline (FlowGraph.regular_ofStream hg) with h | ⟨⟨changed, h⟩, hreg⟩
  · exact .inr (by rw [schedule, h]; rfl)
  · exact .inl ⟨_, by rw [schedule, h]; rfl, hreg⟩

/-- The script of statements is cleaned up, unless a part of it has no rule or the temporaries run
out when its pushes are bound. -/
theorem clean_cases_of_labels (c : Config) (s : Script) :
    (∃ s', c.clean s = .ok s') ∨
      (∃ form ∈ s.rose.labels, StackState.rule.Lacks form.kind ∧
        c.clean s = .error (.unsupported form.kind.name)) ∨
      (ofScript s).bindPushes.toExcept = .error .counterOverflow ∧
        c.clean s = .error .counterOverflow := by
  rcases (editable_ofScript s).bindPushes_cases rfl with
    ⟨x, hx, hlacks, h⟩ | h | ⟨t₁, r₁, f, g, kept, usage, h₁, he₁, -⟩
  · refine .inr (.inl ⟨x.2, ?_, hlacks, by simp only [clean, h, bind, Except.bind]⟩)
    have hforms : (s.rose.tagged 0 1).forms = s.rose := forms_tagged _
    rw [← hforms, forms, labels_map]
    exact List.mem_map_of_mem hx
  · exact .inr (.inr ⟨h, by simp only [clean, h, bind, Except.bind]⟩)
  · obtain ⟨t₂, r₂, h₂, he₂, -⟩ := he₁.nameBuiltins c.names
    obtain ⟨t₃, r₃, h₃, he₃, -⟩ := he₂.dropUnusedPools
    obtain ⟨t₄, r₄, h₄, he₄, -⟩ := he₃.dropEmptyStatements
    obtain ⟨s', hs', -⟩ := he₄.represents.toScript_eq_ok he₄.wellFormed he₄.category
    exact .inl ⟨s', by simp only [clean, h₁, h₂, h₃, h₄, bind, Except.bind, hs']⟩

theorem clean_cases (c : Config) (s : Script) :
    (∃ s', c.clean s = .ok s') ∨ (∃ name, c.clean s = .error (.unsupported name)) ∨
      c.clean s = .error .counterOverflow := by
  rcases c.clean_cases_of_labels s with h | ⟨form, -, -, h⟩ | ⟨-, h⟩
  · exact .inl h
  · exact .inr (.inl ⟨_, h⟩)
  · exact .inr (.inr h)

/-- A cleanup does not run out of temporaries when there is room behind those of the statements for
one for each of their pushes. -/
theorem clean_ne_overflow (c : Config) {s : Script} {k : Nat} (hold : ∀ id ∈ s.temporaries, id < k)
    (hroom : k + s.pushes < counterBound) : c.clean s ≠ .error .counterOverflow := by
  intro herror
  rcases c.clean_cases_of_labels s with ⟨s', h⟩ | ⟨form, -, -, h⟩ | ⟨h, -⟩
  · cases herror.symm.trans h
  · cases herror.symm.trans h
  · exact bindPushes_fits hold hroom h

/-- The trees of a script between the stages of its cleanup. -/
structure Cleaned (c : Config) (s s' : Script) (r₁ r₂ r₃ : Rose (Nat × Form))
    (f g : Nat → Option Nat) (kept : Nat → Prop) (usage : List (Passage StackState)) : Prop where
  bound : Bound (s.rose.tagged 0 1) r₁ f g kept usage
  named : ReflTransGen (Locally (Named c.names)) r₁.forms r₂.forms
  pools : r₃ = r₂ ∨ (∀ form ∈ r₂.forms.labels, usesPool form.kind = false) ∧
    ReflTransGen (Locally (Dropped fun k => definesPool k = true)) r₂.forms r₃.forms
  dropped : ReflTransGen (Locally (Dropped (· = .empty))) r₃.forms s'.rose
  noBuiltin : ∀ form ∈ r₂.forms.labels, form.kind.isBuiltin = false
  used : (∃ form ∈ r₃.forms.labels, usesPool form.kind = true) ∨
    ∀ form ∈ r₃.forms.labels, definesPool form.kind = false
  noEmpty : r₃.forms.Braced → ∀ form ∈ s'.rose.labels, form.kind ≠ .empty

/-- What the stages of a cleanup hand on. -/
theorem clean_eq_ok {s s' : Script} (h : c.clean s = .ok s') :
    ∃ r₁ r₂ r₃ f g kept usage, c.Cleaned s s' r₁ r₂ r₃ f g kept usage := by
  rcases (editable_ofScript s).bindPushes_cases rfl with
    ⟨_, -, -, herr⟩ | herr | ⟨t₁, r₁, f, g, kept, usage, h₁, he₁, hbound⟩
  · simp only [clean, herr, bind, Except.bind] at h
    cases h
  · simp only [clean, herr, bind, Except.bind] at h
    cases h
  obtain ⟨t₂, r₂, h₂, he₂, hnamed, hbuiltin⟩ := he₁.nameBuiltins c.names
  obtain ⟨t₃, r₃, h₃, he₃, hpools, hused⟩ := he₂.dropUnusedPools
  obtain ⟨t₄, r₄, h₄, he₄, hdropped, hempty⟩ := he₃.dropEmptyStatements
  obtain ⟨s₄, hs₄, hrose⟩ := he₄.represents.toScript_eq_ok he₄.wellFormed he₄.category
  simp only [clean, h₁, h₂, h₃, h₄, bind, Except.bind, hs₄, Except.ok.injEq] at h
  subst h
  rw [← hrose] at hdropped hempty
  exact ⟨r₁, r₂, r₃, f, g, kept, usage, hbound, hnamed, hpools, hdropped, hbuiltin, hused, hempty⟩

/-- What the stages of a recovery hand on. -/
theorem recover_eq_ok {s : Stream} {script : Script} (h : c.recover s = .ok script) :
    ∃ g g' changed body, FlowGraph.ofStream s = .ok g ∧ c.schedule.run g = ⟨g', .ok changed⟩ ∧
      (FlowGraph.emit g' {}).statements = .ok body ∧ c.clean { body } = .ok script := by
  obtain ⟨g, _, hg, -⟩ := FlowGraph.depicts_ofStream s
  rcases hrun : c.schedule.run g with ⟨g', changed | changed⟩
  · simp only [recover, graphOf, hg, hrun, Outcome.toExcept, bind, Except.bind, Except.map] at h
    cases h
  · simp only [recover, graphOf, hg, hrun, Outcome.toExcept, bind, Except.bind, Except.map,
      scriptOf, FlowGraph.toScript] at h
    cases hbody : (FlowGraph.emit g' {}).statements with
    | error fault =>
      rw [hbody] at h
      cases h
    | ok body =>
      rw [hbody] at h
      exact ⟨g, g', changed, body, hg, hrun, hbody, h⟩

/-! ## Recoveries with room -/

/-- A script is the cleaned up statements of a graph. -/
theorem scriptOf_eq (c : Config) (g : FlowGraph) :
    c.scriptOf g = (FlowGraph.emit g {}).statements.bind fun body => c.clean { body } := by
  rw [scriptOf, FlowGraph.toScript]
  cases (FlowGraph.emit g {}).statements <;> rfl

/-- A recovery does not run out of temporaries when the reduced graph demands less than the bound of
a counter. -/
theorem scriptOf_ne_overflow {g : FlowGraph} (hg : g.Regular c.names.trace)
    (h : g.demand < counterBound) : c.scriptOf g ≠ .error .counterOverflow := by
  have hle := FlowGraph.demandOfPath_le hg.sound
  obtain ⟨hfits, hused⟩ := FlowGraph.within_emit g {} (by simp only [Nat.zero_add]; omega)
  rw [scriptOf_eq]
  cases hbody : (FlowGraph.emit g {}).statements with
  | error fault =>
    intro hfault
    cases hfault
    exact hfits hbody
  | ok body =>
    have hused := hused body hbody
    have hpushes : Script.pushes { body } = total Stmt.pushes body := by
      rw [Script.pushes, Script.rose, labels_node, List.countP_cons_of_neg (by simp),
        Stmt.countP_roses]
    refine c.clean_ne_overflow (k := (FlowGraph.emit g {}).scope.next) (fun id hid => ?_) ?_
    · obtain ⟨form, hform, hid⟩ := List.mem_filterMap.1 hid
      rw [Script.rose, labels_node] at hform
      rcases List.mem_cons.1 hform with rfl | hform
      · cases hid
      · exact ((hg.emits {} body hbody).temporary form hform id hid).2
    · simp only [Nat.zero_add] at hused
      omega

/-- A stream that demands less than the bound of a counter has a reduced graph that does. -/
theorem graphOf_fits (c : Config) {s : Stream} (h : s.demand < counterBound) :
    ∃ g, c.graphOf s = .ok g ∧ g.Regular c.names.trace ∧ g.demand < counterBound := by
  obtain ⟨g, _, hg, -⟩ := FlowGraph.depicts_ofStream s
  have hdemand : g.demand < counterBound :=
    Nat.lt_of_le_of_lt (FlowGraph.demand_le_of_ofStream hg) h
  have hregular : g.Regular c.names.trace := FlowGraph.regular_ofStream hg
  obtain ⟨⟨changed, hrun⟩, hreduced, hle⟩ :=
    hregular.gives_pipeline hdemand c.strict c.fixpoint c.maxIterations
  refine ⟨_, ?_, hreduced, Nat.lt_of_le_of_lt hle hdemand⟩
  simp only [graphOf, hg, schedule, Outcome.toExcept, bind, Except.bind, hrun, Except.map]

/-- A recovery does not run out of a counter when the actions demand less than its bound. -/
theorem recover_ne_overflow (c : Config) {s : Stream} (h : s.demand < counterBound) :
    c.recover s ≠ .error .counterOverflow := by
  obtain ⟨g, hg, hreg, hdemand⟩ := c.graphOf_fits h
  have hrecover : c.recover s = c.scriptOf g := by simp only [recover, hg, bind, Except.bind]
  exact hrecover ▸ scriptOf_ne_overflow hreg hdemand

/-- A stream has a reduced graph and a script, unless a part of it has no rule or a counter is at
the end of its range.  No counter is while the actions demand less than its bound. -/
theorem recover_cases (c : Config) (s : Stream) :
    (s.demand < counterBound → (∃ g, c.graphOf s = .ok g) ∧
      ((∃ script, c.recover s = .ok script) ∨ ∃ name, c.recover s = .error (.unsupported name))) ∧
    ((∃ g, c.graphOf s = .ok g) ∨ c.graphOf s = .error .counterOverflow) ∧
    ((∃ script, c.recover s = .ok script) ∨ (∃ name, c.recover s = .error (.unsupported name)) ∨
      c.recover s = .error .counterOverflow) := by
  have hcases : ((∃ g, c.graphOf s = .ok g) ∨ c.graphOf s = .error .counterOverflow) ∧
      ((∃ script, c.recover s = .ok script) ∨ (∃ name, c.recover s = .error (.unsupported name)) ∨
        c.recover s = .error .counterOverflow) := by
    rcases c.graphOf_cases s with ⟨g, hg, hreg⟩ | hg
    · refine ⟨.inl ⟨g, hg⟩, ?_⟩
      have hrun : c.recover s =
          (FlowGraph.emit g {}).statements.bind fun body => c.clean { body } := by
        rw [← scriptOf_eq, recover, hg]
        rfl
      cases hbody : (FlowGraph.emit g {}).statements with
      | error fault =>
        rw [hbody] at hrun
        rcases hreg.expected_emit {} fault hbody with ⟨name, rfl⟩ | rfl
        · exact .inr (.inl ⟨name, hrun⟩)
        · exact .inr (.inr hrun)
      | ok body =>
        rw [hrun, hbody]
        exact c.clean_cases _
    · refine ⟨.inr hg, .inr (.inr ?_)⟩
      simp only [recover, hg, bind, Except.bind]
  refine ⟨fun hroom => ⟨?_, ?_⟩, hcases⟩
  · obtain ⟨g, hg, -, -⟩ := c.graphOf_fits hroom
    exact ⟨g, hg⟩
  · exact hcases.2.imp_right fun h => h.resolve_right (c.recover_ne_overflow hroom)

/-- Both ways of a test lead back to an offset before it, and from there out of the stream: there is
a script.  A test that leads back to itself is refused. -/
theorem recover_cases_backward :
    let joined : Stream := [⟨0, .push [.boolean true], 9⟩, ⟨9, .branch (-7), 10⟩,
      ⟨10, .jump (-8), 11⟩, ⟨3, .push [.int32 1], 5⟩, ⟨5, .trace, 100⟩]
    let looped : Stream := [⟨0, .branch (-1), 1⟩]
    (joined.demand = 4 ∧ (∃ g, thorough.graphOf joined = .ok g) ∧
      ∃ script, thorough.recover joined = .ok script) ∧
    (looped.demand = 1 ∧ (∃ g, thorough.graphOf looped = .ok g) ∧
      thorough.recover looped = .error (.unsupported "If")) := by
  intro joined looped
  have hjoined : joined.demand = 4 := by cbv
  have hlooped : looped.demand = 1 := by cbv
  obtain ⟨hgraph, hscript⟩ := (recover_cases thorough joined).1 (by rw [hjoined]; decide)
  obtain ⟨hgraph', -⟩ := (recover_cases thorough looped).1 (by rw [hlooped]; decide)
  have hok : (thorough.recover joined).isOk = true := by cbv
  refine ⟨⟨hjoined, hgraph, hscript.resolve_right ?_⟩, hlooped, hgraph', by cbv⟩
  rintro ⟨name, herror⟩
  rw [herror] at hok
  cases hok

end Config

end ScriptRecovery
