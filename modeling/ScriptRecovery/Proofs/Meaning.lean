import ScriptRecovery.Proofs.Cleanup.Meaning
import ScriptRecovery.Proofs.Recovery
import ScriptRecovery.Proofs.Semantics.Inlining
import ScriptRecovery.Proofs.Semantics.Streams

/-!
# What a recovered script does

A recovered script does what its stream does (`Config.recover_runs`).  The proof goes through the
stages of a recovery from the last to the first.

* The cleaned up script does what the script of lowered statements does (`Config.run_clean`).
* These statements do what a run of the reduced graph does (`FlowGraph.Regular.runs`).
* What the reduced graph does the graph of the stream does (`FlowGraph.Regular.refines_pipeline`).
* What this graph does the stream does (`FlowGraph.runs_ofStream`).

A script always ends, so the stream has a run.  All its runs end alike, as its actions differ in
their temporaries only.
-/

namespace ScriptRecovery

open SyntaxTree

variable {V σ : Type} {I : Interpretation V σ}

/-- Whether a script ends like a stream: in the same way, with the same state, and with the same
operand stack if it runs off the end. -/
structure SameEnd (r : Result V σ) (r' : Ending V (Answer V) × Memory V σ) : Prop where
  ending : r'.1.map (fun _ => ()) = r.1
  state : r'.2.state = r.2.state
  stack : r.1 = .done () → r'.2.stack = r.2.stack

/-- A script is run like its statements. -/
theorem Interpretation.run_eq_play {s : Script} {m : Memory V σ} :
    (I.run s m).1.map (fun _ => ()) = (I.play s.body m).1 ∧
      (I.run s m).2 = (I.play s.body m).2 := by
  rw [run, Script.rose, exec_sequential I rfl (by simp), play]
  rcases I.execRow (Stmt.roses s.body) m with ⟨e, m'⟩
  cases e <;> exact ⟨rfl, rfl⟩

namespace Config

variable {c : Config}

/-- A script that is cleaned up does what it did before. -/
theorem run_clean {s s' : Script} (h : c.clean s = .ok s') (hI : I.names = c.names)
    (m : Memory V σ) : (I.run s m).1 = (I.run s' m).1 ∧
      (I.run s m).2.state = (I.run s' m).2.state ∧
      ∀ a, (I.run s m).1 = .done a → (I.run s m).2.stack = (I.run s' m).2.stack := by
  have he := editable_ofScript s
  obtain ⟨r₁, r₂, r₃, f, g, kept, usage, hbound, hnamed, hpools, hempty, -⟩ := clean_eq_ok h
  have hfree : ∀ r : Rose Form, r.Free False := fun _ h => h.elim
  have hsame₁ := hbound.same he.represents.nodup I m
  rw [Rose.forms_tagged] at hsame₁
  have hsame₂ : Alike False (I.exec r₁.forms m) (I.exec r₂.forms m) := by
    rw [← hI] at hnamed
    exact (Interpretation.same_of_steps (fun h hx => ⟨Interpretation.same_of_named h hx, hfree _⟩)
      hnamed (hfree _)).1.exec (.refl m)
  have hsame₃ : Alike True (I.exec r₂.forms m) (I.exec r₃.forms m) := by
    rcases hpools with rfl | ⟨hunused, hsteps⟩
    · exact ⟨rfl, .refl _⟩
    · refine (Interpretation.same_of_steps (Interpretation.same_of_dropped fun hk => ?_) hsteps
        fun _ => hunused).1.exec (.refl m)
      obtain ⟨pool, rfl⟩ := definesPool_iff.1 hk
      exact I.idle_constantPool pool
  have hsame₄ : Alike False (I.exec r₃.forms m) (I.run s' m) :=
    (Interpretation.same_of_steps (Interpretation.same_of_dropped fun hk => hk ▸ I.idle_empty)
      hempty (hfree _)).1.exec (.refl m)
  refine ⟨?_, ?_, fun a ha => ?_⟩
  · exact hsame₁.ending.trans (hsame₂.ending.trans (hsame₃.ending.trans hsame₄.ending))
  · exact hsame₁.agrees.state.trans
      (hsame₂.near.state.trans (hsame₃.near.state.trans hsame₄.near.state))
  · exact (hsame₁.stack a ha).trans
      (hsame₂.near.stack.trans (hsame₃.near.stack.trans hsame₄.near.stack))

/-- A recovered script does what its stream does, under every meaning of the operations and from
every memory. -/
theorem recover_runs {s : Stream} {script : Script} (h : c.recover s = .ok script)
    (hI : I.names = c.names) (m : Memory V σ) :
    (∃ r, s.Runs I (some 0) m r) ∧ ∀ r, s.Runs I (some 0) m r → SameEnd r (I.run script m) := by
  obtain ⟨g, g', changed, body, hg, hrun, hbody, hclean⟩ := recover_eq_ok h
  rw [schedule, ← hI] at hrun
  obtain ⟨hreg, hrefines⟩ := (FlowGraph.regular_ofStream hg).refines_pipeline hrun
  have hreturn : g'.NoReturn := fun _ hn =>
    Graph.no_return_of_path (FlowGraph.path_of_emit hbody).1 hn
  have hgraph : g.Runs I [] g.source m.core (I.play body m).effect :=
    hrefines.runs hreturn (hreg.runs hbody m)
  obtain ⟨r₀, hr₀, heffect⟩ := FlowGraph.runs_ofStream hg hgraph
  refine ⟨⟨r₀, hr₀⟩, fun r hr => ?_⟩
  -- all runs of the stream end like the statements, and the script ends like them
  obtain ⟨hending, hcore⟩ : r.1 = (I.play body m).1 ∧ r.2.core = (I.play body m).2.core :=
    Prod.mk.inj ((hr.effect_unique hr₀ rfl).trans heffect)
  obtain ⟨hplay, hleft⟩ := Interpretation.run_eq_play (I := I) (s := { body }) (m := m)
  obtain ⟨hend, hstate, hstack⟩ := run_clean hclean hI m
  refine ⟨?_, ?_, fun hdone => ?_⟩
  · rw [← hend, hplay, hending]
  · rw [← hstate, hleft]
    exact (congrArg Core.state hcore).symm
  · rw [hending, ← hplay] at hdone
    cases hscript : (I.run { body } m).1 with
    | done a =>
      rw [← hstack a hscript, hleft]
      exact (congrArg Core.stack hcore).symm
    | returned v =>
      rw [hscript] at hdone
      cases hdone
    | raised v =>
      rw [hscript] at hdone
      cases hdone

/-- A choice between a pool entry and null, which is printed: recovery gives a script, and the
script does what the stream does. -/
theorem recover_runs_choice :
    let s : Stream := [⟨0, .constantPool ["a"], 6⟩, ⟨6, .push [.register 1], 9⟩, ⟨9, .branch 6, 14⟩,
      ⟨14, .push [.constant 0], 18⟩, ⟨18, .jump 2, 20⟩, ⟨20, .push [.null], 22⟩, ⟨22, .trace, 23⟩]
    ∃ script, (default : Config).recover s = .ok script ∧
      ∀ (I : Interpretation Nat (List Nat)) (m : Memory Nat (List Nat)),
        let named : Interpretation Nat (List Nat) := { I with names := {} }
        (∃ r, s.Runs named (some 0) m r) ∧
          ∀ r, s.Runs named (some 0) m r → SameEnd r (named.run script m) := by
  intro s
  obtain ⟨script, h⟩ : ∃ script, (default : Config).recover s = .ok script := ⟨_, by cbv⟩
  exact ⟨script, h, fun I m => recover_runs h rfl m⟩

end Config

end ScriptRecovery
