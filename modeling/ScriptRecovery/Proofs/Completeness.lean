import ScriptRecovery.Proofs.Flow.Segments
import ScriptRecovery.Proofs.Lower.Refusals
import ScriptRecovery.Proofs.Lower.Statements
import ScriptRecovery.Proofs.Recovery

/-!
# Completeness on flat programs

The pipeline leaves no test of a flat graph, so the reduced graph of a flat stream is one path, and
only its actions decide what becomes of it.  An action without a recipe is neither lost nor made by
a pass, and statements of recipes and conditionals have a rule in every later stage.  So a flat
program has a script exactly if all its actions have recipes (`Config.recover_program_iff`), and is
refused for one of its actions otherwise.
-/

namespace ScriptRecovery

open Rose

namespace Config

variable {c : Config}

/-- Statements that lowering gives are cleaned up, unless the temporaries run out. -/
theorem clean_emitted (c : Config) {i k : Nat} {body : List Stmt} (h : Stmt.Emitted i k body) :
    (∃ script, c.clean { body } = .ok script) ∨ c.clean { body } = .error .counterOverflow := by
  rcases c.clean_cases_of_labels { body } with h' | ⟨form, hform, ⟨hsequential, hfork⟩, -⟩ | h'
  · exact .inl h'
  · rw [Script.rose, labels_node] at hform
    rcases List.mem_cons.1 hform with rfl | hform
    · cases hsequential
    · rcases h.sequential form hform with hkind | hkind
      · cases hkind.symm.trans hsequential
      · cases hfork hkind
  · exact .inr h'.2

/-- The reduced graph of a flat stream is one path.  Of the actions without a recipe, it holds those
that control may get to, and none that cannot be read. -/
theorem graphOf_flat {s : Stream} (hs : s.Flat) (hiter : c.fixpoint = true → 1 ≤ c.maxIterations) :
    (∃ g, c.graphOf s = .ok g ∧ g.Regular c.names.trace ∧ g.Terminates ∧ g.Unbranched ∧
      (∀ {a : Action}, a.recipe? = none → g.Holds a →
        ∃ o next, s.readAt? o = some (a, next) ∧ a.isStraight = true) ∧
      ∀ {a : Action} {o next : Nat}, a.recipe? = none → s.Reaches o →
        s.readAt? o = some (a, next) → a.isStraight = true → g.Holds a) ∨
    c.graphOf s = .error .counterOverflow := by
  obtain ⟨g, _, hg, -⟩ := FlowGraph.depicts_ofStream s
  obtain ⟨place, hbuilt⟩ := FlowGraph.built_ofStream hg
  have hreg : g.Regular c.names.trace := FlowGraph.regular_ofStream hg
  have hflat : (c.schedule.run g).Leaves fun g' =>
      (g'.Regular c.names.trace ∧ g'.Forked ∧ g'.Flat) ∧ g'.Unbranched :=
    (hbuilt.flat hs).leaves_pipeline hreg (FlowGraph.forked_ofStream hg) hiter
  have hheld : (c.schedule.run g).Leaves fun g' =>
      ∀ a : Action, a.recipe? = none → (g'.Holds a ↔ g.Holds a) := hreg.holds_pipeline
  have hgraph : c.graphOf s = (c.schedule.run g).toExcept := by
    rw [graphOf, hg]
    rfl
  rcases hflat with hfault | ⟨⟨changed, hok⟩, ⟨hreg', -, hflat'⟩, hunbranched⟩
  · refine .inr ?_
    rw [hgraph, Outcome.toExcept, hfault]
    rfl
  · have hheld := (hheld.resolve_left (by simp [hok])).2
    refine .inl ⟨_, ?_, hreg', hflat'.terminates, hunbranched, fun hnone ha => ?_,
      fun hnone ho hr ha => ?_⟩
    · rw [hgraph, Outcome.toExcept, hok]
      rfl
    · obtain ⟨⟨o, next, hr⟩, hb, hj⟩ := hbuilt.read_of_holds ((hheld _ hnone).1 ha)
      exact ⟨o, next, hr, Action.isStraight_iff.2 ⟨hb, hj⟩⟩
    · obtain ⟨hb, hj⟩ := Action.isStraight_iff.1 ha
      exact (hheld _ hnone).2 (hbuilt.holds_of_reaches ho hr hb hj)

/-- What becomes of a flat stream.  When there is a script, control gets to no action without a
recipe, and otherwise the fault names one that can be read. -/
theorem recover_flat {s : Stream} (hs : s.Flat) (hiter : c.fixpoint = true → 1 ≤ c.maxIterations) :
    ((∃ script, c.recover s = .ok script) ∧ ∀ {a : Action} {o next : Nat}, s.Reaches o →
      s.readAt? o = some (a, next) → a.isStraight = true → a.recipe?.isSome) ∨
    (∃ (a : Action) (o next : Nat), s.readAt? o = some (a, next) ∧ a.isStraight = true ∧
      a.recipe? = none ∧ c.recover s = .error (.unsupported a.name)) ∨
    c.recover s = .error .counterOverflow := by
  rcases c.graphOf_flat hs hiter with ⟨g, hg, hreg, hterminates, hunbranched, hread, hholds⟩ | hg
  · obtain ⟨hsaid, hrefused⟩ := hreg.emit_cases hterminates hunbranched {}
    have hrecover : c.recover s =
        (FlowGraph.emit g {}).statements.bind fun body => c.clean { body } := by
      rw [← scriptOf_eq, recover, hg]
      rfl
    cases hbody : (FlowGraph.emit g {}).statements with
    | error fault =>
      rw [hbody] at hrecover
      rcases hrefused fault hbody with rfl | ⟨a, ha, hnone, rfl⟩
      · exact .inr (.inr hrecover)
      · obtain ⟨o, next, hr, hstraight⟩ := hread hnone ha
        exact .inr (.inl ⟨a, o, next, hr, hstraight, hnone, hrecover⟩)
    | ok body =>
      rw [hbody] at hrecover
      rcases c.clean_emitted (hreg.emits {} body hbody) with ⟨script, h⟩ | h
      · refine .inl ⟨⟨script, hrecover.trans h⟩, fun {a o next} ho hr ha => ?_⟩
        by_contra hnone
        have hnone : a.recipe? = none := by simpa using hnone
        exact absurd (hsaid body hbody a (hholds hnone ho hr ha)) (by simp [hnone])
      · exact .inr (.inr (hrecover.trans h))
  · refine .inr (.inr ?_)
    rw [recover, hg]
    rfl

/-! ## Linked programs -/

/-- The stream of a listing demands what its actions do. -/
theorem demand_toStream (l : Listing) : l.toStream.demand = total Action.demand l.actions := by
  have hlayout : ∀ (start : Nat) (as : List Action),
      (Listing.layout start as).demand = total Action.demand as := by
    intro start as
    induction as generalizing start with
    | nil => rfl
    | cons a as ih =>
      rw [total, ← ih (start + a.encodedLength)]
      rfl
  exact hlayout 0 l.actions

theorem demand_unlinked (a : Action) : a.unlinked.demand = a.demand := by
  cases a <;> rfl

/-- A linked program whose actions demand less than the bound of a counter has a script exactly if
all its straight actions have recipes, and is refused for one that has none otherwise.  Whatever the
actions demand, there is no other outcome but a counter at the end of its range.  The encoding of
the program is no longer than offsets can tell. -/
theorem recover_program_iff {p : Program} {links : List (Nat × Nat)} {l : Listing}
    (hlinks : ∀ link, link ∈ links ↔ link ∈ p.links)
    (hl : Listing.retargetAll ⟨p.code⟩ links = .ok l)
    (hbound : total Action.encodedLength l.actions < offsetBound)
    (hiter : c.fixpoint = true → 1 ≤ c.maxIterations) :
    (total Action.demand p.code < counterBound →
      ((∃ script, c.recover l.toStream = .ok script) ↔
        ∀ a ∈ p.code, a.isStraight = true → a.recipe?.isSome) ∧
      ((∃ script, c.recover l.toStream = .ok script) ∨
        ∃ a ∈ p.code, a.isStraight = true ∧ a.recipe? = none ∧
          c.recover l.toStream = .error (.unsupported a.name))) ∧
    (((∃ script, c.recover l.toStream = .ok script) ∧
        ∀ a ∈ p.code, a.isStraight = true → a.recipe?.isSome) ∨
      (∃ a ∈ p.code, a.isStraight = true ∧ a.recipe? = none ∧
        c.recover l.toStream = .error (.unsupported a.name)) ∨
      c.recover l.toStream = .error .counterOverflow) := by
  have hlaid := Program.laid_of_retargetAll hlinks hl hbound
  have hcases : ((∃ script, c.recover l.toStream = .ok script) ∧
        ∀ a ∈ p.code, a.isStraight = true → a.recipe?.isSome) ∨
      (∃ a ∈ p.code, a.isStraight = true ∧ a.recipe? = none ∧
        c.recover l.toStream = .error (.unsupported a.name)) ∨
      c.recover l.toStream = .error .counterOverflow := by
    rcases recover_flat hlaid.flat hiter with
      ⟨hscript, hreached⟩ | ⟨a, o, next, hr, ha, hnone, herror⟩ | h
    · refine .inl ⟨hscript, fun a hmem ha => ?_⟩
      obtain ⟨i, hi⟩ := List.getElem?_of_mem hmem
      have hle : i ≤ p.code.length := Nat.le_of_lt (List.getElem?_eq_some_iff.1 hi).1
      exact hreached (hlaid.reaches hle) (Listing.readAt?_start ((hlaid.straight_iff ha).2 hi)) ha
    · obtain ⟨i, hi, -, -⟩ := Listing.readAt?_iff.1 hr
      have hmem := List.mem_of_getElem? ((hlaid.straight_iff ha).1 hi)
      exact .inr (.inl ⟨a, hmem, ha, hnone, herror⟩)
    · exact .inr (.inr h)
  refine ⟨fun hroom => ?_, hcases⟩
  have hfits : c.recover l.toStream ≠ .error .counterOverflow := by
    refine c.recover_ne_overflow ?_
    rwa [demand_toStream, hlaid.relinked.total_eq demand_unlinked]
  rcases hcases with ⟨hscript, hall⟩ | ⟨a, hmem, ha, hnone, herror⟩ | h
  · exact ⟨⟨fun _ => hall, fun _ => hscript⟩, .inl hscript⟩
  · refine ⟨⟨fun ⟨script, hscript⟩ => ?_, fun hall => ?_⟩, .inr ⟨a, hmem, ha, hnone, herror⟩⟩
    · cases hscript.symm.trans herror
    · exact absurd hnone (Option.isSome_iff_ne_none.1 (hall a hmem ha))
  · exact absurd h hfits

/-- Three tests in a row, each at the end of the one before it, with empty arms: there is a script.
Behind a test with an empty arm, one whose only arm has an action without a recipe: the program is
refused for that action. -/
theorem recover_program_iff_joined :
    let joined : Program := [.action ⟨.push [.boolean true, .boolean false, .boolean true], rfl⟩,
      .ifElse 0 0 [] [⟨.push [.int32 1], rfl⟩, ⟨.trace, rfl⟩], .ifOnly 0 [], .ifElse 0 0 [] []]
    let playing : Program := [.action ⟨.push [.boolean true], rfl⟩,
      .ifElse 0 0 [] [⟨.push [.int32 1], rfl⟩, ⟨.trace, rfl⟩],
      .action ⟨.push [.boolean false], rfl⟩, .ifOnly 0 [⟨.play, rfl⟩]]
    (∃ l, Listing.retargetAll ⟨joined.code⟩ [(7, 8), (6, 8), (5, 6), (2, 5), (1, 3)] = .ok l ∧
      total Action.demand joined.code = 8 ∧ ∃ script, thorough.recover l.toStream = .ok script) ∧
    ∃ l, Listing.retargetAll ⟨playing.code⟩ [(6, 8), (2, 5), (1, 3)] = .ok l ∧
      total Action.demand playing.code = 6 ∧
      thorough.recover l.toStream = .error (.unsupported "Play") ∧
      ∃ a ∈ playing.code, a.isStraight = true ∧ a.recipe? = none ∧ a.name = "Play" := by
  intro joined playing
  constructor
  · obtain ⟨l, hl, hbound⟩ : ∃ l,
        Listing.retargetAll ⟨joined.code⟩ [(7, 8), (6, 8), (5, 6), (2, 5), (1, 3)] = .ok l ∧
        total Action.encodedLength l.actions < offsetBound :=
      ⟨_, by cbv, by cbv⟩
    have hlinks : ∀ link, link ∈ [(7, 8), (6, 8), (5, 6), (2, 5), (1, 3)] ↔
        link ∈ joined.links := by
      have hreverse : joined.links.reverse = [(7, 8), (6, 8), (5, 6), (2, 5), (1, 3)] := rfl
      simp [← hreverse]
    have hdemand : total Action.demand joined.code = 8 := by rfl
    have hrecipes : ∀ a ∈ joined.code, a.isStraight = true → a.recipe?.isSome := by decide
    obtain ⟨hiff, -⟩ := (recover_program_iff (c := thorough) hlinks hl hbound (by decide)).1
      (by rw [hdemand]; decide)
    exact ⟨l, hl, hdemand, hiff.2 hrecipes⟩
  · obtain ⟨l, hl, hbound, hrecover⟩ : ∃ l,
        Listing.retargetAll ⟨playing.code⟩ [(6, 8), (2, 5), (1, 3)] = .ok l ∧
        total Action.encodedLength l.actions < offsetBound ∧
        thorough.recover l.toStream = .error (.unsupported "Play") :=
      ⟨_, by cbv, by cbv, by cbv⟩
    have hlinks : ∀ link, link ∈ [(6, 8), (2, 5), (1, 3)] ↔ link ∈ playing.links := by
      have hreverse : playing.links.reverse = [(6, 8), (2, 5), (1, 3)] := rfl
      simp [← hreverse]
    have hdemand : total Action.demand playing.code = 6 := by rfl
    obtain ⟨-, hanswer⟩ := (recover_program_iff (c := thorough) hlinks hl hbound (by decide)).1
      (by rw [hdemand]; decide)
    rcases hanswer with ⟨script, h⟩ | ⟨a, hmem, ha, hnone, h⟩
    · cases hrecover.symm.trans h
    · have hname := Except.error.inj (h.symm.trans hrecover)
      exact ⟨l, hl, hdemand, hrecover, a, hmem, ha, hnone, Fault.unsupported.inj hname⟩

end Config

end ScriptRecovery
