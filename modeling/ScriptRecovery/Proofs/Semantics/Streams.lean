import ScriptRecovery.Proofs.Flow.Traces
import ScriptRecovery.Proofs.Semantics.Graphs

/-!
# Runs of streams

A stream is run from an offset on, and an action of it as the statements that it amounts to on its
own (`Stream.Runs`).  The temporaries of these statements are whatever a scope gives out, so a
stream has more than one run, but all of them end in the same way and leave the same apart from
temporaries (`Stream.Runs.effect_unique`).

What the graph of a stream does the stream does (`FlowGraph.Depicts.runs`).  A run of the graph
passes edges that the stream does not have, and a run of the stream takes jumps that the graph does
not have, as in their traces.
-/

namespace ScriptRecovery

variable {V σ : Type}

/-- The runs of a stream from a place on, with how they end and the memory that they leave. -/
inductive Stream.Runs (I : Interpretation V σ) (s : Stream) :
    Option Nat → Memory V σ → Result V σ → Prop
  | outside {m : Memory V σ} : Runs I s none m (.done (), m)
  | unreadable {o : Nat} {m : Memory V σ} : s.readAt? o = none → Runs I s (some o) m (.done (), m)
  | jump {o next : Nat} {d : Int16} {m : Memory V σ} {r : Result V σ} :
      s.readAt? o = some (.jump d, next) → Runs I s (branchTarget next d) m r →
      Runs I s (some o) m r
  | branch {o next : Nat} {d : Int16} {m : Memory V σ} {r : Result V σ} :
      s.readAt? o = some (.branch d, next) →
      Runs I s (if I.holds (I.peek m.stack 0) then branchTarget next d else some next) m.pop r →
      Runs I s (some o) m r
  | action {o next : Nat} {a : Action} {scope : Scope} {body : List Stmt} {m m' : Memory V σ}
      {r : Result V σ} : s.readAt? o = some (a, next) → (a.emit scope).statements = .ok body →
      I.play body m = (.done (), m') → Runs I s (some next) m' r → Runs I s (some o) m r
  | stop {o next : Nat} {a : Action} {scope : Scope} {body : List Stmt} {m : Memory V σ}
      {r : Result V σ} : s.readAt? o = some (a, next) → (a.emit scope).statements = .ok body →
      I.play body m = r → r.1 ≠ .done () → Runs I s (some o) m r

variable {I : Interpretation V σ} {s : Stream} {t : Option Nat} {m m' : Memory V σ}
  {r r' : Result V σ}

/-- The statements of an action do what the action does. -/
theorem Interpretation.act_emit {a : Action} {scope : Scope} {body : List Stmt}
    (h : (a.emit scope).statements = .ok body) (m : Memory V σ) :
    I.act a m.core = some (I.play body m).effect := by
  obtain ⟨r, hr, rfl⟩ := Action.emit_eq_ok h
  exact I.act_play hr scope.next m

/-- An action that does something can be said in statements. -/
theorem Interpretation.emit_of_act {a : Action} {c : Core V σ} {e : Effect V σ}
    (h : I.act a c = some e) : ∃ body, (a.emit {}).statements = .ok body := by
  obtain ⟨r, hr, -⟩ := Option.map_eq_some_iff.1 h
  refine ⟨r.body 0, ?_⟩
  have hfits : Scope.fits {} r.temporaries = true := by
    cases a <;> first | (cases hr; done) | (cases hr; rfl)
  simp only [Action.emit, hr, Recipe.emit, hfits]
  rfl

/-! ## What a run does next -/

namespace Stream

variable {o next : Nat} {a : Action} {d : Int16}

theorem Runs.of_unreadable (hr : s.readAt? o = none) (h : s.Runs I (some o) m r) :
    r = (.done (), m) := by
  cases h with
  | unreadable _ => rfl
  | jump hr' | branch hr' | action hr' | stop hr' => cases hr.symm.trans hr'

theorem Runs.of_jump (hr : s.readAt? o = some (.jump d, next)) (h : s.Runs I (some o) m r) :
    s.Runs I (branchTarget next d) m r := by
  cases h with
  | jump hr' h =>
    cases hr.symm.trans hr'
    exact h
  | unreadable hr' | branch hr' => cases hr.symm.trans hr'
  | action hr' hb | stop hr' hb =>
    cases hr.symm.trans hr'
    cases hb

theorem Runs.of_branch (hr : s.readAt? o = some (.branch d, next)) (h : s.Runs I (some o) m r) :
    s.Runs I (if I.holds (I.peek m.stack 0) then branchTarget next d else some next) m.pop r := by
  cases h with
  | branch hr' h =>
    cases hr.symm.trans hr'
    exact h
  | unreadable hr' | jump hr' => cases hr.symm.trans hr'
  | action hr' hb | stop hr' hb =>
    cases hr.symm.trans hr'
    cases hb

/-- An action that does something is run as its effect says, whatever its temporaries are. -/
theorem Runs.of_action {e : Effect V σ} (hr : s.readAt? o = some (a, next))
    (ha : I.act a m.core = some e) (h : s.Runs I (some o) m r) :
    (∃ m', m'.core = e.2 ∧ e.1 = .done () ∧ s.Runs I (some next) m' r) ∨
      r.effect = e ∧ e.1 ≠ .done () := by
  cases h with
  | unreadable hr' => cases hr.symm.trans hr'
  | jump hr' | branch hr' =>
    cases hr.symm.trans hr'
    cases ha
  | @action _ _ _ scope body _ m' _ hr' hb hplay h =>
    cases hr.symm.trans hr'
    have heq := Option.some.inj ((Interpretation.act_emit hb m).symm.trans ha)
    rw [hplay] at heq
    subst heq
    exact .inl ⟨m', rfl, rfl, h⟩
  | stop hr' hb hplay hne =>
    cases hr.symm.trans hr'
    have heq := Option.some.inj ((Interpretation.act_emit hb m).symm.trans ha)
    rw [hplay] at heq
    subst heq
    exact .inr ⟨rfl, hne⟩

/-- Runs end in the same way and leave the same, whatever temporaries their actions are given. -/
theorem Runs.effect_unique (h : s.Runs I t m r) (h' : s.Runs I t m' r') (hm : m.core = m'.core) :
    r.effect = r'.effect := by
  induction h generalizing m' r' with
  | outside =>
    cases h'
    exact congrArg (Prod.mk _) hm
  | unreadable hr =>
    rw [h'.of_unreadable hr]
    exact congrArg (Prod.mk _) hm
  | jump hr _ ih => exact ih (h'.of_jump hr) hm
  | @branch o next d m r hr _ ih =>
    have hstack : m.stack = m'.stack := congrArg Core.stack hm
    have h' := h'.of_branch hr
    rw [← hstack] at h'
    exact ih h' (congrArg Core.pop hm)
  | @action o next a scope body m m₁ r hr hb hplay _ ih =>
    have ha := Interpretation.act_emit (I := I) hb m
    rw [hm, hplay] at ha
    rcases h'.of_action hr ha with ⟨m₁', hm₁, -, h'⟩ | ⟨-, hne⟩
    · exact ih h' hm₁.symm
    · exact absurd rfl hne
  | @stop o next a scope body m r hr hb hplay hne =>
    have ha := Interpretation.act_emit (I := I) hb m
    rw [hm, hplay] at ha
    rcases h'.of_action hr ha with ⟨-, -, hdone, -⟩ | ⟨heq, -⟩
    · exact absurd hdone hne
    · exact heq.symm

/-- A silent step does not change what a run does. -/
theorem Runs.of_silent {t' : Option Nat} (ht : s.machine.silent t t') (h : s.Runs I t' m r) :
    s.Runs I t m r := by
  obtain ⟨o, next, d, rfl, hr, rfl⟩ := ht
  exact .jump hr h

/-- An action is run as its effect says. -/
theorem runs_action {c' : Core V σ} {e : Effect V σ} (hr : s.readAt? o = some (a, next))
    (ha : I.act a m.core = some (.done (), c'))
    (h : ∀ m' : Memory V σ, m'.core = c' → ∃ r, s.Runs I (some next) m' r ∧ r.effect = e) :
    ∃ r, s.Runs I (some o) m r ∧ r.effect = e := by
  obtain ⟨body, hbody⟩ := Interpretation.emit_of_act ha
  have heq := Option.some.inj ((Interpretation.act_emit hbody m).symm.trans ha)
  rcases hplay : I.play body m with ⟨x, m'⟩
  rw [hplay] at heq
  obtain ⟨rfl, hcore⟩ := Prod.mk.inj heq
  obtain ⟨r, hruns, heq⟩ := h m' hcore
  exact ⟨r, .action hr hbody hplay hruns, heq⟩

theorem runs_stop {e : Effect V σ} (hr : s.readAt? o = some (a, next))
    (ha : I.act a m.core = some e) (hne : e.1 ≠ .done ()) :
    ∃ r, s.Runs I (some o) m r ∧ r.effect = e := by
  obtain ⟨body, hbody⟩ := Interpretation.emit_of_act ha
  have heq := Option.some.inj ((Interpretation.act_emit hbody m).symm.trans ha)
  refine ⟨_, .stop hr hbody rfl ?_, heq⟩
  rw [← heq] at hne
  exact hne

end Stream

/-! ## Runs of the graph of a stream -/

namespace FlowGraph

variable {g : FlowGraph} {place : Nat → Option Nat} {n : Nat}

/-- Where a graph is, with the edge that is still to pass, while a stream is where `t` says. -/
inductive Tracks (g : FlowGraph) (s : Stream) (place : Nat → Option Nat) :
    List Edge → Nat → Option Nat → Prop
  | here {n : Nat} {t : Option Nat} : Follows g s place n t → Tracks g s place [] n t
  | passive {e : Edge} {n : Nat} {t : Option Nat} :
      e = .plain ∨ e = .ifTest ∨ e = .ifTrue ∨ e = .ifFalse → Follows g s place n t →
      Tracks g s place [e] n t
  | action {a : Action} {n : Nat} {t t' : Option Nat} : s.Emits t (.action a) t' →
      Follows g s place n t' → Tracks g s place [.action a] n t

/-- The one way out of a node is no step of the stream, or it is followed by a silent one at
most. -/
theorem Depicts.tracks_simple (hg : g.Depicts s place) {l : Link Edge}
    (hn : g.node? n = some (.simple l)) (hd : IsDrawn (.simple l)) (h : g.Follows s place n t) :
    ∃ t', (t' = t ∨ s.machine.silent t t') ∧ g.Tracks s place [l.edge] l.dest t' := by
  obtain ⟨e, dest⟩ := l
  have silent : e.isSilent = true → e = .plain ∨ e = .ifTest →
      ∃ t', (t' = t ∨ s.machine.silent t t') ∧ g.Tracks s place [e] dest t' := by
    intro hs he
    obtain ⟨t', ht, h'⟩ := hg.follow_silent h ((machine_silent_iff hn).2 ⟨hs, rfl⟩)
    exact ⟨t', ht, .passive (he.imp_right .inl) h'⟩
  cases e with
  | plain => exact silent rfl (.inl rfl)
  | ifTest => exact silent rfl (.inr rfl)
  | action a =>
    obtain ⟨t', ht, h'⟩ := hg.follow_emits h ((machine_emits_iff hn).2 ⟨rfl, rfl⟩)
    exact ⟨t, .inl rfl, .action ht h'⟩
  | ifTrue | ifFalse | template _ | conditional _ _ | marker _ | sub => exact hd.elim

/-- A test of the graph is a branch of the stream. -/
theorem Depicts.tracks_branch (hg : g.Depicts s place) {a b : Link Edge}
    (hn : g.node? n = some (.branch a b)) (h : g.Follows s place n t) :
    ∃ o next d, t = some o ∧ s.readAt? o = some (.branch d, next) ∧
      g.Tracks s place [a.edge] a.dest (branchTarget next d) ∧
        g.Tracks s place [b.edge] b.dest (some next) := by
  cases h with
  | arrived h =>
    obtain ⟨l, hl⟩ := hg.simple_of_arrives h
    cases hn.symm.trans hl
  | ended h => cases hn.symm.trans h
  | testing h hr ha hb =>
    cases hn.symm.trans h
    exact ⟨_, _, _, rfl, hr, .passive (.inr (.inr (.inl rfl))) (.arrived ha),
      .passive (.inr (.inr (.inr rfl))) (.arrived hb)⟩

/-- What the graph of a stream does the stream does. -/
theorem Depicts.runs (hg : g.Depicts s place) (hdrawn : ∀ n node, g.node? n = some node →
    IsDrawn node) {es : List Edge} {c : Core V σ} {e : Effect V σ} (h : g.Runs I es n c e)
    (ht : g.Tracks s place es n t) (hm : m.core = c) :
    ∃ r : Result V σ, s.Runs I t m r ∧ r.effect = e := by
  induction h generalizing t m with
  | @ended n c hn =>
    subst hm
    cases ht with
    | here hf =>
      have hends := hg.follow_ends hf hn
      cases t with
      | none => exact ⟨_, .outside, rfl⟩
      | some o => exact ⟨_, .unreadable (hends o rfl), rfl⟩
  | @simple n l c e hn _ ih =>
    cases ht with
    | here hf =>
      obtain ⟨t', rfl | hsilent, ht⟩ := hg.tracks_simple hn (hdrawn n _ hn) hf
      · exact ih ht hm
      · obtain ⟨r, hr, heq⟩ := ih ht hm
        exact ⟨r, hr.of_silent hsilent, heq⟩
  | @branch n a b l c e hn hl _ ih =>
    subst hm
    cases ht with
    | here hf =>
      obtain ⟨o, next, d, rfl, hread, ha, hb⟩ := hg.tracks_branch hn hf
      have hl : l = if I.holds (I.peek m.stack 0) then a else b := hl
      have htracks : g.Tracks s place [l.edge] l.dest
          (if I.holds (I.peek m.stack 0) then branchTarget next d else some next) := by
        cases hholds : I.holds (I.peek m.stack 0) with
        | true => simpa [hl, hholds] using ha
        | false => simpa [hl, hholds] using hb
      obtain ⟨r, hr, heq⟩ := ih (m := m.pop) htracks rfl
      exact ⟨r, .branch hread hr, heq⟩
  | @pass edge es n c c' e he _ ih =>
    subst hm
    cases ht with
    | passive hedge hf =>
      have hc : m.core = c' := by
        rcases hedge with rfl | rfl | rfl | rfl <;> exact (Prod.mk.inj (Option.some.inj he)).2
      exact ih (.here hf) hc
    | action hemits hf =>
      cases hemits with
      | action hread _ _ => exact Stream.runs_action hread he fun m' hm' => ih (.here hf) hm'
  | @stop edge es n c e he hne =>
    subst hm
    cases ht with
    | passive hedge hf =>
      refine absurd ?_ hne
      rcases hedge with rfl | rfl | rfl | rfl <;>
        exact (congrArg Prod.fst (Option.some.inj he)).symm
    | action hemits hf =>
      cases hemits with
      | action hread _ _ => exact Stream.runs_stop hread he hne
  | choose _ _ =>
    cases ht with
    | passive hedge _ => rcases hedge with h | h | h | h <;> cases h

/-- What the graph of a stream does from its entry on the stream does from offset zero on. -/
theorem runs_ofStream (h : ofStream s = .ok g) {e : Effect V σ}
    (hruns : g.Runs I [] g.source m.core e) :
    ∃ r : Result V σ, s.Runs I (some 0) m r ∧ r.effect = e := by
  obtain ⟨g', place, hok, -, hg, -, hdrawn⟩ := depicts_ofStream s
  obtain rfl := Except.ok.inj (hok.symm.trans h)
  exact hg.runs hdrawn hruns (.here (.arrived (.inl hg.start))) rfl

end FlowGraph

end ScriptRecovery
