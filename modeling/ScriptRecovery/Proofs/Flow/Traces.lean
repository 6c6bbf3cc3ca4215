import ScriptRecovery.Proofs.Flow.Depicts

/-!
# The behaviour of a stream and of its graph

A stream is a machine over offsets, and a graph of a stream is a machine over nodes.  What can be
seen of either is a list of labels: the actions run, and the choice made at each branch.  Jumps,
plain edges and test edges are silent.  `traces_ofStream` says that the two machines have the same
finite traces, and that the same ones among them end.

The machines do not move in lockstep.  An offset may be found through a second node with a plain
edge to its own, a branch passes a test on the graph only, and a jump that leads nowhere moves on
the stream only.  So the graph is followed through `Follows`, which has one case for each kind of
node met, and the stream is followed through `Arrives`.
-/

namespace ScriptRecovery

/-! ## Labelled machines -/

/-- What can be seen of a step. -/
inductive Label
  /-- An action is run. -/
  | action (action : Action)
  /-- A test holds or does not. -/
  | choice (holds : Bool)

/-- A machine with visible and silent steps. -/
structure Machine (α : Type) where
  /-- The visible steps. -/
  emits : α → Label → α → Prop
  /-- The silent steps. -/
  silent : α → α → Prop
  /-- The states in which the machine has ended. -/
  ends : α → Prop

/-- The finite traces of a machine from a state, and whether they end. -/
inductive Machine.Trace {α : Type} (m : Machine α) : α → List Label → Bool → Prop
  | here {a : α} : m.Trace a [] false
  | ends {a : α} : m.ends a → m.Trace a [] true
  | silent {a b : α} {ls : List Label} {ended : Bool} :
      m.silent a b → m.Trace b ls ended → m.Trace a ls ended
  | emit {a b : α} {l : Label} {ls : List Label} {ended : Bool} :
      m.emits a l b → m.Trace b ls ended → m.Trace a (l :: ls) ended

/-- What can be seen of an edge. -/
def Edge.label? : Edge → Option Label
  | .action a => some (.action a)
  | .ifTrue => some (.choice true)
  | .ifFalse => some (.choice false)
  | _ => none

/-- Whether an edge is passed without being seen. -/
def Edge.isSilent : Edge → Bool
  | .plain | .ifTest => true
  | _ => false

/-- A graph as a machine over its nodes. -/
def FlowGraph.machine (g : FlowGraph) : Machine Nat where
  emits n label m := ∃ node l, g.node? n = some node ∧ l ∈ node.links ∧
    l.edge.label? = some label ∧ l.dest = m
  silent n m := ∃ node l, g.node? n = some node ∧ l ∈ node.links ∧
    l.edge.isSilent = true ∧ l.dest = m
  ends n := g.node? n = some .done

/-- Where a visible step of a stream leads from an offset. -/
inductive Stream.Emits (s : Stream) : Option Nat → Label → Option Nat → Prop
  | action {o next : Nat} {a : Action} : s.readAt? o = some (a, next) →
      (∀ d, a ≠ .branch d) → (∀ d, a ≠ .jump d) → s.Emits (some o) (.action a) (some next)
  | taken {o next : Nat} {d : Int16} : s.readAt? o = some (.branch d, next) →
      s.Emits (some o) (.choice true) (branchTarget next d)
  | passed {o next : Nat} {d : Int16} : s.readAt? o = some (.branch d, next) →
      s.Emits (some o) (.choice false) (some next)

/-- A stream as a machine over offsets.  A branch that leads outside the offsets leads to `none`. -/
def Stream.machine (s : Stream) : Machine (Option Nat) where
  emits := s.Emits
  silent o o' := ∃ offset next d, o = some offset ∧ s.readAt? offset = some (.jump d, next) ∧
    o' = branchTarget next d
  ends o := ∀ offset, o = some offset → s.readAt? offset = none

namespace FlowGraph

variable {g : FlowGraph} {s : Stream} {place : Nat → Option Nat}

/-! ## The steps of a graph -/

theorem machine_silent_iff {n m : Nat} {l : Link Edge} (h : g.node? n = some (.simple l)) :
    g.machine.silent n m ↔ l.edge.isSilent = true ∧ l.dest = m := by
  simp [machine, h, Node.links]

theorem machine_emits_iff {n m : Nat} {label : Label} {l : Link Edge}
    (h : g.node? n = some (.simple l)) :
    g.machine.emits n label m ↔ l.edge.label? = some label ∧ l.dest = m := by
  simp [machine, h, Node.links]

theorem machine_emits_branch {n m : Nat} {label : Label} {a b : Nat}
    (h : g.node? n = some (.branch ⟨.ifTrue, a⟩ ⟨.ifFalse, b⟩)) :
    g.machine.emits n label m ↔
      label = .choice true ∧ m = a ∨ label = .choice false ∧ m = b := by
  constructor
  · rintro ⟨node, l, hn, hl, hlabel, rfl⟩
    obtain rfl := Option.some.inj (h.symm.trans hn)
    have hl : l = ⟨.ifTrue, a⟩ ∨ l = ⟨.ifFalse, b⟩ := by simpa [Node.links] using hl
    rcases hl with rfl | rfl
    · exact .inl ⟨(Option.some.inj hlabel).symm, rfl⟩
    · exact .inr ⟨(Option.some.inj hlabel).symm, rfl⟩
  · rintro (⟨rfl, rfl⟩ | ⟨rfl, rfl⟩)
    · exact ⟨_, ⟨.ifTrue, m⟩, h, by simp [Node.links], rfl, rfl⟩
    · exact ⟨_, ⟨.ifFalse, m⟩, h, by simp [Node.links], rfl, rfl⟩

/-! ## From the graph to the stream -/

/-- The node a graph is at, while a stream is where `t` says. -/
inductive Follows (g : FlowGraph) (s : Stream) (place : Nat → Option Nat) :
    Nat → Option Nat → Prop
  | arrived {n : Nat} {t : Option Nat} : Arrives g.node? g.Ends place n t → Follows g s place n t
  | testing {n o a b next : Nat} {d : Int16} :
      g.node? n = some (.branch ⟨.ifTrue, a⟩ ⟨.ifFalse, b⟩) →
      s.readAt? o = some (.branch d, next) →
      Arrives g.node? g.Ends place a (branchTarget next d) →
      Arrives g.node? g.Ends place b (some next) → Follows g s place n (some o)
  | ended {n : Nat} {t : Option Nat} : g.node? n = some .done → s.machine.ends t →
      Follows g s place n t

theorem Depicts.follow_ends (hg : g.Depicts s place) {n : Nat} {t : Option Nat}
    (h : g.Follows s place n t) (hn : g.machine.ends n) : s.machine.ends t := by
  have hn : g.node? n = some .done := hn
  cases h with
  | arrived h =>
    obtain ⟨l, hl⟩ := hg.simple_of_arrives h
    cases hn.symm.trans hl
  | testing h => cases hn.symm.trans h
  | ended _ h => exact h

/-- A silent step of the graph is a silent step of the stream, or none at all. -/
theorem Depicts.follow_silent (hg : g.Depicts s place) {n m : Nat} {t : Option Nat}
    (h : g.Follows s place n t) (hn : g.machine.silent n m) :
    ∃ t', (t' = t ∨ s.machine.silent t t') ∧ g.Follows s place m t' := by
  -- the way from a node without a way out
  have stop : ∀ {e : Nat} {t : Option Nat}, g.node? n = some (.simple ⟨.plain, e⟩) →
      g.node? e = some .done → s.machine.ends t → g.Follows s place m t := by
    intro e t he hd ht
    obtain rfl := ((machine_silent_iff he).1 hn).2
    exact .ended hd ht
  cases h with
  | ended h => simp [machine, h, Node.links] at hn
  | testing h => simp [machine, h, Node.links, Edge.isSilent] at hn
  | arrived h =>
    cases t with
    | none =>
      obtain ⟨e, he, hd⟩ := h
      exact ⟨none, .inl rfl, stop he hd fun _ h => by cases h⟩
    | some o =>
      rcases h with h | ⟨k, hk, h⟩
      · have hs := hg.shown h
        unfold Shows at hs
        split at hs
        · next hr =>
          obtain ⟨e, he, hd⟩ := hs
          exact ⟨some o, .inl rfl, stop he hd fun _ h => Option.some.inj h ▸ hr⟩
        · next d next hr =>
          obtain ⟨test, a, b, hk, ht, ha, hb⟩ := hs
          obtain rfl := ((machine_silent_iff hk).1 hn).2
          exact ⟨some o, .inl rfl, .testing ht hr ha hb⟩
        · next d next hr =>
          split at hs
          · next htarget =>
            obtain ⟨e, he, hd⟩ := hs
            exact ⟨none, .inr ⟨o, next, d, rfl, hr, htarget.symm⟩,
              stop he hd fun _ h => by cases h⟩
          · next o' htarget =>
            obtain ⟨k, hk, hp⟩ := hs
            obtain rfl := ((machine_silent_iff hk).1 hn).2
            exact ⟨some o', .inr ⟨o, next, d, rfl, hr, htarget.symm⟩, .arrived (.inl hp)⟩
        · obtain ⟨k, hk, -⟩ := hs
          cases ((machine_silent_iff hk).1 hn).1
      · obtain rfl := ((machine_silent_iff hk).1 hn).2
        exact ⟨some o, .inl rfl, .arrived (.inl h.1)⟩

/-- A visible step of the graph is one of the stream. -/
theorem Depicts.follow_emits (hg : g.Depicts s place) {n m : Nat} {t : Option Nat} {l : Label}
    (h : g.Follows s place n t) (hn : g.machine.emits n l m) :
    ∃ t', s.machine.emits t l t' ∧ g.Follows s place m t' := by
  have plain : ∀ {k : Nat}, g.node? n ≠ some (.simple ⟨.plain, k⟩) := by
    intro k hk
    cases ((machine_emits_iff hk).1 hn).1
  cases h with
  | ended h => simp [machine, h, Node.links] at hn
  | testing h hr ha hb =>
    rcases (machine_emits_branch h).1 hn with ⟨rfl, rfl⟩ | ⟨rfl, rfl⟩
    · exact ⟨_, .taken hr, .arrived ha⟩
    · exact ⟨_, .passed hr, .arrived hb⟩
  | arrived h =>
    cases t with
    | none =>
      obtain ⟨e, he, -⟩ := h
      exact absurd he plain
    | some o =>
      rcases h with h | ⟨k, hk, -⟩
      · have hs := hg.shown h
        unfold Shows at hs
        split at hs
        · obtain ⟨e, he, -⟩ := hs
          exact absurd he plain
        · obtain ⟨test, _, _, hk, -⟩ := hs
          cases ((machine_emits_iff hk).1 hn).1
        · split at hs
          · obtain ⟨e, he, -⟩ := hs
            exact absurd he plain
          · obtain ⟨k, hk, -⟩ := hs
            exact absurd hk plain
        · next a next hbranch hjump hr =>
          obtain ⟨k, hk, hp⟩ := hs
          obtain ⟨hl, rfl⟩ := (machine_emits_iff hk).1 hn
          obtain rfl : Label.action a = l := Option.some.inj hl
          exact ⟨some next, .action hr hbranch hjump, .arrived hp⟩
      · exact absurd hk plain

theorem Depicts.trace_stream (hg : g.Depicts s place) {n : Nat} {ls : List Label} {ended : Bool}
    (h : g.machine.Trace n ls ended) :
    ∀ {t : Option Nat}, g.Follows s place n t → s.machine.Trace t ls ended := by
  induction h with
  | here => exact fun _ => .here
  | ends hn => exact fun h => .ends (hg.follow_ends h hn)
  | silent hn _ ih =>
    intro t h
    obtain ⟨t', rfl | ht, h'⟩ := hg.follow_silent h hn
    · exact ih h'
    · exact .silent ht (ih h')
  | emit hn _ ih =>
    intro t h
    obtain ⟨t', ht, h'⟩ := hg.follow_emits h hn
    exact .emit ht (ih h')

/-! ## From the stream to the graph -/

/-- What the node of an offset does, every node that stands for the offset does. -/
theorem trace_of_arrives {n o : Nat} {ls : List Label} {ended : Bool}
    (h : Arrives g.node? g.Ends place n (some o))
    (hp : ∀ k, place o = some k → g.machine.Trace k ls ended) : g.machine.Trace n ls ended := by
  rcases h with h | ⟨k, hk, h⟩
  · exact hp n h
  · exact .silent ((machine_silent_iff hk).2 ⟨rfl, rfl⟩) (hp k h.1)

theorem Ends.trace {n : Nat} (h : g.Ends n) : g.machine.Trace n [] true := by
  obtain ⟨e, he, hd⟩ := h
  exact .silent ((machine_silent_iff he).2 ⟨rfl, rfl⟩) (.ends hd)

theorem Depicts.trace_graph (hg : g.Depicts s place) {t : Option Nat} {ls : List Label}
    {ended : Bool} (h : s.machine.Trace t ls ended) :
    ∀ {n : Nat}, Arrives g.node? g.Ends place n t → g.machine.Trace n ls ended := by
  induction h with
  | here => exact fun _ => .here
  | @ends t ht =>
    intro n h
    cases t with
    | none => exact Ends.trace h
    | some o =>
      refine trace_of_arrives h fun k hk => ?_
      have hs := hg.shown hk
      rw [ht o rfl] at hs
      exact Ends.trace hs
  | silent ht _ ih =>
    obtain ⟨o, next, d, rfl, hr, rfl⟩ := ht
    refine fun h => trace_of_arrives h fun k hk => ?_
    have hs := hg.shown hk
    rw [hr] at hs
    simp only [Shows] at hs
    split at hs
    · next htarget => exact ih (htarget ▸ hs)
    · next o' htarget =>
      obtain ⟨m, hm, hp⟩ := hs
      exact .silent ((machine_silent_iff hm).2 ⟨rfl, rfl⟩) (ih (htarget ▸ .inl hp))
  | emit ht _ ih =>
    cases ht with
    | @action o next a hr hbranch hjump =>
      refine fun h => trace_of_arrives h fun k hk => ?_
      have hs := hg.shown hk
      rw [hr] at hs
      unfold Shows at hs
      split at hs
      · next h => cases h
      · next h => exact absurd (congrArg Prod.fst (Option.some.inj h)) (hbranch _)
      · next h => exact absurd (congrArg Prod.fst (Option.some.inj h)) (hjump _)
      · next h =>
        cases h
        obtain ⟨m, hm, hp⟩ := hs
        exact .emit ((machine_emits_iff hm).2 ⟨rfl, rfl⟩) (ih hp)
    | @taken o next d hr =>
      refine fun h => trace_of_arrives h fun k hk => ?_
      have hs := hg.shown hk
      rw [hr] at hs
      obtain ⟨test, a, b, hk, htest, ha, hb⟩ := hs
      exact .silent ((machine_silent_iff hk).2 ⟨rfl, rfl⟩)
        (.emit ((machine_emits_branch htest).2 (.inl ⟨rfl, rfl⟩)) (ih ha))
    | @passed o next d hr =>
      refine fun h => trace_of_arrives h fun k hk => ?_
      have hs := hg.shown hk
      rw [hr] at hs
      obtain ⟨test, a, b, hk, htest, ha, hb⟩ := hs
      exact .silent ((machine_silent_iff hk).2 ⟨rfl, rfl⟩)
        (.emit ((machine_emits_branch htest).2 (.inr ⟨rfl, rfl⟩)) (ih hb))

/-- The graph of a stream exists, and has the traces of the stream. -/
theorem traces_ofStream (s : Stream) : ∃ g, ofStream s = .ok g ∧
    ∀ ls ended, g.machine.Trace g.source ls ended ↔ s.machine.Trace (some 0) ls ended := by
  obtain ⟨g, place, hok, -, hg, -, -⟩ := depicts_ofStream s
  have hstart : Arrives g.node? g.Ends place g.source (some 0) := .inl hg.start
  exact ⟨g, hok, fun ls ended =>
    ⟨fun h => hg.trace_stream h (.arrived hstart), fun h => hg.trace_graph h hstart⟩⟩

end FlowGraph

end ScriptRecovery
