/-!
# Automata that are observed from outside

An automaton is a function from configurations to what comes next: it comes to rest with an outcome,
or it goes on to another configuration and lets some events be seen (`Move`).  What can be observed
of it from a configuration are the events it records, the outcome it comes to rest with after them,
and that it never comes to rest (`Automaton.Alike`).

Two automata need not go in step to be observed alike.  It is enough that related configurations
meet again (`Automaton.Meets`): both come to rest without further events, or both go on, by one step
at least, through the same events to configurations that are related.  Since an automaton has one
way to go, what is observed in between is a part of those events (`alike_of_meets`).
-/

namespace ScriptRecovery

/-- What an automaton does next. -/
inductive Move (κ ε ο : Type)
  /-- It is at rest. -/
  | rest (outcome : ο)
  /-- It goes on, and some events are seen. -/
  | go (events : List ε) (next : κ)

/-- An automaton, by what it does next. -/
abbrev Automaton (κ ε ο : Type) := κ → Move κ ε ο

namespace Automaton

variable {κ κ' κ'' ε ο : Type} {m : Automaton κ ε ο} {m' : Automaton κ' ε ο}
  {m'' : Automaton κ'' ε ο}

/-! ## Steps in a row -/

/-- Some steps in a row, with the events that are seen. -/
inductive Goes (m : Automaton κ ε ο) : Nat → κ → List ε → κ → Prop where
  | zero : Goes m 0 c [] c
  | succ : m c = .go l d → Goes m k d l' e → Goes m (k + 1) c (l ++ l') e

theorem Goes.one {c d : κ} {l : List ε} (h : m c = .go l d) : m.Goes 1 c l d := by
  simpa using Goes.succ h .zero

theorem Goes.trans {c d e : κ} {j k : Nat} {l l' : List ε} (h : m.Goes j c l d)
    (h' : m.Goes k d l' e) : m.Goes (j + k) c (l ++ l') e := by
  induction h with
  | zero => simpa using h'
  | succ hstep _ ih =>
    rw [List.append_assoc, Nat.add_right_comm]
    exact .succ hstep (ih h')

/-- Steps in a row can be seen as some of them and then the others. -/
theorem Goes.split {c e : κ} {j k : Nat} {l : List ε} (h : m.Goes (j + k) c l e) :
    ∃ l₁ d l₂, l = l₁ ++ l₂ ∧ m.Goes j c l₁ d ∧ m.Goes k d l₂ e := by
  induction j generalizing c l with
  | zero => exact ⟨[], c, l, rfl, .zero, by simpa using h⟩
  | succ j ih =>
    rw [Nat.add_right_comm] at h
    cases h with
    | succ hstep hrest =>
      obtain ⟨l₁, d, l₂, rfl, h₁, h₂⟩ := ih hrest
      exact ⟨_, d, l₂, (List.append_assoc ..).symm, .succ hstep h₁, h₂⟩

/-- There is one way to go. -/
theorem Goes.unique {c d d' : κ} {k : Nat} {l l' : List ε} (h : m.Goes k c l d)
    (h' : m.Goes k c l' d') : l = l' ∧ d = d' := by
  induction h generalizing l' with
  | zero =>
    cases h'
    exact ⟨rfl, rfl⟩
  | succ hstep _ ih =>
    cases h' with
    | succ hstep' hrest' =>
      cases hstep.symm.trans hstep'
      obtain ⟨rfl, rfl⟩ := ih hrest'
      exact ⟨rfl, rfl⟩

/-- The way to where an automaton comes to rest leads through everything it comes to. -/
theorem Goes.of_rest {c d e : κ} {j k : Nat} {l l' : List ε} {o : ο} (h : m.Goes k c l e)
    (ho : m e = .rest o) (h' : m.Goes j c l' d) :
    ∃ i l'', k = j + i ∧ l = l' ++ l'' ∧ m.Goes i d l'' e := by
  induction h' generalizing k l with
  | zero => exact ⟨k, l, (Nat.zero_add k).symm, rfl, h⟩
  | succ hstep _ ih =>
    cases h with
    | zero => cases ho.symm.trans hstep
    | succ hstep' hrest =>
      cases hstep.symm.trans hstep'
      obtain ⟨i, l'', rfl, rfl, hgo⟩ := ih hrest
      exact ⟨i, l'', by omega, (List.append_assoc ..).symm, hgo⟩

/-- Of two stretches of the way, the shorter one is a part of the longer one. -/
theorem Goes.of_le {c d e : κ} {j k : Nat} {l l' : List ε} (h : m.Goes k c l e)
    (h' : m.Goes j c l' d) (hle : k ≤ j) : ∃ l'', l' = l ++ l'' := by
  obtain ⟨i, rfl⟩ := Nat.exists_eq_add_of_le hle
  obtain ⟨l₁, _, l₂, rfl, h₁, -⟩ := h'.split
  obtain ⟨rfl, -⟩ := h.unique h₁
  exact ⟨l₂, rfl⟩

/-! ## Observations -/

/-- The events that are seen from a configuration on, up to some point. -/
def Records (m : Automaton κ ε ο) (c : κ) (l : List ε) : Prop :=
  ∃ k l' d, m.Goes k c (l ++ l') d

/-- All the events that are seen, and the outcome with which the automaton comes to rest. -/
def Ends (m : Automaton κ ε ο) (c : κ) (l : List ε) (o : ο) : Prop :=
  ∃ k d, m.Goes k c l d ∧ m d = .rest o

/-- Whether the automaton never comes to rest. -/
def RunsOn (m : Automaton κ ε ο) (c : κ) : Prop :=
  ∀ k l d, m.Goes k c l d → ∃ l' e, m d = .go l' e

theorem runsOn_iff {c : κ} : m.RunsOn c ↔ ∀ l o, ¬ m.Ends c l o := by
  constructor
  · rintro h l o ⟨k, d, hgo, ho⟩
    obtain ⟨l', e, hstep⟩ := h k l d hgo
    cases ho.symm.trans hstep
  · intro h k l d hgo
    cases hstep : m d with
    | rest o => exact absurd ⟨k, d, hgo, hstep⟩ (h l o)
    | go l' e => exact ⟨l', e, rfl⟩

/-- Whether two automata cannot be told apart by what is seen of them. -/
structure Alike (m : Automaton κ ε ο) (m' : Automaton κ' ε ο) (c : κ) (c' : κ') : Prop where
  /-- The same events are seen in the same order. -/
  records : ∀ l, m.Records c l ↔ m'.Records c' l
  /-- They come to rest after the same events with the same outcome. -/
  ends : ∀ l o, m.Ends c l o ↔ m'.Ends c' l o
  /-- Neither comes to rest if the other does not. -/
  runsOn : m.RunsOn c ↔ m'.RunsOn c'

theorem Alike.refl (m : Automaton κ ε ο) (c : κ) : m.Alike m c c :=
  ⟨fun _ => .rfl, fun _ _ => .rfl, .rfl⟩

theorem Alike.trans {c : κ} {c' : κ'} {c'' : κ''} (h : m.Alike m' c c')
    (h' : m'.Alike m'' c' c'') : m.Alike m'' c c'' :=
  ⟨fun l => (h.records l).trans (h'.records l), fun l o => (h.ends l o).trans (h'.ends l o),
    h.runsOn.trans h'.runsOn⟩

/-! ## Automata that meet -/

/-- Whether two automata come to rest alike, or go on through the same events to configurations that
are related. -/
inductive Meets (m : Automaton κ ε ο) (m' : Automaton κ' ε ο) (R : κ → κ' → Prop) (c : κ)
    (c' : κ') : Prop
  | rest {j j' : Nat} {d : κ} {d' : κ'} {o : ο} : m.Goes j c [] d → m d = .rest o →
      m'.Goes j' c' [] d' → m' d' = .rest o → Meets m m' R c c'
  | go {j j' : Nat} {l : List ε} {d : κ} {d' : κ'} : m.Goes (j + 1) c l d →
      m'.Goes (j' + 1) c' l d' → R d d' → Meets m m' R c c'

variable {R : κ → κ' → Prop}

/-- Two automata that make one step each. -/
theorem Meets.step {c d : κ} {c' d' : κ'} {l : List ε} (h : m c = .go l d) (h' : m' c' = .go l d')
    (hR : R d d') : m.Meets m' R c c' :=
  .go (.one h) (.one h') hR

theorem Meets.symm {c : κ} {c' : κ'} (h : m.Meets m' R c c') :
    m'.Meets m (fun d' d => R d d') c' c := by
  cases h with
  | rest hd ho hd' ho' => exact .rest hd' ho' hd ho
  | go hd hd' hR => exact .go hd' hd hR

/-- The second automaton may take a step by itself, if nothing is seen of it. -/
theorem Meets.of_silent {c : κ} {c' d' : κ'} (hstep : m' c' = .go [] d')
    (h : m.Meets m' R c d') : m.Meets m' R c c' := by
  cases h with
  | rest hd ho hd' ho' => exact .rest hd ho (.succ hstep hd') ho'
  | go hd hd' hR => exact .go hd (.succ hstep hd') hR

section Meeting

variable (h : ∀ c c', R c c' → m.Meets m' R c c')

include h

theorem records_of_meets {c : κ} {c' : κ'} (hR : R c c') {k : Nat} {l : List ε} {e : κ}
    (hgo : m.Goes k c l e) : m'.Records c' l := by
  induction k using Nat.strongRecOn generalizing c c' l with
  | ind k ih =>
    cases h c c' hR with
    | @rest j j' d d' o hd ho hd' ho' =>
      obtain ⟨l', hl⟩ : ∃ l', [] = l ++ l' := by
        rcases Nat.le_total k j with hle | hle
        · exact hgo.of_le hd hle
        · -- the automaton is at rest by then
          obtain ⟨i, rfl⟩ := Nat.exists_eq_add_of_le hle
          obtain ⟨l₁, d₁, l₂, rfl, h₁, h₂⟩ := hgo.split
          obtain ⟨rfl, rfl⟩ := hd.unique h₁
          cases h₂ with
          | zero => exact ⟨[], rfl⟩
          | succ hstep _ => cases ho.symm.trans hstep
      obtain ⟨rfl, -⟩ := List.append_eq_nil_iff.1 hl.symm
      exact ⟨0, [], c', .zero⟩
    | @go j j' l₁ d d' hd hd' hdR =>
      rcases Nat.le_total k (j + 1) with hle | hle
      · obtain ⟨l₂, rfl⟩ := hgo.of_le hd hle
        exact ⟨j' + 1, l₂, d', hd'⟩
      · obtain ⟨i, rfl⟩ := Nat.exists_eq_add_of_le hle
        obtain ⟨l₀, d₀, l₂, rfl, h₁, h₂⟩ := hgo.split
        obtain ⟨rfl, rfl⟩ := hd.unique h₁
        obtain ⟨k', l', e', hrest⟩ := ih i (by omega) hdR h₂
        exact ⟨_, l', e', by simpa using hd'.trans hrest⟩

theorem ends_of_meets {c : κ} {c' : κ'} (hR : R c c') {k : Nat} {l : List ε} {e : κ} {o : ο}
    (hgo : m.Goes k c l e) (ho : m e = .rest o) : m'.Ends c' l o := by
  induction k using Nat.strongRecOn generalizing c c' l with
  | ind k ih =>
    cases h c c' hR with
    | @rest j j' d d' o₁ hd ho₁ hd' ho' =>
      obtain ⟨i, l', -, rfl, hrest⟩ := hgo.of_rest ho hd
      cases hrest with
      | zero =>
        cases ho.symm.trans ho₁
        exact ⟨j', d', hd', ho'⟩
      | succ hstep _ => cases ho₁.symm.trans hstep
    | @go j j' l₁ d d' hd hd' hdR =>
      obtain ⟨i, l₂, rfl, rfl, hrest⟩ := hgo.of_rest ho hd
      obtain ⟨k', e', hgo', ho'⟩ := ih i (by omega) hdR hrest
      exact ⟨_, e', hd'.trans hgo', ho'⟩

/-- Automata whose related configurations meet again are observed alike. -/
theorem alike_of_meets {c : κ} {c' : κ'} (hR : R c c') : m.Alike m' c c' := by
  have hsymm : ∀ d' d, R d d' → m'.Meets m (fun d' d => R d d') d' d := fun d' d hd =>
    (h d d' hd).symm
  have hends : ∀ l o, m.Ends c l o ↔ m'.Ends c' l o := fun l o =>
    ⟨fun ⟨_, _, hgo, ho⟩ => ends_of_meets h hR hgo ho,
      fun ⟨_, _, hgo, ho⟩ => ends_of_meets hsymm hR hgo ho⟩
  refine ⟨fun l => ⟨?_, ?_⟩, hends, ?_⟩
  · rintro ⟨k, l', d, hgo⟩
    obtain ⟨k', l'', d', hgo'⟩ := records_of_meets h hR hgo
    exact ⟨k', l' ++ l'', d', by simpa using hgo'⟩
  · rintro ⟨k, l', d, hgo⟩
    obtain ⟨k', l'', d', hgo'⟩ := records_of_meets hsymm hR hgo
    exact ⟨k', l' ++ l'', d', by simpa using hgo'⟩
  · simp only [runsOn_iff, hends]

end Meeting

end Automaton

end ScriptRecovery
