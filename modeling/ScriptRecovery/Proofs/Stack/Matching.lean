import ScriptRecovery.Proofs.Arena.Edits
import ScriptRecovery.Proofs.Stack.Simulation
import ScriptRecovery.Stack.Elimination

/-!
# A push whose value is taken does not stay

A pop takes the value of a push when the frame of the push is on top.  From then on the push has no
frame, as it is no node of what comes after.  What is left on the stack at the end of an arm does
not get back on top either: behind the arm there is a barrier above it, or it is gone with the arm.
So no push is both (`Roles.fate`), and of the pushes that pops see none is dangling
(`SyntaxTree.Represents.not_dangling`).
-/

namespace ScriptRecovery

open Rose StackState

variable {pop arm : Nat → Prop} {k : Nat} {S input out : StackState}
  {ps ps' : List (Passage StackState)} {whole : Rose (Nat × Form)}

/-- Whether a pop takes the value of a push. -/
def Takes (pop : Nat → Prop) (k : Nat) (ps : List (Passage StackState)) : Prop :=
  ∃ p ∈ ps, pop p.node ∧ p.input.topPush? = some k

/-- Whether a push stays on the stack at the end of an arm. -/
def Stays (arm : Nat → Prop) (k : Nat) (ps : List (Passage StackState)) : Prop :=
  ∃ p ∈ ps, arm p.node ∧ k ∈ p.output.pushes

/-- Whether a push that is taken has no frame any more, and one that stays in an arm is not on
top. -/
structure Fate (pop arm : Nat → Prop) (k : Nat) (out : StackState)
    (ps : List (Passage StackState)) : Prop where
  taken : Takes pop k ps → k ∉ out.pushes ∧ ¬Stays arm k ps
  stays : Stays arm k ps → out.Covered some (· ≠ k)

theorem takes_append : Takes pop k (ps ++ ps') ↔ Takes pop k ps ∨ Takes pop k ps' := by
  simp only [Takes, List.mem_append, or_and_right, exists_or]

theorem stays_append : Stays arm k (ps ++ ps') ↔ Stays arm k ps ∨ Stays arm k ps' := by
  simp only [Stays, List.mem_append, or_and_right, exists_or]

theorem fate_nil : Fate pop arm k out [] :=
  ⟨by simp [Takes], by simp [Stays]⟩

/-! ## Pushes that are not there -/

theorem StackState.mem_pushes_of_topPush? (h : S.topPush? = some k) : k ∈ S.pushes := by
  unfold topPush? at h
  split at h
  · cases h
    simp
  · cases h

theorem StackState.covered_of_absent (h : k ∉ S.pushes) : S.Covered some (· ≠ k) := by
  induction S with
  | nil => trivial
  | cons frame S ih =>
    cases frame with
    | push n =>
      rw [pushes_push, List.mem_cons, not_or] at h
      refine ⟨fun id hid => ?_, ih h.2⟩
      obtain rfl := Option.some.inj hid
      exact Ne.symm h.1
    | pop n => trivial
    | barrier n => trivial

theorem not_takes_of_covered (h : ∀ p ∈ ps, p.input.Covered some (· ≠ k)) : ¬Takes pop k ps := by
  rintro ⟨p, hp, -, htop⟩
  exact (h p hp).topPush (by rw [htop, Option.bind_some]) rfl

/-- Whether a push is nowhere on the stack. -/
def Absent (k : Nat) (S : StackState) : Prop := k ∉ S.pushes

theorem keeps_absent {labels : List (Nat × Form)} (hk : k ∉ labels.map Prod.fst) :
    rule.Keeps labels (Absent k) := by
  refine ⟨fun {n form} hn _ _ hi ha hmem => ?_, fun hfork _ _ hs hmem => ?_⟩
  · rcases pushes_leave hmem with ⟨-, rfl⟩ | hmem | hmem
    · exact hk (List.mem_map_of_mem hn)
    · exact hi hmem
    · exact ha hmem
  · obtain rfl := Option.some.inj hfork
    exact hs (by simpa using hmem)

/-- What is below a barrier, or was popped to, does not get on top. -/
theorem keeps_covered {labels : List (Nat × Form)} (hk : k ∉ labels.map Prod.fst) :
    rule.Keeps labels fun S => S.Covered some (· ≠ k) := by
  refine ⟨fun {n form} hn before after hi ha => ?_, fun hfork _ _ _ => ?_⟩
  · by_cases hpush : form.kind = .push
    · simp only [rule, hpush]
      refine ⟨fun id hid => ?_, ha⟩
      obtain rfl := Option.some.inj hid
      rintro rfl
      exact hk (List.mem_map_of_mem hn)
    · exact hi.leave ha hpush
  · obtain rfl := Option.some.inj hfork
    trivial

theorem not_stays_of_absent (h : ∀ p ∈ ps, Absent k p.input ∧ Absent k p.output) :
    ¬Stays arm k ps :=
  fun ⟨p, hp, _, hk⟩ => (h p hp).2 hk

/-! ## Nodes in a row -/

/-- What is met in a tree was there before or is a node of it. -/
theorem count_pos_of_met {labels : List (Nat × Form)}
    (hps : rule.Keeps labels (Absent k) → Absent k input →
      ∀ p ∈ ps, Absent k p.input ∧ Absent k p.output)
    (hmet : Takes pop k ps ∨ Stays arm k ps) :
    0 < input.pushes.count k + (labels.map Prod.fst).count k := by
  by_contra hnot
  have hinput : Absent k input := List.count_eq_zero.1 (by omega)
  have hlabels : k ∉ labels.map Prod.fst := List.count_eq_zero.1 (by omega)
  have habsent := hps (keeps_absent hlabels) hinput
  exact hmet.elim (not_takes_of_covered fun p hp => covered_of_absent (habsent p hp).1)
    (not_stays_of_absent habsent)

theorem not_mem_of_count {rs : List (Rose (Nat × Form))} (h : (rs.flatMap numbers).count k = 0) :
    k ∉ (labelsAll rs).map Prod.fst := by
  rw [numbers_labelsAll]
  exact List.count_eq_zero.1 h

/-- The fate of a push in trees in a row, none of which is an arm. -/
theorem fate_row {parts : List (Rose (Nat × Form))}
    (ih : ∀ r ∈ parts, ∀ {input out : StackState} {ps : List (Passage StackState)},
      rule.thread input r = .ok (out, ps) → input.pushes.count k + r.numbers.count k ≤ 1 →
      Fate pop arm k out ps)
    (ht : rule.threadRow input parts = .ok (out, ps))
    (hcount : input.pushes.count k + (parts.flatMap numbers).count k ≤ 1) :
    Fate pop arm k out ps := by
  induction parts generalizing input ps with
  | nil =>
    cases ht
    exact fate_nil
  | cons r rs ihrs =>
    obtain ⟨next, first, rest, hr, hrs, rfl⟩ := Rule.threadRow_cons ht
    rw [List.flatMap_cons, List.count_append] at hcount
    have hnext := count_thread (k := k) r hr
    have hfirst := ih r (by simp) hr (by omega)
    have hrest := ihrs (fun x hx => ih x (by simp [hx])) hrs (by omega)
    -- a push that is met in the first tree is no node of the others
    have hfresh : Takes pop k first ∨ Stays arm k first → k ∉ (labelsAll rs).map Prod.fst := by
      intro hmet
      have hpos : 0 < input.pushes.count k + r.numbers.count k :=
        count_pos_of_met (fun hkeeps hi => (hkeeps.thread r hr hi).2) hmet
      exact not_mem_of_count (by omega)
    refine ⟨fun htakes => ?_, fun hstays => ?_⟩
    · rcases takes_append.1 htakes with htakes | htakes
      · obtain ⟨hgone, hstays⟩ := hfirst.taken htakes
        obtain ⟨hout, hps⟩ := (keeps_absent (hfresh (.inl htakes))).threadRow rs hrs hgone
        exact ⟨hout, fun h => (stays_append.1 h).elim hstays (not_stays_of_absent hps)⟩
      · obtain ⟨hgone, hstays⟩ := hrest.taken htakes
        refine ⟨hgone, fun h => (stays_append.1 h).elim (fun hbefore => ?_) hstays⟩
        have hps := ((keeps_covered (hfresh (.inr hbefore))).threadRow rs hrs
          (hfirst.stays hbefore)).2
        exact not_takes_of_covered (fun p hp => (hps p hp).1) htakes
    · rcases stays_append.1 hstays with hstays | hstays
      · exact ((keeps_covered (hfresh (.inr hstays))).threadRow rs hrs (hfirst.stays hstays)).1
      · exact hrest.stays hstays

/-- A push that is taken in one of the arms that start from a state is in none of the others, nor
below them. -/
theorem taken_arms {arms : List (Rose (Nat × Form))}
    (ih : ∀ r ∈ arms, ∀ {out : StackState} {ps : List (Passage StackState)},
      rule.thread S r = .ok (out, ps) → S.pushes.count k + r.numbers.count k ≤ 1 →
      Takes pop k ps → ¬Stays arm k ps)
    (ht : rule.threadArms S arms = .ok ps) (hS : S.Covered some (· ≠ k))
    (hcount : S.pushes.count k + (arms.flatMap numbers).count k ≤ 1) (htakes : Takes pop k ps) :
    Absent k S ∧ ¬Stays arm k ps := by
  induction arms generalizing ps with
  | nil =>
    cases ht
    obtain ⟨_, hp, -⟩ := htakes
    cases hp
  | cons r rs ihrs =>
    obtain ⟨after, first, rest, hr, hrs, rfl⟩ := Rule.threadArms_cons ht
    rw [List.flatMap_cons, List.count_append] at hcount
    rcases takes_append.1 htakes with htakes | htakes
    · have hpos : 0 < r.numbers.count k := by
        by_contra hnot
        have hfresh : k ∉ r.numbers := List.count_eq_zero.1 (by omega)
        have hps := ((keeps_covered hfresh).thread r hr hS).2
        exact not_takes_of_covered (fun p hp => (hps p hp).1) htakes
      have hgone : Absent k S := List.count_eq_zero.1 (by omega)
      have hfresh : k ∉ (labelsAll rs).map Prod.fst := not_mem_of_count (by omega)
      have hps := (keeps_absent hfresh).threadArms rs hrs hgone
      exact ⟨hgone, fun h => (stays_append.1 h).elim (ih r (by simp) hr (by omega) htakes)
        (not_stays_of_absent hps)⟩
    · obtain ⟨hgone, hstays⟩ := ihrs (fun x hx => ih x (by simp [hx])) hrs (by omega) htakes
      have hpos : 0 < (rs.flatMap numbers).count k := by
        have hmet : Takes pop k rest ∨ Stays arm k rest := .inl htakes
        have hpos := count_pos_of_met (fun hkeeps hi => hkeeps.threadArms rs hrs hi) hmet
        rw [numbers_labelsAll, List.count_eq_zero.2 hgone] at hpos
        omega
      have hfresh : k ∉ r.numbers := List.count_eq_zero.1 (by omega)
      have hps := ((keeps_absent hfresh).thread r hr hgone).2
      exact ⟨hgone, fun h => (stays_append.1 h).elim (not_stays_of_absent hps) hstays⟩

/-! ## Whole trees -/

/-- Whether nodes are pops of a tree, and others arms of its choices. -/
structure Roles (whole : Rose (Nat × Form)) (pop arm : Nat → Prop) : Prop where
  pop : ∀ x ∈ whole.labels, pop x.1 → x.2.kind = .atom .pop
  arm : ∀ {n : Nat} {form : Form} {parts : List (Rose (Nat × Form))} {i : Nat}
    {r : Rose (Nat × Form)}, Within whole (.node (n, form) parts) → parts[i]? = some r →
    arm r.number → form.kind = .branch ∧ i ≠ 0

theorem takes_singleton {p : Passage StackState} :
    Takes pop k [p] ↔ pop p.node ∧ p.input.topPush? = some k := by simp [Takes]

theorem stays_singleton {p : Passage StackState} :
    Stays arm k [p] ↔ arm p.node ∧ k ∈ p.output.pushes := by simp [Stays]

/-- A pop takes the frame of the only push of its kind off. -/
theorem absent_afterPop {n : Nat} (h : S.topPush? = some k) (hcount : S.pushes.count k ≤ 1) :
    Absent k (S.afterPop n) := by
  unfold topPush? at h
  split at h
  · cases h
    rw [pushes_push, List.count_cons_self] at hcount
    exact List.count_eq_zero.1 (by simpa [afterPop] using hcount)
  · cases h

/-- The fate of a push at the root of a tree, by that below it. -/
theorem fate_node {p : Passage StackState}
    (htaken : Takes pop k (ps ++ [p]) → Absent k p.output ∧ ¬Stays arm k ps)
    (hstays : Stays arm k ps → p.output.Covered some (· ≠ k)) :
    (Takes pop k (ps ++ [p]) → k ∉ p.output.pushes ∧ ¬Stays arm k (ps ++ [p])) ∧
      (¬arm p.node → Fate pop arm k p.output (ps ++ [p])) := by
  have hself : Takes pop k (ps ++ [p]) → k ∉ p.output.pushes ∧ ¬Stays arm k (ps ++ [p]) := by
    intro htakes
    obtain ⟨hgone, hnot⟩ := htaken htakes
    exact ⟨hgone, fun h => (stays_append.1 h).elim hnot fun h => hgone (stays_singleton.1 h).2⟩
  exact ⟨hself, fun harm => ⟨hself, fun h =>
    (stays_append.1 h).elim hstays fun h => (harm (stays_singleton.1 h).1).elim⟩⟩

theorem Fate.node {p : Passage StackState} (h : Fate pop arm k p.output ps)
    (hself : ¬Takes pop k [p]) :
    (Takes pop k (ps ++ [p]) → k ∉ p.output.pushes ∧ ¬Stays arm k (ps ++ [p])) ∧
      (¬arm p.node → Fate pop arm k p.output (ps ++ [p])) :=
  fate_node (fun htakes => h.taken ((takes_append.1 htakes).resolve_right hself)) h.stays

/-- A node that is no pop and another one than the push keeps its fate. -/
theorem Fate.leave {n : Nat} {kind : Kind} (h : Fate pop arm k out ps) (hpop : kind ≠ .atom .pop)
    (hne : Takes pop k ps ∨ Stays arm k ps → k ≠ n) :
    Fate pop arm k (rule.leave n kind input out) ps := by
  refine ⟨fun htakes => ⟨?_, (h.taken htakes).2⟩, fun hstays => ?_⟩
  · have hgone := (h.taken htakes).1
    rcases leave_cases n kind input out with ⟨-, heq⟩ | ⟨hk, -⟩ | ⟨-, heq⟩ | ⟨-, heq⟩
    · rw [heq, pushes_push, List.mem_cons, not_or]
      exact ⟨hne (.inl htakes), hgone⟩
    · exact absurd hk hpop
    · rwa [heq]
    · rwa [heq]
  · have hcovered := h.stays hstays
    rcases leave_cases n kind input out with ⟨-, heq⟩ | ⟨hk, -⟩ | ⟨-, heq⟩ | ⟨-, heq⟩
    · rw [heq]
      exact ⟨fun id hid => Option.some.inj hid ▸ (hne (.inr hstays)).symm, hcovered⟩
    · exact absurd hk hpop
    · rw [heq]
      trivial
    · rwa [heq]

/-- The fate of a push in a choice, by that in its test. -/
theorem fate_choice {n : Nat} {test : Rose (Nat × Form)} {arms : List (Rose (Nat × Form))}
    {tested : StackState} (hfirst : Fate pop arm k tested ps)
    (ih : ∀ r ∈ arms, ∀ {out : StackState} {ps : List (Passage StackState)},
      rule.thread (.barrier n :: tested) r = .ok (out, ps) →
      (pushes (.barrier n :: tested)).count k + r.numbers.count k ≤ 1 →
      Takes pop k ps → ¬Stays arm k ps)
    (htest : rule.thread input test = .ok (tested, ps))
    (harms : rule.threadArms (.barrier n :: tested) arms = .ok ps')
    (hcount : input.pushes.count k + (test.numbers.count k + (arms.flatMap numbers).count k) ≤ 1) :
    Fate pop arm k (.barrier n :: tested) (ps ++ ps') := by
  have hnext := count_thread (k := k) test htest
  -- a push that is met in the test is no node of the arms
  have hfresh (hmet : Takes pop k ps ∨ Stays arm k ps) : (arms.flatMap numbers).count k = 0 := by
    have hpos : 0 < input.pushes.count k + test.numbers.count k :=
      count_pos_of_met (fun hkeeps hi => (hkeeps.thread test htest hi).2) hmet
    omega
  refine ⟨fun htakes => ?_, fun _ => trivial⟩
  rcases takes_append.1 htakes with htakes | htakes
  · obtain ⟨hgone, hnot⟩ := hfirst.taken htakes
    have hps := (keeps_absent (not_mem_of_count (hfresh (.inl htakes)))).threadArms arms harms hgone
    exact ⟨hgone, fun h => (stays_append.1 h).elim hnot (not_stays_of_absent hps)⟩
  · obtain ⟨hgone, hnot⟩ := taken_arms ih harms trivial (by rw [pushes_barrier]; omega) htakes
    refine ⟨hgone, fun h => (stays_append.1 h).elim (fun hstays => ?_) hnot⟩
    have hmet : Takes pop k ps' ∨ Stays arm k ps' := .inl htakes
    have hpos := count_pos_of_met (fun hkeeps hi => hkeeps.threadArms arms harms hi) hmet
    rw [numbers_labelsAll, hfresh (.inr hstays), List.count_eq_zero.2 hgone] at hpos
    omega

/-- The fate of a push in a tree that is no arm.  In an arm what is taken does not stay either. -/
theorem Roles.fate (hm : Roles whole pop arm) (hw : whole.forms.WellFormed)
    (tree : Rose (Nat × Form)) : ∀ {input out : StackState} {ps : List (Passage StackState)},
    Within whole tree → rule.thread input tree = .ok (out, ps) →
      input.pushes.count k + tree.numbers.count k ≤ 1 →
      (Takes pop k ps → k ∉ out.pushes ∧ ¬Stays arm k ps) ∧
        (¬arm tree.number → Fate pop arm k out ps) := by
  induction tree using Rose.induct with
  | h label parts ih =>
    intro input out ps hin ht hcount
    obtain ⟨n, form⟩ := label
    rw [numbers_node, List.count_cons] at hcount
    have hself (hpop : form.kind ≠ .atom .pop) : ¬Takes pop k [⟨n, input, out⟩] := fun h =>
      hpop (hm.pop _ hin.label_mem (takes_singleton.1 h).1)
    cases hk : form.kind.isSequential with
    | true =>
      obtain ⟨after, inside, hrow, rfl, rfl⟩ := Rule.thread_sequential hk ht
      by_cases hpop : form.kind = .atom .pop
      · obtain rfl : parts = [] := by
          have hadmits := (hin.wellFormed hw).admits
          simpa [hpop, Kind.admits, mapAll_eq_map] using hadmits
        cases hrow
        refine fate_node (fun htakes => ⟨?_, by simp [Stays]⟩) (by simp [Stays])
        simp only [rule, hpop]
        exact absent_afterPop (takes_singleton.1 htakes).2 (by omega)
      have hparts : ∀ r ∈ parts, ¬arm r.number := fun r hr harm => by
        obtain ⟨i, hi⟩ := List.mem_iff_getElem?.1 hr
        rw [(hm.arm hin hi harm).1] at hk
        cases hk
      have hinside : Fate pop arm k after inside := fate_row (fun r hr _ _ _ ht hcount =>
        (ih r hr (hin.part r hr) ht hcount).2 (hparts r hr)) hrow (by omega)
      refine (hinside.leave hpop ?_).node (hself hpop)
      rintro hmet rfl
      have hpos := count_pos_of_met (fun hkeeps hi => (hkeeps.threadRow parts hrow hi).2) hmet
      rw [numbers_labelsAll] at hpos
      simp only [beq_self_eq_true, if_true] at hcount
      omega
    | false =>
      obtain ⟨hbranch, fork, inside, hfork, hc, rfl⟩ := Rule.thread_choice hk ht
      obtain rfl := Option.some.inj hfork
      have hpop : form.kind ≠ .atom .pop := by simp [hbranch]
      cases parts with
      | nil =>
        cases hc
        exact fate_nil.node (hself hpop)
      | cons test arms =>
        obtain ⟨tested, first, rest, htest, rfl, harms, rfl⟩ := Rule.threadChoice_cons hc
        rw [List.flatMap_cons, List.count_append] at hcount
        have hfirst := (ih test (by simp) (hin.part test (by simp)) htest (by omega)).2
          fun harm => (hm.arm (i := 0) hin rfl harm).2 rfl
        refine (fate_choice hfirst (fun r hr _ _ ht hcount htakes => ?_) htest harms
          (by omega)).node (hself hpop)
        exact ((ih r (by simp [hr]) (hin.part r (by simp [hr])) ht hcount).1 htakes).2

namespace SyntaxTree

variable {t : SyntaxTree} {r : Rose (Nat × Form)} {usage : List (Passage StackState)}

theorem Represents.holds_within (h : t.Represents r) {x : Rose (Nat × Form)} (hx : Within r x) :
    ∃ link, t.Holds link x := by
  obtain ⟨C, rfl⟩ := hx
  obtain ⟨link, hheld, -⟩ := h.holds.plug
  exact ⟨link, hheld⟩

/-- An arm is a part of a choice that is not its test. -/
theorem Represents.exists_of_mem_arms (h : t.Represents r) {k : Nat} (hk : k ∈ t.arms) :
    ∃ (n : Nat) (form : Form) (field : Field) (i : Nat), (n, form) ∈ r.labels ∧
      form.kind = .branch ∧ t.parent? k = some ⟨n, field, i + 1⟩ := by
  obtain ⟨⟨n, form⟩, hn, hmem⟩ := List.mem_flatMap.1 hk
  rw [h.nodes] at hn
  split at hmem
  · next hbranch =>
    obtain ⟨C, parts, rfl, -⟩ := h.exists_plug hn
    obtain ⟨link, hheld⟩ := h.holds_within ⟨C, rfl⟩
    rw [children, hheld.slot?] at hmem
    obtain ⟨i, hi⟩ := List.mem_iff_getElem?.1 hmem
    rw [List.getElem?_drop, Nat.add_comm] at hi
    obtain ⟨x, hx, rfl⟩ := List.getElem?_map .. ▸ hi |> Option.map_eq_some_iff.1
    exact ⟨n, form, _, i, hn, hbranch, (hheld.part hx).parent?_eq⟩
  · cases hmem

/-- The pops of a script and the arms of its choices. -/
theorem Represents.roles (h : t.Represents r) :
    Roles r (fun n => ∃ loc, (n, (⟨.atom .pop, loc⟩ : Form)) ∈ r.labels) (· ∈ t.arms) := by
  refine ⟨fun x hx ⟨loc, hpop⟩ => ?_, fun {n form parts i arm} hin hi harm => ?_⟩
  · rw [h.eq_of_number hx hpop rfl]
  · obtain ⟨m, form', field, j, hm, hbranch, hparent⟩ := h.exists_of_mem_arms harm
    obtain ⟨link, hheld⟩ := h.holds_within hin
    have hplace := Option.some.inj ((hheld.part hi).parent?_eq.symm.trans hparent)
    obtain ⟨rfl, -, rfl⟩ := ParentLink.mk.inj hplace
    obtain rfl : form = form' := congrArg Prod.snd (h.eq_of_number hin.label_mem hm rfl)
    exact ⟨hbranch, Nat.succ_ne_zero j⟩

/-- The nodes of passages through a tree are its numbers. -/
theorem Represents.nodup_usage (h : t.Represents r) (ht : rule.thread [] r = .ok (out, usage)) :
    (usage.map Passage.node).Nodup :=
  (Rule.perm_thread r ht).nodup_iff.2 h.nodup

/-- A push whose value a pop takes is not on the stack at the end of the script or of an arm. -/
theorem Represents.not_dangling (h : t.Represents r) (hw : r.forms.WellFormed)
    (ht : rule.thread [] r = .ok (out, usage)) {p : Passage StackState} {loc : Loc}
    (hpop : (p.node, (⟨.atom .pop, loc⟩ : Form)) ∈ r.labels) (hp : p ∈ usage)
    (htop : p.input.topPush? = some k) : k ∉ t.dangling usage := by
  have hfate := (h.roles.fate hw r ⟨[], rfl⟩ ht
    (by simpa [pushes] using List.nodup_iff_count_le_one.1 h.nodup k)).1 ⟨p, hp, ⟨loc, hpop⟩, htop⟩
  intro hmem
  obtain ⟨n, hn, hk⟩ := List.mem_flatMap.1 hmem
  cases hq : passageAt? usage n with
  | none =>
    rw [hq] at hk
    cases hk
  | some q =>
    have hout : k ∈ q.output.pushes := by simpa [hq] using hk
    have hmem : q ∈ usage := List.mem_of_find?_eq_some hq
    obtain rfl : q.node = n := by simpa using List.find?_some hq
    rcases List.mem_cons.1 hn with hroot | harm
    · obtain rfl : q = ⟨r.number, [], out⟩ :=
        List.inj_on_of_nodup_map (h.nodup_usage ht) hmem (Rule.thread_last ht)
          (hroot.trans h.root.symm)
      exact hfate.1 hout
    · exact hfate.2 ⟨q, hmem, harm, hout⟩

end SyntaxTree

end ScriptRecovery
