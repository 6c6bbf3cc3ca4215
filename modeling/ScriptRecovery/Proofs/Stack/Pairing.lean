import ScriptRecovery.Proofs.Stack.Exposure
import ScriptRecovery.Proofs.Stack.Room

/-!
# Pushes and pops in pairs

A push is left on the stack at the end of the script or of an arm, or one pop takes its value.  It
is not both (`Roles.fate`).  Two more facts make the pairs exact.

* No push is taken twice (`Roles.once`).  Behind the pop that takes it, it has no frame any more,
  and of the arms that start from one state only the arm that has the push as a node can take it:
  at the start of an arm all frames of pushes are behind a barrier.
* No push gets lost (`Covers.lasts`).  A frame of a push is dropped from a state only where a pop
  takes it or an arm ends.

So the binding of pushes gives a temporary to each push that is not left, and to the one pop that
takes its value.  It leaves no pop that sees a push, so it has nothing to do a second time
(`SyntaxTree.pairs_of_stackUsage`).
-/

namespace ScriptRecovery

open Rose StackState

variable {pop arm : Nat → Prop} {k n : Nat} {S input out : StackState}
  {ps ps' : List (Passage StackState)} {whole : Rose (Nat × Form)}
  {parts arms : List (Rose (Nat × Form))}

theorem not_takes_of_absent (h : ∀ p ∈ ps, Absent k p.input ∧ Absent k p.output) :
    ¬Takes pop k ps :=
  not_takes_of_covered fun p hp => covered_of_absent (h p hp).1

/-! ## No push is taken twice -/

/-- Whether at most one pop takes the value of a push. -/
def Once (pop : Nat → Prop) (k : Nat) (ps : List (Passage StackState)) : Prop :=
  ∀ p ∈ ps, ∀ q ∈ ps, pop p.node → p.input.topPush? = some k → pop q.node →
    q.input.topPush? = some k → p = q

theorem once_of_not_takes (h : ¬Takes pop k ps) : Once pop k ps :=
  fun p hp _ _ hpop htop => absurd ⟨p, hp, hpop, htop⟩ h

theorem Once.append (h : Once pop k ps) (h' : Once pop k ps')
    (hnot : Takes pop k ps → ¬Takes pop k ps') : Once pop k (ps ++ ps') := by
  intro p hp q hq hpop htop hpop' htop'
  rcases List.mem_append.1 hp with hp | hp <;> rcases List.mem_append.1 hq with hq | hq
  · exact h p hp q hq hpop htop hpop' htop'
  · exact absurd ⟨q, hq, hpop', htop'⟩ (hnot ⟨p, hp, hpop, htop⟩)
  · exact absurd ⟨p, hp, hpop, htop⟩ (hnot ⟨q, hq, hpop', htop'⟩)
  · exact h' p hp q hq hpop htop hpop' htop'

/-- What is taken was there before or is a node. -/
theorem count_pos_of_takes {r : Rose (Nat × Form)} (ht : rule.thread input r = .ok (out, ps))
    (htakes : Takes pop k ps) : 0 < input.pushes.count k + r.numbers.count k := by
  have hmet : Takes pop k ps ∨ Stays (fun _ => False) k ps := .inl htakes
  exact count_pos_of_met (fun hkeeps hi => (hkeeps.thread r ht hi).2) hmet

/-- Whether no push is taken twice in a tree, and one that is taken there has no frame behind it. -/
def TakenOnce (pop : Nat → Prop) (k : Nat) (r : Rose (Nat × Form)) : Prop :=
  ∀ {input out : StackState} {ps : List (Passage StackState)}, rule.thread input r = .ok (out, ps) →
    input.pushes.count k + r.numbers.count k ≤ 1 →
    (Takes pop k ps → Absent k out) ∧ Once pop k ps

theorem once_row (ih : ∀ r ∈ parts, TakenOnce pop k r)
    (ht : rule.threadRow input parts = .ok (out, ps))
    (hcount : input.pushes.count k + (parts.flatMap numbers).count k ≤ 1) : Once pop k ps := by
  induction parts generalizing input ps with
  | nil =>
    cases ht
    exact once_of_not_takes (by simp [Takes])
  | cons r rs ihrs =>
    obtain ⟨next, first, rest, hr, hrs, rfl⟩ := Rule.threadRow_cons ht
    rw [List.flatMap_cons, List.count_append] at hcount
    have hnext := count_thread (k := k) r hr
    obtain ⟨hgone, hfirst⟩ := ih r (by simp) hr (by omega)
    refine hfirst.append (ihrs (fun x hx => ih x (by simp [hx])) hrs (by omega)) fun htakes => ?_
    have hpos := count_pos_of_takes hr htakes
    have hfresh : k ∉ (labelsAll rs).map Prod.fst := not_mem_of_count (by omega)
    exact not_takes_of_absent ((keeps_absent hfresh).threadRow rs hrs (hgone htakes)).2

/-- What is taken in an arm is a node of the arm. -/
theorem mem_numbers_of_takes {r : Rose (Nat × Form)} (ht : rule.thread S r = .ok (out, ps))
    (hS : S.Covered some (· ≠ k)) (htakes : Takes pop k ps) : k ∈ r.numbers := by
  by_contra hfresh
  have hps := ((keeps_covered hfresh).thread r ht hS).2
  exact not_takes_of_covered (fun p hp => (hps p hp).1) htakes

theorem once_arms (ih : ∀ r ∈ arms, TakenOnce pop k r) (ht : rule.threadArms S arms = .ok ps)
    (hS : S.Covered some (· ≠ k))
    (hcount : S.pushes.count k + (arms.flatMap numbers).count k ≤ 1) : Once pop k ps := by
  induction arms generalizing ps with
  | nil =>
    cases ht
    exact once_of_not_takes (by simp [Takes])
  | cons r rs ihrs =>
    obtain ⟨after, first, rest, hr, hrs, rfl⟩ := Rule.threadArms_cons ht
    rw [List.flatMap_cons, List.count_append] at hcount
    refine (ih r (by simp) hr (by omega)).2.append
      (ihrs (fun x hx => ih x (by simp [hx])) hrs (by omega)) fun htakes => ?_
    have hpos := List.count_pos_iff.2 (mem_numbers_of_takes hr hS htakes)
    have hgone : Absent k S := List.count_eq_zero.1 (by omega)
    have hfresh : k ∉ (labelsAll rs).map Prod.fst := not_mem_of_count (by omega)
    exact not_takes_of_absent ((keeps_absent hfresh).threadArms rs hrs hgone)

theorem once_choice {test : Rose (Nat × Form)} (ih : ∀ r ∈ test :: arms, TakenOnce pop k r)
    (ht : rule.threadChoice (.barrier n :: ·) input (test :: arms) = .ok (out, ps))
    (hcount : input.pushes.count k + ((test :: arms).flatMap numbers).count k ≤ 1) :
    Once pop k ps := by
  obtain ⟨tested, first, rest, htest, rfl, harms, rfl⟩ := Rule.threadChoice_cons ht
  rw [List.flatMap_cons, List.count_append] at hcount
  have hnext := count_thread (k := k) test htest
  obtain ⟨hgone, hfirst⟩ := ih test (by simp) htest (by omega)
  have hrest : Once pop k rest :=
    once_arms (fun r hr => ih r (by simp [hr])) harms trivial (by rw [pushes_barrier]; omega)
  refine hfirst.append hrest fun htakes => ?_
  have hpos := count_pos_of_takes htest htakes
  have hfresh : k ∉ (labelsAll arms).map Prod.fst := not_mem_of_count (by omega)
  exact not_takes_of_absent ((keeps_absent hfresh).threadArms arms harms (hgone htakes))

/-- At most one pop takes the value of a push. -/
theorem Roles.once (hm : Roles whole pop arm) (hw : whole.forms.WellFormed)
    (tree : Rose (Nat × Form)) : ∀ {input out : StackState} {ps : List (Passage StackState)},
    Within whole tree → rule.thread input tree = .ok (out, ps) →
      input.pushes.count k + tree.numbers.count k ≤ 1 → Once pop k ps := by
  induction tree using Rose.induct with
  | h label parts ih =>
    intro input out ps hin ht hcount
    obtain ⟨n, form⟩ := label
    rw [numbers_node, List.count_cons] at hcount
    have hparts : ∀ r ∈ parts, TakenOnce pop k r := fun r hr _ _ _ ht hcount =>
      ⟨fun htakes => ((hm.fate hw r (hin.part r hr) ht hcount).1 htakes).1,
        ih r hr (hin.part r hr) ht hcount⟩
    have hself (hpop : form.kind ≠ .atom .pop) : ¬Takes pop k [⟨n, input, out⟩] := fun h =>
      hpop (hm.pop _ hin.label_mem (takes_singleton.1 h).1)
    cases hk : form.kind.isSequential with
    | true =>
      obtain ⟨after, inside, hrow, rfl, rfl⟩ := Rule.thread_sequential hk ht
      by_cases hpop : form.kind = .atom .pop
      · obtain rfl : parts = [] := by
          have hadmits := (hin.wellFormed hw).admits
          simpa [hpop, Kind.admits, mapAll_eq_map] using hadmits
        cases hrow
        simp [Once]
      · exact (once_row hparts hrow (by omega)).append (once_of_not_takes (hself hpop))
          fun _ => hself hpop
    | false =>
      obtain ⟨hbranch, fork, inside, hfork, hc, rfl⟩ := Rule.thread_choice hk ht
      obtain rfl := Option.some.inj hfork
      have hinside : Once pop k inside := by
        cases parts with
        | nil =>
          cases hc
          exact once_of_not_takes (by simp [Takes])
        | cons test arms => exact once_choice hparts hc (by omega)
      have hpop : form.kind ≠ .atom .pop := by simp [hbranch]
      exact hinside.append (once_of_not_takes (hself hpop)) fun _ => hself hpop

/-! ## No push gets lost -/

/-- Whether a push is still on the stack, or was taken or left at the end of an arm. -/
def Lasts (pop arm : Nat → Prop) (k : Nat) (out : StackState) (ps : List (Passage StackState)) :
    Prop :=
  k ∈ out.pushes ∨ Takes pop k ps ∨ Stays arm k ps

theorem Lasts.mono {out' : StackState} (h : Lasts pop arm k out ps) (hps : ps ⊆ ps')
    (hout : k ∈ out.pushes → Lasts pop arm k out' ps') : Lasts pop arm k out' ps' := by
  rcases h with h | ⟨p, hp, h⟩ | ⟨p, hp, h⟩
  · exact hout h
  · exact .inr (.inl ⟨p, hps hp, h⟩)
  · exact .inr (.inr ⟨p, hps hp, h⟩)

/-- Whether all pops of a tree and all arms of its choices are named. -/
structure Covers (whole : Rose (Nat × Form)) (pop arm : Nat → Prop) : Prop where
  pop : ∀ {n : Nat} {loc : Loc}, (n, (⟨.atom .pop, loc⟩ : Form)) ∈ whole.labels → pop n
  arm : ∀ {n : Nat} {form : Form} {parts : List (Rose (Nat × Form))} {r : Rose (Nat × Form)},
    Within whole (.node (n, form) parts) → form.kind = .branch → r ∈ parts.drop 1 → arm r.number

/-- Whether a node is a push. -/
def Pushes (labels : List (Nat × Form)) (k : Nat) : Prop :=
  ∃ loc, (k, (⟨.push, loc⟩ : Form)) ∈ labels

/-- Whether a tree loses no push that is on the stack before it or is a node of it. -/
def Preserves (pop arm : Nat → Prop) (k : Nat) (r : Rose (Nat × Form)) : Prop :=
  ∀ {input out : StackState} {ps : List (Passage StackState)}, rule.thread input r = .ok (out, ps) →
    k ∈ input.pushes ∨ Pushes r.labels k → Lasts pop arm k out ps

theorem lasts_row (ih : ∀ r ∈ parts, Preserves pop arm k r)
    (ht : rule.threadRow input parts = .ok (out, ps))
    (hk : k ∈ input.pushes ∨ Pushes (labelsAll parts) k) : Lasts pop arm k out ps := by
  induction parts generalizing input ps with
  | nil =>
    cases ht
    rcases hk with hk | ⟨loc, hk⟩
    · exact .inl hk
    · cases hk
  | cons r rs ihrs =>
    obtain ⟨next, first, rest, hr, hrs, rfl⟩ := Rule.threadRow_cons ht
    have hrest (h : k ∈ next.pushes ∨ Pushes (labelsAll rs) k) :
        Lasts pop arm k out (first ++ rest) :=
      (ihrs (fun x hx => ih x (by simp [hx])) hrs h).mono (List.subset_append_right _ _) .inl
    have hfirst (h : k ∈ input.pushes ∨ Pushes r.labels k) :
        Lasts pop arm k out (first ++ rest) :=
      (ih r (by simp) hr h).mono (List.subset_append_left _ _) fun h => hrest (.inl h)
    rcases hk with hk | ⟨loc, hk⟩
    · exact hfirst (.inl hk)
    · rw [labelsAll, List.mem_append] at hk
      exact hk.elim (fun hk => hfirst (.inr ⟨loc, hk⟩)) fun hk => hrest (.inr ⟨loc, hk⟩)

/-- A push that is a node of an arm is taken there, or left at the end of the arm or of one in
it. -/
theorem lasts_arms
    (ih : ∀ r ∈ arms, Preserves pop arm k r) (harm : ∀ r ∈ arms, arm r.number)
    (ht : rule.threadArms S arms = .ok ps)
    (hk : Pushes (labelsAll arms) k) : Lasts pop arm k S ps := by
  induction arms generalizing ps with
  | nil =>
    obtain ⟨loc, hk⟩ := hk
    cases hk
  | cons r rs ihrs =>
    obtain ⟨after, first, rest, hr, hrs, rfl⟩ := Rule.threadArms_cons ht
    obtain ⟨loc, hk⟩ := hk
    rw [labelsAll, List.mem_append] at hk
    rcases hk with hk | hk
    · refine (ih r (by simp) hr (.inr ⟨loc, hk⟩)).mono (List.subset_append_left _ _) fun hleft => ?_
      exact .inr (.inr ⟨_, List.mem_append_left _ (Rule.thread_last hr), harm r (by simp), hleft⟩)
    · exact (ihrs (fun x hx => ih x (by simp [hx])) (fun x hx => harm x (by simp [hx])) hrs
        ⟨loc, hk⟩).mono (List.subset_append_right _ _) .inl

/-- A node that is no pop drops no push, and a push adds itself. -/
theorem mem_pushes_leave {kind : Kind} (hpop : kind ≠ .atom .pop) {after : StackState}
    (hk : k ∈ after.pushes ∨ kind = .push ∧ k = n) :
    k ∈ (rule.leave n kind input after).pushes := by
  rcases leave_cases n kind input after with ⟨-, heq⟩ | ⟨h, -⟩ | ⟨h, heq⟩ | ⟨h, heq⟩
  · rw [heq, pushes_push, List.mem_cons]
    exact hk.symm.imp_left And.right
  · exact absurd h hpop
  · rw [heq, pushes_barrier]
    exact hk.resolve_right fun ⟨hpush, _⟩ => by simp [hpush] at h
  · rw [heq]
    exact hk.resolve_right fun ⟨hpush, _⟩ => h.1 hpush

/-- A pop drops the push whose value it takes, and no other. -/
theorem mem_pushes_afterPop (hk : k ∈ S.pushes) :
    S.topPush? = some k ∨ k ∈ (S.afterPop n).pushes := by
  unfold StackState.afterPop
  split
  · rw [pushes_push, List.mem_cons] at hk
    exact hk.imp_left fun h => congrArg some h.symm
  · exact .inr hk

theorem lasts_choice {test : Rose (Nat × Form)} (ih : ∀ r ∈ test :: arms, Preserves pop arm k r)
    (harm : ∀ r ∈ arms, arm r.number)
    (ht : rule.threadChoice (.barrier n :: ·) input (test :: arms) = .ok (out, ps))
    (hk : k ∈ input.pushes ∨ Pushes (labelsAll (test :: arms)) k) : Lasts pop arm k out ps := by
  obtain ⟨tested, first, rest, htest, rfl, harms, rfl⟩ := Rule.threadChoice_cons ht
  have hfirst (h : k ∈ input.pushes ∨ Pushes test.labels k) :
      Lasts pop arm k (.barrier n :: tested) (first ++ rest) :=
    (ih test (by simp) htest h).mono (List.subset_append_left _ _) fun h =>
      .inl (by rwa [pushes_barrier])
  rcases hk with hk | ⟨loc, hk⟩
  · exact hfirst (.inl hk)
  · rw [labelsAll, List.mem_append] at hk
    rcases hk with hk | hk
    · exact hfirst (.inr ⟨loc, hk⟩)
    · exact (lasts_arms (fun r hr => ih r (by simp [hr])) harm harms ⟨loc, hk⟩).mono
        (List.subset_append_right _ _) .inl

/-- A push that is on the stack before a tree or is a node of it lasts. -/
theorem Covers.lasts (hc : Covers whole pop arm) (hw : whole.forms.WellFormed)
    (tree : Rose (Nat × Form)) : Within whole tree → Preserves pop arm k tree := by
  induction tree using Rose.induct with
  | h label parts ih =>
    intro hin input out ps ht hk
    obtain ⟨n, form⟩ := label
    have hpart : ∀ r ∈ parts, Preserves pop arm k r := fun r hr => ih r hr (hin.part r hr)
    have hk : (k ∈ input.pushes ∨ Pushes (labelsAll parts) k) ∨ form.kind = .push ∧ k = n := by
      rcases hk with hk | ⟨loc, hk⟩
      · exact .inl (.inl hk)
      · rcases List.mem_cons.1 (labels_node ▸ hk) with heq | hk
        · cases heq
          exact .inr ⟨rfl, rfl⟩
        · exact .inl (.inr ⟨loc, hk⟩)
    cases hseq : form.kind.isSequential with
    | true =>
      obtain ⟨after, inside, hrow, rfl, rfl⟩ := Rule.thread_sequential hseq ht
      by_cases hpop : form.kind = .atom .pop
      · obtain rfl : parts = [] := by
          have hadmits := (hin.wellFormed hw).admits
          simpa [hpop, Kind.admits, mapAll_eq_map] using hadmits
        cases hrow
        have hinput : k ∈ input.pushes := by simpa [hpop, Pushes, labelsAll] using hk
        simp only [rule, hpop]
        have hlabel : (n, (⟨.atom .pop, form.loc⟩ : Form)) ∈ whole.labels := by
          rw [← hpop]
          exact hin.label_mem
        rcases mem_pushes_afterPop (n := n) hinput with htop | hk
        · exact .inr (.inl ⟨_, List.mem_cons_self, hc.pop hlabel, htop⟩)
        · exact .inl hk
      · rcases hk with hk | hk
        · refine (lasts_row hpart hrow hk).mono (List.subset_append_left _ _) fun hk => ?_
          exact .inl (mem_pushes_leave hpop (.inl hk))
        · exact .inl (mem_pushes_leave hpop (.inr hk))
    | false =>
      obtain ⟨hbranch, fork, inside, hfork, hchoice, rfl⟩ := Rule.thread_choice hseq ht
      obtain rfl := Option.some.inj hfork
      have hk := hk.resolve_right (by simp [hbranch])
      have hinside : Lasts pop arm k out inside := by
        cases parts with
        | nil =>
          cases hchoice
          exact .inl (by simpa [Pushes, labelsAll] using hk)
        | cons test arms =>
          exact lasts_choice hpart (fun r hr => hc.arm hin hbranch hr) hchoice hk
      exact hinside.mono (List.subset_append_left _ _) .inl

namespace SyntaxTree

variable {t : SyntaxTree} {r : Rose (Nat × Form)} {usage : List (Passage StackState)}

/-! ## The pushes of a script -/

/-- Whether a push may be left on the stack at the end of the script or of an arm of a choice. -/
def Dangles (t : SyntaxTree) (usage : List (Passage StackState)) (k : Nat) : Prop :=
  ∃ p ∈ usage, (p.node = root ∨ p.node ∈ t.arms) ∧ k ∈ p.output.pushes

/-- Whether a node is a pop that takes the value of a push. -/
def Pairs (t : SyntaxTree) (usage : List (Passage StackState)) (k n : Nat) : Prop :=
  (∃ loc, (n, (⟨.atom .pop, loc⟩ : Form)) ∈ t.nodes) ∧
    ∃ p ∈ usage, p.node = n ∧ p.input.topPush? = some k

theorem mem_dangling_iff (hn : (usage.map Passage.node).Nodup) :
    k ∈ t.dangling usage ↔ t.Dangles usage k := by
  constructor
  · intro h
    obtain ⟨n, hroot, hk⟩ := List.mem_flatMap.1 h
    cases hp : passageAt? usage n with
    | none =>
      rw [hp] at hk
      cases hk
    | some p =>
      obtain rfl : p.node = n := by simpa using List.find?_some hp
      refine ⟨p, List.mem_of_find?_eq_some hp, List.mem_cons.1 hroot, by simpa [hp] using hk⟩
  · rintro ⟨p, hp, hroot, hk⟩
    exact mem_dangling hn hp hroot hk

theorem Represents.covers (h : t.Represents r) :
    Covers r (fun n => ∃ loc, (n, (⟨.atom .pop, loc⟩ : Form)) ∈ r.labels) (· ∈ t.arms) :=
  ⟨fun hn => ⟨_, hn⟩, h.mem_arms⟩

/-- What a pop takes does not dangle. -/
theorem Represents.not_dangles (h : t.Represents r) (hw : r.forms.WellFormed)
    (ht : rule.thread [] r = .ok (out, usage)) (hk : t.Pairs usage k n) : ¬t.Dangles usage k := by
  obtain ⟨⟨loc, hn⟩, p, hp, rfl, htop⟩ := hk
  rw [h.nodes] at hn
  rw [← mem_dangling_iff (h.nodup_usage ht)]
  exact h.not_dangling hw ht hn hp htop

/-- No push is taken twice. -/
theorem Represents.pairs_unique (h : t.Represents r) (hw : r.forms.WellFormed)
    (ht : rule.thread [] r = .ok (out, usage)) {m : Nat} (hn : t.Pairs usage k n)
    (hm : t.Pairs usage k m) : n = m := by
  obtain ⟨hpop, p, hp, rfl, htop⟩ := hn
  obtain ⟨hpop', q, hq, rfl, htop'⟩ := hm
  rw [h.nodes] at hpop hpop'
  have honce := h.roles.once (k := k) hw r ⟨[], rfl⟩ ht
    (by simpa [pushes] using List.nodup_iff_count_le_one.1 h.nodup k)
  rw [honce p hp q hq hpop htop hpop' htop']

/-- A push that does not dangle is taken. -/
theorem Represents.exists_pairs (h : t.Represents r) (hw : r.forms.WellFormed)
    (ht : rule.thread [] r = .ok (out, usage)) (hk : Pushes r.labels k)
    (hd : ¬t.Dangles usage k) : ∃ n, t.Pairs usage k n := by
  have hlasts := h.covers.lasts hw r ⟨[], rfl⟩ ht (.inr hk)
  rcases hlasts with hout | ⟨p, hp, hpop, htop⟩ | ⟨p, hp, harm, hk⟩
  · exact absurd ⟨_, Rule.thread_last ht, .inl h.root, hout⟩ hd
  · rw [← h.nodes] at hpop
    exact ⟨p.node, hpop, p, hp, rfl, htop⟩
  · exact absurd ⟨p, hp, .inr harm, hk⟩ hd

/-! ## The temporaries of pushes and pops -/

/-- Whether temporaries are chosen for the pushes that do not dangle, with a new one for each, and
for the pops that take their values. -/
structure Binds (t : SyntaxTree) (usage : List (Passage StackState)) (f : Nat → Option Nat) :
    Prop where
  push : ∀ {k : Nat}, Pushes t.nodes k → ((f k).isSome ↔ ¬t.Dangles usage k)
  pop : ∀ {n id : Nat} {loc : Loc}, (n, (⟨.atom .pop, loc⟩ : Form)) ∈ t.nodes →
    (f n = some id ↔ ∃ k, t.Pairs usage k n ∧ f k = some id)
  inj : ∀ {k m id : Nat}, Pushes t.nodes k → Pushes t.nodes m → f k = some id → f m = some id →
    k = m
  fresh : ∀ {k id : Nat}, Pushes t.nodes k → f k = some id →
    ∀ x ∈ t.nodes, x.2.kind.temporary? ≠ some id

variable {r' : Rose (Nat × Form)} {f g : Nat → Option Nat} {kept : Nat → Prop}

theorem Represents.within_of_mem_arms (h : t.Represents r) (hk : k ∈ t.arms) :
    ∃ (n : Nat) (form : Form) (parts : List (Rose (Nat × Form))), Within r (.node (n, form) parts) ∧
      form.kind = .branch ∧ ∃ arm ∈ parts.drop 1, k = arm.number := by
  obtain ⟨⟨n, form⟩, hn, hmem⟩ := List.mem_flatMap.1 hk
  rw [h.nodes] at hn
  split at hmem
  · next hbranch =>
    obtain ⟨C, parts, rfl, -⟩ := h.exists_plug hn
    obtain ⟨link, hheld⟩ := h.holds_within ⟨C, rfl⟩
    rw [children, hheld.slot?] at hmem
    simp only [Option.map_some, Option.getD_some] at hmem
    rw [← List.map_drop] at hmem
    obtain ⟨arm, harm, rfl⟩ := List.mem_map.1 hmem
    exact ⟨n, form, parts, ⟨C, rfl⟩, hbranch, arm, harm, rfl⟩
  · cases hmem

/-- A push that dangles gets no temporary. -/
theorem Bound.eq_none_of_dangles (hb : Bound r r' f g kept usage) (h : t.Represents r)
    (hk : t.Dangles usage k) : g k = none := by
  obtain ⟨out, ht, hout⟩ := hb.thread
  obtain ⟨p, hp, hroot | harm, hk⟩ := hk
  · obtain rfl : p = ⟨r.number, [], out⟩ :=
      List.inj_on_of_nodup_map (h.nodup_usage ht) hp (Rule.thread_last ht) (hroot.trans h.root.symm)
    exact hb.plan.unbound (hout k hk)
  · obtain ⟨n, form, parts, hin, hbranch, arm, harm, hnode⟩ := h.within_of_mem_arms harm
    exact hb.plan.unbound (hb.plan.arm hin hbranch harm hp hnode k hk)

/-- The temporaries of pushes that are bound are as they should be. -/
theorem Bound.binds (hb : Bound r r' f g kept usage) (h : t.Represents r) : t.Binds usage f := by
  obtain ⟨out, ht, -⟩ := hb.thread
  have hw := hb.plan.wellFormed
  have hpush : ∀ {k : Nat}, Pushes t.nodes k → f k = g k := by
    rintro k ⟨loc, hk⟩
    rw [h.nodes] at hk
    exact hb.plan.push hk
  refine ⟨fun {k} hk => ?_, fun {n id loc} hn => ?_, fun hk hm hid hid' => ?_,
    fun hk hid x hx => ?_⟩
  · rw [hpush hk, Option.isSome_iff_ne_none]
    refine ⟨fun hsome hd => hsome (hb.eq_none_of_dangles h hd), fun hd => ?_⟩
    rw [h.nodes] at hk
    obtain ⟨n, ⟨loc, hn⟩, p, hp, rfl, htop⟩ := h.exists_pairs hw ht hk hd
    rw [h.nodes] at hn
    exact hb.taken hn hp htop
  · have hn' := hn
    rw [h.nodes] at hn'
    obtain ⟨p, hp, rfl⟩ := List.mem_map.1
      ((Rule.perm_thread r ht).mem_iff.2 (List.mem_map_of_mem hn'))
    rw [hb.plan.pop hn' hp, Option.bind_eq_some_iff]
    constructor
    · rintro ⟨k, htop, hid⟩
      obtain ⟨loc', hk⟩ := hb.push hid
      rw [← h.nodes] at hk
      exact ⟨k, ⟨⟨loc, hn⟩, p, hp, rfl, htop⟩, (hpush ⟨loc', hk⟩).trans hid⟩
    · rintro ⟨k, ⟨-, q, hq, hqp, htop⟩, hid⟩
      obtain rfl : q = p := List.inj_on_of_nodup_map (h.nodup_usage ht) hq hp hqp
      have hkeeps : rule.Keeps r.labels fun S => ∀ k ∈ S.pushes, Pushes t.nodes k :=
        keeps_pushes fun x hx hkind => ⟨x.2.loc, by rw [h.nodes, ← hkind]; exact hx⟩
      have hk : Pushes t.nodes k :=
        ((hkeeps.thread r ht (by simp [pushes])).2 q hq).1 k (mem_pushes_of_topPush? htop)
      exact ⟨k, htop, (hpush hk).symm.trans hid⟩
  · rw [hpush hk] at hid
    rw [hpush hm] at hid'
    exact hb.plan.inj hid hid'
  · rw [hpush hk] at hid
    rw [h.nodes] at hx
    exact fun htemp => hb.plan.old x hx _ htemp _ hid

/-! ## What a run of the elimination gives -/

/-- The pairs that are found are all there are. -/
theorem Represents.pushPops_eq_nil (h : t.Represents r) (hw : r.forms.WellFormed)
    (ht : rule.thread [] r = .ok (out, usage)) :
    t.pushPops usage = [] ↔ ¬∃ k n, t.Pairs usage k n := by
  have hmatched : ∀ k n, (k, n) ∈ t.matchedPops usage ↔ t.Pairs usage k n := by
    intro k n
    rw [mem_matchedPops h (h.nodup_usage ht)]
    constructor
    · rintro ⟨loc, hn, p, hp, hpn, htop, -⟩
      exact ⟨⟨loc, by rwa [h.nodes]⟩, p, hp, hpn, htop⟩
    · intro hpair
      have hd := h.not_dangles hw ht hpair
      obtain ⟨⟨loc, hn⟩, p, hp, hpn, htop⟩ := hpair
      rw [h.nodes] at hn
      exact ⟨loc, hn, p, hp, hpn, htop, by rwa [mem_dangling_iff (h.nodup_usage ht)]⟩
  rw [pushPops_eq, List.map_eq_nil_iff, List.eq_nil_iff_forall_not_mem]
  simp only [mem_firsts, hmatched, not_exists]

/-- A run does nothing when there are no pairs.  Else it changes the tree, unless the temporaries
run out. -/
theorem Editable.bindPushes_of_usage (he : t.Editable r)
    (ht : rule.thread [] r = .ok (out, usage)) :
    (t.pushPops usage = [] → t.bindPushes = .unchanged t) ∧
      (t.pushPops usage ≠ [] → t.bindPushes.toExcept = .error .counterOverflow ∨
        ∃ t', t.bindPushes = ⟨t', .ok true⟩) := by
  have hfound : t.eliminations = if (t.pushPops usage).isEmpty then .ok [] else
      (t.currentScope root).map fun s => t.edits usage s.next := by
    unfold eliminations
    rw [he.represents.stackUsage_eq, ht]
    simp only [Except.map, bind, Except.bind]
    split
    · rfl
    · cases t.currentScope root <;> rfl
  unfold bindPushes
  rw [hfound]
  constructor
  · intro hnil
    rw [hnil]
    rfl
  · intro hne
    rw [if_neg (by simpa using hne)]
    rcases currentScope_cases t root with hs | ⟨s, hs⟩
    · rw [hs]
      exact .inl rfl
    · have hready : Ready t r (t.edits usage s.next) := ready_edits he ht
      have hedits : Outcome.ofEdits substitute t (.ok (t.edits usage s.next)) =
          Outcome.applyAll substitute t (t.edits usage s.next) := by
        obtain ⟨p, pairs, hpairs⟩ := List.exists_cons_of_ne_nil hne
        rw [edits, hpairs, substitutions_eq, popEdits_cons]
        rfl
      rw [hs]
      simp only [Except.map, hedits]
      rcases hready.applyAll with ⟨t', h⟩ | ⟨t', r', h, -⟩
      · left
        rw [h]
        rfl
      · exact .inr ⟨t', h⟩

/-- A run that is not stopped by a lack of temporaries answers whether there are pairs, and without
them it leaves the tree alone. -/
theorem Editable.exists_bindPushes (he : t.Editable r) (ht : rule.thread [] r = .ok (out, usage))
    (hfits : t.bindPushes.toExcept ≠ .error .counterOverflow) :
    ∃ t' changed, t.bindPushes = ⟨t', .ok changed⟩ ∧
      (changed = true ↔ ∃ k n, t.Pairs usage k n) ∧ (changed = false → t' = t) := by
  obtain ⟨hnone, hsome⟩ := he.bindPushes_of_usage ht
  have hpairs : (∃ k n, t.Pairs usage k n) ↔ t.pushPops usage ≠ [] := by
    rw [ne_eq, he.represents.pushPops_eq_nil he.wellFormed ht, not_not]
  rw [hpairs]
  by_cases hnil : t.pushPops usage = []
  · exact ⟨t, false, hnone hnil, by simp [hnil], fun _ => rfl⟩
  · obtain ⟨t', ht'⟩ := (hsome hnil).resolve_left hfits
    exact ⟨t', true, ht', by simp [hnil], nofun⟩

/-- No pop that is left sees a push, so there is nothing to do a second time. -/
theorem Bound.bindPushes_eq (hb : Bound r r' f g kept usage) {t' : SyntaxTree}
    (he : t'.Editable r') : t'.bindPushes = .unchanged t' := by
  have h := he.represents
  obtain ⟨out, ht, -⟩ := hb.thread
  have hexposed : r'.forms.exposed (allOnTop []) = some (out.onTop g) := by
    rw [hb.forms]
    exact hb.exposed r ⟨[], rfl⟩ ht fun p hp => hp
  obtain ⟨out', usage', ht', -, hpops⟩ := @thread_of_exposed
    (fun n => ∃ loc, (n, (⟨.atom .pop, loc⟩ : Form)) ∈ r'.labels) [] _ r' h.roles.pop hexposed
  refine (he.bindPushes_of_usage ht').1 ((h.pushPops_eq_nil he.wellFormed ht').2 ?_)
  rintro ⟨k, n, ⟨loc, hn⟩, p, hp, rfl, htop⟩
  rw [h.nodes] at hn
  rw [hpops p hp ⟨loc, hn⟩] at htop
  cases htop

/-- A push of a script that the analysis accepts dangles, or exactly one pop takes its value.  The
elimination puts a new temporary in place of each push of the second sort and of the pop that takes
its value, and leaves all others.  It answers whether there are any, and it has nothing to do a
second time.  Only a lack of temporaries can stop it, and there is none while there is room behind
the temporaries of the script for one for each of its pushes. -/
theorem pairs_of_stackUsage (s : Script) {usage : List (Passage StackState)}
    (h : (ofScript s).stackUsage = .ok usage) :
    (∀ k, Pushes (ofScript s).nodes k →
      ((ofScript s).Dangles usage k ∧ ∀ n, ¬(ofScript s).Pairs usage k n) ∨
        (¬(ofScript s).Dangles usage k ∧ ∃! n, (ofScript s).Pairs usage k n)) ∧
      (∀ next, (∀ id ∈ s.temporaries, id < next) → next + s.pushes < counterBound →
        (ofScript s).bindPushes.toExcept ≠ .error .counterOverflow) ∧
      ((ofScript s).bindPushes.toExcept ≠ .error .counterOverflow →
        ∃ r t' changed s' f, (ofScript s).branch? root = some r ∧
          (ofScript s).bindPushes = ⟨t', .ok changed⟩ ∧
          t'.toScript = .ok s' ∧ s'.rose = r.bound f ∧ (ofScript s).Binds usage f ∧
          (changed = true ↔ ∃ k n, (ofScript s).Pairs usage k n) ∧
          (changed = false → t' = ofScript s) ∧ t'.bindPushes = ⟨t', .ok false⟩) := by
  have he := editable_ofScript s
  have hr := he.represents
  have hw := he.wellFormed
  obtain ⟨out, ht⟩ := hr.stackUsage_eq_ok.1 h
  refine ⟨fun k hk => ?_, fun _ => bindPushes_fits, fun hfits => ?_⟩
  · by_cases hd : (ofScript s).Dangles usage k
    · exact .inl ⟨hd, fun n hn => hr.not_dangles hw ht hn hd⟩
    · rw [hr.nodes] at hk
      obtain ⟨n, hn⟩ := hr.exists_pairs hw ht hk hd
      exact .inr ⟨hd, n, hn, fun m hm => hr.pairs_unique hw ht hm hn⟩
  · obtain ⟨t', changed, hok, hchanged, hsame⟩ := he.exists_bindPushes ht hfits
    have hexcept : (ofScript s).bindPushes.toExcept = .ok t' := by rw [hok]; rfl
    obtain ⟨x, -, -, herr⟩ | herr | ⟨t'', r', f, g, kept, usage', hok', he', hb⟩ :=
      he.bindPushes_cases rfl
    · cases hexcept.symm.trans herr
    · cases hexcept.symm.trans herr
    · obtain rfl := Except.ok.inj (hexcept.symm.trans hok')
      obtain rfl : usage' = usage := by
        obtain ⟨out', ht', -⟩ := hb.thread
        exact (Prod.mk.inj (Except.ok.inj (ht'.symm.trans ht))).2
      have hbranch := hr.holds.branch? hr.nodup
      rw [hr.root] at hbranch
      obtain ⟨s', hs', hrose⟩ := he'.represents.toScript_eq_ok he'.wellFormed he'.category
      exact ⟨_, t', changed, s', f, hbranch, hok, hs', hrose.trans hb.forms, hb.binds hr, hchanged,
        hsame, hb.bindPushes_eq he'⟩

end SyntaxTree

/-- A push in an arm, and another one with its pop as the value of a return. -/
def Script.leftover : Script where
  body := [.branch .undefined (.push .undefined none) none none, .push .undefined none,
    .ret (some .pop) none]

namespace SyntaxTree

/-- The push in the arm is left, and the one behind the choice is returned. -/
theorem pairs_of_stackUsage_leftover :
    ∃ usage, (ofScript .leftover).stackUsage = .ok usage ∧
      Script.leftover.temporaries = [] ∧ Script.leftover.pushes = 2 ∧
      (ofScript .leftover).Dangles usage 3 ∧ (∃! n, (ofScript .leftover).Pairs usage 5 n) ∧
      ∃ t', (ofScript .leftover).bindPushes = ⟨t', .ok true⟩ ∧
        t'.bindPushes = ⟨t', .ok false⟩ := by
  obtain ⟨usage, husage, hleft, htaken⟩ : ∃ usage, (ofScript .leftover).stackUsage = .ok usage ∧
      ⟨3, [.barrier 1], [.push 3, .barrier 1]⟩ ∈ usage ∧
      ⟨8, [.push 5, .barrier 1], [.barrier 1]⟩ ∈ usage :=
    ⟨[⟨2, [], []⟩, ⟨4, [.barrier 1], [.barrier 1]⟩, ⟨3, [.barrier 1], [.push 3, .barrier 1]⟩,
      ⟨1, [], [.barrier 1]⟩, ⟨6, [.barrier 1], [.barrier 1]⟩,
      ⟨5, [.barrier 1], [.push 5, .barrier 1]⟩, ⟨8, [.push 5, .barrier 1], [.barrier 1]⟩,
      ⟨7, [.push 5, .barrier 1], [.barrier 1]⟩, ⟨0, [], [.barrier 1]⟩], by rfl, by simp, by simp⟩
  have htemporaries : Script.leftover.temporaries = [] := by rfl
  have hpushes : Script.leftover.pushes = 2 := by rfl
  have hnodes : (ofScript .leftover).nodes = (Script.leftover.rose.tagged 0 1).labels :=
    (editable_ofScript .leftover).represents.nodes
  have hpush : Pushes (ofScript .leftover).nodes 5 := by
    rw [hnodes]
    exact ⟨none, by decide⟩
  have hpop : ∃ loc, (8, (⟨.atom .pop, loc⟩ : Form)) ∈ (ofScript .leftover).nodes := by
    rw [hnodes]
    exact ⟨none, by decide⟩
  have harms : (ofScript .leftover).arms = [3] := by rfl
  obtain ⟨hmatch, hroom, hrun⟩ := pairs_of_stackUsage .leftover husage
  have hfits : (ofScript .leftover).bindPushes.toExcept ≠ .error .counterOverflow :=
    hroom 0 (by simp [htemporaries]) (by rw [hpushes]; decide)
  obtain ⟨r, t', changed, s', f, -, hok, -, -, -, hchanged, -, hagain⟩ := hrun hfits
  have hpair : (ofScript .leftover).Pairs usage 5 8 := ⟨hpop, _, htaken, rfl, rfl⟩
  have hdangles : (ofScript .leftover).Dangles usage 3 := by
    refine ⟨_, hleft, .inr ?_, by simp [pushes]⟩
    rw [harms]
    exact List.mem_singleton_self 3
  obtain rfl := hchanged.2 ⟨5, 8, hpair⟩
  exact ⟨usage, husage, htemporaries, hpushes, hdangles,
    ((hmatch 5 hpush).resolve_left fun h => h.2 8 hpair).2, t', hok, hagain⟩

end SyntaxTree

end ScriptRecovery
