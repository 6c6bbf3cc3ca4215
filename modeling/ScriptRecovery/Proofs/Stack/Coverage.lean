import ScriptRecovery.Proofs.Arena.Refinement
import ScriptRecovery.Proofs.Stack.Elimination
import ScriptRecovery.Stack.Analyzer

/-!
# What the analysis of the stack covers

The analysis follows the stack through every node of a script, or it stops at the first expression
that may leave a part unevaluated.

*Refusals.*  The first node in preorder that may leave a part unevaluated decides about the whole:
without one there is an answer, and with one that is the fault (`Rule.thread_answers`).

*Passages.*  Every passage goes with those through its children (`Rule.Follows`).  The children of a
sequential node are passed one after the other (`Rule.Passed`), and the arms of a choice from the
state that its test leaves, with the frame of the choice on top.

*Records.*  Evaluation in an arena, child by child and with a record that has one place for each
node, writes what threading the tree says (`SyntaxTree.Holds.records`).  No node is evaluated twice, so
nothing is written over.
-/

namespace ScriptRecovery

open Rose

/-- Whether a node of a kind may leave a part unevaluated and is no statement. -/
def Kind.isLazy : Kind → Bool
  | .logical _ | .conditional => true
  | _ => false

theorem Kind.eq_of_not_sequential {k : Kind} (h : k.isSequential = false) :
    k = .branch ∨ (∃ op, k = .logical op) ∨ k = .conditional := by
  cases k <;> simp_all [Kind.isSequential]

/-- A choice has a test before its arms. -/
theorem Rose.WellFormed.exists_test {form : Form} {parts : List (Rose (Nat × Form))}
    (h : (Rose.node form (parts.map forms)).WellFormed) (hbranch : form.kind = .branch) :
    ∃ test arms, parts = test :: arms := by
  cases parts with
  | nil => simpa [hbranch, Kind.admits] using h.admits
  | cons test arms => exact ⟨test, arms, rfl⟩

/-- The first kind of an expression in preorder that may leave a part unevaluated. -/
def Script.firstLazy? (s : Script) : Option Kind :=
  (s.rose.labels.find? (·.kind.isLazy)).map Form.kind

namespace Rule

variable {σ : Type} {r : Rule σ}

/-! ## Passages -/

/-- Whether nodes in a row are passed one after the other, the first one from a state and each other
one from the state that the one before it leaves. -/
inductive Passed (ps : List (Passage σ)) : σ → List Nat → σ → Prop
  | nil {s : σ} : Passed ps s [] s
  | cons {n : Nat} {ns : List Nat} {s next out : σ} :
      ⟨n, s, next⟩ ∈ ps → Passed ps next ns out → Passed ps s (n :: ns) out

/-- Whether a passage goes with those through the children of its node. -/
structure Follows (r : Rule σ) (t : SyntaxTree) (ps : List (Passage σ)) (p : Passage σ) :
    Prop where
  sequential : ∀ {kind : Kind}, t.kind? p.node = some kind → kind.isSequential = true →
    ∃ after, Passed ps p.input (t.children p.node) after ∧
      p.output = r.leave p.node kind p.input after
  choice : t.kind? p.node = some .branch → ∃ fork test arms tested, r.fork? = some fork ∧
    t.children p.node = test :: arms ∧ ⟨test, p.input, tested⟩ ∈ ps ∧
    p.output = fork p.node tested ∧ ∀ arm ∈ arms, ∃ out, ⟨arm, p.output, out⟩ ∈ ps

variable {ps ps' : List (Passage σ)} {input out : σ}

theorem Passed.mono {s : σ} {ns : List Nat} (h : Passed ps s ns out) (hsub : ps ⊆ ps') :
    Passed ps' s ns out := by
  induction h with
  | nil => exact .nil
  | cons hp _ ih => exact .cons (hsub hp) ih

theorem Follows.mono {t : SyntaxTree} {p : Passage σ} (h : r.Follows t ps p) (hsub : ps ⊆ ps') :
    r.Follows t ps' p where
  sequential hk hs :=
    let ⟨after, hrow, hout⟩ := h.sequential hk hs
    ⟨after, hrow.mono hsub, hout⟩
  choice hk :=
    let ⟨fork, test, arms, tested, hfork, hchildren, htest, hout, harms⟩ := h.choice hk
    ⟨fork, test, arms, tested, hfork, hchildren, hsub htest, hout, fun arm ha =>
      (harms arm ha).imp fun _ hp => hsub hp⟩

/-- The passages through a row are those of its parts. -/
theorem mem_threadRow {parts : List (Rose (Nat × Form))}
    (h : r.threadRow input parts = .ok (out, ps)) {p : Passage σ} (hp : p ∈ ps) :
    ∃ part ∈ parts, ∃ s s' inside, r.thread s part = .ok (s', inside) ∧ p ∈ inside ∧
      inside ⊆ ps := by
  induction parts generalizing input ps with
  | nil =>
    cases h
    cases hp
  | cons part parts ih =>
    obtain ⟨next, first, rest, hfirst, hrest, rfl⟩ := threadRow_cons h
    rcases List.mem_append.1 hp with hp | hp
    · exact ⟨part, by simp, _, _, first, hfirst, hp, List.subset_append_left _ _⟩
    · obtain ⟨x, hx, s, s', inside, hrun, hin, hsub⟩ := ih hrest hp
      exact ⟨x, by simp [hx], s, s', inside, hrun, hin,
        List.Subset.trans hsub (List.subset_append_right _ _)⟩

theorem mem_threadArms {arms : List (Rose (Nat × Form))} (h : r.threadArms input arms = .ok ps)
    {p : Passage σ} (hp : p ∈ ps) : ∃ arm ∈ arms, ∃ s s' inside,
      r.thread s arm = .ok (s', inside) ∧ p ∈ inside ∧ inside ⊆ ps := by
  induction arms generalizing ps with
  | nil =>
    cases h
    cases hp
  | cons arm arms ih =>
    obtain ⟨after, first, rest, hfirst, hrest, rfl⟩ := threadArms_cons h
    rcases List.mem_append.1 hp with hp | hp
    · exact ⟨arm, by simp, _, _, first, hfirst, hp, List.subset_append_left _ _⟩
    · obtain ⟨x, hx, s, s', inside, hrun, hin, hsub⟩ := ih hrest hp
      exact ⟨x, by simp [hx], s, s', inside, hrun, hin,
        List.Subset.trans hsub (List.subset_append_right _ _)⟩

/-- The parts of a row are passed one after the other. -/
theorem passed_threadRow {parts : List (Rose (Nat × Form))}
    (h : r.threadRow input parts = .ok (out, ps)) : Passed ps input (parts.map number) out := by
  induction parts generalizing input ps with
  | nil =>
    cases h
    exact .nil
  | cons part parts ih =>
    obtain ⟨next, first, rest, hfirst, hrest, rfl⟩ := threadRow_cons h
    exact .cons (List.mem_append_left _ (thread_last hfirst))
      ((ih hrest).mono (List.subset_append_right _ _))

end Rule

namespace SyntaxTree

variable {σ : Type} {r : Rule σ} {t : SyntaxTree}

theorem Holds.children_eq {link : Option ParentLink} {n : Nat} {form : Form}
    {parts : List (Rose (Nat × Form))} (h : t.Holds link (.node (n, form) parts)) :
    t.children n = parts.map number := by
  rw [SyntaxTree.children, h.slot?]
  rfl

/-- Every passage through a tree goes with those through the children. -/
theorem Holds.follows {tree : Rose (Nat × Form)} {link : Option ParentLink} {input out : σ}
    {ps : List (Passage σ)} (h : t.Holds link tree) (hw : tree.forms.WellFormed)
    (hrun : r.thread input tree = .ok (out, ps)) : ∀ p ∈ ps, r.Follows t ps p := by
  induction tree using Rose.induct generalizing link input out ps with
  | h label parts ih =>
    obtain ⟨n, form⟩ := label
    have hkind : ∀ {kind : Kind}, t.kind? n = some kind → kind = form.kind := by
      intro kind hk
      rw [kind?, h.slot?] at hk
      exact (Option.some.inj hk).symm
    rw [forms_node] at hw
    have hpart : ∀ {part}, part ∈ parts → ∀ {s s' inside}, r.thread s part = .ok (s', inside) →
        inside ⊆ ps → ∀ p ∈ inside, r.Follows t ps p := by
      intro part hx s s' inside hs hsub p hp
      obtain ⟨link', hheld⟩ := h.mem_part hx
      exact (ih part hx hheld (hw.parts _ (List.mem_map_of_mem hx)) hs p hp).mono hsub
    cases hk : form.kind.isSequential with
    | true =>
      obtain ⟨after, inside, hrow, hout, rfl⟩ := Rule.thread_sequential hk hrun
      intro p hp
      rcases List.mem_append.1 hp with hp | hp
      · obtain ⟨part, hx, s, s', within, hs, hin, hsub⟩ := Rule.mem_threadRow hrow hp
        exact hpart hx hs (List.Subset.trans hsub (List.subset_append_left _ _)) p hin
      · obtain rfl := List.mem_singleton.1 hp
        refine ⟨fun hkn _ => ⟨after, ?_, ?_⟩, fun hkn => ?_⟩
        · rw [h.children_eq]
          exact (Rule.passed_threadRow hrow).mono (List.subset_append_left _ _)
        · rw [hkind hkn]
          exact hout
        · rw [← hkind hkn] at hk
          cases hk
    | false =>
      obtain ⟨hbranch, fork, inside, hfork, hchoice, rfl⟩ := Rule.thread_choice hk hrun
      obtain ⟨test, arms, rfl⟩ := hw.exists_test hbranch
      obtain ⟨tested, first, rest, htest, rfl, harms, rfl⟩ := Rule.threadChoice_cons hchoice
      intro p hp
      rcases List.mem_append.1 hp with hp | hp
      · rcases List.mem_append.1 hp with hp | hp
        · exact hpart (by simp) htest (by simp) p hp
        · obtain ⟨arm, hx, s, s', within, hs, hin, hsub⟩ := Rule.mem_threadArms harms hp
          exact hpart (by simp [hx]) hs (fun q hq => by simp [hsub hq]) p hin
      · obtain rfl := List.mem_singleton.1 hp
        refine ⟨fun hkn hseq => ?_, fun _ => ⟨fork, test.number, arms.map number, tested, hfork,
          h.children_eq, ?_, rfl, fun arm ha => ?_⟩⟩
        · rw [hkind hkn, hk] at hseq
          cases hseq
        · simp [Rule.thread_last htest]
        · obtain ⟨x, hx, rfl⟩ := List.mem_map.1 ha
          obtain ⟨after, within, hs, hsub⟩ := Rule.threadArms_mem harms hx
          exact ⟨after, by simp [hsub _ (Rule.thread_last hs)]⟩

end SyntaxTree

/-! ## Records -/

namespace Passage

variable {σ : Type}

/-- A record with passages written into it in order. -/
def insertAll (ps record : List (Passage σ)) : List (Passage σ) :=
  ps.foldl (fun record p => p.insert record) record

theorem insertAll_append (ps qs record : List (Passage σ)) :
    insertAll (ps ++ qs) record = insertAll qs (insertAll ps record) :=
  List.foldl_append

/-- Whether the nodes of a record are in ascending order, each there once. -/
def Ascends (record : List (Passage σ)) : Prop := record.Pairwise fun p q => p.node < q.node

theorem node_of_mem_insert {p q : Passage σ} {record : List (Passage σ)}
    (h : q ∈ p.insert record) : q = p ∨ q ∈ record := by
  induction record with
  | nil => exact .inl (List.mem_singleton.1 h)
  | cons a record ih =>
    rw [Passage.insert] at h
    split at h
    · exact List.mem_cons.1 h
    · split at h
      · exact (List.mem_cons.1 h).imp_right (List.mem_cons_of_mem _)
      · rcases List.mem_cons.1 h with rfl | h
        · exact .inr List.mem_cons_self
        · exact (ih h).imp_right (List.mem_cons_of_mem _)

theorem Ascends.insert {record : List (Passage σ)} (h : Ascends record) (p : Passage σ) :
    Ascends (p.insert record) := by
  induction record with
  | nil => exact List.pairwise_singleton _ _
  | cons q record ih =>
    obtain ⟨hq, hrecord⟩ := List.pairwise_cons.1 h
    rw [Passage.insert]
    split
    · next hlt =>
      exact List.pairwise_cons.2 ⟨List.forall_mem_cons.2
        ⟨hlt, fun a ha => Nat.lt_trans hlt (hq a ha)⟩, h⟩
    · split
      · next heq => exact List.pairwise_cons.2 ⟨fun a ha => heq ▸ hq a ha, hrecord⟩
      · next hge hne =>
        refine List.pairwise_cons.2 ⟨fun a ha => ?_, ih hrecord⟩
        rcases node_of_mem_insert ha with rfl | ha
        · omega
        · exact hq a ha

/-- A passage of a new node is written over nothing. -/
theorem perm_insert {p : Passage σ} {record : List (Passage σ)}
    (h : p.node ∉ record.map Passage.node) : (p.insert record).Perm (p :: record) := by
  induction record with
  | nil => exact .refl _
  | cons q record ih =>
    rw [List.map_cons, List.mem_cons, not_or] at h
    rw [Passage.insert]
    split
    · exact .refl _
    · rw [if_neg h.1]
      exact ((ih h.2).cons q).trans (.swap p q record)

/-- Passages of different nodes make a record of all of them. -/
theorem insertAll_spec {ps record : List (Passage σ)} (h : Ascends record)
    (hn : ((record ++ ps).map Passage.node).Nodup) :
    Ascends (insertAll ps record) ∧ (insertAll ps record).Perm (record ++ ps) := by
  induction ps generalizing record with
  | nil => exact ⟨h, by simp [insertAll]⟩
  | cons p ps ih =>
    have hnew : p.node ∉ record.map Passage.node := by
      rw [List.map_append, List.nodup_append] at hn
      exact fun hp => hn.2.2 _ hp _ (by simp) rfl
    have hperm : (p.insert record ++ ps).Perm (record ++ p :: ps) :=
      ((perm_insert hnew).append_right ps).trans List.perm_middle.symm
    obtain ⟨hasc, hall⟩ := ih (h.insert p) ((hperm.map _).nodup_iff.2 hn)
    exact ⟨hasc, hall.trans hperm⟩

theorem sort_spec (ps : List (Passage σ)) :
    (Passage.sort ps).Pairwise (fun p q => p.node ≤ q.node) ∧ (Passage.sort ps).Perm ps := by
  refine ⟨?_, List.mergeSort_perm _ _⟩
  rw [Passage.sort]
  simpa using @List.pairwise_mergeSort _ (fun p q : Passage σ => decide (p.node ≤ q.node))
    (fun a b c => by simpa using Nat.le_trans) (fun a b => by simpa using Nat.le_total _ _) ps

/-- A record of passages of different nodes is what sorting them gives. -/
theorem insertAll_nil {ps : List (Passage σ)} (hn : (ps.map Passage.node).Nodup) :
    insertAll ps [] = Passage.sort ps := by
  obtain ⟨hasc, hall⟩ := @insertAll_spec _ ps [] List.Pairwise.nil hn
  obtain ⟨hsorted, hperm⟩ := sort_spec ps
  refine @List.Perm.eq_of_pairwise _ (fun p q => p.node ≤ q.node) _ _
    (fun p q hp hq hle hge => ?_) (hasc.imp Nat.le_of_lt) hsorted (hall.trans hperm.symm)
  exact List.inj_on_of_nodup_map hn (hall.subset hp) (hperm.subset hq) (Nat.le_antisymm hle hge)

end Passage

namespace Rule

variable {σ : Type} {r : Rule σ} {t : SyntaxTree} {fuel : Nat} {parts : List (Rose (Nat × Form))}

/-- Whether evaluating a tree from its number records what threading it says. -/
def Records (r : Rule σ) (t : SyntaxTree) (fuel : Nat) (tree : Rose (Nat × Form)) : Prop :=
  ∀ input record, r.evaluate t fuel tree.number input record =
    (r.thread input tree).map fun x => (x.1, Passage.insertAll x.2 record)

theorem evaluateRow_eq (h : ∀ part ∈ parts, r.Records t fuel part) (input : σ)
    (record : List (Passage σ)) :
    evaluateRow (r.evaluate t fuel) input record (parts.map number) =
      (r.threadRow input parts).map fun x => (x.1, Passage.insertAll x.2 record) := by
  induction parts generalizing input record with
  | nil => rfl
  | cons part parts ih =>
    rw [List.map_cons, evaluateRow, threadRow, h part (by simp)]
    cases r.thread input part with
    | error fault => rfl
    | ok x =>
      have hrest := ih (fun part hx => h part (by simp [hx])) x.1 (Passage.insertAll x.2 record)
      simp only [Except.map, bind, Except.bind, hrest]
      cases r.threadRow x.1 parts with
      | error fault => rfl
      | ok y => simp [pure, Except.pure, Passage.insertAll_append]

theorem evaluateArms_eq (h : ∀ part ∈ parts, r.Records t fuel part) (input : σ)
    (record : List (Passage σ)) :
    evaluateArms (r.evaluate t fuel) input record (parts.map number) =
      (r.threadArms input parts).map fun ps => Passage.insertAll ps record := by
  induction parts generalizing record with
  | nil => rfl
  | cons part parts ih =>
    rw [List.map_cons, evaluateArms, threadArms, h part (by simp)]
    cases r.thread input part with
    | error fault => rfl
    | ok x =>
      have hrest := ih (fun part hx => h part (by simp [hx])) (Passage.insertAll x.2 record)
      simp only [Except.map, bind, Except.bind, hrest]
      cases r.threadArms input parts with
      | error fault => rfl
      | ok y => simp [pure, Except.pure, Passage.insertAll_append]

end Rule

namespace SyntaxTree

variable {σ : Type} {r : Rule σ} {t : SyntaxTree}

/-- Evaluating a part of an arena records what threading its tree says. -/
theorem Holds.records {tree : Rose (Nat × Form)} {link : Option ParentLink} {fuel : Nat}
    (h : t.Holds link tree) (hw : tree.forms.WellFormed) (hf : tree.labels.length ≤ fuel) :
    r.Records t fuel tree := by
  induction tree using Rose.induct generalizing link fuel with
  | h label parts ih =>
    obtain ⟨n, form⟩ := label
    rw [forms_node] at hw
    cases fuel with
    | zero => simp at hf
    | succ fuel =>
      have hparts : ∀ part ∈ parts, r.Records t fuel part := by
        intro part hx
        obtain ⟨link', hheld⟩ := h.mem_part hx
        refine ih part hx hheld (hw.parts _ (List.mem_map_of_mem hx)) ?_
        have := length_labels_le hx
        simp only [labels_node, List.length_cons] at hf
        omega
      intro input record
      rw [number_node, Rule.evaluate, Rule.thread, h.slot_eq_ok]
      cases hk : form.kind.isSequential with
      | true =>
        simp only [bind, Except.bind, hk, if_true, Rule.evaluateRow_eq hparts]
        cases r.threadRow input parts with
        | error fault => rfl
        | ok x => simp [Except.map, pure, Except.pure, Passage.insertAll]
      | false =>
        simp only [bind, Except.bind, hk, Bool.false_eq_true, if_false]
        rcases Kind.eq_of_not_sequential hk with hbranch | ⟨op, hlogical⟩ | hconditional
        · cases hfork : r.fork? with
          | none => simp [hbranch, Except.map]
          | some fork =>
            obtain ⟨test, arms, rfl⟩ := hw.exists_test hbranch
            have htest := hparts test (by simp) input record
            simp only [hbranch, List.map_cons, htest, Rule.threadChoice]
            cases r.thread input test with
            | error fault => rfl
            | ok x =>
              have harms := Rule.evaluateArms_eq
                (fun arm hx => hparts arm (List.mem_cons_of_mem test hx)) (fork n x.1)
                (Passage.insertAll x.2 record)
              simp only [Except.map, bind, Except.bind, harms]
              cases r.threadArms (fork n x.1) arms with
              | error fault => rfl
              | ok y => simp [pure, Except.pure, Passage.insertAll]
        · simp [hlogical, Except.map]
        · simp [hconditional, Except.map]

/-- The record of an analysis of a tidy arena has what threading says, in ascending order. -/
theorem Tidy.analyzeStack_eq {tree : Rose (Nat × Form)} (h : t.Tidy tree) :
    t.analyzeStack = t.stackUsage.map Passage.sort := by
  have hrec := h.represents.holds.records h.wellFormed
    (h.represents.holds.length_le h.represents.nodup) (r := StackState.rule) [] []
  rw [h.represents.root] at hrec
  rw [analyzeStack, Rule.analyze, hrec, h.represents.stackUsage_eq]
  cases hrun : StackState.rule.thread [] tree with
  | error fault => rfl
  | ok x =>
    have hnodup := h.represents.nodup_usage hrun
    simp [Except.map, bind, Except.bind, pure, Except.pure, Passage.insertAll_nil hnodup]

/-! ## Scripts -/

/-- What the analysis of the stack says of the nodes of a script. -/
structure Charted (t : SyntaxTree) (usage : List (Passage StackState)) : Prop where
  /-- Every live node has one entry, in ascending order, and there are no others. -/
  live : usage.map Passage.node = t.live
  /-- Nothing is known before the script. -/
  start : ∃ out, ⟨root, [], out⟩ ∈ usage
  /-- The first child gets the state before its parent, and each other one the state after the one
  before it. -/
  sequential : ∀ p ∈ usage, ∀ kind, t.kind? p.node = some kind → kind.isSequential = true →
    ∃ after, Rule.Passed usage p.input (t.children p.node) after ∧
      p.output = StackState.rule.leave p.node kind p.input after
  /-- The test of a choice gets the state before it.  Both arms get the one after the test under a
  barrier, which is also left behind. -/
  choice : ∀ p ∈ usage, t.kind? p.node = some .branch → ∃ test arms tested,
    t.children p.node = test :: arms ∧ ⟨test, p.input, tested⟩ ∈ usage ∧
    p.output = .barrier p.node :: tested ∧
    ∀ arm ∈ arms, ∃ out, ⟨arm, .barrier p.node :: tested, out⟩ ∈ usage

/-- The rule of the stack says nothing of the expressions that may leave a part unevaluated. -/
theorem lacks_iff {kind : Kind} : StackState.rule.Lacks kind ↔ kind.isLazy = true := by
  cases kind <;> simp [Rule.Lacks, StackState.rule, Kind.isSequential, Kind.isLazy]

/-- The first node without a rule is the first lazy expression of the script. -/
theorem firstLazy?_eq {tree : Rose (Nat × Form)} {s : Script} (hs : s.rose = tree.forms) :
    s.firstLazy? =
      (tree.labels.find? fun x => StackState.rule.Lacks x.2.kind).map fun x => x.2.kind := by
  rw [Script.firstLazy?, hs, forms, labels_map, List.find?_map, Option.map_map]
  simp only [lacks_iff, Bool.decide_eq_true]
  rfl

/-- What is threaded through a tidy arena charts it. -/
theorem Tidy.charted {tree : Rose (Nat × Form)} {out : StackState}
    {usage : List (Passage StackState)} (h : t.Tidy tree)
    (hrun : StackState.rule.thread [] tree = .ok (out, usage)) :
    t.Charted (Passage.sort usage) := by
  obtain ⟨hsorted, hperm⟩ := Passage.sort_spec usage
  have hsub : usage ⊆ Passage.sort usage := hperm.symm.subset
  have hfollows : ∀ p ∈ Passage.sort usage, StackState.rule.Follows t (Passage.sort usage) p :=
    fun p hp => (h.represents.holds.follows h.wellFormed hrun p (hperm.subset hp)).mono hsub
  refine ⟨?_, ⟨out, ?_⟩, fun p hp kind hk hs => (hfollows p hp).sequential hk hs,
    fun p hp hk => ?_⟩
  · have hnodes : ((Passage.sort usage).map Passage.node).Perm t.live := by
      refine ((hperm.map _).trans (Rule.perm_thread tree hrun)).trans ?_
      simpa [h.represents.nodes, numbers] using h.once
    have hlive : t.live.Pairwise (· ≤ ·) :=
      (List.pairwise_le_range).filter _
    exact hnodes.eq_of_pairwise (fun _ _ _ _ => Nat.le_antisymm) (List.pairwise_map.2 hsorted) hlive
  · have hlast := Rule.thread_last hrun
    rw [h.represents.root] at hlast
    exact hsub hlast
  · obtain ⟨fork, test, arms, tested, hfork, hchildren, htest, hout, harms⟩ :=
      (hfollows p hp).choice hk
    obtain rfl := Option.some.inj hfork
    rw [hout] at harms
    exact ⟨test, arms, tested, hchildren, htest, hout, harms⟩

/-- After any calls on a new arena, the analysis of the stack has an answer exactly when no lazy
expression is anywhere in the script, and then it charts the arena.  Otherwise the fault is that of
the first lazy expression in preorder, and then the elimination of pushes fails in the same way and
changes nothing. -/
theorem analyzeStack_of_history (s : Script) (calls : List Call) :
    ∃ s', (calls.foldl perform (ofScript s)).toScript = .ok s' ∧ (calls = [] → s' = s) ∧
      (calls.foldl perform (ofScript s)).analyzeStack =
        (calls.foldl perform (ofScript s)).stackUsage.map Passage.sort ∧
      (s'.firstLazy? = none → ∃ usage,
        (calls.foldl perform (ofScript s)).analyzeStack = .ok usage ∧
          (calls.foldl perform (ofScript s)).Charted usage) ∧
      ∀ kind, s'.firstLazy? = some kind →
        (calls.foldl perform (ofScript s)).analyzeStack = .error (.unsupported kind.name) ∧
          (calls.foldl perform (ofScript s)).bindPushes =
            ⟨calls.foldl perform (ofScript s), .error (.unsupported kind.name)⟩ := by
  obtain ⟨tree, s', htidy, hread, hs', hnew⟩ := tidy_of_history s calls
  refine ⟨s', hread, hnew, htidy.analyzeStack_eq, ?_⟩
  rw [htidy.analyzeStack_eq, firstLazy?_eq hs']
  have hanswers := Rule.thread_answers (r := StackState.rule) tree []
  unfold Rule.Answers at hanswers
  generalize calls.foldl perform (ofScript s) = t at *
  cases hfind : tree.labels.find? fun x => StackState.rule.Lacks x.2.kind with
  | none =>
    rw [hfind] at hanswers
    obtain ⟨⟨out, usage⟩, hrun⟩ := hanswers
    refine ⟨fun _ => ⟨Passage.sort usage, ?_, htidy.charted hrun⟩, by simp⟩
    rw [htidy.represents.stackUsage_eq, hrun]
    rfl
  | some x =>
    rw [hfind] at hanswers
    have hfault : t.stackUsage = .error (.unsupported x.2.kind.name) := by
      rw [htidy.represents.stackUsage_eq, hanswers]
      rfl
    refine ⟨by simp, fun kind hk => ?_⟩
    obtain rfl := Option.some.inj hk
    refine ⟨by rw [hfault]; rfl, ?_⟩
    rw [bindPushes, eliminations, hfault]
    rfl

/-- A choice with traffic on the stack in both arms is charted.  A conditional inside a logical
expression is not what is reported, since the outer one comes first. -/
theorem analyzeStack_of_history_choice :
    let charted : Script := { body := [.push (.string "a") none,
      .branch .pop (.push (.string "b") none) (some (.trace .pop none)) none] }
    let refused : Script := { body := [.expression .pop none, .push (.logical .and
      (.conditional .pop .pop .pop none) (.string "a") none) none] }
    (∃ usage, (ofScript charted).analyzeStack = .ok usage ∧ (ofScript charted).Charted usage) ∧
      (ofScript refused).bindPushes =
        ⟨ofScript refused, .error (.unsupported "LogicalExpression")⟩ := by
  intro charted refused
  obtain ⟨s₁, -, h₁, -, hcharted, -⟩ := analyzeStack_of_history charted []
  obtain ⟨s₂, -, h₂, -, -, hrefused⟩ := analyzeStack_of_history refused []
  obtain rfl := h₁ rfl
  obtain rfl := h₂ rfl
  exact ⟨hcharted rfl, (hrefused (.logical .and) rfl).2⟩

end SyntaxTree

end ScriptRecovery
