import ScriptRecovery.Proofs.Arena.Context
import ScriptRecovery.Proofs.Semantics.Evaluation
import ScriptRecovery.Stack.Usage

/-!
# What the use of the stack says

Facts about threading a stack state through a numbered tree with `StackState.rule`.

* Every node has one passage, and the last one of a tree is that of its root.
* What each node and each fork keeps of a state holds at every passage (`Rule.Keeps`).
* The first node in preorder of which a rule says nothing decides whether there is an answer
  (`Rule.Answers`).
* A frame that is not a push stays for good, and so does everything below it
  (`suffix_threadRow`).  A push that gets below such a frame is therefore still there at the end.
* The pushes after a tree were there before it or are nodes of it (`pushes_thread`), none more often
  than that (`count_thread`).
-/

namespace ScriptRecovery

open Rose

namespace Rule

variable {σ : Type} {r : Rule σ} {input out : σ} {ps : List (Passage σ)} {n : Nat} {form : Form}
  {parts : List (Rose (Nat × Form))}

theorem thread_sequential (hk : form.kind.isSequential = true)
    (h : r.thread input (.node (n, form) parts) = .ok (out, ps)) :
    ∃ after inside, r.threadRow input parts = .ok (after, inside) ∧
      out = r.leave n form.kind input after ∧ ps = inside ++ [⟨n, input, out⟩] := by
  rw [thread] at h
  simp only [hk, if_true] at h
  obtain ⟨⟨after, inside⟩, hrow, h⟩ := bind_eq_ok.1 h
  obtain ⟨rfl, rfl⟩ := Prod.mk.inj (Except.ok.inj h)
  exact ⟨after, inside, hrow, rfl, rfl⟩

theorem thread_eq_ok {after : σ} {inside : List (Passage σ)} (hk : form.kind.isSequential = true)
    (h : r.threadRow input parts = .ok (after, inside)) :
    r.thread input (.node (n, form) parts) = .ok (r.leave n form.kind input after,
      inside ++ [⟨n, input, r.leave n form.kind input after⟩]) := by
  rw [thread, if_pos hk, h]
  rfl

theorem thread_choice (hk : form.kind.isSequential = false)
    (h : r.thread input (.node (n, form) parts) = .ok (out, ps)) :
    form.kind = .branch ∧ ∃ fork inside, r.fork? = some fork ∧
      r.threadChoice (fork n) input parts = .ok (out, inside) ∧
      ps = inside ++ [⟨n, input, out⟩] := by
  rw [thread] at h
  simp only [hk, Bool.false_eq_true, if_false] at h
  split at h
  · next fork hkind hfork =>
    obtain ⟨⟨o, inside⟩, hc, h⟩ := bind_eq_ok.1 h
    obtain ⟨rfl, rfl⟩ := Prod.mk.inj (Except.ok.inj h)
    exact ⟨hkind, fork, inside, hfork, hc, rfl⟩
  · cases h

theorem thread_eq_ok_of_choice {fork : Nat → σ → σ} {inside : List (Passage σ)}
    (hk : form.kind = .branch) (hf : r.fork? = some fork)
    (h : r.threadChoice (fork n) input parts = .ok (out, inside)) :
    r.thread input (.node (n, form) parts) = .ok (out, inside ++ [⟨n, input, out⟩]) := by
  rw [thread, hk, hf]
  simp only [Kind.isSequential, Bool.false_eq_true, if_false, h]
  rfl

theorem threadRow_cons {part : Rose (Nat × Form)}
    (h : r.threadRow input (part :: parts) = .ok (out, ps)) :
    ∃ next first rest, r.thread input part = .ok (next, first) ∧
      r.threadRow next parts = .ok (out, rest) ∧ ps = first ++ rest := by
  rw [threadRow] at h
  obtain ⟨⟨next, first⟩, hp, h⟩ := bind_eq_ok.1 h
  obtain ⟨⟨o, rest⟩, hr, h⟩ := bind_eq_ok.1 h
  obtain ⟨rfl, rfl⟩ := Prod.mk.inj (Except.ok.inj h)
  exact ⟨next, first, rest, hp, hr, rfl⟩

theorem threadChoice_cons {fork : σ → σ} {test : Rose (Nat × Form)}
    (h : r.threadChoice fork input (test :: parts) = .ok (out, ps)) :
    ∃ tested first rest, r.thread input test = .ok (tested, first) ∧ out = fork tested ∧
      r.threadArms out parts = .ok rest ∧ ps = first ++ rest := by
  rw [threadChoice] at h
  obtain ⟨⟨tested, first⟩, hp, h⟩ := bind_eq_ok.1 h
  obtain ⟨rest, hr, h⟩ := bind_eq_ok.1 h
  obtain ⟨rfl, rfl⟩ := Prod.mk.inj (Except.ok.inj h)
  exact ⟨tested, first, rest, hp, rfl, hr, rfl⟩

theorem threadArms_cons {arm : Rose (Nat × Form)}
    (h : r.threadArms input (arm :: parts) = .ok ps) :
    ∃ after first rest, r.thread input arm = .ok (after, first) ∧
      r.threadArms input parts = .ok rest ∧ ps = first ++ rest := by
  rw [threadArms] at h
  obtain ⟨⟨after, first⟩, hp, h⟩ := bind_eq_ok.1 h
  obtain ⟨rest, hr, h⟩ := bind_eq_ok.1 h
  exact ⟨after, first, rest, hp, hr, (Except.ok.inj h).symm⟩

/-- Every arm is threaded from the same state, and its passages are among those of all arms. -/
theorem threadArms_mem {arms : List (Rose (Nat × Form))} {arm : Rose (Nat × Form)}
    (h : r.threadArms input arms = .ok ps) (ha : arm ∈ arms) :
    ∃ out first, r.thread input arm = .ok (out, first) ∧ ∀ p ∈ first, p ∈ ps := by
  induction arms generalizing ps with
  | nil => cases ha
  | cons a arms ih =>
    obtain ⟨after, first, rest, hfirst, hrest, rfl⟩ := threadArms_cons h
    rcases List.mem_cons.1 ha with rfl | ha
    · exact ⟨after, first, hfirst, fun p hp => List.mem_append_left _ hp⟩
    · obtain ⟨out, first', hrun, hsub⟩ := ih hrest ha
      exact ⟨out, first', hrun, fun p hp => List.mem_append_right _ (hsub p hp)⟩

/-- The last passage of a tree is that of its root. -/
theorem thread_last {tree : Rose (Nat × Form)} (h : r.thread input tree = .ok (out, ps)) :
    ⟨tree.number, input, out⟩ ∈ ps := by
  obtain ⟨⟨n, form⟩, parts⟩ := tree
  cases hk : form.kind.isSequential with
  | true =>
    obtain ⟨after, inside, -, -, rfl⟩ := thread_sequential hk h
    simp
  | false =>
    obtain ⟨-, fork, inside, -, -, rfl⟩ := thread_choice hk h
    simp

/-! ## One passage for every node -/

mutual

/-- The passages of a tree are those of its nodes. -/
theorem perm_thread : ∀ {input out : σ} {ps : List (Passage σ)} (tree : Rose (Nat × Form)),
    r.thread input tree = .ok (out, ps) → (ps.map Passage.node).Perm tree.numbers
  | input, out, ps, .node (n, form) parts, h => by
      rw [numbers_node]
      cases hk : form.kind.isSequential with
      | true =>
        obtain ⟨after, inside, hrow, -, rfl⟩ := thread_sequential hk h
        rw [List.map_append]
        exact List.perm_append_comm.trans ((perm_threadRow parts hrow).cons n)
      | false =>
        obtain ⟨-, fork, inside, -, hc, rfl⟩ := thread_choice hk h
        rw [List.map_append]
        exact List.perm_append_comm.trans ((perm_threadChoice parts hc).cons n)

theorem perm_threadRow : ∀ {input out : σ} {ps : List (Passage σ)}
    (parts : List (Rose (Nat × Form))), r.threadRow input parts = .ok (out, ps) →
    (ps.map Passage.node).Perm (parts.flatMap numbers)
  | _, _, _, [], h => by
      cases h
      rfl
  | _, _, _, part :: parts, h => by
      obtain ⟨next, first, rest, hp, hr, rfl⟩ := threadRow_cons h
      rw [List.map_append, List.flatMap_cons]
      exact (perm_thread part hp).append (perm_threadRow parts hr)

theorem perm_threadChoice : ∀ {fork : σ → σ} {input out : σ} {ps : List (Passage σ)}
    (parts : List (Rose (Nat × Form))), r.threadChoice fork input parts = .ok (out, ps) →
    (ps.map Passage.node).Perm (parts.flatMap numbers)
  | _, _, _, _, [], h => by
      cases h
      rfl
  | _, _, _, _, test :: parts, h => by
      obtain ⟨tested, first, rest, hp, -, hr, rfl⟩ := threadChoice_cons h
      rw [List.map_append, List.flatMap_cons]
      exact (perm_thread test hp).append (perm_threadArms parts hr)

theorem perm_threadArms : ∀ {input : σ} {ps : List (Passage σ)}
    (parts : List (Rose (Nat × Form))), r.threadArms input parts = .ok ps →
    (ps.map Passage.node).Perm (parts.flatMap numbers)
  | _, _, [], h => by
      cases h
      rfl
  | _, _, arm :: parts, h => by
      obtain ⟨after, first, rest, hp, hr, rfl⟩ := threadArms_cons h
      rw [List.map_append, List.flatMap_cons]
      exact (perm_thread arm hp).append (perm_threadArms parts hr)

end

/-! ## What every node keeps -/

/-- Whether the nodes with some labels keep a property of states, and the forks of choices too. -/
structure Keeps (r : Rule σ) (labels : List (Nat × Form)) (I : σ → Prop) : Prop where
  leave : ∀ {n : Nat} {form : Form}, (n, form) ∈ labels → ∀ {before after : σ}, I before →
    I after → I (r.leave n form.kind before after)
  fork : ∀ {fork : Nat → σ → σ}, r.fork? = some fork → ∀ {n : Nat} {s : σ}, I s → I (fork n s)

section Keeps

variable {I : σ → Prop}

theorem Keeps.mono {labels labels' : List (Nat × Form)} (h : r.Keeps labels' I)
    (hsub : labels ⊆ labels') : r.Keeps labels I :=
  ⟨fun hn => h.leave (hsub hn), h.fork⟩

mutual

/-- What the nodes of a tree keep holds after the tree, and before and after each of its nodes. -/
theorem Keeps.thread : ∀ {input out : σ} {ps : List (Passage σ)} (tree : Rose (Nat × Form)),
    r.Keeps tree.labels I → r.thread input tree = .ok (out, ps) → I input →
    I out ∧ ∀ p ∈ ps, I p.input ∧ I p.output
  | input, out, ps, .node (n, form) parts, hkeeps, h, hi => by
      rw [labels_node] at hkeeps
      have hparts := hkeeps.mono (List.subset_cons_self _ _)
      cases hk : form.kind.isSequential with
      | true =>
        obtain ⟨after, inside, hrow, rfl, rfl⟩ := thread_sequential hk h
        obtain ⟨ha, hinside⟩ := Keeps.threadRow parts hparts hrow hi
        have hout := hkeeps.leave List.mem_cons_self hi ha
        exact ⟨hout, List.forall_mem_append.2
          ⟨hinside, List.forall_mem_singleton.2 ⟨hi, hout⟩⟩⟩
      | false =>
        obtain ⟨-, fork, inside, hfork, hc, rfl⟩ := thread_choice hk h
        obtain ⟨hout, hinside⟩ := Keeps.threadChoice parts hparts (hkeeps.fork hfork) hc hi
        exact ⟨hout, List.forall_mem_append.2
          ⟨hinside, List.forall_mem_singleton.2 ⟨hi, hout⟩⟩⟩

theorem Keeps.threadRow : ∀ {input out : σ} {ps : List (Passage σ)}
    (parts : List (Rose (Nat × Form))), r.Keeps (labelsAll parts) I →
    r.threadRow input parts = .ok (out, ps) → I input →
    I out ∧ ∀ p ∈ ps, I p.input ∧ I p.output
  | _, _, _, [], _, h, hi => by
      cases h
      exact ⟨hi, by simp⟩
  | _, _, _, part :: parts, hkeeps, h, hi => by
      rw [labelsAll] at hkeeps
      obtain ⟨next, first, rest, hp, hr, rfl⟩ := threadRow_cons h
      obtain ⟨hn, hfirst⟩ :=
        Keeps.thread part (hkeeps.mono (List.subset_append_left _ _)) hp hi
      obtain ⟨ho, hrest⟩ :=
        Keeps.threadRow parts (hkeeps.mono (List.subset_append_right _ _)) hr hn
      exact ⟨ho, List.forall_mem_append.2 ⟨hfirst, hrest⟩⟩

theorem Keeps.threadChoice : ∀ {fork : σ → σ} {input out : σ} {ps : List (Passage σ)}
    (parts : List (Rose (Nat × Form))), r.Keeps (labelsAll parts) I →
    (∀ {s : σ}, I s → I (fork s)) → r.threadChoice fork input parts = .ok (out, ps) → I input →
    I out ∧ ∀ p ∈ ps, I p.input ∧ I p.output
  | _, _, _, _, [], _, hfork, h, hi => by
      cases h
      exact ⟨hfork hi, by simp⟩
  | _, _, _, _, test :: arms, hkeeps, hfork, h, hi => by
      rw [labelsAll] at hkeeps
      obtain ⟨tested, first, rest, hp, rfl, hr, rfl⟩ := threadChoice_cons h
      obtain ⟨ht, hfirst⟩ :=
        Keeps.thread test (hkeeps.mono (List.subset_append_left _ _)) hp hi
      exact ⟨hfork ht, List.forall_mem_append.2 ⟨hfirst,
        Keeps.threadArms arms (hkeeps.mono (List.subset_append_right _ _)) hr (hfork ht)⟩⟩

theorem Keeps.threadArms : ∀ {input : σ} {ps : List (Passage σ)}
    (arms : List (Rose (Nat × Form))), r.Keeps (labelsAll arms) I →
    r.threadArms input arms = .ok ps → I input → ∀ p ∈ ps, I p.input ∧ I p.output
  | _, _, [], _, h, _ => by
      cases h
      simp
  | _, _, arm :: arms, hkeeps, h, hi => by
      rw [labelsAll] at hkeeps
      obtain ⟨after, first, rest, hp, hr, rfl⟩ := threadArms_cons h
      exact List.forall_mem_append.2
        ⟨(Keeps.thread arm (hkeeps.mono (List.subset_append_left _ _)) hp hi).2,
          Keeps.threadArms arms (hkeeps.mono (List.subset_append_right _ _)) hr hi⟩

end

end Keeps

/-! ## Failures -/

/-- Whether a rule does not say how nodes of a kind are threaded. -/
def Lacks (r : Rule σ) (kind : Kind) : Prop :=
  kind.isSequential = false ∧ (kind = .branch → r.fork? = none)

/-- Whether a fault is that of a node without a rule. -/
def Refuses (r : Rule σ) (labels : List (Nat × Form)) (fault : Fault) : Prop :=
  ∃ x ∈ labels, r.Lacks x.2.kind ∧ fault = .unsupported x.2.kind.name

instance (r : Rule σ) : DecidablePred r.Lacks := fun kind =>
  inferInstanceAs (Decidable (kind.isSequential = false ∧ (kind = .branch → r.fork? = none)))

/-- Whether there is an answer when a rule knows the kinds of all nodes of some, and otherwise the
fault is that of the first one it does not know. -/
def Answers {α : Type} (r : Rule σ) (labels : List (Nat × Form)) (e : Except Fault α) : Prop :=
  match labels.find? fun x => r.Lacks x.2.kind with
  | none => ∃ a, e = .ok a
  | some x => e = .error (.unsupported x.2.kind.name)

section Answers

variable {α β : Type} {labels labels' : List (Nat × Form)} {e : Except Fault α}

theorem answers_nil (a : α) : r.Answers [] (.ok a) := ⟨a, rfl⟩

theorem Answers.bind {f : α → Except Fault β} (h : r.Answers labels e)
    (hf : ∀ a, r.Answers labels' (f a)) : r.Answers (labels ++ labels') (e >>= f) := by
  unfold Answers at h ⊢
  rw [List.find?_append]
  cases hx : labels.find? fun x => r.Lacks x.2.kind with
  | none =>
    rw [hx] at h
    obtain ⟨a, rfl⟩ := h
    exact hf a
  | some x =>
    rw [hx] at h
    rw [h]
    rfl

theorem Answers.map {f : α → β} (h : r.Answers labels e) :
    r.Answers labels (e >>= fun a => .ok (f a)) := by
  simpa using h.bind fun a => answers_nil (f a)

/-- A node that a rule knows decides nothing. -/
theorem Answers.cons {x : Nat × Form} (hx : ¬r.Lacks x.2.kind) (h : r.Answers labels e) :
    r.Answers (x :: labels) e := by
  unfold Answers
  rwa [List.find?_cons_of_neg (by simpa using hx)]

theorem answers_refused {n : Nat} {form : Form} (h : r.Lacks form.kind) :
    r.Answers ((n, form) :: labels) (.error (.unsupported form.kind.name) : Except Fault α) := by
  unfold Answers
  rw [List.find?_cons_of_pos (by simpa using h)]

end Answers

mutual

/-- Threading a tree stops at the first node without a rule. -/
theorem thread_answers : ∀ (tree : Rose (Nat × Form)) (input : σ),
    r.Answers tree.labels (r.thread input tree)
  | .node (n, form) parts, input => by
      rw [labels_node, thread]
      cases hk : form.kind.isSequential with
      | true =>
        refine .cons (fun ⟨hnot, _⟩ => ?_) (threadRow_answers parts input).map
        exact absurd (hk.symm.trans hnot) (by simp)
      | false =>
        simp only [Bool.false_eq_true, if_false]
        split
        · next fork hbranch hfork =>
          refine .cons (fun ⟨_, hnone⟩ => ?_) (threadChoice_answers parts (fork n) input).map
          exact absurd (hfork.symm.trans (hnone hbranch)) (by simp)
        · next hnot =>
          refine answers_refused ⟨hk, fun hbranch => ?_⟩
          cases hfork : r.fork? with
          | none => rfl
          | some fork => exact absurd hfork (hnot fork hbranch)

theorem threadRow_answers : ∀ (parts : List (Rose (Nat × Form))) (input : σ),
    r.Answers (labelsAll parts) (r.threadRow input parts)
  | [], input => answers_nil _
  | part :: parts, input => by
      rw [labelsAll, threadRow]
      exact (thread_answers part input).bind fun ⟨next, _⟩ => (threadRow_answers parts next).map

theorem threadChoice_answers : ∀ (parts : List (Rose (Nat × Form))) (fork : σ → σ) (input : σ),
    r.Answers (labelsAll parts) (r.threadChoice fork input parts)
  | [], _, _ => answers_nil _
  | test :: arms, fork, input => by
      rw [labelsAll, threadChoice]
      exact (thread_answers test input).bind fun ⟨tested, _⟩ =>
        (threadArms_answers arms (fork tested)).map

theorem threadArms_answers : ∀ (arms : List (Rose (Nat × Form))) (input : σ),
    r.Answers (labelsAll arms) (r.threadArms input arms)
  | [], _ => answers_nil _
  | arm :: arms, input => by
      rw [labelsAll, threadArms]
      exact (thread_answers arm input).bind fun _ => (threadArms_answers arms input).map

end

mutual

/-- The count after a tree is that before it and the nodes of the tree that are counted. -/
theorem thread_counting {counts : Kind → Bool} : ∀ {input out : Nat} {ps : List (Passage Nat)}
    (tree : Rose (Nat × Form)), (counting counts).thread input tree = .ok (out, ps) →
      out = input + tree.labels.countP fun x => counts x.2.kind
  | input, out, ps, .node (n, form) parts, h => by
      cases hk : form.kind.isSequential with
      | true =>
        obtain ⟨after, inside, hrow, rfl, -⟩ := thread_sequential hk h
        have hafter := threadRow_counting parts hrow
        simp only [counting, labels_node, List.countP_cons]
        split <;> omega
      | false =>
        obtain ⟨-, _, _, hfork, -⟩ := thread_choice hk h
        cases hfork

theorem threadRow_counting {counts : Kind → Bool} : ∀ {input out : Nat} {ps : List (Passage Nat)}
    (parts : List (Rose (Nat × Form))), (counting counts).threadRow input parts = .ok (out, ps) →
      out = input + (labelsAll parts).countP fun x => counts x.2.kind
  | _, _, _, [], h => by
      cases h
      rfl
  | _, _, _, part :: parts, h => by
      obtain ⟨next, first, rest, hfirst, hrest, -⟩ := threadRow_cons h
      have hnext := thread_counting part hfirst
      have hout := threadRow_counting parts hrest
      rw [labelsAll, List.countP_append]
      omega

end

/-- Threading fails only at a part without a rule. -/
theorem thread_error {fault : Fault} (tree : Rose (Nat × Form))
    (h : r.thread input tree = .error fault) : r.Refuses tree.labels fault := by
  have hanswers := thread_answers (r := r) tree input
  unfold Answers at hanswers
  rw [h] at hanswers
  split at hanswers
  · obtain ⟨a, ha⟩ := hanswers
    cases ha
  · next x hx =>
    cases hanswers
    exact ⟨x, List.mem_of_find?_eq_some hx, by simpa using List.find?_some hx, rfl⟩

end Rule

/-- Whether a frame is that of a push. -/
def Frame.isPush : Frame → Bool
  | .push _ => true
  | .pop _ | .barrier _ => false

namespace StackState

variable {f : Frame} {S T input out : StackState} {ps : List (Passage StackState)}

/-- What a node does to the stack, by the stack after its children. -/
theorem leave_cases (n : Nat) (kind : Kind) (input after : StackState) :
    kind = .push ∧ rule.leave n kind input after = .push n :: after ∨
    kind = .atom .pop ∧ rule.leave n kind input after = input.afterPop n ∨
    (kind = .stackCall ∨ kind = .initArray ∨ kind = .initObject) ∧
      rule.leave n kind input after = .barrier n :: after ∨
    kind.Quiet ∧ rule.leave n kind input after = after := by
  simp only [rule]
  split
  · simp
  · simp
  · simp
  · simp
  · simp
  · next h₁ h₂ h₃ h₄ h₅ => exact .inr (.inr (.inr ⟨⟨h₁, h₂, h₃, h₄, h₅⟩, rfl⟩))

/-! ## Frames that stay -/

theorem suffix_afterPop {n : Nat} (hf : f.isPush = false) (h : f :: T <:+ S) :
    f :: T <:+ S.afterPop n := by
  unfold afterPop
  split
  · rcases List.suffix_cons_iff.1 h with h | h
    · rw [(List.cons.inj h).1] at hf
      cases hf
    · exact h
  · exact h.trans (List.suffix_cons _ _)

theorem suffix_leave {n : Nat} {kind : Kind} {after : StackState} (hf : f.isPush = false)
    (hi : f :: T <:+ input) (ha : f :: T <:+ after) :
    f :: T <:+ rule.leave n kind input after := by
  rcases leave_cases n kind input after with ⟨-, h⟩ | ⟨-, h⟩ | ⟨-, h⟩ | ⟨-, h⟩ <;> rw [h]
  · exact ha.trans (List.suffix_cons _ _)
  · exact suffix_afterPop hf hi
  · exact ha.trans (List.suffix_cons _ _)
  · exact ha

theorem keeps_suffix (hf : f.isPush = false) (labels : List (Nat × Form)) :
    rule.Keeps labels (f :: T <:+ ·) := by
  refine ⟨fun _ => suffix_leave hf, fun hfork _ _ hs => ?_⟩
  obtain rfl := Option.some.inj hfork
  exact hs.trans (List.suffix_cons _ _)

/-- A frame that is not a push stays, with everything below it. -/
theorem suffix_threadRow (hf : f.isPush = false) (parts : List (Rose (Nat × Form)))
    (h : rule.threadRow input parts = .ok (out, ps)) (hs : f :: T <:+ input) : f :: T <:+ out :=
  (Rule.Keeps.threadRow parts (keeps_suffix hf _) h hs).1

/-- Whether the pushes below a frame that stays satisfy a condition. -/
def Settled (kept : Nat → Prop) (S : StackState) : Prop :=
  ∀ (f : Frame) (T : StackState), f.isPush = false → f :: T <:+ S → ∀ n ∈ T.pushes, kept n

variable {kept : Nat → Prop}

theorem pushes_subset_of_suffix (h : T <:+ S) : T.pushes ⊆ S.pushes := by
  obtain ⟨U, rfl⟩ := h
  intro n hn
  simp only [pushes, List.filterMap_append, List.mem_append] at hn ⊢
  exact .inr hn

theorem settled_of_pushes (h : ∀ n ∈ S.pushes, kept n) : S.Settled kept :=
  fun f T _ hs n hn => h n (pushes_subset_of_suffix ((List.suffix_cons f T).trans hs) hn)

theorem Settled.threadRow (h : out.Settled kept) {parts : List (Rose (Nat × Form))}
    (ht : rule.threadRow input parts = .ok (out, ps)) : input.Settled kept :=
  fun f T hf hs => h f T hf (suffix_threadRow hf parts ht hs)

theorem Settled.of_suffix (h : S.Settled kept) (hs : T <:+ S) : T.Settled kept :=
  fun f U hf hU => h f U hf (hU.trans hs)

theorem Settled.of_barrier {n : Nat} (h : Settled kept (.barrier n :: S)) :
    ∀ n ∈ S.pushes, kept n :=
  h (.barrier n) S rfl (List.suffix_refl _)

/-! ## Where pushes come from -/

theorem pushes_leave {n m : Nat} {kind : Kind} {after : StackState}
    (h : m ∈ (rule.leave n kind input after).pushes) :
    kind = .push ∧ m = n ∨ m ∈ input.pushes ∨ m ∈ after.pushes := by
  rcases leave_cases n kind input after with ⟨hk, heq⟩ | ⟨-, heq⟩ | ⟨-, heq⟩ | ⟨-, heq⟩ <;>
    rw [heq] at h
  · simp only [pushes, List.filterMap_cons, List.mem_cons] at h
    exact h.imp (⟨hk, ·⟩) .inr
  · refine .inr (.inl ?_)
    unfold afterPop at h
    split at h
    · simp only [pushes, List.filterMap_cons, List.mem_cons]
      exact .inr h
    · simpa [pushes] using h
  · exact .inr (.inr (by simpa [pushes] using h))
  · exact .inr (.inr h)

/-- Pushes that were there before or are nodes of a tree are all that the tree has to do with. -/
theorem keeps_pushes {origin : Nat → Prop} {labels : List (Nat × Form)}
    (ht : ∀ x ∈ labels, x.2.kind = .push → origin x.1) :
    rule.Keeps labels fun S => ∀ k ∈ S.pushes, origin k := by
  refine ⟨fun hn _ _ hi ha k hk => ?_, fun hfork _ _ hs => ?_⟩
  · rcases pushes_leave hk with ⟨hpush, rfl⟩ | hk | hk
    · exact ht _ hn hpush
    · exact hi k hk
    · exact ha k hk
  · obtain rfl := Option.some.inj hfork
    exact fun k hk => hs k (by simpa [pushes] using hk)

theorem pushes_thread {m : Nat} {tree : Rose (Nat × Form)}
    (h : rule.thread input tree = .ok (out, ps)) (hm : m ∈ out.pushes) :
    m ∈ input.pushes ∨ m ∈ tree.numbers := by
  have hkeeps : rule.Keeps tree.labels fun S =>
      ∀ k ∈ S.pushes, k ∈ input.pushes ∨ k ∈ tree.numbers :=
    keeps_pushes fun _ hx _ => .inr (List.mem_map_of_mem hx)
  exact (hkeeps.thread tree h fun _ hk => .inl hk).1 m hm

theorem pushes_threadRow {m : Nat} {parts : List (Rose (Nat × Form))}
    (h : rule.threadRow input parts = .ok (out, ps)) (hm : m ∈ out.pushes) :
    m ∈ input.pushes ∨ m ∈ parts.flatMap numbers := by
  have hkeeps : rule.Keeps (labelsAll parts) fun S =>
      ∀ k ∈ S.pushes, k ∈ input.pushes ∨ k ∈ parts.flatMap numbers :=
    keeps_pushes fun _ hx _ => .inr (numbers_labelsAll parts ▸ List.mem_map_of_mem hx)
  exact (hkeeps.threadRow parts h fun _ hk => .inl hk).1 m hm

/-! ## How often a push is on the stack -/

variable {k n : Nat}

@[simp] theorem pushes_push : pushes (.push n :: S) = n :: S.pushes := rfl

@[simp] theorem pushes_barrier : pushes (.barrier n :: S) = S.pushes := rfl

theorem count_afterPop_le : (S.afterPop n).pushes.count k ≤ S.pushes.count k := by
  unfold afterPop
  split
  · rw [pushes_push]
    exact List.count_le_count_cons
  · exact Nat.le_refl _

mutual

/-- After a tree no push is on the stack more often than before it, other than as a node of it. -/
theorem count_thread : ∀ {input out : StackState} {ps : List (Passage StackState)}
    (tree : Rose (Nat × Form)), rule.thread input tree = .ok (out, ps) →
    out.pushes.count k ≤ input.pushes.count k + tree.numbers.count k
  | input, out, ps, .node (n, form) parts, h => by
      rw [numbers_node, List.count_cons]
      cases hk : form.kind.isSequential with
      | true =>
        obtain ⟨after, inside, hrow, rfl, -⟩ := Rule.thread_sequential hk h
        have hafter := count_threadRow parts hrow
        rcases leave_cases n form.kind input after with ⟨-, h⟩ | ⟨-, h⟩ | ⟨-, h⟩ | ⟨-, h⟩ <;> rw [h]
        · rw [pushes_push, List.count_cons]
          omega
        · have := count_afterPop_le (S := input) (n := n) (k := k)
          omega
        · rw [pushes_barrier]
          omega
        · omega
      | false =>
        obtain ⟨-, fork, inside, hfork, hc, -⟩ := Rule.thread_choice hk h
        obtain rfl := Option.some.inj hfork
        cases parts with
        | nil =>
          cases hc
          rw [pushes_barrier]
          omega
        | cons test arms =>
          obtain ⟨tested, first, rest, htest, rfl, -, -⟩ := Rule.threadChoice_cons hc
          have := count_thread test htest
          rw [pushes_barrier, List.flatMap_cons, List.count_append]
          omega

theorem count_threadRow : ∀ {input out : StackState} {ps : List (Passage StackState)}
    (parts : List (Rose (Nat × Form))), rule.threadRow input parts = .ok (out, ps) →
    out.pushes.count k ≤ input.pushes.count k + (parts.flatMap numbers).count k
  | _, _, _, [], h => by
      cases h
      exact Nat.le_add_right _ _
  | _, _, _, part :: parts, h => by
      obtain ⟨next, first, rest, hp, hr, -⟩ := Rule.threadRow_cons h
      have hpart := count_thread part hp
      have hparts := count_threadRow parts hr
      rw [List.flatMap_cons, List.count_append]
      omega

end

/-! ## Pushes on top -/

section Covered

variable {g : Nat → Option Nat} {known known' : Nat → Prop}

/-- Whether the temporaries of the pushes above every other sort of frame are known. -/
def Covered (g : Nat → Option Nat) (known : Nat → Prop) : StackState → Prop
  | .push n :: S => (∀ id, g n = some id → known id) ∧ Covered g known S
  | _ => True

theorem Covered.mono (h : S.Covered g known) (hk : ∀ id, known id → known' id) :
    S.Covered g known' := by
  induction S with
  | nil => trivial
  | cons frame S ih =>
    cases frame with
    | push n => exact ⟨fun id hid => hk id (h.1 id hid), ih h.2⟩
    | pop n => trivial
    | barrier n => trivial

theorem Covered.afterPop (h : S.Covered g known) : (S.afterPop n).Covered g known := by
  cases S with
  | nil => trivial
  | cons frame S =>
    cases frame with
    | push n => exact h.2
    | pop n => trivial
    | barrier n => trivial

theorem Covered.topPush (h : S.Covered g known) {id : Nat} (ht : S.topPush?.bind g = some id) :
    known id := by
  cases S with
  | nil => cases ht
  | cons frame S =>
    cases frame with
    | push n => exact h.1 id ht
    | pop n => cases ht
    | barrier n => cases ht

/-- A node that is no push keeps the pushes covered. -/
theorem Covered.leave {kind : Kind} {after : StackState} (hi : S.Covered g known)
    (ha : after.Covered g known) (hk : kind ≠ .push) :
    (rule.leave n kind S after).Covered g known := by
  rcases leave_cases n kind S after with ⟨hpush, -⟩ | ⟨-, h⟩ | ⟨-, h⟩ | ⟨-, h⟩
  · exact absurd hpush hk
  · rw [h]
    exact hi.afterPop
  · rw [h]
    trivial
  · rw [h]
    exact ha

end Covered

end StackState

end ScriptRecovery
