import ScriptRecovery.Proofs.Arena.Histories
import ScriptRecovery.Proofs.Semantics.Traffic
import ScriptRecovery.Proofs.Stack.Elimination

/-!
# Where the value of a pop comes from

The analysis of the stack knows nothing of values.  What it says of them is this: where it has the
frame of a push on top, the top of the stack is the value that this push has put there, and since
then everything below has been left alone (`PushedAt`).

The analysis takes the frame of a push off and then says the same of the frame below, so the
invariant (`Backed`) goes back in time: below the frame of a push, it is about the stack before that
push.  A frame that is not a push ends it, as nothing is known below.  One node keeps it
(`Backed.leave`), since from a push to its pop the stack comes back to what it was.  A run of a tree
keeps it (`follows_thread`), and all pops of the run start from stacks that their passages describe
(`Traced`).
-/

namespace ScriptRecovery

open Rose StackEvent StackState

variable {V : Type} {stack stack' below below' : List V} {n : Nat}
  {earlier log es es' own : List (StackEvent V)}

/-! ## Stacks that are left alone -/

/-- Whether events on a stack leave its lower part alone. -/
def Spared (below stack : List V) (es : List (StackEvent V)) : Prop :=
  ∀ es', es' <+: es → below <:+ stackAfter stack es'

theorem Spared.append (h : Spared below stack es) (h' : Spared below (stackAfter stack es) es') :
    Spared below stack (es ++ es') := by
  intro es'' hes''
  rcases List.prefix_or_prefix_of_prefix hes'' (List.prefix_append es es') with hes | ⟨rest, rfl⟩
  · exact h es'' hes
  · rw [stackAfter_append]
    exact h' rest ((List.prefix_append_right_inj es).1 hes'')

theorem Spared.mono (h : Spared below stack es) (hbelow : below' <:+ below) :
    Spared below' stack es :=
  fun es' hes' => hbelow.trans (h es' hes')

theorem Spared.cons {e : StackEvent V} (hbelow : below <:+ stack)
    (h : Spared below (e.apply stack) es) : Spared below stack (e :: es) := by
  intro es' hes'
  cases es' with
  | nil => exact hbelow
  | cons e' es' =>
    obtain ⟨rfl, htail⟩ := List.cons_prefix_cons.1 hes'
    exact h es' htail

theorem spared_nil (hbelow : below <:+ stack) : Spared below stack [] := by
  intro es' hes'
  rw [List.prefix_nil.1 hes']
  exact hbelow

/-- Whether the top of the stack after some events is the value that a push has put on the stack
after earlier ones, with nothing below touched since then. -/
def PushedAt (stack : List V) (n : Nat) (earlier log : List (StackEvent V)) : Prop :=
  ∃ v between, log = earlier ++ .push n v :: between ∧
    stackAfter stack log = v :: stackAfter stack earlier ∧
    Spared (v :: stackAfter stack earlier) (v :: stackAfter stack earlier) between

theorem stackAfter_push (v : V) :
    stackAfter stack (earlier ++ .push n v :: es) = stackAfter (v :: stackAfter stack earlier) es :=
  by simp [apply]

/-- A push is the last one to touch the stack when it is done. -/
theorem pushedAt_push (v : V) : PushedAt stack n log (log ++ [.push n v]) :=
  ⟨v, [], rfl, by simp [apply], spared_nil (List.suffix_refl _)⟩

/-- What leaves the stack alone and brings it back leaves its top to the push. -/
theorem PushedAt.append (h : PushedAt stack n earlier log)
    (hspared : Spared (stackAfter stack log) (stackAfter stack log) es)
    (hback : stackAfter stack (log ++ es) = stackAfter stack log) :
    PushedAt stack n earlier (log ++ es) := by
  obtain ⟨v, between, rfl, htop, hbetween⟩ := h
  refine ⟨v, between ++ es, by simp, hback.trans htop, hbetween.append ?_⟩
  rwa [← stackAfter_push, htop, ← htop]

/-- A pop of the value brings the stack back to what it was before the push. -/
theorem PushedAt.pop {p : Nat} (h : PushedAt stack n earlier log) :
    ∃ es, log ++ [.pop p] = earlier ++ es ∧
      stackAfter stack (earlier ++ es) = stackAfter stack earlier ∧
      Spared (stackAfter stack earlier) (stackAfter stack earlier) es := by
  obtain ⟨v, between, rfl, htop, hbetween⟩ := h
  have hsuffix : stackAfter stack earlier <:+ v :: stackAfter stack earlier := List.suffix_cons _ _
  rw [stackAfter_push] at htop
  refine ⟨.push n v :: (between ++ [.pop p]), by simp, by simp [apply, htop], ?_⟩
  refine .cons (List.suffix_refl _) ((hbetween.mono hsuffix).append (.cons ?_ (spared_nil ?_)))
  · rw [htop]
    exact hsuffix
  · rw [htop]
    exact List.suffix_refl _

/-! ## The invariant -/

/-- Whether the stack after some events is as the frames say. -/
def Backed (stack : List V) : StackState → List (StackEvent V) → Prop
  | .push n :: S, log => ∃ earlier, PushedAt stack n earlier log ∧ Backed stack S earlier
  | _, _ => True

theorem Backed.topPush {S : StackState} (h : Backed stack S log) (hn : S.topPush? = some n) :
    ∃ earlier, PushedAt stack n earlier log := by
  unfold topPush? at hn
  split at hn
  · cases hn
    obtain ⟨earlier, hpushed, -⟩ := h
    exact ⟨earlier, hpushed⟩
  · cases hn

theorem Backed.append {S : StackState} (h : Backed stack S log)
    (hback : stackAfter stack (log ++ es) = stackAfter stack log)
    (hspared : Spared (stackAfter stack log) (stackAfter stack log) es) :
    Backed stack S (log ++ es) := by
  cases S with
  | nil => trivial
  | cons frame S =>
    cases frame with
    | push n =>
      obtain ⟨earlier, hpushed, hbelow⟩ := h
      exact ⟨earlier, hpushed.append hspared hback, hbelow⟩
    | pop n => trivial
    | barrier n => trivial

theorem Backed.afterPop {S : StackState} (h : Backed stack S log) (p : Nat) :
    Backed stack (S.afterPop p) (log ++ [.pop p]) := by
  unfold StackState.afterPop
  split
  · obtain ⟨earlier, hpushed, hbelow⟩ := h
    obtain ⟨es, heq, hback, hspared⟩ := hpushed.pop (p := p)
    rw [heq]
    exact hbelow.append hback hspared
  · trivial

/-- A node keeps the invariant.  Only a pop looks at the frames before its parts, and it has
none. -/
theorem Backed.leave {kind : Kind} {input after : StackState} (hown : kind.Does n own)
    (hinput : Backed stack input log) (hafter : Backed stack after (log ++ es))
    (hpop : kind = .atom .pop → es = []) :
    Backed stack (rule.leave n kind input after) (log ++ (es ++ own)) := by
  cases hown with
  | push v =>
    rw [← List.append_assoc]
    exact ⟨log ++ es, pushedAt_push v, hafter⟩
  | pop =>
    obtain rfl := hpop rfl
    exact hinput.afterPop n
  | take hk count => rcases hk with rfl | rfl | rfl <;> trivial
  | quiet hk =>
    rw [List.append_nil]
    rcases leave_cases n kind input after with ⟨h, -⟩ | ⟨h, -⟩ | ⟨h, -⟩ | ⟨-, h⟩
    · exact absurd h hk.1
    · exact absurd h hk.2.1
    · exact absurd h (by simpa [not_or] using hk.2.2)
    · rwa [h]

/-! ## Runs -/

variable {ps ps' : List (Passage StackState)} {input out : StackState} {done : Bool}
  {form : Form} {parts : List (Rose (Nat × Form))}

/-- Whether the pops among some events start from stacks that passages of theirs describe. -/
def Traced (stack : List V) (log : List (StackEvent V)) (ps : List (Passage StackState))
    (es : List (StackEvent V)) : Prop :=
  ∀ before p after, es = before ++ .pop p :: after →
    ∃ x ∈ ps, x.node = p ∧ Backed stack x.input (log ++ before)

theorem traced_nil : Traced stack log ps [] := by
  intro before p after h
  simp at h

theorem Traced.mono (h : Traced stack log ps es) (hps : ps ⊆ ps') : Traced stack log ps' es := by
  intro before p after heq
  obtain ⟨x, hx, hbacked⟩ := h before p after heq
  exact ⟨x, hps hx, hbacked⟩

theorem Traced.append (h : Traced stack log ps es) (h' : Traced stack (log ++ es) ps es') :
    Traced stack log ps (es ++ es') := by
  intro before p after heq
  rcases List.append_eq_append_iff.1 heq with ⟨mid, rfl, hmid⟩ | ⟨mid, rfl, hmid⟩
  · obtain ⟨x, hx, hxp, hbacked⟩ := h' mid p after hmid
    exact ⟨x, hx, hxp, by rwa [← List.append_assoc]⟩
  · cases mid with
    | nil =>
      obtain ⟨x, hx, hxp, hbacked⟩ := h' [] p after (by simpa using hmid.symm)
      exact ⟨x, hx, hxp, by simpa using hbacked⟩
    | cons e mid =>
      obtain ⟨rfl, rfl⟩ := List.cons.inj hmid
      exact h before p mid rfl

/-- Whether the passages of a run describe it, and what it leaves. -/
structure Follows (stack : List V) (log : List (StackEvent V)) (out : StackState)
    (ps : List (Passage StackState)) (es : List (StackEvent V)) (done : Bool) : Prop where
  traced : Traced stack log ps es
  backed : done = true → Backed stack out (log ++ es)

/-- Whether every run of a tree follows the passages through it. -/
def Followed (stack : List V) (r : Rose (Nat × Form)) : Prop :=
  ∀ {input out : StackState} {ps : List (Passage StackState)} {log es : List (StackEvent V)}
    {done : Bool}, rule.thread input r = .ok (out, ps) → r.Runs es done → Backed stack input log →
    Follows stack log out ps es done

theorem follows_row
    (ih : ∀ part ∈ parts, Followed stack part)
    (ht : rule.threadRow input parts = .ok (out, ps)) (hruns : RunsRow parts es done)
    (hinput : Backed stack input log) : Follows stack log out ps es done := by
  induction parts generalizing input ps log es with
  | nil =>
    cases hruns
    cases ht
    exact ⟨traced_nil, fun _ => by rwa [List.append_nil]⟩
  | cons part parts ihparts =>
    obtain ⟨next, first, rest, hpart, hrest, rfl⟩ := Rule.threadRow_cons ht
    cases hruns with
    | cons hfirst hruns =>
      have h := ih part (by simp) hpart hfirst hinput
      have h' := ihparts (fun x hx => ih x (by simp [hx])) hrest hruns (h.backed rfl)
      exact ⟨(h.traced.mono (List.subset_append_left _ _)).append
        (h'.traced.mono (List.subset_append_right _ _)),
        fun hdone => by simpa [List.append_assoc] using h'.backed hdone⟩
    | cut hfirst =>
      have h := ih part (by simp) hpart hfirst hinput
      exact ⟨h.traced.mono (List.subset_append_left _ _), nofun⟩

/-- Nothing is said of the stack in which the arms start, nor of the one that they leave. -/
theorem follows_choice
    (ih : ∀ part ∈ parts, Followed stack part)
    (ht : rule.threadChoice (.barrier n :: ·) input parts = .ok (out, ps))
    (hruns : RunsChoice parts es done) (hinput : Backed stack input log) :
    Follows stack log out ps es done := by
  cases parts with
  | nil =>
    cases hruns
    cases ht
    exact ⟨traced_nil, fun _ => trivial⟩
  | cons test arms =>
    obtain ⟨tested, first, rest, htest, rfl, harms, rfl⟩ := Rule.threadChoice_cons ht
    have hleft : first ⊆ first ++ rest := List.subset_append_left _ _
    cases hruns with
    | @arm _ arm _ es₁ _ _ hruns harm hruns' =>
      have h := ih test (by simp) htest hruns hinput
      obtain ⟨out, ps', harm', hsub⟩ := Rule.threadArms_mem harms harm
      have h' : Follows stack (log ++ es₁) out ps' _ done :=
        ih arm (by simp [harm]) harm' hruns' trivial
      exact ⟨(h.traced.mono hleft).append
        (h'.traced.mono fun p hp => List.mem_append_right _ (hsub p hp)), fun _ => trivial⟩
    | skip hruns =>
      exact ⟨(ih test (by simp) htest hruns hinput).traced.mono hleft, fun _ => trivial⟩
    | cut hruns =>
      exact ⟨(ih test (by simp) htest hruns hinput).traced.mono hleft, nofun⟩

/-- Only a pop pops, and it does nothing else. -/
theorem pop_of_does {kind : Kind} {before after : List (StackEvent V)} {p : Nat}
    (hown : kind.Does n own) (heq : own = before ++ .pop p :: after) :
    kind = .atom .pop ∧ p = n ∧ before = [] := by
  have hmem : .pop p ∈ own := by simp [heq]
  cases hown with
  | pop =>
    obtain ⟨rfl, h⟩ | ⟨_, -, h⟩ := List.cons_eq_append_iff.1 heq
    · cases h
      exact ⟨rfl, rfl, rfl⟩
    · simp at h
  | push v => simp at hmem
  | take hk count => simp at hmem
  | quiet hk => cases hmem

/-- A run follows the passages through its tree. -/
theorem follows_thread (tree : Rose (Nat × Form)) (hw : tree.forms.WellFormed) :
    Followed stack tree := by
  induction tree using Rose.induct with
  | h label parts ih =>
    intro input out ps log es done ht hruns hinput
    obtain ⟨n, form⟩ := label
    rw [forms_node] at hw
    have hparts : ∀ part ∈ parts, Followed stack part := fun part hpart =>
      ih part hpart (hw.parts _ (List.mem_map_of_mem hpart))
    cases hruns with
    | @node _ _ _ es own hk hrow hown =>
      have hseq : form.kind.isSequential = true := by rw [Kind.isSequential_eq, hk]; rfl
      obtain ⟨after, inside, hafter, rfl, rfl⟩ := Rule.thread_sequential hseq ht
      have h := follows_row hparts hafter hrow hinput
      have hnil : form.kind = .atom .pop → es = [] := by
        intro hpop
        obtain rfl : parts = [] := by simpa [hpop, Kind.admits] using hw.admits
        cases hrow
        rfl
      refine ⟨(h.traced.mono (List.subset_append_left _ _)).append ?_,
        fun _ => .leave hown hinput (h.backed rfl) hnil⟩
      intro before p rest heq
      obtain ⟨hpop, rfl, rfl⟩ := pop_of_does hown heq
      exact ⟨_, List.mem_append_right _ List.mem_cons_self, rfl, by simpa [hnil hpop] using hinput⟩
    | cut hk hrow =>
      have hseq : form.kind.isSequential = true := by rw [Kind.isSequential_eq, hk]; rfl
      obtain ⟨after, inside, hafter, rfl, rfl⟩ := Rule.thread_sequential hseq ht
      exact ⟨(follows_row hparts hafter hrow hinput).traced.mono (List.subset_append_left _ _),
        nofun⟩
    | choice hk hchoice =>
      have hseq : form.kind.isSequential = false := by rw [Kind.isSequential_eq, hk]; rfl
      obtain ⟨-, fork, inside, hfork, harms, rfl⟩ := Rule.thread_choice hseq ht
      obtain rfl := Option.some.inj hfork
      have h := follows_choice hparts harms hchoice hinput
      exact ⟨h.traced.mono (List.subset_append_left _ _), h.backed⟩

namespace SyntaxTree

/-- Where the analysis has a push on top before a pop, every run that comes to the pop takes the
value there that this push has put on the stack, and nothing has touched the stack below it since
then.  The runs of the tree are those of the script it holds, under any interpretation that only
takes values off the stack as a whole. -/
theorem pushedAt_of_topPush (s : Script) (calls : List Call) {usage : List (Passage StackState)}
    (h : (calls.foldl perform (ofScript s)).stackUsage = .ok usage) :
    ∃ r s', (calls.foldl perform (ofScript s)).branch? root = some r ∧
      (calls.foldl perform (ofScript s)).toScript = .ok s' ∧ s'.rose = r.forms ∧
      (∀ {V : Type} (stack : List V) {es before after : List (StackEvent V)} {done : Bool}
        {p q : Nat} {x : Passage StackState}, r.Runs es done → es = before ++ .pop p :: after →
        x ∈ usage → x.node = p → x.input.topPush? = some q →
        ∃ earlier, PushedAt stack q earlier before) ∧
      ∀ {V σ : Type} (I : Interpretation V σ), I.TakesOnly → ∀ m : Memory V σ,
        ∃ es, r.Runs es (I.run s' m).1.isDone ∧ (I.run s' m).2.stack = stackAfter m.stack es := by
  obtain ⟨r, htidy⟩ := (tidy_ofScript s).history calls
  have hr := htidy.represents
  have hbranch := hr.holds.branch? hr.nodup
  rw [hr.root] at hbranch
  obtain ⟨s', hs', hrose⟩ := hr.toScript_eq_ok htidy.wellFormed htidy.category
  obtain ⟨out, ht⟩ := hr.stackUsage_eq_ok.1 h
  refine ⟨r, s', hbranch, hs', hrose, ?_, fun I hI m => ?_⟩
  · intro V stack es before after done p q x hruns heq hx hxp htop
    have hfollows : Follows stack [] out usage es done :=
      follows_thread r htidy.wellFormed ht hruns trivial
    obtain ⟨y, hy, hyp, hbacked⟩ := hfollows.traced before p after heq
    obtain rfl : y = x := List.inj_on_of_nodup_map (hr.nodup_usage ht) hy hx (hyp.trans hxp.symm)
    exact hbacked.topPush htop
  · rw [Interpretation.run, hrose]
    exact hI.accounts r htidy.wellFormed m

/-- The pop of a return takes what the push before it has put on the stack. -/
theorem pushedAt_of_topPush_handover :
    ∃ usage x, (ofScript .handover).stackUsage = .ok usage ∧ x ∈ usage ∧ x.node = 4 ∧
      x.input.topPush? = some 1 ∧ ∃ r, (ofScript .handover).branch? root = some r ∧
        r.Runs [.push 1 5, .pop 4] false ∧ ∃ earlier, PushedAt [7] 1 earlier [.push 1 5] := by
  have husage : (ofScript .handover).stackUsage = .ok [⟨2, [], []⟩, ⟨1, [], [.push 1]⟩,
      ⟨4, [.push 1], []⟩, ⟨3, [.push 1], []⟩, ⟨0, [], []⟩] := by rfl
  obtain ⟨r, s', hr, -, -, h, -⟩ := pushedAt_of_topPush .handover [] husage
  have hbranch : (ofScript .handover).branch? root =
      some (Script.handover.rose.tagged 0 1) := by rfl
  obtain rfl := Option.some.inj (hr.symm.trans hbranch)
  have hruns : (Script.handover.rose.tagged 0 1).Runs [.push 1 5, .pop 4] false := by
    have htext : (Rose.node (2, (⟨.atom (.string "a"), none⟩ : Form)) []).Runs (V := Nat)
        ([] ++ []) true := .node rfl .nil (.quiet (by simp [Kind.Quiet]))
    have hpush : (Rose.node (1, (⟨.push, none⟩ : Form))
        [.node (2, ⟨.atom (.string "a"), none⟩) []]).Runs ([] ++ [.push 1 5]) true :=
      .node rfl (.cons htext .nil) (.push 5)
    have hpop : (Rose.node (4, (⟨.atom .pop, none⟩ : Form)) []).Runs (V := Nat)
        ([] ++ [.pop 4]) true := .node rfl .nil .pop
    have hret : (Rose.node (3, (⟨.ret, none⟩ : Form)) [.node (4, ⟨.atom .pop, none⟩) []]).Runs
        ([.pop (V := Nat) 4] ++ []) false :=
      .node rfl (.cons hpop .nil) (.quiet (by simp [Kind.Quiet]))
    exact .cut rfl (.cons hpush (.cut hret))
  have hpop : (⟨4, [.push 1], []⟩ : Passage StackState) ∈ ([⟨2, [], []⟩, ⟨1, [], [.push 1]⟩,
      ⟨4, [.push 1], []⟩, ⟨3, [.push 1], []⟩, ⟨0, [], []⟩] : List (Passage StackState)) := by simp
  have heq : [.push 1 5, .pop 4] =
      [.push 1 5] ++ StackEvent.pop 4 :: ([] : List (StackEvent Nat)) := rfl
  exact ⟨_, _, husage, hpop, rfl, rfl, _, hbranch, hruns, h [7] hruns heq hpop rfl rfl⟩

end SyntaxTree

end ScriptRecovery
