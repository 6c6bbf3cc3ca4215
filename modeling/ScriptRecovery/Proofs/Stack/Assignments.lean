import ScriptRecovery.Proofs.Script.Temporaries
import ScriptRecovery.Proofs.Stack.Elimination

/-!
# Temporaries in place of pushes are assigned before they are read

Where the stack state shows the frame of a push above every other sort of frame, the push comes
before in the same list of statements or in one around it, and so does the assignment that takes its
place (`StackState.Covered`).  The arms of a choice start behind a barrier, and so does what follows
the choice.  A pop gets the temporary of such a push only, so it reads it behind the assignment
(`Plan.dominated_bound`).

Pushes get temporaries that are new and different, so none is assigned twice
(`Plan.nodup_storedIn_bound`).
-/

namespace ScriptRecovery

open Rose StackState

/-- Only choices and lists have statements among their children. -/
theorem Kind.no_statement_of_admits {kind : Kind} {cs : List Category} (h : kind.admits cs)
    (hb : kind ≠ .branch) (hl : kind.isList = false) : ∀ c ∈ cs, c ≠ .statement ∧ c ≠ .script := by
  refine fun c hc => ⟨?_, not_script_of_admits h c hc⟩
  revert c
  cases kind <;> simp only [Kind.admits] at h <;> first | (exact absurd rfl hb) | skip
  all_goals first | (cases hl; done) | grind

namespace Rose

variable {f : Nat → Option Nat} {id : Nat}

/-! ## The new tree -/

/-- A tree with temporaries is the target of stores to the same. -/
theorem stored?_bound (r : Rose (Nat × Form)) :
    (r.bound f).label.kind.stored? = r.forms.label.kind.stored? := by
  obtain ⟨⟨n, form⟩, parts⟩ := r
  rw [forms_node, bound]
  split
  · next hk => simp [label, hk, Kind.stored?]
  · next hk => simp [label, hk, Kind.stored?]
  · rfl

theorem stores_bound {form : Form} (parts : List (Rose (Nat × Form))) :
    stores (.node form (boundAll f parts)) = stores (.node form (parts.map forms)) := by
  simp only [stores, Rose.parts, boundAll_eq_map, List.filterMap_map]
  exact List.filterMap_congr fun p _ => stored?_bound p

/-- What a tree assigns it still assigns. -/
theorem Assigns.bound {r : Rose (Nat × Form)} (hw : r.forms.WellFormed)
    (h : Assigns id r.forms) : Assigns id (r.bound f) := by
  induction r using Rose.induct with
  | h label parts ih =>
    obtain ⟨n, form⟩ := label
    rw [forms_node] at h hw
    obtain ⟨hk, h⟩ := assigns_node.1 h
    have hparts : id ∈ stores (.node form (boundAll f parts)) ∨
        ∃ p ∈ boundAll f parts, Assigns id p := by
      rw [stores_bound]
      refine h.imp_right ?_
      rintro ⟨_, hmem, ha⟩
      obtain ⟨p, hp, rfl⟩ := List.mem_map.1 hmem
      rw [boundAll_eq_map]
      exact ⟨_, List.mem_map_of_mem hp, ih p hp (hw.parts _ hmem) ha⟩
    rw [Rose.bound]
    split
    · next hpop =>
      obtain rfl : parts = [] := by simpa [hpop, Kind.admits] using hw.admits
      simp [mem_stores] at h
    · refine .part rfl (List.mem_singleton.2 rfl) (assigns_node.2 ⟨rfl, hparts.imp ?_ ?_⟩)
      · rw [mem_stores, mem_stores]
        rintro ⟨p, hp, hk⟩
        exact ⟨p, List.mem_cons_of_mem _ hp, hk⟩
      · rintro ⟨p, hp, ha⟩
        exact ⟨p, List.mem_cons_of_mem _ hp, ha⟩
    · exact assigns_node.2 ⟨hk, hparts⟩

/-- The temporary that is assigned at a node of the new tree. -/
def storedAt (f : Nat → Option Nat) (x : Nat × Form) : Option Nat :=
  if x.2.kind = .push then f x.1 else x.2.kind.stored?

theorem storedIn_bound {r : Rose (Nat × Form)} (hw : r.forms.WellFormed) :
    storedIn (r.bound f).labels = r.labels.filterMap (storedAt f) := by
  induction r using Rose.induct with
  | h label parts ih =>
    obtain ⟨n, form⟩ := label
    rw [forms_node] at hw
    have hparts : storedIn (labelsAll (boundAll f parts)) =
        (labelsAll parts).filterMap (storedAt f) := by
      have hw' := hw.parts
      clear hw
      induction parts with
      | nil => rfl
      | cons p parts ih' =>
        rw [boundAll, labelsAll, labelsAll, storedIn_append, List.filterMap_append,
          ih p (by simp) (hw' _ (by simp)),
          ih' (fun x hx => ih x (by simp [hx])) fun x hx => hw' x (by simp [hx])]
    rw [labels_node, List.filterMap_cons, bound]
    split
    · next hpop =>
      obtain rfl : parts = [] := by simpa [hpop, Kind.admits] using hw.admits
      simp [storedIn, storedAt, labelsAll, hpop, Kind.stored?]
    · next id hid hpush =>
      simp only [storedAt, hpush, if_true, hid, ← hparts]
      simp [storedIn, labelsAll, Kind.stored?]
    · next hother =>
      rw [labels_node, ← hparts, storedIn, List.filterMap_cons]
      have hself : storedAt f (n, form) = form.kind.stored? := by
        unfold storedAt
        split
        · next hpush =>
          have hpush : form.kind = .push := hpush
          cases hf : f n with
          | none => simp [hpush, Kind.stored?]
          | some id => exact absurd hpush (hother id hf)
        · rfl
      rw [hself]
      rfl

end Rose

/-! ## Reads in the new tree -/

namespace Plan

variable {whole : Rose (Nat × Form)} {usage : List (Passage StackState)} {f g : Nat → Option Nat}
  {kept known : Nat → Prop}

/-- The reads of a node whose parts read what is known. -/
theorem dominated_node_bound {n : Nat} {form : Form} {parts : List (Rose (Nat × Form))}
    (hl : form.kind.isList = false)
    (hself : ∀ id ∈ reads (.node form (parts.map forms)), known id)
    (hparts : ∀ r ∈ parts, Dominated known (r.bound f))
    (hpop : form.kind = .atom .pop → ∀ id, f n = some id → known id) :
    Dominated known ((Rose.node (n, form) parts).bound f) := by
  have hall : ∀ r ∈ boundAll f parts, Dominated known r := by
    rw [boundAll_eq_map]
    simpa using hparts
  rw [bound]
  split
  · next id hid hk =>
    refine dominated_of_labels fun form' hform => ?_
    obtain rfl : form' = ⟨.atom (.temporary id), none⟩ := by simpa [labelsAll] using hform
    refine ⟨by simp, fun id' hid' => ?_⟩
    cases hid'
    exact hpop hk id hid
  · next id hid hk =>
    refine (dominated_plain rfl).2 ⟨by simp [reads], fun r hr => ?_⟩
    obtain rfl := List.mem_singleton.1 hr
    refine (dominated_plain rfl).2 ⟨by simp [reads], fun r hr => ?_⟩
    rcases List.mem_cons.1 hr with rfl | hr
    · refine dominated_of_labels fun form' hform => ?_
      obtain rfl : form' = ⟨.temporaryTarget id, none⟩ := by simpa [labelsAll] using hform
      simp
    · exact hall r hr
  · refine (dominated_plain hl).2 ⟨?_, hall⟩
    rw [reads_congr (stores_bound parts)]
    exact hself

/-- Parts in a row read what is known before them, if each of them does. -/
theorem dominated_innerRow {rs : List (Rose (Nat × Form))} {input out : StackState}
    {ps : List (Passage StackState)}
    (ih : ∀ r ∈ rs, ∀ {input out : StackState} {ps : List (Passage StackState)},
      rule.thread input r = .ok (out, ps) → (∀ p ∈ ps, p ∈ usage) → input.Covered g known →
      Dominated known (r.bound f) ∧ out.Covered g known)
    (ht : rule.threadRow input rs = .ok (out, ps)) (hps : ∀ p ∈ ps, p ∈ usage)
    (hi : input.Covered g known) :
    (∀ r ∈ rs, Dominated known (r.bound f)) ∧ out.Covered g known := by
  induction rs generalizing input ps with
  | nil =>
    cases ht
    exact ⟨by simp, hi⟩
  | cons r rs ihrs =>
    obtain ⟨next, first, rest, hr, hrs, rfl⟩ := Rule.threadRow_cons ht
    obtain ⟨hdr, hnext⟩ := ih r (by simp) hr (fun p hp => hps p (by simp [hp])) hi
    obtain ⟨hdrs, hout⟩ := ihrs (fun x hx => ih x (by simp [hx])) hrs
      (fun p hp => hps p (by simp [hp])) hnext
    exact ⟨List.forall_mem_cons.2 ⟨hdr, hdrs⟩, hout⟩

/-- A node that has no statements below it, when the parts of it read what is known before it. -/
theorem dominated_sequential (h : Plan whole usage f g kept) {n : Nat} {form : Form}
    {parts : List (Rose (Nat × Form))} {input out : StackState} {ps : List (Passage StackState)}
    (hin : Within whole (.node (n, form) parts)) (hbranch : form.kind ≠ .branch)
    (hl : form.kind.isList = false)
    (ih : ∀ r ∈ parts, r.forms.category ≠ .statement ∧ r.forms.category ≠ .script →
      ∀ {input out : StackState} {ps : List (Passage StackState)},
      rule.thread input r = .ok (out, ps) → (∀ p ∈ ps, p ∈ usage) → input.Covered g known →
      Dominated known r.forms → Dominated known (r.bound f) ∧ out.Covered g known)
    (ht : rule.thread input (.node (n, form) parts) = .ok (out, ps)) (hps : ∀ p ∈ ps, p ∈ usage)
    (hi : input.Covered g known) (hd : Dominated known (.node form (parts.map forms))) :
    Dominated known ((Rose.node (n, form) parts).bound f) ∧
      ∃ after, after.Covered g known ∧ out = rule.leave n form.kind input after := by
  have hwf := hin.wellFormed h.wellFormed
  rw [forms_node] at hwf
  have hk : form.kind.isSequential = true := by
    by_contra hk
    exact hbranch (Rule.thread_choice (by simpa using hk) ht).1
  have hlast := hps _ (Rule.thread_last ht)
  obtain ⟨after, inside, hrow, rfl, rfl⟩ := Rule.thread_sequential hk ht
  obtain ⟨hself, hparts⟩ := (dominated_plain hl).1 hd
  have hcs := Kind.no_statement_of_admits hwf.admits hbranch hl
  obtain ⟨hbound, hafter⟩ := dominated_innerRow (fun r hr _ _ _ ht hps hi =>
    ih r hr (hcs _ (List.mem_map_of_mem (List.mem_map_of_mem hr))) ht hps hi
      (hparts _ (List.mem_map_of_mem hr))) hrow (fun p hp => hps p (by simp [hp])) hi
  refine ⟨dominated_node_bound hl hself hbound fun hpop id hid => ?_, after, hafter, rfl⟩
  obtain ⟨kind, loc⟩ := form
  obtain rfl : kind = .atom .pop := hpop
  exact hi.topPush ((h.pop hin.label_mem hlast).symm.trans hid)

/-- What is evaluated within a statement reads what is known before the statement. -/
theorem dominated_inner (h : Plan whole usage f g kept) {input out : StackState}
    {ps : List (Passage StackState)} {r : Rose (Nat × Form)} (hin : Within whole r)
    (hc : r.forms.category ≠ .statement ∧ r.forms.category ≠ .script)
    (ht : rule.thread input r = .ok (out, ps)) (hps : ∀ p ∈ ps, p ∈ usage)
    (hi : input.Covered g known) (hd : Dominated known r.forms) :
    Dominated known (r.bound f) ∧ out.Covered g known := by
  induction r using Rose.induct generalizing input out ps with
  | h label parts ih =>
    obtain ⟨n, form⟩ := label
    rw [forms_node] at hc hd
    obtain ⟨hpush, hbranch, hl⟩ : form.kind ≠ .push ∧ form.kind ≠ .branch ∧
        form.kind.isList = false := by
      rw [category_node] at hc
      cases hk : form.kind <;> simp [hk, Kind.category, Kind.isList] at hc ⊢
    obtain ⟨hbound, after, hafter, rfl⟩ := h.dominated_sequential hin hbranch hl
      (fun r hr hc _ _ _ => ih r hr (hin.part r hr) hc) ht hps hi hd
    exact ⟨hbound, hi.leave hafter hpush⟩

/-- A statement other than a choice reads what is known before it, and what it leaves on the stack
is known then or assigned in it. -/
theorem dominated_simple (h : Plan whole usage f g kept) {n : Nat} {form : Form}
    {parts : List (Rose (Nat × Form))} {input out : StackState} {ps : List (Passage StackState)}
    (hin : Within whole (.node (n, form) parts)) (hbranch : form.kind ≠ .branch)
    (hl : form.kind.isList = false)
    (ht : rule.thread input (.node (n, form) parts) = .ok (out, ps)) (hps : ∀ p ∈ ps, p ∈ usage)
    (hi : input.Covered g known) (hd : Dominated known (.node form (parts.map forms))) :
    Dominated known ((Rose.node (n, form) parts).bound f) ∧
      out.Covered g fun id => known id ∨ Assigns id ((Rose.node (n, form) parts).bound f) := by
  obtain ⟨hbound, after, hafter, rfl⟩ := h.dominated_sequential hin hbranch hl
    (fun r hr hc _ _ _ => h.dominated_inner (hin.part r hr) hc) ht hps hi hd
  refine ⟨hbound, ?_⟩
  by_cases hpush : form.kind = .push
  · -- the assignment that takes the place of the push is what covers its frame
    obtain ⟨kind, loc⟩ := form
    obtain rfl : kind = .push := hpush
    refine ⟨fun id hid => .inr ?_, hafter.mono fun id hid => .inl hid⟩
    rw [bound, (h.push hin.label_mem).trans hid]
    exact .part rfl (List.mem_singleton.2 rfl)
      (.store rfl (mem_stores.2 ⟨_, List.mem_cons_self, rfl⟩))
  · exact (hi.leave hafter hpush).mono fun id hid => .inl hid

/-- A choice reads what is known before it when each of its arms does, from behind the barrier of
the choice.  What is behind the choice starts from a barrier as well. -/
theorem dominated_choice (h : Plan whole usage f g kept) {n : Nat} {form : Form}
    {test : Rose (Nat × Form)} {arms : List (Rose (Nat × Form))} {input out : StackState}
    {ps : List (Passage StackState)} (hin : Within whole (.node (n, form) (test :: arms)))
    (hbranch : form.kind = .branch)
    (ih : ∀ arm ∈ arms, ∀ {input out : StackState} {ps : List (Passage StackState)},
      rule.thread input arm = .ok (out, ps) → (∀ p ∈ ps, p ∈ usage) → input.Covered g known →
      Dominated known arm.forms → Dominated known (arm.bound f))
    (ht : rule.thread input (.node (n, form) (test :: arms)) = .ok (out, ps))
    (hps : ∀ p ∈ ps, p ∈ usage) (hi : input.Covered g known)
    (hd : Dominated known (.node form ((test :: arms).map forms))) (known' : Nat → Prop) :
    Dominated known ((Rose.node (n, form) (test :: arms)).bound f) ∧ out.Covered g known' := by
  have hwf := hin.wellFormed h.wellFormed
  rw [forms_node] at hwf
  obtain ⟨-, fork, inside, hfork, hchoice, rfl⟩ := Rule.thread_choice (by rw [hbranch]; rfl) ht
  obtain rfl := Option.some.inj hfork
  obtain ⟨tested, first, rest, htest, rfl, hthread, rfl⟩ := Rule.threadChoice_cons hchoice
  obtain ⟨hself, hparts⟩ := (dominated_plain (by rw [hbranch]; rfl)).1 hd
  have hexpr : test.forms.category = .expression := by
    have hadmits := hwf.admits
    rw [hbranch] at hadmits
    rcases hadmits with hcs | hcs <;> exact (List.cons.inj hcs).1
  obtain ⟨htbound, -⟩ := h.dominated_inner (hin.part test (by simp)) (by simp [hexpr]) htest
    (fun p hp => hps p (by simp [hp])) hi (hparts _ (by simp))
  refine ⟨?_, trivial⟩
  rw [bound_of_other (by simp [hbranch]) (by simp [hbranch]),
    dominated_plain (by rw [hbranch]; rfl), reads_congr (stores_bound (test :: arms))]
  refine ⟨hself, List.forall_mem_cons.2 ⟨htbound, fun r hr => ?_⟩⟩
  rw [boundAll_eq_map] at hr
  obtain ⟨arm, harm, rfl⟩ := List.mem_map.1 hr
  obtain ⟨out, ps, hrun, hsub⟩ := Rule.threadArms_mem hthread harm
  exact ih arm harm hrun (fun p hp => hps p (by simp [hsub p hp])) trivial
    (hparts _ (List.mem_map_of_mem (List.mem_cons_of_mem _ harm)))

/-- Statements in a row read what is assigned before them, if each of them does. -/
theorem dominated_statements (hw : whole.forms.WellFormed) {rs : List (Rose (Nat × Form))}
    {input out : StackState} {ps : List (Passage StackState)} (hin : ∀ r ∈ rs, Within whole r)
    (ih : ∀ r ∈ rs, ∀ {known : Nat → Prop} {input out : StackState}
      {ps : List (Passage StackState)}, rule.thread input r = .ok (out, ps) →
      (∀ p ∈ ps, p ∈ usage) → input.Covered g known → Dominated known r.forms →
      Dominated known (r.bound f) ∧
        out.Covered g fun id => known id ∨ Assigns id (r.bound f))
    (ht : rule.threadRow input rs = .ok (out, ps)) (hps : ∀ p ∈ ps, p ∈ usage)
    (hi : input.Covered g known) (hd : DominatedRow known (rs.map forms)) :
    DominatedRow known (boundAll f rs) := by
  induction rs generalizing known input ps with
  | nil => exact dominatedRow_nil
  | cons r rs ihrs =>
    obtain ⟨next, first, rest, hr, hrs, rfl⟩ := Rule.threadRow_cons ht
    obtain ⟨hdr, hdrs⟩ := dominatedRow_cons.1 hd
    obtain ⟨hbound, hnext⟩ := ih r (by simp) hr (fun p hp => hps p (by simp [hp])) hi hdr
    have hwf := (hin r (by simp)).wellFormed hw
    refine dominatedRow_cons.2 ⟨hbound, ihrs (fun x hx => hin x (by simp [hx]))
      (fun x hx => ih x (by simp [hx])) hrs (fun p hp => hps p (by simp [hp])) hnext ?_⟩
    exact hdrs.mono fun id hid => hid.imp_right (Assigns.bound hwf)

/-- A statement, or a list of statements, reads behind assignments when it did so before. -/
theorem dominated_bound (h : Plan whole usage f g kept) (r : Rose (Nat × Form)) :
    ∀ {known : Nat → Prop} {input out : StackState} {ps : List (Passage StackState)},
      Within whole r → rule.thread input r = .ok (out, ps) → (∀ p ∈ ps, p ∈ usage) →
      input.Covered g known → Dominated known r.forms →
      (r.forms.Tiered → Dominated known (r.bound f) ∧
        out.Covered g fun id => known id ∨ Assigns id (r.bound f)) ∧
      (r.forms.label.kind.isList = true → (∀ x ∈ r.forms.parts, x.Tiered) →
        Dominated known (r.bound f)) := by
  induction r using Rose.induct with
  | h label parts ih =>
    intro known input out ps hin ht hps hi hd
    obtain ⟨n, form⟩ := label
    rw [forms_node] at hd ⊢
    refine ⟨fun htier => ?_, fun hlist htier => ?_⟩
    · generalize hshape : parts.map forms = shapes at htier
      cases htier with
      | simple hbranch hl =>
        subst hshape
        exact h.dominated_simple hin hbranch hl ht hps hi hd
      | @choice _ test arms hbranch hblock harms =>
        cases parts with
        | nil => cases hshape
        | cons t as =>
          obtain ⟨rfl, rfl⟩ := List.cons.inj hshape
          refine h.dominated_choice hin hbranch (fun arm harm _ _ _ ht hps hi hd => ?_) ht hps hi
            hd _
          refine (ih arm (by simp [harm]) (hin.part arm (by simp [harm])) ht hps hi hd).2 ?_
            (harms _ (List.mem_map_of_mem harm))
          rw [hblock _ (List.mem_map_of_mem harm)]
          rfl
    · have hk : form.kind.isSequential = true := by
        cases hkind : form.kind <;> simp [hkind, Kind.isSequential, label, Kind.isList] at hlist ⊢
      obtain ⟨after, inside, hrow, rfl, rfl⟩ := Rule.thread_sequential hk ht
      rw [bound_of_other (fun hpop => by simp [label, hpop, Kind.isList] at hlist)
        (fun hpush => by simp [label, hpush, Kind.isList] at hlist)]
      refine (dominated_list hlist).2 (dominated_statements h.wellFormed hin.part
        (fun r hr _ _ _ _ ht hps hi hd => ?_) hrow (fun p hp => hps p (by simp [hp])) hi
        ((dominated_list hlist).1 hd))
      exact (ih r hr (hin.part r hr) ht hps hi hd).1 (htier _ (List.mem_map_of_mem hr))

/-- The new tree assigns no temporary twice when the old one does not. -/
theorem nodup_storedIn_bound (h : Plan whole usage f g kept) (hn : whole.numbers.Nodup)
    (hs : (storedIn whole.forms.labels).Nodup) : (storedIn (whole.bound f).labels).Nodup := by
  have hnumbers : whole.labels.Pairwise fun x y => x.1 ≠ y.1 := List.pairwise_map.1 hn
  have hold : whole.labels.Pairwise fun x y => ∀ id, x.2.kind.stored? = some id →
      ∀ id', y.2.kind.stored? = some id' → id ≠ id' := by
    rw [forms, labels_map, storedIn, List.filterMap_map] at hs
    exact List.pairwise_filterMap.1 hs
  have hpush : ∀ {x : Nat × Form}, x ∈ whole.labels → x.2.kind = .push → f x.1 = g x.1 := by
    rintro ⟨n, ⟨kind, loc⟩⟩ hx hk
    obtain rfl : kind = .push := hk
    exact h.push hx
  have hnew : ∀ {x : Nat × Form} {n id : Nat}, x ∈ whole.labels →
      x.2.kind.stored? = some id → g n ≠ some id := by
    intro x n id hx hid
    refine h.old x hx id ?_ n
    rw [Kind.stored?_eq_some.1 hid]
    rfl
  rw [storedIn_bound h.wellFormed]
  refine List.pairwise_filterMap.2 ((hnumbers.and hold).imp_of_mem ?_)
  rintro x y hx hy ⟨hne, hxy⟩ id hid id' hid' rfl
  unfold storedAt at hid hid'
  split at hid
  · next hkx =>
    rw [hpush hx hkx] at hid
    split at hid'
    · next hky =>
      rw [hpush hy hky] at hid'
      exact hne (h.inj hid hid')
    · exact hnew hy hid' hid
  · split at hid'
    · next hky =>
      rw [hpush hy hky] at hid'
      exact hnew hx hid hid'
    · exact hxy id hid id hid' rfl

end Plan

end ScriptRecovery
