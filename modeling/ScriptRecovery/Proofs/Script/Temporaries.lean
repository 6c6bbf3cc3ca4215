import ScriptRecovery.Proofs.Arena.WellFormed
import ScriptRecovery.Proofs.Arena.Context
import ScriptRecovery.Stack.Rule

/-!
# Temporaries in single assignment form

A script is in single assignment form when each of its temporaries is assigned once, and is read
only behind the statement that assigns it, in the same list of statements or in one below
(`Script.SingleAssignment`).

A tree is gone through part by part to see this.  `Rose.Dominated` says it of a tree at a place where
some temporaries are assigned already.  In a list every element may rely on those before it
(`Rose.DominatedRow`); elsewhere the parts of a node have nothing more to rely on than the node
(`Rose.dominated_plain`).

`Rose.Evaluates` lists the reads and writes of a way through a tree, in the order of evaluation and
by one arm of each choice.  A return or a raised value ends such a way early.  On every way a
temporary is known or written before it is read (`Rose.Dominated.ordered`).
-/

namespace ScriptRecovery

/-- Whether a node of a kind is a list of statements. -/
def Kind.isList : Kind → Bool
  | .script | .block => true
  | _ => false

theorem Kind.isList_iff {k : Kind} : k.isList = true ↔ k = .script ∨ k = .block := by
  cases k <;> simp [Kind.isList]

/-- Whether a node of a kind evaluates all its parts, and is no list. -/
def Kind.isStraight (k : Kind) : Bool := k.isSequential && !k.isList

/-- The temporary that a target of a kind stores to. -/
def Kind.stored? : Kind → Option Nat
  | .temporaryTarget id => some id
  | _ => none

theorem Kind.stored?_eq_some {k : Kind} {id : Nat} :
    k.stored? = some id ↔ k = .temporaryTarget id := by
  cases k <;> simp [stored?]

namespace Rose

/-- The temporaries that a tree of forms names. -/
def temporaries (r : Rose Form) : List Nat := r.labels.filterMap fun form => form.kind.temporary?

theorem temporaries_node {form : Form} {parts : List (Rose Form)} :
    (Rose.node form parts).temporaries =
      form.kind.temporary?.toList ++ parts.flatMap Rose.temporaries := by
  rw [Rose.temporaries, labels_node, List.filterMap_cons, labelsAll_eq_flatMap,
    List.filterMap_flatMap]
  cases form.kind.temporary? <;> rfl

/-! ## Reads and writes -/

/-- The temporaries that the root of a tree stores to once its parts are evaluated. -/
def stores (r : Rose Form) : List Nat := r.parts.filterMap fun p => p.label.kind.stored?

/-- The temporaries that the root of a tree reads.  To add to a target is to read it. -/
def reads : Rose Form → List Nat
  | .node ⟨.atom (.temporary id), _⟩ _ => [id]
  | .node ⟨.assignment .add, loc⟩ parts => stores (.node ⟨.assignment .add, loc⟩ parts)
  | _ => []

/-- The temporaries that the targets among some forms store to. -/
def storedIn (forms : List Form) : List Nat := forms.filterMap fun form => form.kind.stored?

/-- Whether a tree stores to a temporary when it is evaluated, outside the lists and arms in it. -/
inductive Assigns (id : Nat) : Rose Form → Prop
  | store {form : Form} {parts : List (Rose Form)} : form.kind.isStraight = true →
      id ∈ stores (.node form parts) → Assigns id (.node form parts)
  | part {form : Form} {parts : List (Rose Form)} {r : Rose Form} :
      form.kind.isStraight = true → r ∈ parts → Assigns id r → Assigns id (.node form parts)

/-- Whether an element before an open place, in a list around it, assigns a temporary. -/
def Context.Assigned (C : Context Form) (id : Nat) : Prop :=
  ∃ A c B, C = A ++ c :: B ∧ c.label.kind.isList = true ∧ ∃ y ∈ c.left, Assigns id y

/-- A read or a write of a temporary. -/
inductive Access
  /-- The temporary is read. -/
  | read (id : Nat)
  /-- The temporary is written. -/
  | write (id : Nat)

mutual

/-- Whether the reads and writes of a way through a tree are these. -/
inductive Evaluates : Rose Form → List Access → Prop
  | sequential {form : Form} {parts : List (Rose Form)} {es : List Access} :
      form.kind.isSequential = true → EvaluatesAll parts es →
      Evaluates (.node form parts) ((reads (.node form parts)).map .read ++ es ++
        (stores (.node form parts)).map .write)
  | choice {form : Form} {test arm : Rose Form} {arms : List (Rose Form)} {es es' : List Access} :
      form.kind.isSequential = false → Evaluates test es → arm ∈ arms → Evaluates arm es' →
      Evaluates (.node form (test :: arms)) (es ++ es')
  | skip {form : Form} {test : Rose Form} {arms : List (Rose Form)} {es : List Access} :
      form.kind.isSequential = false → Evaluates test es → Evaluates (.node form (test :: arms)) es

/-- Whether the reads and writes of a way through trees in a row are these. -/
inductive EvaluatesAll : List (Rose Form) → List Access → Prop
  | nil : EvaluatesAll [] []
  | cons {r : Rose Form} {rs : List (Rose Form)} {es es' : List Access} :
      Evaluates r es → EvaluatesAll rs es' → EvaluatesAll (r :: rs) (es ++ es')

end

variable {known known' : Nat → Prop} {form : Form} {parts : List (Rose Form)} {r x : Rose Form}
  {id : Nat}

theorem mem_stores : id ∈ stores (.node form parts) ↔
    ∃ p ∈ parts, p.label.kind = .temporaryTarget id := by
  simp only [stores, Rose.parts, List.mem_filterMap, Kind.stored?_eq_some]

theorem mem_storedIn {forms : List Form} :
    id ∈ storedIn forms ↔ ∃ form ∈ forms, form.kind = .temporaryTarget id := by
  simp only [storedIn, List.mem_filterMap, Kind.stored?_eq_some]

theorem storedIn_append {forms forms' : List Form} :
    storedIn (forms ++ forms') = storedIn forms ++ storedIn forms' := List.filterMap_append

theorem storedIn_node : storedIn (Rose.node form parts).labels =
    storedIn [form] ++ storedIn (labelsAll parts) := by
  rw [labels_node]
  show storedIn ([form] ++ labelsAll parts) = _
  exact storedIn_append

theorem storedIn_eq_nil {forms : List Form} (h : ∀ form ∈ forms, form.kind.stored? = none) :
    storedIn forms = [] := List.filterMap_eq_nil_iff.2 h

theorem reads_eq_nil (hatom : ∀ id, form.kind ≠ .atom (.temporary id))
    (hadd : form.kind ≠ .assignment .add) : reads (.node form parts) = [] := by
  obtain ⟨kind, loc⟩ := form
  unfold reads
  split
  · next heq =>
    injection heq with heq
    injection heq with hk
    exact absurd hk (hatom _)
  · next heq =>
    injection heq with heq
    injection heq with hk
    exact absurd hk hadd
  · rfl

theorem reads_of_isList (h : form.kind.isList = true) : reads (.node form parts) = [] := by
  refine reads_eq_nil (fun id hk => ?_) fun hk => ?_ <;>
    simp [hk, Kind.isList] at h

/-- What the root reads and stores to depends on its kind, and on those of its parts. -/
theorem reads_congr {parts' : List (Rose Form)}
    (h : stores (.node form parts) = stores (.node form parts')) :
    reads (.node form parts) = reads (.node form parts') := by
  obtain ⟨kind, loc⟩ := form
  cases kind <;> try rfl
  case atom a => cases a <;> rfl
  case assignment op =>
    cases op
    · rfl
    · exact h

theorem assigns_node : Assigns id (.node form parts) ↔ form.kind.isStraight = true ∧
    (id ∈ stores (.node form parts) ∨ ∃ p ∈ parts, Assigns id p) := by
  constructor
  · rintro (⟨hk, h⟩ | ⟨hk, hp, h⟩)
    · exact ⟨hk, .inl h⟩
    · exact ⟨hk, .inr ⟨_, hp, h⟩⟩
  · rintro ⟨hk, h | ⟨p, hp, h⟩⟩
    · exact .store hk h
    · exact .part hk hp h

/-- A tree without parts assigns nothing. -/
theorem not_assigns_leaf : ¬Assigns id (.node form []) := by
  rw [assigns_node]
  simp [mem_stores]

theorem Assigns.mem_storedIn (h : Assigns id r) : id ∈ storedIn r.labels := by
  induction h with
  | store _ hid =>
    obtain ⟨p, hp, hkind⟩ := mem_stores.1 hid
    refine Rose.mem_storedIn.2 ⟨p.label, ?_, hkind⟩
    rw [labels_node]
    exact List.mem_cons_of_mem _ (mem_labelsAll.2 ⟨p, hp, p.label_mem_labels⟩)
  | part _ hp _ ih =>
    obtain ⟨form, hform, hkind⟩ := Rose.mem_storedIn.1 ih
    refine Rose.mem_storedIn.2 ⟨form, ?_, hkind⟩
    rw [labels_node]
    exact List.mem_cons_of_mem _ (mem_labelsAll.2 ⟨_, hp, hform⟩)

/-! ## Places behind an assignment -/

theorem Context.not_assigned_nil : ¬Context.Assigned [] id := by
  rintro ⟨A, c, B, h, -⟩
  simp at h

theorem Context.assigned_cons {c : Crumb Form} {C : Context Form} :
    Context.Assigned (c :: C) id ↔
      c.label.kind.isList = true ∧ (∃ y ∈ c.left, Assigns id y) ∨ C.Assigned id := by
  constructor
  · rintro ⟨A, c', B, h, hlist, hy⟩
    cases A with
    | nil =>
      obtain ⟨rfl, rfl⟩ := List.cons.inj h
      exact .inl ⟨hlist, hy⟩
    | cons a A =>
      obtain ⟨rfl, rfl⟩ := List.cons.inj h
      exact .inr ⟨A, c', B, rfl, hlist, hy⟩
  · rintro (⟨hlist, hy⟩ | ⟨A, c', B, rfl, hlist, hy⟩)
    · exact ⟨[], c, C, rfl, hlist, hy⟩
    · exact ⟨c :: A, c', B, rfl, hlist, hy⟩

/-- Whether all reads in a tree are of temporaries that are known, or assigned before in a list
around them. -/
def Dominated (known : Nat → Prop) (r : Rose Form) : Prop :=
  ∀ (C : Context Form) (x : Rose Form) (id : Nat), r = C.plug x → id ∈ x.reads →
    known id ∨ C.Assigned id

/-- Whether this is so in the elements of a list, each of which may rely on those before it. -/
def DominatedRow (known : Nat → Prop) (rs : List (Rose Form)) : Prop :=
  ∀ left r right, rs = left ++ r :: right →
    Dominated (fun id => known id ∨ ∃ y ∈ left, Assigns id y) r

theorem Dominated.mono (h : Dominated known r) (hk : ∀ id, known id → known' id) :
    Dominated known' r :=
  fun C x id hr hid => (h C x id hr hid).imp_left (hk id)

theorem dominated_node : Dominated known (.node form parts) ↔
    (∀ id ∈ reads (.node form parts), known id) ∧ ∀ left r right, parts = left ++ r :: right →
      Dominated (fun id => known id ∨ form.kind.isList = true ∧ ∃ y ∈ left, Assigns id y) r := by
  constructor
  · intro h
    refine ⟨fun id hid => ?_, fun left r right hparts C x id hr hid => ?_⟩
    · exact (h [] _ id rfl hid).resolve_right Context.not_assigned_nil
    · subst hparts hr
      have hplace := h (⟨form, left, right⟩ :: C) x id rfl hid
      rwa [Context.assigned_cons, ← or_assoc] at hplace
  · rintro ⟨hself, hparts⟩ C x id hr hid
    cases C with
    | nil =>
      obtain rfl : Rose.node form parts = x := hr
      exact .inl (hself id hid)
    | cons c C =>
      rw [Context.plug] at hr
      injection hr with hform hrow
      subst hform
      rw [Context.assigned_cons, ← or_assoc]
      exact hparts c.left _ c.right hrow C x id rfl hid

theorem dominated_list (hk : form.kind.isList = true) :
    Dominated known (.node form parts) ↔ DominatedRow known parts := by
  rw [dominated_node, reads_of_isList hk]
  simp [DominatedRow, hk]

theorem dominated_plain (hk : form.kind.isList = false) : Dominated known (.node form parts) ↔
    (∀ id ∈ reads (.node form parts), known id) ∧ ∀ r ∈ parts, Dominated known r := by
  rw [dominated_node]
  simp only [hk, Bool.false_eq_true, false_and, or_false]
  refine and_congr_right fun _ => ⟨fun h r hr => ?_, fun h left r right hparts => ?_⟩
  · obtain ⟨left, right, rfl⟩ := List.append_of_mem hr
    exact h left r right rfl
  · exact h r (hparts ▸ by simp)

theorem dominatedRow_nil : DominatedRow known [] := by
  intro left r right h
  simp at h

theorem dominatedRow_cons {rs : List (Rose Form)} : DominatedRow known (r :: rs) ↔
    Dominated known r ∧ DominatedRow (fun id => known id ∨ Assigns id r) rs := by
  constructor
  · intro h
    refine ⟨(h [] r rs rfl).mono fun id hid => ?_, fun left x right hrs => ?_⟩
    · simpa using hid
    · refine (h (r :: left) x right (by rw [hrs]; rfl)).mono fun id hid => ?_
      simpa [or_assoc] using hid
  · rintro ⟨hr, hrs⟩ left x right h
    cases left with
    | nil =>
      obtain ⟨rfl, rfl⟩ := List.cons.inj h
      exact hr.mono fun id hid => .inl hid
    | cons y left =>
      obtain ⟨rfl, hrest⟩ := List.cons.inj h
      refine (hrs left x right hrest).mono fun id hid => ?_
      simpa [or_assoc] using hid

theorem DominatedRow.mono {rs : List (Rose Form)} (h : DominatedRow known rs)
    (hk : ∀ id, known id → known' id) : DominatedRow known' rs :=
  fun left r right hrs => (h left r right hrs).mono fun id hid => hid.imp_left (hk id)

theorem DominatedRow.append {rs rs' : List (Rose Form)} (h : DominatedRow known rs)
    (h' : DominatedRow (fun id => known id ∨ ∃ y ∈ rs, Assigns id y) rs') :
    DominatedRow known (rs ++ rs') := by
  induction rs generalizing known with
  | nil => exact h'.mono fun id hid => by simpa using hid
  | cons r rs ih =>
    rw [dominatedRow_cons] at h
    refine dominatedRow_cons.2 ⟨h.1, ih h.2 (h'.mono fun id hid => ?_)⟩
    simpa [or_assoc] using hid

theorem dominatedRow_of_forall {rs : List (Rose Form)} (h : ∀ r ∈ rs, Dominated known r) :
    DominatedRow known rs :=
  fun left r right hrs => (h r (hrs ▸ by simp)).mono fun id hid => .inl hid

/-- Nothing else is read than what labels say. -/
theorem dominated_of_labels (h : ∀ form ∈ r.labels, form.kind ≠ .assignment .add ∧
    ∀ id, form.kind = .atom (.temporary id) → known id) : Dominated known r := by
  rintro C ⟨form, parts⟩ id rfl hid
  obtain ⟨hadd, hread⟩ := h form (by rw [labels_plug, labels_node]; simp)
  refine .inl ?_
  by_cases hatom : ∃ id, form.kind = .atom (.temporary id)
  · obtain ⟨kind, loc⟩ := form
    obtain ⟨id', rfl⟩ := hatom
    obtain rfl : id = id' := by simpa [reads] using hid
    exact hread id rfl
  · rw [reads_eq_nil (fun id hk => hatom ⟨id, hk⟩) hadd] at hid
    cases hid

/-! ## Changes in one place -/

/-- Whether a tree may stand where another one does: it stores the same, it assigns no less, and it
reads no more. -/
structure Suits (x x' : Rose Form) : Prop where
  stored : x'.label.kind.stored? = x.label.kind.stored?
  storedIn : storedIn x'.labels = storedIn x.labels
  assigns : ∀ id, Assigns id x → Assigns id x'
  dominated : ∀ known, Dominated known x → Dominated known x'

theorem Suits.refl (x : Rose Form) : Suits x x := ⟨rfl, rfl, fun _ h => h, fun _ h => h⟩

theorem Suits.trans {x x' x'' : Rose Form} (h : Suits x x') (h' : Suits x' x'') : Suits x x'' :=
  ⟨h'.stored.trans h.stored, h'.storedIn.trans h.storedIn,
    fun id hid => h'.assigns id (h.assigns id hid),
    fun known hd => h'.dominated known (h.dominated known hd)⟩


theorem stores_plug {c : Crumb Form} {x x' : Rose Form}
    (h : x'.label.kind.stored? = x.label.kind.stored?) :
    stores (.node c.label (c.left ++ x' :: c.right)) =
      stores (.node c.label (c.left ++ x :: c.right)) := by
  simp only [stores, Rose.parts, List.filterMap_append, List.filterMap_cons, h]

/-- What suits a place suits the places around it. -/
theorem Suits.node {c : Crumb Form} {x x' : Rose Form} (h : Suits x x') :
    Suits (.node c.label (c.left ++ x :: c.right)) (.node c.label (c.left ++ x' :: c.right)) := by
  have hstores := stores_plug (c := c) h.stored
  refine ⟨rfl, ?_, fun id => ?_, fun known => ?_⟩
  · rw [storedIn_node, storedIn_node, labelsAll_append, labelsAll_append, labelsAll, labelsAll,
      storedIn_append, storedIn_append, storedIn_append, storedIn_append, h.storedIn]
  · rw [assigns_node, assigns_node, hstores]
    refine And.imp_right (Or.imp_right ?_)
    rintro ⟨p, hp, hid⟩
    rw [List.mem_append, List.mem_cons] at hp
    rcases hp with hp | rfl | hp
    · exact ⟨p, by simp [hp], hid⟩
    · exact ⟨x', by simp, h.assigns id hid⟩
    · exact ⟨p, by simp [hp], hid⟩
  · obtain ⟨form, left, right⟩ := c
    simp only at hstores ⊢
    by_cases hk : form.kind.isList = true
    · rw [dominated_list hk, dominated_list hk]
      clear hstores
      intro hrow
      induction left generalizing known with
      | nil =>
        rw [List.nil_append, dominatedRow_cons] at hrow ⊢
        exact ⟨h.dominated known hrow.1,
          hrow.2.mono fun id hid => hid.imp_right (h.assigns id)⟩
      | cons y left ih =>
        rw [List.cons_append, dominatedRow_cons] at hrow ⊢
        exact ⟨hrow.1, ih _ hrow.2⟩
    · rw [Bool.not_eq_true] at hk
      rw [dominated_plain hk, dominated_plain hk, reads_congr hstores]
      refine And.imp_right fun hparts r hr => ?_
      rw [List.mem_append, List.mem_cons] at hr
      rcases hr with hr | rfl | hr
      · exact hparts r (by simp [hr])
      · exact h.dominated known (hparts x (by simp))
      · exact hparts r (by simp [hr])

theorem Suits.plug {C : Context Form} {x x' : Rose Form} (h : Suits x x') :
    Suits (C.plug x) (C.plug x') := by
  induction C with
  | nil => exact h
  | cons c C ih => exact ih.node

/-! ## Ways of evaluation -/

theorem EvaluatesAll.of_mem {rs : List (Rose Form)} {es : List Access} (h : EvaluatesAll rs es)
    (hr : r ∈ rs) : ∃ es', Evaluates r es' ∧ es' ⊆ es := by
  induction rs generalizing es with
  | nil => cases hr
  | cons x rs ih =>
    cases h with
    | cons hx hrs =>
      rcases List.mem_cons.1 hr with rfl | hr
      · exact ⟨_, hx, List.subset_append_left _ _⟩
      · obtain ⟨es', he, hsub⟩ := ih hrs hr
        exact ⟨es', he, List.subset_append_of_subset_right _ hsub⟩

/-- What a tree assigns is written on every way through it. -/
theorem Evaluates.write_mem {es : List Access} (h : Evaluates r es) (ha : Assigns id r) :
    .write id ∈ es := by
  induction ha generalizing es with
  | @store form parts hk hid =>
    cases h with
    | sequential _ _ => simp [hid]
    | choice hseq _ _ _ => simp [Kind.isStraight, hseq] at hk
    | skip hseq _ => simp [Kind.isStraight, hseq] at hk
  | @part form parts r hk hr _ ih =>
    cases h with
    | sequential _ hparts =>
      obtain ⟨es', he, hsub⟩ := hparts.of_mem hr
      have hmem := hsub (ih he)
      simp [hmem]
    | choice hseq _ _ _ => simp [Kind.isStraight, hseq] at hk
    | skip hseq _ => simp [Kind.isStraight, hseq] at hk

/-- Whether every read is of a temporary that is known or was written before. -/
def Ordered (known : Nat → Prop) (es : List Access) : Prop :=
  ∀ before id after, es = before ++ .read id :: after → known id ∨ .write id ∈ before

theorem Ordered.append {es es' : List Access} (h : Ordered known es)
    (h' : Ordered (fun id => known id ∨ .write id ∈ es) es') : Ordered known (es ++ es') := by
  intro before id after heq
  rcases List.append_eq_append_iff.1 heq with ⟨mid, rfl, hrest⟩ | ⟨mid, hes, hrest⟩
  · rcases h' mid id after hrest with (hk | hw) | hw
    · exact .inl hk
    · exact .inr (List.mem_append_left _ hw)
    · exact .inr (List.mem_append_right _ hw)
  · cases mid with
    | nil =>
      rw [List.append_nil] at hes
      subst hes
      rcases h' [] id after (by simpa using hrest.symm) with (hk | hw) | hw
      · exact .inl hk
      · exact .inr hw
      · cases hw
    | cons a mid =>
      obtain ⟨rfl, rfl⟩ := List.cons.inj hrest
      exact h before id mid hes

theorem ordered_reads {ids : List Nat} (h : ∀ id ∈ ids, known id) :
    Ordered known (ids.map .read) := by
  intro before id after heq
  have hmem : Access.read id ∈ ids.map Access.read := heq ▸ by simp
  obtain ⟨id', hid, heq⟩ := List.mem_map.1 hmem
  cases heq
  exact .inl (h id hid)

theorem ordered_writes {ids : List Nat} : Ordered known (ids.map .write) := by
  intro before id after heq
  have hmem : Access.read id ∈ ids.map Access.write := heq ▸ by simp
  obtain ⟨id', -, heq⟩ := List.mem_map.1 hmem
  cases heq

theorem Ordered.mono {es : List Access} (h : Ordered known es)
    (hk : ∀ id, known id → known' id) : Ordered known' es :=
  fun before id after heq => (h before id after heq).imp_left (hk id)

theorem DominatedRow.ordered {rs : List (Rose Form)} {es : List Access}
    (ih : ∀ r ∈ rs, ∀ {known : Nat → Prop} {es : List Access}, Dominated known r →
      Evaluates r es → Ordered known es)
    (hd : DominatedRow known rs) (he : EvaluatesAll rs es) : Ordered known es := by
  induction rs generalizing known es with
  | nil =>
    cases he
    intro before id after h
    simp at h
  | cons r rs ihrs =>
    cases he with
    | cons hr hrs =>
      obtain ⟨hdr, hdrs⟩ := dominatedRow_cons.1 hd
      refine (ih r (by simp) hdr hr).append ?_
      have hrest := ihrs (fun x hx => ih x (by simp [hx])) hdrs hrs
      exact hrest.mono fun id hid => hid.imp_right hr.write_mem

/-- On every way through a tree, a temporary is known or written before it is read. -/
theorem Dominated.ordered {es : List Access} (hd : Dominated known r) (he : Evaluates r es) :
    Ordered known es := by
  induction r using induct generalizing known es with
  | h form parts ih =>
    have hplain : form.kind.isSequential = false → form.kind.isList = false := by
      cases form.kind <;> simp [Kind.isSequential, Kind.isList]
    cases he with
    | @sequential _ _ es hk hparts =>
      obtain ⟨hself, hrow⟩ : (∀ id ∈ reads (.node form parts), known id) ∧
          DominatedRow known parts := by
        by_cases hlist : form.kind.isList = true
        · exact ⟨by simp [reads_of_isList hlist], (dominated_list hlist).1 hd⟩
        · rw [Bool.not_eq_true] at hlist
          obtain ⟨hself, hd⟩ := (dominated_plain hlist).1 hd
          exact ⟨hself, fun left r right hparts => (hd r (hparts ▸ by simp)).mono
            fun id hid => .inl hid⟩
      have hinside := hrow.ordered (fun r hr => ih r hr) hparts
      exact ((ordered_reads hself).append (hinside.mono fun id hid => .inl hid)).append
        ordered_writes
    | @choice _ test arm arms es es' hk htest harm hes =>
      obtain ⟨-, hd⟩ := (dominated_plain (hplain hk)).1 hd
      refine (ih test (by simp) (hd test (by simp)) htest).append ?_
      exact (ih arm (by simp [harm]) (hd arm (by simp [harm])) hes).mono fun id hid => .inl hid
    | @skip _ test arms es hk htest =>
      obtain ⟨-, hd⟩ := (dominated_plain (hplain hk)).1 hd
      exact ih test (by simp) (hd test (by simp)) htest

/-! ## Lists of statements -/

/-- Whether the only lists below a statement are the arms of choices. -/
inductive Tiered : Rose Form → Prop
  | simple {form : Form} {parts : List (Rose Form)} : form.kind ≠ .branch →
      form.kind.isList = false → Tiered (.node form parts)
  | choice {form : Form} {test : Rose Form} {arms : List (Rose Form)} : form.kind = .branch →
      (∀ arm ∈ arms, arm.label.kind = .block) → (∀ arm ∈ arms, ∀ r ∈ arm.parts, Tiered r) →
      Tiered (.node form (test :: arms))

end Rose

end ScriptRecovery
