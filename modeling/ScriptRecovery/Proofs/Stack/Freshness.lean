import ScriptRecovery.Proofs.Arena.Coherence
import ScriptRecovery.Proofs.Script.Temporaries
import ScriptRecovery.Proofs.Stack.Elimination

/-!
# Which temporaries are new

The source of temporaries of a tree starts behind the greatest temporary of the script and is kept
from then on.  It is not told what later edits bring into the script.  So along a history of edits
it gives the temporaries out in ascending order, but one that it gives out may be there already:
when an edit has brought it in after the source was made, and before the source came to it.

The record of a history has a mark for every temporary that is given out, with the tree at that
moment, and a mark for every temporary that is brought in ahead of the source
(`SyntaxTree.Mark`).  `SyntaxTree.fresh_of_history` says that these marks account for everything.
The invariant is `SyntaxTree.Accounted`: once there is a source, what was given out is before its
next temporary, and so is what the script names, unless it was brought in.

Eliminating pushes and pops takes its temporaries from the source and writes nothing else
(`SyntaxTree.Paid`), so it brings nothing in.
-/

namespace ScriptRecovery

open Rose

@[simp] theorem Expr.temporaries_temporary (id : Nat) :
    (Expr.temporary id).rose.temporaries = [id] := rfl

@[simp] theorem Stmt.temporaries_push (value : Expr) (loc : Loc) :
    (Stmt.push value loc).rose.temporaries = value.rose.temporaries := by
  simp [Stmt.rose, Rose.temporaries_node, Kind.temporary?]

/-- An assignment to a temporary names it and what its value names. -/
@[simp] theorem Stmt.temporaries_assign (id : Nat) (value : Expr) :
    (Stmt.expression (.assign (.temporary id none) value) none).rose.temporaries =
      id :: value.rose.temporaries := by
  simp [Stmt.rose, Expr.assign, Expr.rose, Target.rose, Rose.temporaries_node, Kind.temporary?]

namespace SyntaxTree

variable {t t' : SyntaxTree} {r : Rose (Nat × Form)} {n : Nat}

/-- The temporaries that the script of an arena names. -/
def temporaries (t : SyntaxTree) : List Nat := t.nodes.filterMap fun n => n.2.kind.temporary?

/-! ## Histories and their records -/

/-- What a record of a history is made of. -/
inductive Mark
  /-- A temporary is given out, with the tree as it is then. -/
  | granted (t : SyntaxTree) (id : Nat)
  /-- A temporary is brought into the script that the source has not come to yet. -/
  | imported (id : Nat)

/-- Something that is done to a tree. -/
inductive Deed
  /-- A statement is put in the place of one. -/
  | replaceStatement (n : Nat) (s : Stmt)
  /-- An expression is put in the place of one. -/
  | replaceExpression (n : Nat) (e : Expr)
  /-- A target is put in the place of one. -/
  | replaceTarget (n : Nat) (p : Target)
  /-- A statement is taken out of its list. -/
  | removeStatement (n : Nat)
  /-- A temporary is asked for. -/
  | freshTemporary (n : Nat)
  /-- Pushes and pops are eliminated. -/
  | bindPushes

/-- The marks for what a tree of forms brings in when the source is at some temporary. -/
def imports (t : SyntaxTree) (form : Rose Form) : List Mark :=
  match t.scope? root with
  | none => []
  | some s => (form.temporaries.filter (s.next ≤ ·)).map .imported

/-- A replacement in a record. -/
def recordReplacement (t : SyntaxTree) (form : Rose Form) :
    Except Fault SyntaxTree → List Mark × SyntaxTree
  | .ok t' => (t.imports form, t')
  | .error _ => ([], t)

/-- The marks for a temporary that is asked for. -/
def grants (t : SyntaxTree) (n : Nat) : List Mark :=
  match t.freshTemporary n with
  | .ok (id, _) => [.granted t id]
  | .error _ => []

/-- The marks for one edit of an elimination. -/
def Substitution.marks (t : SyntaxTree) : Substitution → List Mark
  | .take n => t.grants n
  | .pop .. | .push .. => []

/-- The marks for the edits of an elimination, up to the first that is refused. -/
def recordEdits (t : SyntaxTree) : List Substitution → List Mark
  | [] => []
  | sub :: subs =>
      match t.substitute sub with
      | .ok t' => sub.marks t ++ t'.recordEdits subs
      | .error _ => []

/-- The marks for something that is done to a tree, and the tree after it. -/
def Deed.run (t : SyntaxTree) : Deed → List Mark × SyntaxTree
  | .replaceStatement n s => t.recordReplacement s.rose (t.replaceStatement n s)
  | .replaceExpression n e => t.recordReplacement e.rose (t.replaceExpression n e)
  | .replaceTarget n p => t.recordReplacement p.rose (t.replaceTarget n p)
  | .removeStatement n => ([], (t.removeStatement n).toOption.getD t)
  | .freshTemporary n => (t.grants n, ((t.freshTemporary n).map Prod.snd).toOption.getD t)
  | .bindPushes => (t.recordEdits (t.eliminations.toOption.getD []), t.bindPushes.state)

/-- The record of a history. -/
def record (t : SyntaxTree) : List Deed → List Mark
  | [] => []
  | deed :: deeds => (deed.run t).1 ++ (deed.run t).2.record deeds

/-! ## The temporaries of a tree -/

theorem Represents.mem_temporaries (h : t.Represents r) {x : Nat} :
    x ∈ t.temporaries ↔ x ∈ r.forms.temporaries := by
  rw [temporaries, Rose.temporaries, h.nodes, forms, labels_map, List.filterMap_map]
  rfl

theorem mem_temporaries_plug {C : Context Form} {form : Rose Form} {x : Nat} :
    x ∈ (C.plug form).temporaries ↔ x ∈ C.before.filterMap (fun f => f.kind.temporary?) ∨
      x ∈ form.temporaries ∨ x ∈ C.after.filterMap (fun f => f.kind.temporary?) := by
  simp only [Rose.temporaries, labels_plug, List.filterMap_append, List.mem_append, or_assoc]

/-- What the script has given out is not what it names. -/
theorem Tidy.mem_temporaries_keepScope (h : t.Tidy r) {s : Scope} {x : Nat} :
    x ∈ (t.keepScope root s).temporaries ↔ x ∈ t.temporaries := by
  rw [(h.keepScope s).represents.mem_temporaries, h.represents.mem_temporaries]

/-- A replacement brings in the temporaries of what is put in place. -/
theorem Tidy.temporaries_of_replace {category : Category} {form : Rose Form} (h : t.Tidy r)
    (hw : form.WellFormed) (hc : form.category = category)
    (hok : t.replace n category form = .ok t') :
    (∃ r', t'.Tidy r') ∧ t'.scopes = t.scopes ∧
      ∀ x ∈ t'.temporaries, x ∈ t.temporaries ∨ x ∈ form.temporaries := by
  subst hc
  obtain ⟨hr, s, hs, hcategory, ht'⟩ := eq_of_replace hok
  obtain ⟨⟨k, f⟩, hx, hkn⟩ := List.mem_map.1 (h.live hs)
  obtain rfl : k = n := hkn
  obtain ⟨C, parts, rfl, -⟩ := h.represents.exists_plug hx
  obtain ⟨link, hheld, -⟩ := h.represents.holds.plug
  obtain rfl := Option.some.inj (hs.symm.trans hheld.slot?)
  obtain ⟨t'', hok', h'⟩ := h.replace hw (by simpa using hcategory.symm) hr
  obtain rfl : t' = t'' := Except.ok.inj (hok.symm.trans hok')
  have hscopes : t'.scopes = t.scopes := by
    rw [ht']
    exact h.scopes_vacate (fun x hx => hheld.mem_part hx)
      (fun x hx => (nodup_part h.represents.nodup_plug.1 x hx).1) h.represents.root_not_mem_parts
  refine ⟨⟨_, h'⟩, hscopes, fun x hx => ?_⟩
  rw [h'.represents.mem_temporaries, forms, map_plug, mem_temporaries_plug] at hx
  rw [h.represents.mem_temporaries, forms, map_plug, mem_temporaries_plug]
  rw [show (form.tagged (Rose.node (k, f) parts).number t.slots.size).map Prod.snd = form from
    forms_tagged form] at hx
  tauto

/-- A removal brings in nothing. -/
theorem Tidy.temporaries_of_removeStatement (h : t.Tidy r) (hok : t.removeStatement n = .ok t') :
    (∃ r', t'.Tidy r') ∧ t'.scopes = t.scopes ∧ ∀ x ∈ t'.temporaries, x ∈ t.temporaries := by
  obtain ⟨hr, hs, hlist, later, parent, index, ht'⟩ := eq_of_removeStatement hok
  obtain ⟨s, hs⟩ := Option.isSome_iff_exists.1 hs
  obtain ⟨C, k, form, left, x, right, rfl, rfl, hk⟩ :=
    ((h.editable hr).listed (h.live hs) hlist).exists_plug
  obtain ⟨t'', hok', h'⟩ := h.removeStatement hk hr
  obtain rfl : t' = t'' := Except.ok.inj (hok.symm.trans hok')
  obtain ⟨link, hheld, -⟩ := h.represents.holds.plug
  have hscopes : t'.scopes = t.scopes := by
    have hvacate : (t.vacate ([x].map number)).scopes = t.scopes := by
      refine h.scopes_vacate ?_ ?_ fun hroot => h.represents.root_not_mem_parts ?_
      · simpa using hheld.mem_part (r := x) (by simp)
      · simpa using (nodup_part h.represents.nodup_plug.1 x (by simp)).1
      · rw [List.flatMap_append, List.flatMap_cons]
        simp_all
    rw [ht', shiftLink_foldl_eq]
    exact hvacate
  refine ⟨⟨_, h'⟩, hscopes, fun y hy => ?_⟩
  rw [temporaries, h'.represents.nodes] at hy
  rw [temporaries, h.represents.nodes]
  obtain ⟨a, ha, hay⟩ := List.mem_filterMap.1 hy
  refine List.mem_filterMap.2 ⟨a, ?_, hay⟩
  simp only [labels_plug, labels_node, labelsAll_append, labelsAll, List.mem_append,
    List.mem_cons] at ha ⊢
  tauto

/-- What is below a node names temporaries of the tree alone. -/
theorem Tidy.temporaries_of_branch (h : t.Tidy r) {slot : Slot} (hslot : t.slot? n = some slot)
    {b : Rose (Nat × Form)} (hb : t.branch? n = some b) :
    ∀ x ∈ b.forms.temporaries, x ∈ t.temporaries := by
  obtain ⟨⟨k, f⟩, hmem, hkn⟩ := List.mem_map.1 (h.live hslot)
  obtain rfl : k = n := hkn
  obtain ⟨C, parts, rfl, -⟩ := h.represents.exists_plug hmem
  obtain ⟨link, hheld, -⟩ := h.represents.holds.plug
  obtain rfl := Option.some.inj (hb.symm.trans (hheld.branch? h.represents.nodup_plug.1))
  intro x hx
  rw [h.represents.mem_temporaries, forms, map_plug, mem_temporaries_plug]
  exact .inr (.inl hx)

/-- A statement that is read names temporaries of the tree alone. -/
theorem Tidy.temporaries_of_statement (h : t.Tidy r) {s : Stmt} (hread : t.statement n = .ok s) :
    ∀ x ∈ s.rose.temporaries, x ∈ t.temporaries := by
  obtain ⟨slot, hslot, hrest⟩ := bind_eq_ok.1 hread
  have hlive : t.slot? n = some slot := by
    unfold SyntaxTree.slot at hslot
    split at hslot <;> simp_all
  split at hrest
  · next hc =>
    have hkind : t.kind? n = some slot.form.kind := by rw [kind?, hlive, Option.map_some]
    obtain ⟨s', b, hs', hb, hrose⟩ := h.coherent.statement hkind hc
    obtain rfl := Except.ok.inj (hread.symm.trans hs')
    rw [hrose]
    exact h.temporaries_of_branch hlive hb
  · cases hrest

/-! ## What is accounted for -/

/-- Whether a temporary is after all that were given out before, and after all that the script
names, unless they were brought in. -/
structure Fresh (before : List Mark) (t : SyntaxTree) (id : Nat) : Prop where
  granted : ∀ {u : SyntaxTree} {id' : Nat}, .granted u id' ∈ before → id' < id
  present : ∀ x ∈ t.temporaries, x < id ∨ .imported x ∈ before

/-- Whether all that is given out in a record is fresh. -/
def AllFresh (marks : List Mark) : Prop :=
  ∀ (before after : List Mark) (u : SyntaxTree) (id : Nat),
    marks = before ++ .granted u id :: after → Fresh before u id

/-- Whether a record accounts for the temporaries of a tree. -/
structure Accounted (t : SyntaxTree) (marks : List Mark) : Prop where
  tidy : ∃ r, t.Tidy r
  fresh : AllFresh marks
  granted : ∀ {u : SyntaxTree} {id : Nat}, .granted u id ∈ marks →
    ∃ s, t.scope? root = some s ∧ id < s.next
  present : ∀ {s : Scope}, t.scope? root = some s → ∀ x ∈ t.temporaries,
    x < s.next ∨ .imported x ∈ marks

variable {marks : List Mark} {s : Scope}

/-- A record with a mark more is fresh when the mark is. -/
theorem AllFresh.concat {m : Mark} (h : AllFresh marks)
    (hm : ∀ {u : SyntaxTree} {id : Nat}, m = .granted u id → Fresh marks u id) :
    AllFresh (marks ++ [m]) := by
  intro before after u id heq
  rcases List.eq_nil_or_concat after with rfl | ⟨after, last, rfl⟩
  · obtain ⟨rfl, hlast⟩ := List.append_inj' heq rfl
    exact hm (List.singleton_inj.1 hlast)
  · have hsplit : marks ++ [m] = (before ++ .granted u id :: after) ++ [last] := by simpa using heq
    exact h _ _ _ _ (List.append_inj' hsplit rfl).1

/-- Marks for what is brought in do not count as given out. -/
theorem AllFresh.append_imported (h : AllFresh marks) (xs : List Nat) :
    AllFresh (marks ++ xs.map .imported) := by
  induction xs generalizing marks with
  | nil => simpa using h
  | cons x xs ih => simpa using ih (h.concat (m := .imported x) fun hm => by cases hm)

/-- A new tree has nothing to account for. -/
theorem accounted_ofScript (s : Script) : Accounted (ofScript s) [] where
  tidy := ⟨_, tidy_ofScript s⟩
  fresh _ _ _ _ heq := by simp at heq
  granted hm := by simp at hm
  present hs := by cases hs

/-- A tree that names no other temporaries than before, apart from those that are brought in. -/
theorem Accounted.edit (h : Accounted t marks) (xs : List Nat) (ht : ∃ r', t'.Tidy r')
    (hscope : t'.scopes = t.scopes)
    (hx : ∀ {s : Scope}, t.scope? root = some s → ∀ x ∈ t'.temporaries,
      x ∈ t.temporaries ∨ x < s.next ∨ x ∈ xs) :
    Accounted t' (marks ++ xs.map .imported) where
  tidy := ht
  fresh := h.fresh.append_imported xs
  granted hm := by
    rw [scope?, hscope]
    exact h.granted (by simpa using hm)
  present hs x hmem := by
    rw [scope?, hscope] at hs
    simp only [List.mem_append, List.mem_map, Mark.imported.injEq, exists_eq_right]
    rcases hx hs x hmem with hold | hlt | hnew
    · exact (h.present hs x hold).imp_right .inl
    · exact .inl hlt
    · exact .inr (.inr hnew)

/-- What comes of asking for a temporary. -/
theorem Tidy.eq_of_freshTemporary (h : t.Tidy r) {id : Nat}
    (hok : t.freshTemporary n = .ok (id, t')) :
    t.currentScope root = .ok ⟨id⟩ ∧ t' = t.keepScope root ⟨id + 1⟩ := by
  obtain ⟨s, s', hs, hfresh, rfl⟩ := h.eq_of_useScope hok
  unfold Scope.fresh at hfresh
  split at hfresh
  · cases hfresh
    exact ⟨hs, rfl⟩
  · cases hfresh

/-- The source of a tree is behind everything that is accounted for. -/
theorem Accounted.fresh_next (h : Accounted t marks) (hs : t.currentScope root = .ok s) :
    Fresh marks t s.next := by
  cases hscope : t.scope? root with
  | none =>
    -- nothing was given out yet, and the source starts behind what there is
    refine ⟨fun hm => ?_, fun x hx => .inl ?_⟩
    · obtain ⟨s', hs', -⟩ := h.granted hm
      cases hscope.symm.trans hs'
    · obtain ⟨r, hr⟩ := h.tidy
      rw [temporaries, hr.represents.nodes] at hx
      obtain ⟨a, ha, hax⟩ := List.mem_filterMap.1 hx
      exact hr.represents.lt_next hscope hs ha hax
  | some s' =>
    obtain rfl : s' = s := by simpa [currentScope, hscope] using hs
    refine ⟨fun hm => ?_, h.present hscope⟩
    obtain ⟨s'', hs'', hlt⟩ := h.granted hm
    cases hscope.symm.trans hs''
    exact hlt

/-- A temporary that is given out is fresh, and the source goes on behind it. -/
theorem Accounted.grant (h : Accounted t marks) (hs : t.currentScope root = .ok s) :
    Accounted (t.keepScope root ⟨s.next + 1⟩) (marks ++ [.granted t s.next]) := by
  have hfresh := h.fresh_next hs
  obtain ⟨r, hr⟩ := h.tidy
  refine ⟨⟨r, hr.keepScope _⟩, h.fresh.concat fun heq => ?_,
    fun hm => ⟨_, scope?_keepScope, ?_⟩, fun {s'} hs' x hx => ?_⟩
  · cases heq
    exact hfresh
  · rcases List.mem_append.1 hm with hm | hm
    · exact Nat.lt_succ_of_lt (hfresh.granted hm)
    · cases List.mem_singleton.1 hm
      exact Nat.lt_succ_self _
  · cases scope?_keepScope.symm.trans hs'
    have hx := hr.mem_temporaries_keepScope.1 hx
    exact (hfresh.present x hx).imp Nat.lt_succ_of_lt (List.mem_append_left _)

/-- Asking for a temporary is accounted for, whether there is one or not. -/
theorem Accounted.freshTemporary (h : Accounted t marks) (n : Nat) :
    Accounted (((t.freshTemporary n).map Prod.snd).toOption.getD t) (marks ++ t.grants n) := by
  unfold grants
  cases hok : t.freshTemporary n with
  | error fault => simpa [Except.map, Except.toOption] using h
  | ok res =>
    obtain ⟨r, hr⟩ := h.tidy
    obtain ⟨hs, ht⟩ := hr.eq_of_freshTemporary hok
    simpa [Except.map, Except.toOption, ht] using h.grant hs

/-- A replacement is accounted for, whether it is refused or not. -/
theorem Accounted.replace (h : Accounted t marks) {category : Category} {form : Rose Form}
    (hw : form.WellFormed) (hc : form.category = category) :
    Accounted (t.recordReplacement form (t.replace n category form)).2
      (marks ++ (t.recordReplacement form (t.replace n category form)).1) := by
  cases hok : t.replace n category form with
  | error fault => simpa [recordReplacement] using h
  | ok t' =>
    obtain ⟨r, hr⟩ := h.tidy
    obtain ⟨ht, hscope, hx⟩ := hr.temporaries_of_replace hw hc hok
    simp only [recordReplacement, imports]
    cases hs : t.scope? root with
    | none => simpa using h.edit [] ht hscope fun hs' => by cases hs.symm.trans hs'
    | some s =>
      refine h.edit _ ht hscope fun {s'} hs' x hmem => ?_
      cases hs.symm.trans hs'
      rcases hx x hmem with hold | hnew
      · exact .inl hold
      · rcases Nat.lt_or_ge x s.next with hlt | hle
        · exact .inr (.inl hlt)
        · exact .inr (.inr (List.mem_filter.2 ⟨hnew, by simpa using hle⟩))

/-- A removal is accounted for, whether it is refused or not. -/
theorem Accounted.removeStatement (h : Accounted t marks) (n : Nat) :
    Accounted ((t.removeStatement n).toOption.getD t) marks := by
  cases hok : t.removeStatement n with
  | error fault => exact h
  | ok t' =>
    obtain ⟨r, hr⟩ := h.tidy
    obtain ⟨ht, hscope, hx⟩ := hr.temporaries_of_removeStatement hok
    simpa [Except.toOption] using h.edit [] ht hscope fun _ x hmem => .inl (hx x hmem)

/-! ## Eliminations -/

/-- Whether edits write temporaries that were taken before, when the source is at some temporary. -/
def Paid : Nat → List Substitution → Prop
  | _, [] => True
  | next, .take _ :: subs => Paid (next + 1) subs
  | next, .pop _ id :: subs | next, .push _ id :: subs => id < next ∧ Paid next subs

theorem paid_map_pop {next id : Nat} {ns : List Nat} {subs : List Substitution} (hid : id < next)
    (h : Paid next subs) : Paid next (ns.map (.pop · id) ++ subs) := by
  induction ns with
  | nil => exact h
  | cons n ns ih => exact ⟨hid, ih⟩

theorem paid_popEdits {first : Nat} {pairs : List (Nat × List Nat)} {subs : List Substitution}
    (h : Paid (first + pairs.length) subs) : Paid first (popEdits first pairs ++ subs) := by
  induction pairs generalizing first with
  | nil => exact h
  | cons p pairs ih =>
    rw [popEdits_cons, List.append_assoc]
    refine paid_map_pop (Nat.lt_succ_self first) (ih ?_)
    rwa [List.length_cons, Nat.add_left_comm, Nat.add_comm] at h

theorem paid_pushEdits {first next : Nat} {pairs : List (Nat × List Nat)}
    (h : first + pairs.length ≤ next) : Paid next (pushEdits first pairs) := by
  induction pairs generalizing first with
  | nil => trivial
  | cons p pairs ih =>
    rw [List.length_cons] at h
    rw [pushEdits_cons]
    exact ⟨by omega, ih (by omega)⟩

/-- The edits of an elimination take their temporaries before they write them. -/
theorem paid_substitutions {first : Nat} {pairs : List (Nat × List Nat)} :
    Paid first (substitutions first pairs) :=
  paid_popEdits (paid_pushEdits (Nat.le_refl _))

/-- A write of what is there already, apart from temporaries that were taken, brings in nothing. -/
theorem Accounted.write (h : Accounted t marks) (hs : t.scope? root = some s) {category : Category}
    {form : Rose Form} (hw : form.WellFormed) (hc : form.category = category)
    (hok : t.replace n category form = .ok t')
    (hform : ∀ x ∈ form.temporaries, x < s.next ∨ x ∈ t.temporaries) :
    Accounted t' marks ∧ t'.scope? root = some s := by
  obtain ⟨r, hr⟩ := h.tidy
  obtain ⟨ht, hscope, hx⟩ := hr.temporaries_of_replace hw hc hok
  refine ⟨?_, by rwa [scope?, hscope]⟩
  have hedit := h.edit [] ht hscope fun {s'} hs' x hmem => by
    cases hs.symm.trans hs'
    have := hform x
    have := hx x hmem
    tauto
  simpa using hedit

/-- The edits of an elimination are accounted for, up to the first that is refused. -/
theorem Accounted.applyAll {subs : List Substitution} (h : Accounted t marks)
    (hs : t.scope? root = some s) (hpaid : Paid s.next subs) :
    Accounted (Outcome.applyAll substitute t subs).state (marks ++ t.recordEdits subs) := by
  induction subs generalizing t marks s with
  | nil => simpa [Outcome.applyAll, recordEdits] using h
  | cons sub subs ih =>
    unfold Outcome.applyAll recordEdits
    cases hok : t.substitute sub with
    | error fault => simpa [Outcome.failed] using h
    | ok t' =>
      simp only
      rw [← List.append_assoc]
      cases sub with
      | take n =>
        obtain ⟨⟨id, u⟩, hfresh, hu⟩ := bind_eq_ok.1 hok
        cases hu
        obtain ⟨r, hr⟩ := h.tidy
        obtain ⟨hcurrent, rfl⟩ := hr.eq_of_freshTemporary hfresh
        obtain rfl : s = ⟨id⟩ := by simpa [currentScope, hs] using hcurrent
        rw [Substitution.marks, grants, hfresh]
        exact ih (h.grant hcurrent) scope?_keepScope hpaid
      | pop n id =>
        have hform : ∀ x ∈ (Expr.temporary id).rose.temporaries, x < s.next := fun x hx => by
          obtain rfl : x = id := by simpa using hx
          exact hpaid.1
        obtain ⟨h', hs'⟩ := h.write hs (Expr.wellFormed_rose _) (Expr.category_rose _) hok
          fun x hx => .inl (hform x hx)
        simpa [Substitution.marks] using ih h' hs' hpaid.2
      | push n id =>
        obtain ⟨stmt, hread, hwrite⟩ := bind_eq_ok.1 hok
        split at hwrite
        · next value loc =>
          obtain ⟨r, hr⟩ := h.tidy
          have hvalue := hr.temporaries_of_statement hread
          rw [Stmt.temporaries_push] at hvalue
          obtain ⟨h', hs'⟩ := h.write hs (Stmt.wellFormed_rose _) (Stmt.category_rose _) hwrite
            fun x hx => (by
              rw [Stmt.temporaries_assign, List.mem_cons] at hx
              rcases hx with rfl | hx
              · exact .inl hpaid.1
              · exact .inr (hvalue x hx))
          simpa [Substitution.marks] using ih h' hs' hpaid.2
        · cases hwrite

/-- The first edit of an elimination takes a temporary. -/
theorem substitutions_cons (first : Nat) (p : Nat × List Nat) (pairs : List (Nat × List Nat)) :
    ∃ subs, substitutions first (p :: pairs) = .take p.1 :: subs ∧ Paid (first + 1) subs := by
  have hpaid : Paid first (substitutions first (p :: pairs)) := paid_substitutions
  rw [substitutions_eq, popEdits_cons] at hpaid ⊢
  exact ⟨_, rfl, hpaid⟩

/-- An elimination is accounted for, however it ends. -/
theorem Accounted.bindPushes (h : Accounted t marks) :
    Accounted t.bindPushes.state (marks ++ t.recordEdits (t.eliminations.toOption.getD [])) := by
  unfold SyntaxTree.bindPushes
  cases hfound : t.eliminations with
  | error fault => simpa [Outcome.ofEdits, Outcome.failed, Except.toOption, recordEdits] using h
  | ok subs =>
    obtain ⟨usage, -, hrest⟩ := bind_eq_ok.1 hfound
    cases hpairs : t.pushPops usage with
    | nil =>
      obtain rfl : subs = [] := by simpa [hpairs, pure, Except.pure] using hrest.symm
      simpa [Outcome.ofEdits, Outcome.unchanged, Except.toOption, recordEdits] using h
    | cons p pairs =>
      simp only [hpairs, List.isEmpty_cons, Bool.false_eq_true, if_false] at hrest
      obtain ⟨s, hs, hrest⟩ := bind_eq_ok.1 hrest
      cases hrest
      obtain ⟨subs, hsubs, hpaid⟩ := substitutions_cons s.next p pairs
      rw [hsubs]
      simp only [Outcome.ofEdits, Outcome.applyAll, Except.toOption, Option.getD_some, recordEdits]
      cases hok : t.substitute (.take p.1) with
      | error fault => simpa [Outcome.failed] using h
      | ok t' =>
        -- from now on there is a source, and the other edits write what it has given out
        obtain ⟨⟨id, u⟩, hfresh, hu⟩ := bind_eq_ok.1 hok
        cases hu
        obtain ⟨r, hr⟩ := h.tidy
        obtain ⟨hcurrent, rfl⟩ := hr.eq_of_freshTemporary hfresh
        obtain rfl := Except.ok.inj (hs.symm.trans hcurrent)
        simp only [Substitution.marks, grants, hfresh]
        rw [← List.append_assoc]
        exact (h.grant hcurrent).applyAll scope?_keepScope hpaid

/-! ## Histories -/

/-- Whatever is done to a tree is accounted for. -/
theorem Accounted.run (h : Accounted t marks) (deed : Deed) :
    Accounted (deed.run t).2 (marks ++ (deed.run t).1) := by
  cases deed with
  | replaceStatement n s => exact h.replace s.wellFormed_rose s.category_rose
  | replaceExpression n e => exact h.replace e.wellFormed_rose e.category_rose
  | replaceTarget n p => exact h.replace p.wellFormed_rose p.category_rose
  | removeStatement n => simpa [Deed.run] using h.removeStatement n
  | freshTemporary n => exact h.freshTemporary n
  | bindPushes => exact h.bindPushes

/-- Along a history all that is given out is fresh. -/
theorem Accounted.record (h : Accounted t marks) (deeds : List Deed) :
    AllFresh (marks ++ t.record deeds) := by
  induction deeds generalizing t marks with
  | nil => simpa [SyntaxTree.record] using h.fresh
  | cons deed deeds ih =>
    rw [SyntaxTree.record, ← List.append_assoc]
    exact ih (h.run deed)

/-- Along every history of a new tree, a temporary that is given out is after all that were given
out before, and it is not in the script, unless an edit has brought it in ahead of the source. -/
theorem fresh_of_history (s : Script) (deeds : List Deed) {before after : List Mark}
    {u : SyntaxTree} {id : Nat}
    (h : (ofScript s).record deeds = before ++ .granted u id :: after) :
    (∀ (u' : SyntaxTree) (id' : Nat), .granted u' id' ∈ before → id' < id) ∧
      ∀ x ∈ u.temporaries, x < id ∨ .imported x ∈ before := by
  have hfresh := (accounted_ofScript s).record deeds _ _ _ _ h
  exact ⟨fun _ _ hm => hfresh.granted hm, hfresh.present⟩

/-- A temporary that an elimination takes, between two that are asked for. -/
theorem fresh_of_history_handover : ∃ t₁ t₂ t₃ : SyntaxTree,
    let before := [Mark.granted t₁ 0, Mark.granted t₂ 1]
    (ofScript .handover).record [.freshTemporary root, .bindPushes, .freshTemporary root] =
        before ++ .granted t₃ 2 :: [] ∧ t₃.temporaries = [1, 1] ∧
      (∀ (u : SyntaxTree) (id : Nat), .granted u id ∈ before → id < 2) ∧
      ∀ x ∈ t₃.temporaries, x < 2 ∨ .imported x ∈ before := by
  refine ⟨_, _, _, rfl, rfl, ?_⟩
  exact fresh_of_history .handover [.freshTemporary root, .bindPushes, .freshTemporary root] rfl

/-- The source gives out a temporary that the script names: it was made before that was brought
in. -/
theorem granted_present :
    let s : Script := { body := [.push (.string "a") none] }
    ∃ t₁ t₂ : SyntaxTree, (ofScript s).record
        [.freshTemporary root, .replaceExpression 2 (.temporary 1), .freshTemporary root] =
        [.granted t₁ 0, .imported 1, .granted t₂ 1] ∧ t₂.temporaries = [1] := by
  refine ⟨_, _, rfl, rfl⟩

end SyntaxTree

end ScriptRecovery
