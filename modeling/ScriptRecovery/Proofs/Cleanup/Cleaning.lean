import ScriptRecovery.Proofs.Arena.Refinement
import ScriptRecovery.Proofs.Cleanup.Sifting
import ScriptRecovery.Proofs.Cleanup.Sweep

/-!
# What a cleanup leaves

The numbers that a cleanup collects are those of the statements that go (`Rose.Going`): in lists
alone, or everywhere if arms are emptied.  An edit at one of them takes it away, keeps what is left
of the tree when everything goes, and leaves the others in their lists (`Rose.Without`), so the rest
of the numbers are those of what is still to go.  At the end nothing is, and the tree is what was
left of the tree at the beginning.

There is one statement fewer after each edit.  So a cleanup with edits to make changes the script,
and one that changes nothing had none to make.  All this holds whether a cleanup filters the nodes
of the script or walks through the tree (`SyntaxTree.Cleans`).
-/

namespace ScriptRecovery

open Rose

namespace Rose

variable {q : Kind → Bool} {emptied : Bool} {r r' : Rose (Nat × Form)} {n : Nat} {ns : List Nat}

/-- A place that is not the root's is among the parts of a node. -/
theorem Context.exists_parent {α : Type} {C : Context α} (h : C ≠ []) :
    ∃ (C' : Context α) (a : α) (left right : List (Rose α)),
      ∀ x, C.plug x = C'.plug (.node a (left ++ x :: right)) := by
  induction C with
  | nil => exact absurd rfl h
  | cons c C ih =>
    cases C with
    | nil => exact ⟨[], c.label, c.left, c.right, fun _ => rfl⟩
    | cons d C =>
      obtain ⟨C', a, left, right, hplug⟩ := ih (by simp)
      exact ⟨c :: C', a, left, right, fun x => by rw [Context.plug, hplug, Context.plug]⟩

/-- The numbers of the nodes of a sort, in preorder. -/
def numbersOf (q : Kind → Bool) (r : Rose (Nat × Form)) : List Nat :=
  (r.labels.filter (q ·.2.kind)).map Prod.fst

/-- Whether numbers are those of the statements that go. -/
def Going (q : Kind → Bool) (emptied : Bool) (r : Rose (Nat × Form)) (ns : List Nat) : Prop :=
  ∀ n, n ∈ ns ↔ n ∈ r.numbersOf q ∧ (emptied = false → Listed n r)

/-- Whether a tree is another one without a statement that goes. -/
structure Without (q : Kind → Bool) (emptied : Bool) (n : Nat) (r r' : Rose (Nat × Form)) :
    Prop where
  sift : r'.forms.sift q emptied = r.forms.sift q emptied
  numbers : (r.numbersOf q).Perm (n :: r'.numbersOf q)
  listed : emptied = false → ∀ m ≠ n, Listed m r' ↔ Listed m r

theorem mem_numbersOf :
    n ∈ r.numbersOf q ↔ ∃ form, (n, form) ∈ r.labels ∧ q form.kind = true := by
  simp [numbersOf]

theorem length_numbersOf (q : Kind → Bool) (r : Rose (Nat × Form)) :
    (r.numbersOf q).length = r.forms.labels.countP (q ·.kind) := by
  rw [numbersOf, List.length_map, ← List.countP_eq_length_filter, forms, labels_map,
    List.countP_map]
  rfl

theorem nodup_numbersOf (h : r.numbers.Nodup) : (r.numbersOf q).Nodup :=
  h.sublist (List.filter_sublist.map _)

/-- A tree is what is left of it when the statements of the sort may stay where they are. -/
theorem sift_eq_self_of_stay (hstay : ∀ {n form}, (n, form) ∈ r.labels → q form.kind = true →
    emptied = false ∧ ¬Listed n r) : r.forms.sift q emptied = r.forms := by
  induction r using Rose.induct with
  | h label parts ih =>
    obtain ⟨k, f⟩ := label
    have hroot : (emptied && q f.kind) = false := by
      cases hk : q f.kind with
      | false => exact Bool.and_false _
      | true => rw [(hstay (n := k) (by simp) hk).1, Bool.false_and]
    have hbelow : ∀ x ∈ parts, ∀ a ∈ x.labels, a ∈ (Rose.node (k, f) parts).labels :=
      fun x hx a ha => by
        rw [labels_node]
        exact List.mem_cons_of_mem _ (mem_labelsAll.2 ⟨x, hx, ha⟩)
    rw [forms_node, sift, hroot, if_neg (by simp), siftAll_eq_self]
    · intro y hy
      obtain ⟨x, hx, rfl⟩ := List.mem_map.1 hy
      obtain ⟨⟨m, g⟩, below⟩ := x
      cases hk : q g.kind with
      | false => rw [forms_node, label, hk, Bool.and_false]
      | true =>
        have hnot := (hstay (hbelow _ hx _ (label_mem_labels _)) hk).2
        cases hl : f.kind.isList with
        | false => exact Bool.false_and _
        | true => exact absurd (.here (Kind.isList_iff.1 hl) hx rfl) hnot
    · intro y hy
      obtain ⟨x, hx, rfl⟩ := List.mem_map.1 hy
      refine ih x hx fun hn hk => ?_
      have hboth := hstay (hbelow x hx _ hn) hk
      exact ⟨hboth.1, fun hl => hboth.2 (.there hx hl)⟩

/-- When nothing is to go, a tree is what is left of it. -/
theorem Going.sift_eq_self (h : Going q emptied r []) : r.forms.sift q emptied = r.forms := by
  refine sift_eq_self_of_stay fun {n form} hn hk => ?_
  have hnot := mt (h n).2 (by simp)
  rw [not_and, Classical.not_imp] at hnot
  exact hnot (mem_numbersOf.2 ⟨form, hn, hk⟩)

theorem Without.mem_numbersOf_iff (h : Without q emptied n r r') (hr : r.numbers.Nodup) {m : Nat} :
    m ∈ r'.numbersOf q ↔ m ≠ n ∧ m ∈ r.numbersOf q := by
  have hnodup := h.numbers.nodup_iff.1 (nodup_numbersOf hr)
  rw [h.numbers.mem_iff, List.mem_cons]
  constructor
  · intro hm
    refine ⟨?_, .inr hm⟩
    rintro rfl
    exact (List.nodup_cons.1 hnodup).1 hm
  · rintro ⟨hne, heq | hm⟩
    · exact absurd heq hne
    · exact hm

/-- The rest of the statements are still to go. -/
theorem Without.going (h : Without q emptied n r r') (hr : r.numbers.Nodup) (hn : (n :: ns).Nodup)
    (hg : Going q emptied r (n :: ns)) : Going q emptied r' ns := by
  intro m
  constructor
  · intro hm
    have hne : m ≠ n := by
      rintro rfl
      exact (List.nodup_cons.1 hn).1 hm
    obtain ⟨hgoes, hl⟩ := (hg m).1 (List.mem_cons_of_mem _ hm)
    exact ⟨(h.mem_numbersOf_iff hr).2 ⟨hne, hgoes⟩, fun he => (h.listed he m hne).2 (hl he)⟩
  · rintro ⟨hgoes, hl⟩
    obtain ⟨hne, hgoes⟩ := (h.mem_numbersOf_iff hr).1 hgoes
    have hm := (hg m).2 ⟨hgoes, fun he => (h.listed he m hne).1 (hl he)⟩
    exact (List.mem_cons.1 hm).resolve_left hne

end Rose

namespace SyntaxTree

variable {q : Kind → Bool} {emptied : Bool} {t : SyntaxTree} {r : Rose (Nat × Form)} {n : Nat}
  {form : Form}

/-! ## One edit -/

/-- A statement that goes is taken out of its list. -/
theorem Editable.remove_without (hq : Leafy q) (h : t.Editable r) (hn : (n, form) ∈ r.labels)
    (hk : q form.kind = true) (hl : Listed n r) :
    ∃ t' r', t.removeStatement n = .ok t' ∧ t'.Editable r' ∧ Without q emptied n r r' := by
  obtain ⟨t', C, k, f, left, right, rfl, hf, hok, ht'⟩ := h.remove_at (p := fun k => q k = true)
    hq.leaf hn hk hl
  refine ⟨t', _, hok, ht', ?_, ?_, fun _ m hm => ⟨.of_remove, fun hl => hl.remove hm⟩⟩
  · simp only [forms, map_plug, map_node, List.map_append, List.map_cons, List.map_nil]
    exact (sift_remove (Kind.isList_iff.2 hf) hk)
  · have hmiddle : (C.plug (.node (k, f) (left ++ .node (n, form) [] :: right))).labels.Perm
        ((n, form) :: (C.plug (.node (k, f) (left ++ right))).labels) := by
      have hperm : ((C.before ++ (k, f) :: labelsAll left) ++
          (n, form) :: (labelsAll right ++ C.after)).Perm _ := List.perm_middle
      simpa [labels_plug, labelsAll_append, labelsAll] using hperm
    simpa [numbersOf, hk] using (hmiddle.filter fun a => q a.2.kind).map Prod.fst

/-- A statement that goes and is in no list gives way to the empty one. -/
theorem Editable.clear_without (hq : Leafy q) (hempty : q .empty = false) (h : t.Editable r)
    (hn : (n, form) ∈ r.labels) (hk : q form.kind = true) (hl : t.inList n = false) :
    ∃ t' r', t.replaceStatement n (.empty none) = .ok t' ∧ t'.Editable r' ∧
      Without q true n r r' := by
  obtain ⟨t', C, rfl, hok, ht'⟩ := h.clear_at (p := fun k => q k = true) hq.leaf hn hk
    (hq.statement hk)
  have hne : C ≠ [] := by
    rintro rfl
    have hscript := h.category
    rw [Context.plug, forms_node, category_node, hq.statement hk] at hscript
    cases hscript
  refine ⟨t', _, hok, ht', ?_, ?_, fun h => by cases h⟩
  · obtain ⟨C', ⟨k, f⟩, left, right, hplug⟩ := Context.exists_parent hne
    have hf : f.kind.isList = false := by
      refine Bool.eq_false_iff.2 fun hlist => ?_
      have hin := h.inList (n := n) (by
        rw [hplug]
        exact Listed.plug (.here (x := .node (n, form) []) (Kind.isList_iff.1 hlist) (by simp) rfl))
      rw [hl] at hin
      cases hin
    rw [hplug, hplug]
    simp only [forms, map_plug, map_node, List.map_append, List.map_cons, List.map_nil]
    exact sift_clear hf hk
  · simp [numbersOf, labels_plug, labelsAll, hk, hempty]

theorem Editable.dropStatement_without (hq : Leafy q) (hempty : q .empty = false)
    (h : t.Editable r) (hn : (n, form) ∈ r.labels) (hk : q form.kind = true) :
    ∃ t' r', t.dropStatement n = .ok t' ∧ t'.Editable r' ∧ Without q true n r r' := by
  rw [SyntaxTree.dropStatement]
  cases hl : t.inList n with
  | true =>
    rw [if_pos rfl]
    exact h.remove_without hq hn hk (h.listed (List.mem_map_of_mem hn) hl)
  | false =>
    rw [if_neg (by simp)]
    exact h.clear_without hq hempty hn hk hl

/-! ## A cleanup -/

/-- Whether a cleanup makes what a function says of a tree, and answers whether that changed it. -/
def Makes (f : Rose Form → Rose Form) (t : SyntaxTree) (r : Rose (Nat × Form))
    (o : Outcome SyntaxTree) : Prop :=
  ∃ t' r' changed, o = ⟨t', .ok changed⟩ ∧ t'.Editable r' ∧ r'.forms = f r.forms ∧
    f r'.forms = r'.forms ∧ (changed = true ↔ r'.forms ≠ r.forms) ∧ (changed = false → t' = t)

/-- Edits at what goes make what is left of the tree. -/
theorem Editable.makes_sift {edit : SyntaxTree → Nat → Except Fault SyntaxTree} {ns : List Nat}
    (hedit : ∀ {t r n form}, t.Editable r → (n, form) ∈ r.labels → q form.kind = true →
      (emptied = false → Listed n r) →
        ∃ t' r', edit t n = .ok t' ∧ t'.Editable r' ∧ Without q emptied n r r')
    (h : t.Editable r) (hn : ns.Nodup) (hg : Going q emptied r ns) :
    Makes (Rose.sift q emptied) t r (.ofEdits edit t (.ok ns)) := by
  cases ns with
  | nil =>
    exact ⟨t, r, false, rfl, h, hg.sift_eq_self.symm, hg.sift_eq_self, by simp, fun _ => rfl⟩
  | cons n ns =>
    -- What is left never changes, and there are as many statements fewer as edits are made.
    have hrun : ∃ t' r', Outcome.applyAll edit t (n :: ns) = ⟨t', .ok true⟩ ∧ t'.Editable r' ∧
        Going q emptied r' [] ∧ r'.forms.sift q emptied = r.forms.sift q emptied ∧
          (r'.numbersOf q).length + (n :: ns).length = (r.numbersOf q).length := by
      refine h.applyAll_ok (T := fun r₁ ns₁ => Going q emptied r₁ ns₁ ∧
        r₁.forms.sift q emptied = r.forms.sift q emptied ∧
          (r₁.numbersOf q).length + (n :: ns).length = (r.numbersOf q).length + ns₁.length) ?_ hn
        ⟨hg, rfl, rfl⟩
      rintro t₁ r₁ m ms h₁ hm ⟨hg₁, hsift, hcount⟩
      obtain ⟨hgoes, hl⟩ := (hg₁ m).1 (by simp)
      obtain ⟨form, hin, hk⟩ := mem_numbersOf.1 hgoes
      obtain ⟨t₂, r₂, hok, h₂, hw⟩ := hedit h₁ hin hk hl
      have hone := hw.numbers.length_eq
      simp only [List.length_cons] at hone hcount ⊢
      exact ⟨t₂, r₂, hok, h₂, hw.going h₁.represents.nodup hm hg₁, hw.sift.trans hsift, by omega⟩
    obtain ⟨t', r', hok, h', hgoing, hsift, hcount⟩ := hrun
    have hfix := hgoing.sift_eq_self
    have hchanged : r'.forms ≠ r.forms := by
      intro hsame
      rw [length_numbersOf, length_numbersOf, hsame, List.length_cons] at hcount
      omega
    exact ⟨t', r', true, hok, h', hfix.symm.trans hsift, hfix, iff_of_true rfl hchanged,
      fun h => by cases h⟩

/-- Empty statements go out of all lists. -/
theorem Editable.makes_dropEmptyStatements (h : t.Editable r) :
    Makes (Rose.sift (fun k => decide (k = .empty)) false) t r t.dropEmptyStatements := by
  refine h.makes_sift (fun h hn hk hl => h.remove_without leafy_empty hn hk (hl rfl))
    (List.nodup_reverse.2 (h.represents.nodup_filter _)) fun n => ?_
  rw [emptyStatements, List.mem_reverse, h.represents.mem_filter, mem_numbersOf]
  constructor
  · rintro ⟨form, hn, hk⟩
    obtain ⟨hk, hl⟩ := Bool.and_eq_true_iff.1 hk
    exact ⟨⟨form, hn, hk⟩, fun _ => h.listed (List.mem_map_of_mem hn) hl⟩
  · rintro ⟨⟨form, hn, hk⟩, hl⟩
    exact ⟨form, hn, Bool.and_eq_true_iff.2 ⟨hk, h.inList (hl rfl)⟩⟩

/-- Definitions of constant pools go, unless an entry is used. -/
theorem Editable.makes_dropUnusedPools (h : t.Editable r) :
    Makes Rose.withoutUnusedPools t r t.dropUnusedPools := by
  have huses : t.nodes.any (usesPool ·.2.kind) = r.forms.labels.any (usesPool ·.kind) := by
    rw [h.represents.nodes, forms, labels_map, List.any_map]
    rfl
  rw [SyntaxTree.dropUnusedPools, unusedPools, huses]
  split
  · next hany =>
    have hsame : r.forms.withoutUnusedPools = r.forms := by
      rw [Rose.withoutUnusedPools, if_pos hany]
    exact ⟨t, r, false, rfl, h, hsame.symm, hsame, by simp, fun _ => rfl⟩
  · next hnone =>
    have hgoing : Going definesPool true r
        ((t.nodes.filter fun n => definesPool n.2.kind).map Prod.fst).reverse := by
      intro n
      rw [List.mem_reverse, h.represents.nodes]
      exact (and_iff_left fun h => by cases h).symm
    obtain ⟨t', r', changed, hok, h', hforms, hfix, hrest⟩ := h.makes_sift
      (fun h hn hk _ => h.dropStatement_without leafy_definesPool rfl hn hk)
      (List.nodup_reverse.2 (h.represents.nodup_filter _)) hgoing
    refine ⟨t', r', changed, hok, h', ?_, ?_, hrest⟩
    · rw [Rose.withoutUnusedPools, if_neg hnone, hforms]
    · rw [Rose.withoutUnusedPools]
      split
      · rfl
      · exact hfix

/-! ## Scripts -/

/-- Whether a cleanup does what a function of scripts says: it succeeds, leaves what the function
gives, answers whether that is another script, and has nothing left to do. -/
def Cleans (run : SyntaxTree → Outcome SyntaxTree) (clean : Script → Script) (t : SyntaxTree)
    (s : Script) : Prop :=
  ∃ t' changed, run t = ⟨t', .ok changed⟩ ∧ t'.toScript = .ok (clean s) ∧
    (changed = true ↔ clean s ≠ s) ∧ (changed = false → t' = t) ∧ run t' = ⟨t', .ok false⟩

/-- A cleanup that makes what a function says of trees does so of scripts. -/
theorem Editable.cleans {run : SyntaxTree → Outcome SyntaxTree} {clean : Script → Script}
    {f : Rose Form → Rose Form} (hrun : ∀ {t r}, t.Editable r → Makes f t r (run t))
    (hclean : ∀ s, (clean s).rose = f s.rose) (h : t.Editable r) {s : Script}
    (hs : s.rose = r.forms) : Cleans run clean t s := by
  obtain ⟨t', r', changed, hok, h', hforms, hfix, hchanged, hsame⟩ := hrun h
  obtain ⟨s', hread, hs'⟩ := h'.represents.toScript_eq_ok h'.wellFormed h'.category
  obtain rfl : s' = clean s := Script.rose_injective (by rw [hs', hclean, hs, hforms])
  have hsecond : run t' = ⟨t', .ok false⟩ := by
    obtain ⟨t₂, r₂, again, hok₂, -, hforms₂, -, hagain, hsame₂⟩ := hrun h'
    have hnot : again = false := by
      refine Bool.eq_false_iff.2 fun htrue => hagain.1 htrue ?_
      rw [hforms₂, hfix]
    rw [hok₂, hnot, hsame₂ hnot]
  refine ⟨t', changed, hok, hread, ?_, hsame, hsecond⟩
  rw [hchanged, ← hs', ← hs, Script.rose_injective.ne_iff]

/-- A cleanup does what another one does that answers the same, before and after. -/
theorem Cleans.of_eq {run run' : SyntaxTree → Outcome SyntaxTree} {clean : Script → Script}
    {s : Script} (h : Cleans run clean t s) (hbefore : run' t = run t)
    (hafter : run' (run t).state = run (run t).state) : Cleans run' clean t s := by
  obtain ⟨t', changed, hok, hread, hchanged, hsame, hsecond⟩ := h
  rw [hok] at hafter
  exact ⟨t', changed, hbefore.trans hok, hread, hchanged, hsame, hafter.trans hsecond⟩

/-- After any calls on a new arena, and while no walk is under way, empty statements and unused
definitions of constant pools are cleaned up as functions of the script say, also by the cleanups
that walk. -/
theorem cleaned_of_history (s : Script) (calls : List Call)
    (hidle : (calls.foldl perform (ofScript s)).isWalked = false) :
    ∃ s', (calls.foldl perform (ofScript s)).toScript = .ok s' ∧ (calls = [] → s' = s) ∧
      Cleans dropEmptyStatements Script.withoutEmpties (calls.foldl perform (ofScript s)) s' ∧
      Cleans sweepEmpties Script.withoutEmpties (calls.foldl perform (ofScript s)) s' ∧
      Cleans dropUnusedPools Script.withoutUnusedPools (calls.foldl perform (ofScript s)) s' ∧
      Cleans sweepPools Script.withoutUnusedPools (calls.foldl perform (ofScript s)) s' := by
  obtain ⟨r, s', htidy, hread, hs', hnew⟩ := tidy_of_history s calls
  have h := htidy.editable (by simpa [isWalked] using hidle)
  have hempties := h.cleans (fun h => h.makes_dropEmptyStatements) Script.rose_withoutEmpties hs'
  have hpools := h.cleans (fun h => h.makes_dropUnusedPools) Script.rose_withoutUnusedPools hs'
  obtain ⟨r₁, hleft⟩ := htidy.dropEmptyStatements
  obtain ⟨r₂, hleft'⟩ := htidy.dropUnusedPools
  exact ⟨s', hread, hnew, hempties, hempties.of_eq htidy.sweepEmpties_eq hleft.sweepEmpties_eq,
    hpools, hpools.of_eq htidy.sweepPools_eq hleft'.sweepPools_eq⟩

/-- A definition and an empty statement, each in a list and as an arm. -/
theorem cleaned_of_history_arms :
    let pool : Stmt := .constantPool ["a"] none
    let arms (truthy : Stmt) : Stmt := .branch (.string "a") truthy (some (.empty none)) none
    let s : Script := { body := [.block [.empty none, pool, arms pool] none, pool] }
    s.withoutEmpties = { body := [.block [pool, arms pool] none, pool] } ∧
      s.withoutUnusedPools = { body := [.block [.empty none, arms (.empty none)] none] } ∧
      Cleans sweepEmpties Script.withoutEmpties (ofScript s) s ∧
      Cleans sweepPools Script.withoutUnusedPools (ofScript s) s := by
  intro pool arms s
  obtain ⟨s', -, hnew, -, hempties, -, hpools⟩ := cleaned_of_history s [] rfl
  obtain rfl := hnew rfl
  exact ⟨rfl, rfl, hempties, hpools⟩

end SyntaxTree

end ScriptRecovery
