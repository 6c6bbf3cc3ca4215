import ScriptRecovery.Arena.InPlace
import ScriptRecovery.Proofs.Arena.Refinement

/-!
# Edits in place leave what the edits give

On a tidy arena an edit in place leaves the tree that `Edit.run` gives, and the tree it was called
on when it is refused (`Tidy.inPlace`).  The writes come in another order: the children of a node
are freed one after another and not at once, and a statement that is taken out is freed after its
parent and its siblings have changed.  Since the numbers of a tidy arena are apart, each write finds
what is below a node as it was before the others (`free_eq`, `cell_vacate_one`).  Nodes and links
are compared number by number, and an arena is these, its scopes and its walks (`eq_of_cells`).
-/

namespace ScriptRecovery

open Rose

namespace SyntaxTree

variable {t t' : SyntaxTree} {link : Option ParentLink} {r : Rose (Nat × Form)} {n m : Nat}

/-! ## Arenas number by number -/

theorem eq_of_getElem?_join {α : Type} {xs ys : Array (Option α)} (hsize : xs.size = ys.size)
    (h : ∀ m : Nat, xs[m]?.join = ys[m]?.join) : xs = ys := by
  refine Array.ext hsize fun i hi hi' => ?_
  have hi := h i
  simp only [Array.getElem?_eq_getElem, *] at hi
  exact hi

/-- Arenas with the same nodes and links are the same, but for scopes and walks. -/
theorem eq_of_cells (hslots : t.slots.size = t'.slots.size)
    (hparents : t.parents.size = t'.parents.size) (hcell : ∀ m, t.cell m = t'.cell m)
    (hscopes : t.scopes = t'.scopes) (hreaders : t.readers = t'.readers)
    (hticket : t.nextTicket = t'.nextTicket) : t = t' := by
  have h₁ := eq_of_getElem?_join hslots fun m => congrArg Prod.fst (hcell m)
  have h₂ := eq_of_getElem?_join hparents fun m => congrArg Prod.snd (hcell m)
  cases t
  cases t'
  simp_all

/-- Freeing a node clears the numbers of what is there, and no others. -/
theorem cell_vacate_one (h : t.Holds link r) (hn : r.numbers.Nodup) :
    (t.vacate [r.number]).cell m = if m ∈ r.numbers then (none, none) else t.cell m := by
  have hcell : (t.vacate ([r].map number)).cell m = _ :=
    cell_vacate (by simpa using ⟨link, h⟩) (by simpa using hn)
  rwa [List.flatMap_singleton] at hcell

theorem scopes_vacate_one (h : t.Holds link r) (hn : r.numbers.Nodup) :
    (t.vacate [r.number]).scopes = t.scopes.filter fun x => x.1 ∉ r.numbers := by
  have hscopes : (t.vacate ([r].map number)).scopes = _ :=
    scopes_vacate (by simpa using ⟨link, h⟩) (by simpa using hn)
  rwa [List.flatMap_singleton] at hscopes

/-- Freeing nodes one after another, when they are apart, is as freeing them at once. -/
theorem free_eq {rs : List (Rose (Nat × Form))} (h : ∀ x ∈ rs, ∃ link, t.Holds link x)
    (hn : (rs.flatMap numbers).Nodup) :
    (∀ m, (t.free (rs.map number)).cell m =
        if m ∈ rs.flatMap numbers then (none, none) else t.cell m) ∧
      (t.free (rs.map number)).scopes = t.scopes.filter fun x => x.1 ∉ rs.flatMap numbers := by
  induction rs generalizing t with
  | nil => exact ⟨fun _ => rfl, by simp [free]⟩
  | cons x rs ih =>
    rw [List.flatMap_cons, List.nodup_append] at hn
    obtain ⟨hx, hrs, hapart⟩ := hn
    obtain ⟨link, hheld⟩ := h x List.mem_cons_self
    have hone : ∀ m, (t.vacate [x.number]).cell m = _ := fun m => cell_vacate_one hheld hx
    have hrest : ∀ y ∈ rs, ∃ link, (t.vacate [x.number]).Holds link y := fun y hy => by
      obtain ⟨link, hheld⟩ := h y (List.mem_cons_of_mem _ hy)
      refine ⟨link, hheld.congr fun k hk => ?_⟩
      have hout : k ∉ x.numbers := fun hkx =>
        hapart k hkx k (List.mem_flatMap.2 ⟨y, hy, hk⟩) rfl
      rw [hone, if_neg hout]
    obtain ⟨hcell, hscopes⟩ := ih hrest hrs
    rw [List.map_cons, free, List.foldl_cons, ← free, List.flatMap_cons]
    refine ⟨fun m => ?_, ?_⟩
    · rw [hcell, hone]
      by_cases hmx : m ∈ x.numbers
      · simp [hmx]
      · simp [hmx]
    · rw [hscopes, scopes_vacate_one hheld hx, List.filter_filter]
      refine List.filter_congr fun y _ => ?_
      by_cases hy : y.1 ∈ x.numbers <;> simp [hy]

theorem free_rest (t : SyntaxTree) (ns : List Nat) : (t.free ns).readers = t.readers ∧
    (t.free ns).nextTicket = t.nextTicket ∧ (t.free ns).slots.size = t.slots.size ∧
      (t.free ns).parents.size = t.parents.size := by
  induction ns generalizing t with
  | nil => exact ⟨rfl, rfl, rfl, rfl⟩
  | cons n ns ih =>
    obtain ⟨h₁, h₂, h₃, h₄⟩ := ih (t.vacate [n])
    exact ⟨h₁, h₂, h₃.trans size_slots_vacate, h₄.trans size_parents_vacate⟩

theorem cell_setChildren {children : List Nat} : (t.setChildren n children).cell m =
    (if m = n then (t.slot? m).map fun s => { s with children } else t.slot? m, t.parent? m) :=
  Prod.ext getElem?_modify_map rfl

/-! ## Replacing -/

/-- What is planted over arenas that agree on all else is the same. -/
theorem plantAt_congr {form : Rose Form} (ha : t.parents.size = t.slots.size)
    (hn : n < t.slots.size) (hslots : t.slots.size = t'.slots.size)
    (hparents : t.parents.size = t'.parents.size) (hcell : ∀ m, m ≠ n → t.cell m = t'.cell m)
    (hlink : t.parent? n = t'.parent? n) (hscopes : t.scopes = t'.scopes)
    (hreaders : t.readers = t'.readers) (hticket : t.nextTicket = t'.nextTicket) :
    t.plantAt n form = t'.plantAt n form := by
  refine eq_of_cells ?_ ?_ (fun m => ?_) hscopes hreaders hticket
  · simp [plantAt, hslots]
  · simp [plantAt, hparents, hslots]
  · rw [cell_plantAt ha hn, cell_plantAt (by rw [← hslots, ← hparents, ha]) (hslots ▸ hn),
      hslots, hlink]
    by_cases hm : m = n
    · simp [hm]
    · simp [hm, hcell m hm]

section Preparing

variable {f : Form} {parts : List (Rose (Nat × Form))}
  (h : t.Holds link (.node (n, f) parts)) (hn : (Rose.node (n, f) parts).numbers.Nodup)

include h hn

/-- What there is after a place is made ready. -/
theorem prepared_eq :
    (∀ m, ((t.setChildren n []).free (parts.map number)).cell m =
        if m ∈ parts.flatMap numbers then (none, none)
        else if m = n then (some ⟨f, []⟩, link) else t.cell m) ∧
      ((t.setChildren n []).free (parts.map number)).scopes =
        t.scopes.filter fun x => x.1 ∉ parts.flatMap numbers := by
  have hparts : ∀ x ∈ parts, ∃ link, (t.setChildren n []).Holds link x := fun x hx => by
    obtain ⟨link, hheld⟩ := h.mem_part hx
    refine ⟨link, hheld.congr fun k hk => ?_⟩
    have hkn : k ≠ n := fun hkn => (nodup_part hn x hx).2 (hkn ▸ hk)
    rw [cell_setChildren, if_neg hkn]
    rfl
  have hapart : (parts.flatMap numbers).Nodup := by
    rw [numbers_node] at hn
    exact (List.nodup_cons.1 hn).2
  obtain ⟨hcell, hscopes⟩ := free_eq hparts hapart
  refine ⟨fun m => ?_, hscopes⟩
  rw [hcell, cell_setChildren]
  by_cases hm : m = n
  · subst hm
    rw [if_pos rfl, if_pos rfl, h.slot?, show t.parent? m = link from h.parent?_eq]
    rfl
  · rw [if_neg hm, if_neg hm]
    rfl

theorem plantAt_prepared (ha : t.parents.size = t.slots.size) (form : Rose Form) :
    ((t.setChildren n []).free (parts.map number)).plantAt n form =
      (t.vacate (parts.map number)).plantAt n form := by
  obtain ⟨hcell, hscopes⟩ := prepared_eq h hn
  obtain ⟨hreaders, hticket, hslots, hparents⟩ := free_rest (t.setChildren n [])
    (parts.map number)
  have hslots' : (t.setChildren n []).slots.size = t.slots.size := by simp [setChildren]
  have hparents' : (t.setChildren n []).parents.size = t.parents.size := rfl
  refine plantAt_congr ?_ ?_ ?_ ?_ (fun m hm => ?_) ?_ ?_ hreaders hticket
  · rw [hslots, hslots', hparents, hparents', ha]
  · rw [hslots, hslots']
    exact lt_size_of_slot? h.slot?
  · rw [hslots, hslots', size_slots_vacate]
  · rw [hparents, hparents', size_parents_vacate]
  · rw [hcell, if_neg hm, h.cell_vacate_parts hn]
  · have hlink := hcell n
    rw [if_neg (not_mem_parts hn), if_pos rfl] at hlink
    exact (congrArg Prod.snd hlink).trans (h.parent?_vacate_parts hn).symm
  · rw [hscopes, scopes_vacate (fun x hx => h.mem_part hx) fun x hx => (nodup_part hn x hx).1]

end Preparing

end SyntaxTree

/-- What a run leaves that fails without a change. -/
def Outcome.settle {σ : Type} (s : σ) : Except Fault σ → Outcome σ
  | .ok s' => ⟨s', .ok true⟩
  | .error fault => .failed s fault

namespace SyntaxTree

variable {t t' : SyntaxTree} {link : Option ParentLink} {r : Rose (Nat × Form)} {n m : Nat}

/-- A replacement in place leaves what the replacement gives. -/
theorem Tidy.replaceInPlace (h : t.Tidy r) (category : Category) (form : Rose Form) :
    t.replaceInPlace n category form = .settle t (t.replace n category form) := by
  unfold SyntaxTree.replaceInPlace prepare SyntaxTree.replace SyntaxTree.editable
  split
  · rfl
  · unfold SyntaxTree.slot
    cases hs : t.slot? n with
    | none => rfl
    | some s =>
      by_cases hc : s.form.kind.category = category
      · obtain ⟨link, parts, hheld, hchildren, hnodup, -⟩ := h.exists_holds hs
        simp only [bind, Except.bind, if_pos hc, hchildren,
          plantAt_prepared hheld hnodup h.represents.aligned]
        rfl
      · simp only [bind, Except.bind, if_neg hc]
        rfl

/-! ## Removing -/

theorem foldl_shiftLink_rest (t : SyntaxTree) (ns : List Nat) :
    (ns.foldl shiftLink t).slots = t.slots ∧ (ns.foldl shiftLink t).scopes = t.scopes ∧
      (ns.foldl shiftLink t).readers = t.readers ∧
        (ns.foldl shiftLink t).nextTicket = t.nextTicket := by
  rw [shiftLink_foldl_eq]
  exact ⟨rfl, rfl, rfl, rfl⟩

section Removing

variable {C : Context (Nat × Form)} {k : Nat} {form : Form} {left right : List (Rose (Nat × Form))}
  (h : t.Tidy (C.plug (.node (k, form) (left ++ r :: right))))

include h

/-- The order in which a statement is freed and its siblings move does not matter. -/
theorem vacate_foldl_shiftLink :
    ((right.map number).foldl shiftLink (t.dropChild k left.length)).vacate [r.number] =
      (right.map number).foldl shiftLink ((t.vacate [r.number]).dropChild k left.length) := by
  obtain ⟨link, hp, -, -⟩ := h.represents.holds.plug
  obtain ⟨-, hkr, -, hrn, hright, hrright, -⟩ := nodup_split h.represents.nodup_plug.1
  obtain ⟨link', hheld⟩ := hp.mem_part (r := r) (by simp)
  have hlinks : ∀ m, (t.dropChild k left.length).parent? m = t.parent? m := fun _ => rfl
  have hmoved : ∀ m, ((right.map number).foldl shiftLink (t.dropChild k left.length)).cell m =
      (if m = k then (t.slot? m).map fun s =>
          { s with children := s.children.eraseIdx left.length } else t.slot? m,
        if m ∈ right.map number then (t.parent? m).map ParentLink.shifted else t.parent? m) :=
    fun m => by
      rw [cell, slot?_foldl_shiftLink, slot?_dropChild,
        parent?_foldl_shiftLink (nodup_numbers_of_nodup hright), hlinks]
  -- what is freed is not among what has moved
  have hheld' : ((right.map number).foldl shiftLink (t.dropChild k left.length)).Holds link' r :=
    hheld.congr fun m hm => by
      have hout : m ∉ right.map number := fun hmr => hrright m hm (mem_flatMap_numbers hmr)
      have hmk : m ≠ k := fun hmk => hkr (hmk ▸ hm)
      rw [hmoved, if_neg hout, if_neg hmk]
      rfl
  obtain ⟨hslots, hscopes, hreaders, hticket⟩ := foldl_shiftLink_rest
    ((t.vacate [r.number]).dropChild k left.length) (right.map number)
  obtain ⟨hslots', hscopes', hreaders', hticket'⟩ := foldl_shiftLink_rest
    (t.dropChild k left.length) (right.map number)
  refine eq_of_cells ?_ ?_ (fun m => ?_) ?_ (hreaders'.trans hreaders.symm)
    (hticket'.trans hticket.symm)
  · rw [size_slots_vacate, hslots, hslots']
    simp [dropChild]
  · rw [size_parents_vacate, size_parents_foldl_shiftLink, size_parents_foldl_shiftLink]
    simp [dropChild]
  · rw [cell_vacate_one hheld' hrn, h.represents.cell_removed, hmoved]
  · rw [scopes_vacate_one hheld' hrn, hscopes, hscopes']
    exact (scopes_vacate_one hheld hrn).symm

end Removing

/-- What is not in a list is not taken out of one. -/
theorem removeStatement_of_not_inList {s : Slot} (hwalk : t.isWalked = false)
    (hs : t.slot? n = some s) (hlist : t.inList n = false) :
    t.removeStatement n = .error (.violation (.notInList n)) := by
  have hedit : t.editable n = .ok s := by simp [SyntaxTree.editable, hwalk, slot, hs]
  simp only [SyntaxTree.removeStatement, hedit, bind, Except.bind]
  split
  · next hlink => simp [inList, hlink] at hlist
  · rfl

/-- A removal in place leaves what the removal gives. -/
theorem Tidy.removeInPlace (h : t.Tidy r) :
    t.removeInPlace n = .settle t (t.removeStatement n) := by
  cases hwalk : t.isWalked with
  | true => simp [SyntaxTree.removeInPlace, SyntaxTree.removeStatement, SyntaxTree.editable, hwalk,
      bind, Except.bind, Outcome.settle]
  | false =>
    have hreaders : t.readers = [] := by simpa [isWalked] using hwalk
    cases hs : t.slot? n with
    | none =>
      simp [SyntaxTree.removeInPlace, SyntaxTree.removeStatement, SyntaxTree.editable, hwalk, slot,
        hs, bind, Except.bind, Outcome.settle]
    | some s =>
      by_cases hlist : t.inList n = true
      · obtain ⟨C, k, form, left, x, right, rfl, rfl, hk⟩ :=
          ((h.editable hreaders).listed (h.live hs) hlist).exists_plug
        have hbody : ∀ i, form.kind.fieldAt i = .body := by
          rcases hk with hk | hk <;> simp [hk, Kind.fieldAt]
        have hlink := parent?_of_removed_element h hbody
        obtain ⟨link, hp, -, -⟩ := h.represents.holds.plug
        have hchildren : ((t.dropChild k left.length).children k).drop left.length =
            right.map number := by
          rw [children, slot?_dropChild, if_pos rfl, hp.slot?]
          simp [List.eraseIdx_append_of_length_le]
        have hfilter : (t.parent? x.number).filter (·.field == .body) =
            some ⟨k, .body, left.length⟩ := by
          rw [hlink]
          rfl
        rw [h.represents.removeStatement_eq hreaders hbody, ← vacate_foldl_shiftLink h]
        simp [SyntaxTree.removeInPlace, hwalk, slot, hs, hfilter, hp.slot?, hchildren,
          Outcome.settle]
      · have hfilter : (t.parent? n).filter (·.field == .body) = none := by
          simpa [inList, Option.any_eq_true] using hlist
        rw [removeStatement_of_not_inList hwalk hs (by simpa using hlist)]
        simp [SyntaxTree.removeInPlace, hwalk, slot, hs, hfilter, Outcome.settle]

/-- An edit in place leaves what the edit gives, and what was there before when it is refused. -/
theorem Tidy.inPlace (h : t.Tidy r) (edit : Edit) : edit.inPlace t = .settle t (edit.run t) := by
  cases edit with
  | replaceStatement n s => exact h.replaceInPlace .statement s.rose
  | replaceExpression n e => exact h.replaceInPlace .expression e.rose
  | replaceTarget n p => exact h.replaceInPlace .target p.rose
  | removeStatement n => exact h.removeInPlace

end SyntaxTree

end ScriptRecovery
