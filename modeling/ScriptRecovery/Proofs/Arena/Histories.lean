import ScriptRecovery.Proofs.Arena.Edits

/-!
# Arenas along histories of calls

An arena is tidy when it represents a well-formed script, has neither a node nor a link at any
other number, and keeps temporaries at the script alone (`SyntaxTree.Tidy`).  A new arena is tidy.
A replacement clears what is below the node that gives way and fills the numbers of what comes
instead, and a removal clears the numbers of what goes, so both leave a tidy arena (`Tidy.replace`,
`Tidy.removeStatement`).  To use temporaries is to climb to the script, walks touch tickets only,
and a call that is refused changes nothing.

So an arena is tidy after any calls on a new arena (`Tidy.history`).
-/

namespace ScriptRecovery

open Rose

namespace SyntaxTree

variable {t t' : SyntaxTree} {link : Option ParentLink} {r : Rose (Nat × Form)}

/-! ## Calls -/

/-- A call on a tree. -/
inductive Call
  /-- A statement is put in the place of one. -/
  | replaceStatement (n : Nat) (s : Stmt)
  /-- An expression is put in the place of one. -/
  | replaceExpression (n : Nat) (e : Expr)
  /-- A target is put in the place of one. -/
  | replaceTarget (n : Nat) (p : Target)
  /-- A statement is taken out of its list. -/
  | removeStatement (n : Nat)
  /-- The scope for a node is asked for, and used in some way. -/
  | scope (n : Nat) (use : Scope → Scope)
  /-- A walk is started. -/
  | start (n : Nat)
  /-- A walk is finished. -/
  | finish (c : Cursor)

/-- The tree after a call. -/
def Call.run (t : SyntaxTree) : Call → Except Fault SyntaxTree
  | .replaceStatement n s => t.replaceStatement n s
  | .replaceExpression n e => t.replaceExpression n e
  | .replaceTarget n p => t.replaceTarget n p
  | .removeStatement n => t.removeStatement n
  | .scope n use => do
      let (_, t) ← t.useScope n fun s => .ok ((), use s)
      return t
  | .start n => do
      let (_, t) ← t.cursor n
      return t
  | .finish c => .ok (t.release c)

/-- The tree after a call, which is the same one when the call fails. -/
def perform (t : SyntaxTree) (call : Call) : SyntaxTree :=
  match call.run t with
  | .ok t' => t'
  | .error _ => t

/-! ## What calls do when they succeed -/

theorem eq_ok_of_editable {n : Nat} {s : Slot} (h : t.editable n = .ok s) :
    t.readers = [] ∧ t.slot? n = some s := by
  unfold editable slot at h
  split at h
  · cases h
  · next hwalk =>
    refine ⟨by simpa [isWalked] using hwalk, ?_⟩
    split at h
    · next s' hs =>
      cases h
      exact hs
    · cases h

theorem eq_of_replace {n : Nat} {category : Category} {form : Rose Form}
    (h : t.replace n category form = .ok t') : t.readers = [] ∧ ∃ s, t.slot? n = some s ∧
      s.form.kind.category = category ∧ t' = (t.vacate s.children).plantAt n form := by
  unfold replace at h
  obtain ⟨s, hs, h⟩ := bind_eq_ok.1 h
  obtain ⟨hreaders, hslot⟩ := eq_ok_of_editable hs
  split at h
  · next hc =>
    cases h
    exact ⟨hreaders, s, hslot, hc, rfl⟩
  · cases h

theorem eq_of_removeStatement {n : Nat} (h : t.removeStatement n = .ok t') :
    t.readers = [] ∧ (t.slot? n).isSome ∧ t.inList n = true ∧
      ∃ (later : List Nat) (parent index : Nat),
        t' = later.foldl shiftLink ((t.vacate [n]).dropChild parent index) := by
  unfold removeStatement at h
  obtain ⟨s, hs, h⟩ := bind_eq_ok.1 h
  obtain ⟨hreaders, hslot⟩ := eq_ok_of_editable hs
  split at h
  · next parent index hlink =>
    cases h
    exact ⟨hreaders, by simp [hslot], by simp [inList, hlink], _, parent, index, rfl⟩
  · cases h

/-- Using temporaries leaves a new source of them at some node. -/
theorem eq_of_useScope {α : Type} {n : Nat} {use : Scope → Except Fault (α × Scope)} {a : α}
    (h : t.useScope n use = .ok (a, t')) :
    ∃ holder s, t.anchor n = .ok holder ∧ t' = t.keepScope holder s := by
  obtain ⟨holder, hholder, h⟩ := bind_eq_ok.1 h
  obtain ⟨_, -, h⟩ := bind_eq_ok.1 h
  obtain ⟨⟨_, s⟩, -, h⟩ := bind_eq_ok.1 h
  cases h
  exact ⟨holder, s, hholder, rfl⟩

/-- Starting a walk takes a ticket. -/
theorem eq_of_cursor {n : Nat} {c : Cursor} (h : t.cursor n = .ok (c, t')) :
    t' = { t with readers := t.nextTicket :: t.readers, nextTicket := t.nextTicket + 1 } := by
  obtain ⟨_, -, h⟩ := bind_eq_ok.1 h
  cases h
  rfl

/-! ## Tidy arenas -/

/-- Whether an arena represents a well-formed script and holds nothing else. -/
structure Tidy (t : SyntaxTree) (r : Rose (Nat × Form)) : Prop where
  represents : t.Represents r
  wellFormed : r.forms.WellFormed
  category : r.forms.category = .script
  empty : ∀ {n : Nat}, n ∉ r.numbers → t.cell n = (none, none)
  anchored : ∀ x ∈ t.scopes, x.1 = SyntaxTree.root

/-- A tidy arena can be edited when no walk is under way. -/
theorem Tidy.editable (h : t.Tidy r) (hr : t.readers = []) : t.Editable r :=
  ⟨h.represents, hr, h.wellFormed, h.category⟩

theorem Editable.tidy (h : t.Editable r)
    (hempty : ∀ {n : Nat}, n ∉ r.numbers → t.cell n = (none, none))
    (hanchored : ∀ x ∈ t.scopes, x.1 = SyntaxTree.root) : t.Tidy r :=
  ⟨h.represents, h.wellFormed, h.category, hempty, hanchored⟩

/-- The nodes of a tidy arena are those of its script. -/
theorem Tidy.live (h : t.Tidy r) {n : Nat} {s : Slot} (hn : t.slot? n = some s) :
    n ∈ r.numbers := by
  by_contra hout
  cases (congrArg Prod.fst (h.empty hout)).symm.trans hn

/-- No other number of a tidy arena has a link. -/
theorem Tidy.linked (h : t.Tidy r) {n : Nat} {l : ParentLink} (hn : t.parent? n = some l) :
    n ∈ r.numbers := by
  by_contra hout
  cases (congrArg Prod.snd (h.empty hout)).symm.trans hn

/-- Tickets do not matter, nor what temporaries the script has given out. -/
theorem Tidy.congr (h : t.Tidy r) (hs : t'.slots = t.slots) (hp : t'.parents = t.parents)
    (hanchored : ∀ x ∈ t'.scopes, x.1 = SyntaxTree.root) : t'.Tidy r := by
  have hcell : ∀ n, t'.cell n = t.cell n := fun n => by
    simp only [SyntaxTree.cell, SyntaxTree.slot?, SyntaxTree.parent?, hs, hp]
  refine ⟨⟨h.represents.holds.congr fun n _ => hcell n, h.represents.root, h.represents.nodup,
    ?_⟩, h.wellFormed, h.category, fun hn => (hcell _).trans (h.empty hn), hanchored⟩
  rw [hs, hp]
  exact h.represents.aligned

/-- A new arena is tidy. -/
theorem tidy_ofScript (s : Script) : (ofScript s).Tidy (s.rose.tagged 0 1) := by
  refine (editable_ofScript s).tidy (fun {n} hn => ?_) fun x hx => by cases hx
  rw [numbers_tagged, List.mem_cons, List.mem_range'_1] at hn
  rw [ofScript, cell_plantAt rfl (by simp [SyntaxTree.root])]
  have hlen := length_plant SyntaxTree.root 1 s.rose
  have hout : (s.rose.plant SyntaxTree.root 1).2[n - 1]? = none :=
    List.getElem?_eq_none (by omega)
  rw [if_neg (by simp; omega)]
  simpa using hout

/-- Nothing that is given up comes back as a source of temporaries. -/
theorem anchored_vacate (h : ∀ x ∈ t.scopes, x.1 = SyntaxTree.root) {ns : List Nat} :
    ∀ x ∈ (t.vacate ns).scopes, x.1 = SyntaxTree.root :=
  fun x hx => h x (List.mem_of_mem_filter hx)

/-- What is given up has no temporaries of its own to lose. -/
theorem Tidy.scopes_vacate (h : t.Tidy r) {rs : List (Rose (Nat × Form))}
    (hheld : ∀ x ∈ rs, ∃ link, t.Holds link x) (hn : ∀ x ∈ rs, x.numbers.Nodup)
    (hroot : SyntaxTree.root ∉ rs.flatMap numbers) :
    (t.vacate (rs.map number)).scopes = t.scopes := by
  rw [SyntaxTree.scopes_vacate hheld hn, List.filter_eq_self]
  intro x hx
  simpa [h.anchored x hx] using hroot

/-- Well-formed syntax in the place of a node leaves an arena tidy. -/
theorem Tidy.replace {C : Context (Nat × Form)} {form : Rose Form} (h : t.Tidy (C.plug r))
    (hw : form.WellFormed) (hc : form.category = r.forms.category) (hr : t.readers = []) :
    ∃ t', t.replace r.number form.category form = .ok t' ∧
      t'.Tidy (C.plug (form.tagged r.number t.slots.size)) := by
  obtain ⟨t', hok, ht'⟩ := (h.editable hr).replace_eq_ok hw hc
  obtain ⟨-, s, hs, -, rfl⟩ := eq_of_replace hok
  obtain ⟨link, hheld, -⟩ := h.represents.holds.plug
  have hnodup := h.represents.nodup_plug.1
  refine ⟨_, hok, ht'.tidy (fun {m} hm => ?_) (anchored_vacate h.anchored)⟩
  cases r with
  | node label parts =>
    obtain ⟨n, f⟩ := label
    rw [number_node] at hs hm ⊢
    obtain rfl := Option.some.inj (hs.symm.trans hheld.slot?)
    rw [numbers_plug, numbers_tagged] at hm
    simp only [List.mem_append, List.mem_cons, List.mem_range'_1, not_or] at hm
    obtain ⟨⟨hb, hmn, hnew⟩, ha⟩ := hm
    rcases Nat.lt_or_ge m t.slots.size with hlt | hge
    · rw [hheld.cell_replaced hnodup h.represents.aligned hlt, if_neg hmn]
      split
      · rfl
      · next hkept =>
        refine h.empty ?_
        rw [numbers_plug, numbers_node]
        simp only [List.mem_append, List.mem_cons, not_or]
        exact ⟨⟨hb, hmn, hkept⟩, ha⟩
    · -- behind the new numbers
      have hlen := length_plant n t.slots.size form
      have hout : (form.plant n t.slots.size).2[m - t.slots.size]? = none :=
        List.getElem?_eq_none (by omega)
      rw [cell_plantAt (by simpa using h.represents.aligned) (by simpa using lt_size_of_slot? hs),
        size_slots_vacate, if_neg (by omega)]
      simp [hout]

/-- A statement that is taken out of its list leaves an arena tidy. -/
theorem Tidy.removeStatement {C : Context (Nat × Form)} {k : Nat} {form : Form}
    {left right : List (Rose (Nat × Form))}
    (h : t.Tidy (C.plug (.node (k, form) (left ++ r :: right))))
    (hk : form.kind = .script ∨ form.kind = .block) (hr : t.readers = []) :
    ∃ t', t.removeStatement r.number = .ok t' ∧
      t'.Tidy (C.plug (.node (k, form) (left ++ right))) := by
  obtain ⟨t', hok, ht'⟩ := (h.editable hr).removeStatement_eq_ok hk
  have hbody : ∀ i, form.kind.fieldAt i = .body := by
    rcases hk with hk | hk <;> simp [hk, Kind.fieldAt]
  obtain rfl := Except.ok.inj (hok.symm.trans (h.represents.removeStatement_eq hr hbody))
  refine ⟨_, hok, ht'.tidy (fun {m} hm => ?_) ?_⟩
  · rw [h.represents.cell_removed]
    split
    · rfl
    · next hout =>
      rw [numbers_plug, numbers_node] at hm
      simp only [List.flatMap_append, List.mem_append, List.mem_cons, not_or] at hm
      obtain ⟨⟨hb, hmk, hl, hright⟩, ha⟩ := hm
      have hcell := h.empty (n := m) (by
        rw [numbers_plug, numbers_node]
        simp only [List.flatMap_append, List.flatMap_cons, List.mem_append, List.mem_cons, not_or]
        exact ⟨⟨hb, hmk, hl, hout, hright⟩, ha⟩)
      rw [if_neg hmk, if_neg fun hmr => hright (mem_flatMap_numbers hmr)]
      exact hcell
  · rw [shiftLink_foldl_eq]
    exact anchored_vacate h.anchored

/-! ## Histories -/

theorem Tidy.of_replace {n : Nat} {category : Category} {form : Rose Form} (h : t.Tidy r)
    (hw : form.WellFormed) (hc : form.category = category)
    (hok : t.replace n category form = .ok t') : ∃ r', t'.Tidy r' := by
  obtain ⟨hr, s, hs, hcategory, -⟩ := eq_of_replace hok
  obtain ⟨⟨_, f⟩, hx, rfl⟩ := List.mem_map.1 (h.live hs)
  obtain ⟨C, parts, rfl, -⟩ := h.represents.exists_plug hx
  obtain ⟨link, hheld, -⟩ := h.represents.holds.plug
  obtain rfl := Option.some.inj (hs.symm.trans hheld.slot?)
  subst hc
  obtain ⟨t'', hok', ht''⟩ := h.replace hw (by simpa using hcategory.symm) hr
  obtain rfl := Except.ok.inj (hok.symm.trans hok')
  exact ⟨_, ht''⟩

theorem Tidy.of_removeStatement {n : Nat} (h : t.Tidy r) (hok : t.removeStatement n = .ok t') :
    ∃ r', t'.Tidy r' := by
  obtain ⟨hr, hs, hlist, -⟩ := eq_of_removeStatement hok
  obtain ⟨s, hs⟩ := Option.isSome_iff_exists.1 hs
  obtain ⟨C, k, form, left, x, right, rfl, rfl, hk⟩ :=
    ((h.editable hr).listed (h.live hs) hlist).exists_plug
  obtain ⟨t'', hok', ht''⟩ := h.removeStatement hk hr
  obtain rfl := Except.ok.inj (hok.symm.trans hok')
  exact ⟨_, ht''⟩

/-- Only live nodes have a holder of temporaries. -/
theorem isSome_of_anchor {n holder : Nat} (h : t.anchor n = .ok holder) : (t.slot? n).isSome := by
  rw [anchor] at h
  cases hsize : t.slots.size with
  | zero =>
    rw [hsize] at h
    cases h
  | succ fuel =>
    rw [hsize] at h
    obtain ⟨s, hs, -⟩ := bind_eq_ok.1 h
    rw [slot] at hs
    cases hslot : t.slot? n with
    | none =>
      rw [hslot] at hs
      cases hs
    | some s => rfl

/-- Temporaries are used at nodes of the script alone. -/
theorem Tidy.mem_of_useScope {α : Type} {n : Nat} {use : Scope → Except Fault (α × Scope)}
    {res : α × SyntaxTree} (h : t.Tidy r) (hok : t.useScope n use = .ok res) : n ∈ r.numbers := by
  obtain ⟨holder, hholder, -⟩ := bind_eq_ok.1 hok
  obtain ⟨slot, hslot⟩ := Option.isSome_iff_exists.1 (isSome_of_anchor hholder)
  exact h.live hslot

/-- To use temporaries is to leave a new source of them at the script. -/
theorem Tidy.eq_of_useScope {α : Type} {n : Nat} {use : Scope → Except Fault (α × Scope)} {a : α}
    (h : t.Tidy r) (hok : t.useScope n use = .ok (a, t')) :
    ∃ s s', t.currentScope SyntaxTree.root = .ok s ∧ use s = .ok (a, s') ∧
      t' = t.keepScope SyntaxTree.root s' := by
  rw [h.represents.useScope_eq h.wellFormed h.category (h.mem_of_useScope hok)] at hok
  obtain ⟨s, hs, hok⟩ := bind_eq_ok.1 hok
  obtain ⟨⟨_, s'⟩, huse, hok⟩ := bind_eq_ok.1 hok
  cases hok
  exact ⟨s, s', hs, huse, rfl⟩

/-- A tidy arena stays tidy when the script has a new source of temporaries. -/
theorem Tidy.keepScope (h : t.Tidy r) (s : Scope) : (t.keepScope SyntaxTree.root s).Tidy r := by
  refine h.congr rfl rfl fun x hx => ?_
  rcases List.mem_cons.1 hx with rfl | hx
  · rfl
  · exact h.anchored x (List.mem_of_mem_filter hx)

/-- A call that succeeds leaves a tidy arena tidy. -/
theorem Tidy.run (h : t.Tidy r) {call : Call} (hrun : call.run t = .ok t') :
    ∃ r', t'.Tidy r' := by
  cases call with
  | replaceStatement n s => exact h.of_replace s.wellFormed_rose s.category_rose hrun
  | replaceExpression n e => exact h.of_replace e.wellFormed_rose e.category_rose hrun
  | replaceTarget n p => exact h.of_replace p.wellFormed_rose p.category_rose hrun
  | removeStatement n => exact h.of_removeStatement hrun
  | scope n use =>
    obtain ⟨⟨_, _⟩, hscope, hrun⟩ := bind_eq_ok.1 hrun
    cases hrun
    obtain ⟨_, s, -, -, rfl⟩ := h.eq_of_useScope hscope
    exact ⟨r, h.keepScope s⟩
  | start n =>
    obtain ⟨⟨_, _⟩, hcursor, hrun⟩ := bind_eq_ok.1 hrun
    cases hrun
    obtain rfl := eq_of_cursor hcursor
    exact ⟨r, h.congr rfl rfl h.anchored⟩
  | finish c =>
    cases hrun
    exact ⟨r, h.congr rfl rfl h.anchored⟩

/-- A call leaves a tidy arena tidy. -/
theorem Tidy.perform (h : t.Tidy r) (call : Call) : ∃ r', (t.perform call).Tidy r' := by
  unfold SyntaxTree.perform
  cases hrun : call.run t with
  | error fault => exact ⟨r, h⟩
  | ok t' => exact h.run hrun

/-- Any calls leave a tidy arena tidy. -/
theorem Tidy.history (h : t.Tidy r) (calls : List Call) :
    ∃ r', (calls.foldl SyntaxTree.perform t).Tidy r' := by
  induction calls generalizing t r with
  | nil => exact ⟨r, h⟩
  | cons call calls ih =>
    obtain ⟨r₁, h₁⟩ := h.perform call
    exact ih h₁

end SyntaxTree

end ScriptRecovery
