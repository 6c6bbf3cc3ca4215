import ScriptRecovery.Proofs.Arena.Flattening

/-!
# Edits of an arena are edits of its script

A replacement puts a value at the end of the path to a node of the script, and a removal takes out
the element at the end of a path (`SyntaxTree.Replaced`, `SyntaxTree.Removed`).  Nothing else of the
script changes.  The nodes that are not below the place of the edit stay in their slots.  Their
paths stay as well, but that the elements behind one that was taken out move one position to the
front.  Numbers of new nodes were never those of other nodes before.

All of this holds of any call after any calls on a new arena (`effect_of_history`).  The invariant
is that of tidy arenas, whose nodes are those of one numbered tree: what the edit does is plugging
there, and the way to the open place is the path to the node (`Holds.descent_plug`).
-/

namespace ScriptRecovery

open Rose

/-! ## Changing a tree at the end of a way -/

namespace Rose

variable {α β : Type}

/-- A tree with the part at the end of a way changed.  The way is given by the positions on it. -/
def alterAt (f : Rose α → Rose α) : List Nat → Rose α → Option (Rose α)
  | [], r => some (f r)
  | i :: way, .node a parts => do
      let part ← parts[i]?
      let part ← part.alterAt f way
      return .node a (parts.set i part)

/-- A tree without the part at a position below its root. -/
def withoutPart (i : Nat) : Rose α → Rose α
  | .node a parts => .node a (parts.eraseIdx i)

/-- The way to an open place. -/
def Context.way (C : Context α) : List Nat := List.map (fun c => c.left.length) C

theorem Context.way_cons (c : Crumb α) (C : Context α) :
    Context.way (c :: C) = c.left.length :: C.way := rfl

theorem Context.way_map (f : α → β) (C : Context α) : (C.map f).way = C.way := by
  simp [Context.way, Context.map]

/-- Changing a tree at an open place changes what is plugged there. -/
theorem alterAt_way (f : Rose α → Rose α) (C : Context α) (r : Rose α) :
    (C.plug r).alterAt f C.way = some (C.plug (f r)) := by
  induction C with
  | nil => rfl
  | cons c C ih =>
    rw [Context.way_cons, Context.plug, alterAt]
    simp [ih, Context.plug]

end Rose

namespace SyntaxTree

variable {t t' : SyntaxTree} {link : Option ParentLink} {r : Rose (Nat × Form)}

/-! ## Edits -/

/-- Whether a node is below another one. -/
def Below (t : SyntaxTree) : Nat → Nat → Prop :=
  Relation.TransGen fun p c => c ∈ t.children p

/-- What putting a tree of forms in the place of a node does.  Some numbers were used before. -/
structure Replaced (used : Nat → Prop) (t t' : SyntaxTree) (n : Nat) (form : Rose Form) :
    Prop where
  /-- The script changes at the end of the path to the node. -/
  script : ∃ s s' links, t.toScript = .ok s ∧ t.path n = .ok links ∧ t'.toScript = .ok s' ∧
    s.rose.alterAt (fun _ => form) (links.map ParentLink.index) = some s'.rose
  /-- The node now stands for what was put there. -/
  branch : ∃ b, t'.branch? n = some b ∧ b.forms = form
  /-- The nodes are those that are not below the old one, and those below the new one. -/
  live : ∀ m, (t'.slot? m).isSome ↔ (t.slot? m).isSome ∧ ¬t.Below n m ∨ t'.Below n m
  /-- Other nodes and their links do not change. -/
  kept : ∀ m, (t.slot? m).isSome → ¬t.Below n m → m ≠ n →
    t'.slot? m = t.slot? m ∧ t'.parent? m = t.parent? m
  /-- Neither these nor the node itself move. -/
  path : ∀ m, (t.slot? m).isSome → ¬t.Below n m → t'.path m = t.path m
  /-- New nodes have new numbers. -/
  fresh : ∀ m, t'.Below n m → ¬used m

/-- A link after the child at another link was taken out. -/
def ParentLink.behind (gone l : ParentLink) : ParentLink :=
  if l.parent = gone.parent ∧ gone.index < l.index then { l with index := l.index - 1 } else l

/-- What taking a statement out of its list does. -/
structure Removed (t t' : SyntaxTree) (n : Nat) : Prop where
  /-- The script loses the element at the end of the path, and nodes move behind it. -/
  script : ∃ s s' links gone, t.toScript = .ok s ∧ t.path n = .ok (links ++ [gone]) ∧
    gone.field = .body ∧ t'.toScript = .ok s' ∧
    s.rose.alterAt (withoutPart gone.index) (links.map ParentLink.index) = some s'.rose ∧
    ∀ m, (t'.slot? m).isSome → t'.path m = (t.path m).map (List.map (ParentLink.behind gone))
  /-- The nodes are those that neither were taken out nor were below what was. -/
  live : ∀ m, (t'.slot? m).isSome ↔ (t.slot? m).isSome ∧ m ≠ n ∧ ¬t.Below n m
  /-- They stay what they were. -/
  form : ∀ m, (t'.slot? m).isSome → (t'.slot? m).map Slot.form = (t.slot? m).map Slot.form
  /-- They lose no children but the statement. -/
  children : ∀ m, (t'.slot? m).isSome → t'.children m = (t.children m).erase n

/-- What a call that succeeds does. -/
def Call.Effect (used : Nat → Prop) (t t' : SyntaxTree) : Call → Prop
  | .replaceStatement n s => Replaced used t t' n s.rose
  | .replaceExpression n e => Replaced used t t' n e.rose
  | .replaceTarget n p => Replaced used t t' n p.rose
  | .removeStatement n => Removed t t' n
  | .scope _ _ | .start _ | .finish _ => t'.slots = t.slots ∧ t'.parents = t.parents

/-- Whether a number was that of a node at some time during calls on a new arena. -/
def Used (s : Script) (calls : List Call) (n : Nat) : Prop :=
  ∃ earlier, earlier <+: calls ∧ ((earlier.foldl perform (ofScript s)).slot? n).isSome

/-! ## What is below a node -/

theorem Holds.mem_of_child (h : t.Holds link r) {p c : Nat} (hp : p ∈ r.numbers)
    (hc : c ∈ t.children p) : c ∈ r.numbers := by
  induction h with
  | @node link n form parts hcell _ ih =>
    rw [numbers_node, List.mem_cons, List.mem_flatMap] at hp ⊢
    rcases hp with rfl | ⟨x, hx, hp⟩
    · rw [SyntaxTree.children, show t.slot? p = _ from congrArg Prod.fst hcell] at hc
      obtain ⟨x, hx, rfl⟩ := List.mem_map.1 hc
      exact .inr ⟨x, hx, x.number_mem_numbers⟩
    · obtain ⟨i, hi⟩ := List.mem_iff_getElem?.1 hx
      exact .inr ⟨x, hx, ih i x hi hp⟩

/-- What is below the root of a tree is in one of its parts. -/
theorem Holds.below_iff {n m : Nat} {form : Form} {parts : List (Rose (Nat × Form))}
    (h : t.Holds link (.node (n, form) parts)) :
    t.Below n m ↔ ∃ x ∈ parts, m ∈ x.numbers := by
  constructor
  · intro hm
    induction hm with
    | single hc =>
      rw [SyntaxTree.children, h.slot?] at hc
      obtain ⟨x, hx, rfl⟩ := List.mem_map.1 hc
      exact ⟨x, hx, x.number_mem_numbers⟩
    | tail _ hc ih =>
      obtain ⟨x, hx, hp⟩ := ih
      obtain ⟨link', hheld⟩ := h.mem_part hx
      exact ⟨x, hx, hheld.mem_of_child hp hc⟩
  · rintro ⟨x, hx, hm⟩
    obtain ⟨link', hheld⟩ := h.mem_part hx
    have hchild : x.number ∈ t.children n := by
      rw [SyntaxTree.children, h.slot?]
      exact List.mem_map_of_mem hx
    exact .head' hchild (hheld.reachable hm)

theorem Holds.mem_numbers_iff {n m : Nat} {form : Form} {parts : List (Rose (Nat × Form))}
    (h : t.Holds link (.node (n, form) parts)) :
    m ∈ (Rose.node (n, form) parts).numbers ↔ m = n ∨ t.Below n m := by
  rw [numbers_node, List.mem_cons, List.mem_flatMap, h.below_iff]

/-! ## Ways and paths -/

/-- The links on the way down to an open place are at the positions of that way. -/
theorem Holds.descent_plug {C : Context (Nat × Form)} (h : t.Holds link (C.plug r)) :
    ∃ links, t.Descent (C.plug r).number links r.number ∧
      links.map ParentLink.index = C.way := by
  induction C generalizing link with
  | nil => exact ⟨[], .here, rfl⟩
  | cons c C ih =>
    obtain ⟨⟨n, form⟩, left, right⟩ := c
    have hat : (left ++ Context.plug C r :: right)[left.length]? = some (Context.plug C r) := by
      simp
    have hpart := h.part hat
    obtain ⟨links, hdown, hway⟩ := ih hpart
    refine ⟨_ :: links, hdown.cons hpart.parent?_eq, ?_⟩
    rw [List.map_cons, hway, Context.way_cons]

/-- There is one way down to a node from one without a parent. -/
theorem Descent.unique {a n : Nat} {links links' : List ParentLink} (ha : t.parent? a = none)
    (h : t.Descent a links n) (h' : t.Descent a links' n) : links = links' := by
  induction h generalizing links' with
  | here =>
    cases h' with
    | here => rfl
    | down _ hn => cases ha.symm.trans hn
  | down _ hn ih =>
    cases h' with
    | here => cases ha.symm.trans hn
    | down h' hn' =>
      obtain rfl := Option.some.inj (hn.symm.trans hn')
      rw [ih h']

/-- The path to a node is the way down to it. -/
theorem Tidy.path_eq (h : t.Tidy r) {n : Nat} {links : List ParentLink}
    (hn : (t.slot? n).isSome) (hdown : t.Descent root links n) : t.path n = .ok links := by
  obtain ⟨links', hpath, hdown'⟩ := h.path hn
  rw [hpath, hdown.unique h.parent?_root hdown']

/-- A way down stays one when the links on it change, up to what is below something. -/
theorem Descent.move {gone : Nat → Prop} {f : ParentLink → ParentLink} {n : Nat}
    {links : List ParentLink} (h : t.Tidy r)
    (hgone : ∀ {p c}, gone p → c ∈ t.children p → gone c)
    (hf : ∀ l, (f l).parent = l.parent)
    (hkept : ∀ {c l}, ¬gone c → t.parent? c = some l → t'.parent? c = some (f l))
    (hdown : t.Descent root links n) (hn : ¬gone n) : t'.Descent root (links.map f) n := by
  induction hdown with
  | here => exact .here
  | @down links l n _ hl ih =>
    -- the parent is not gone either, as its child would be
    obtain ⟨s, hs, hchild, -⟩ := h.placed.1 hl
    have hparent : ¬gone l.parent := by
      intro hparent
      refine hn (hgone hparent ?_)
      rw [SyntaxTree.children, hs]
      exact List.mem_of_getElem? hchild
    rw [List.map_append, List.map_singleton]
    refine .down ?_ (hkept hn hl)
    rw [hf]
    exact ih hparent

/-- The path to a node that is not below what is gone. -/
theorem Tidy.path_move {f : ParentLink → ParentLink} {n : Nat} {r' : Rose (Nat × Form)}
    (h : t.Tidy r) (h' : t'.Tidy r') (gone : Nat → Prop)
    (hgone : ∀ {p c}, gone p → c ∈ t.children p → gone c)
    (hf : ∀ l, (f l).parent = l.parent)
    (hkept : ∀ {c l}, ¬gone c → t.parent? c = some l → t'.parent? c = some (f l))
    (hn : ¬gone n) (hlive : (t.slot? n).isSome) (hlive' : (t'.slot? n).isSome) :
    t'.path n = (t.path n).map (List.map f) := by
  obtain ⟨links, hpath, hdown⟩ := h.path hlive
  rw [hpath, h'.path_eq hlive' (hdown.move h hgone hf hkept hn)]
  rfl

/-- What is read from a tidy arena. -/
theorem Tidy.toScript_eq_ok (h : t.Tidy r) : ∃ s, t.toScript = .ok s ∧ s.rose = r.forms :=
  h.represents.toScript_eq_ok h.wellFormed h.category

/-- After any calls on a new arena it is tidy, and without calls it has the script it was made of. -/
theorem tidy_of_history (s : Script) (calls : List Call) :
    ∃ r s', (calls.foldl perform (ofScript s)).Tidy r ∧
      (calls.foldl perform (ofScript s)).toScript = .ok s' ∧ s'.rose = r.forms ∧
      (calls = [] → s' = s) := by
  obtain ⟨r, htidy⟩ := (tidy_ofScript s).history calls
  obtain ⟨s', hread, hs'⟩ := htidy.toScript_eq_ok
  refine ⟨r, s', htidy, hread, hs', ?_⟩
  rintro rfl
  obtain ⟨s₀, hread₀, hs₀⟩ := (tidy_ofScript s).toScript_eq_ok
  obtain rfl : s' = s₀ := Except.ok.inj (hread.symm.trans hread₀)
  exact Script.rose_injective (hs₀.trans (forms_tagged s.rose))

/-- The path to what is in an open place leads along the way there. -/
theorem Tidy.path_plug {C : Context (Nat × Form)} (h : t.Tidy (C.plug r)) :
    ∃ links, t.path r.number = .ok links ∧ links.map ParentLink.index = C.way := by
  obtain ⟨links, hdown, hway⟩ := h.represents.holds.descent_plug
  rw [h.represents.root] at hdown
  refine ⟨links, h.path_eq ?_ hdown, hway⟩
  rw [h.isSome_iff, numbers_plug]
  simp [r.number_mem_numbers]

/-! ## Replacements -/

section Replacing

variable {n : Nat} {f : Form} {parts : List (Rose (Nat × Form))}
  (h : t.Holds link (.node (n, f) parts)) (hnodup : (Rose.node (n, f) parts).numbers.Nodup)
  (ha : t.parents.size = t.slots.size) {form : Rose Form}

include h hnodup ha

/-- What is next to a tree that is replaced does not change. -/
theorem cell_of_replace {m : Nat} (hm : ¬t.Below n m) (hmn : m ≠ n)
    (hlive : (t.slot? m).isSome) :
    ((t.vacate (parts.map number)).plantAt n form).cell m = t.cell m := by
  obtain ⟨s, hs⟩ := Option.isSome_iff_exists.1 hlive
  rw [h.below_iff, ← List.mem_flatMap] at hm
  rw [h.cell_replaced hnodup ha (lt_size_of_slot? hs), if_neg hm, if_neg hmn]

/-- A node that is replaced stays where it was. -/
theorem parent?_of_replace :
    ((t.vacate (parts.map number)).plantAt n form).parent? n = t.parent? n := by
  have hcell : ((t.vacate (parts.map number)).plantAt n form).cell n = _ :=
    h.cell_replaced hnodup ha (lt_size_of_slot? h.slot?)
  rw [if_neg (not_mem_parts hnodup), if_pos rfl] at hcell
  exact (congrArg Prod.snd hcell).trans h.parent?_eq.symm

end Replacing

/-- The tree below a node after a replacement of it. -/
theorem Tidy.holds_tagged {C : Context (Nat × Form)} {n next : Nat} {form : Rose Form}
    (h : t.Tidy (C.plug (form.tagged n next))) :
    ∃ link, t.Holds link (form.tagged n next) ∧
      ∀ m, t.Below n m ↔ m ∈ List.range' next (form.labels.length - 1) := by
  obtain ⟨link, hheld, -⟩ := h.represents.holds.plug
  refine ⟨link, hheld, fun m => ?_⟩
  have hnodup := h.represents.nodup_plug.1
  have hnumbers : (form.tagged n next).numbers =
      n :: List.range' next (form.labels.length - 1) := numbers_tagged form
  cases form with
  | node f parts =>
    rw [tagged] at hheld hnodup hnumbers
    rw [hheld.below_iff, ← List.mem_flatMap]
    rw [numbers_node] at hnumbers
    rw [(List.cons.inj hnumbers).2]

/-- After a replacement there are the nodes that were not below the node, and what is below it. -/
theorem Tidy.isSome_of_replace {C : Context (Nat × Form)} {n next : Nat} {f : Form}
    {parts : List (Rose (Nat × Form))} {form : Rose Form}
    (h : t.Tidy (C.plug (.node (n, f) parts))) (h' : t'.Tidy (C.plug (form.tagged n next)))
    (m : Nat) : (t'.slot? m).isSome ↔ (t.slot? m).isSome ∧ ¬t.Below n m ∨ t'.Below n m := by
  obtain ⟨link, hheld, -⟩ := h.represents.holds.plug
  obtain ⟨hnodup, hout⟩ := h.represents.nodup_plug
  obtain ⟨-, -, hbelow'⟩ := h'.holds_tagged
  have hmem := hheld.mem_numbers_iff (m := m)
  have hself : m = n → ¬t.Below n m := by
    rintro rfl
    rw [hheld.below_iff]
    rintro ⟨x, hx, hm⟩
    exact (nodup_part hnodup x hx).2 hm
  have hside : m ∈ C.before.map Prod.fst ∨ m ∈ C.after.map Prod.fst → ¬t.Below n m := by
    intro hm hbelow
    exact (hout m (List.mem_append.2 hm)).1 (hmem.2 (.inr hbelow))
  rw [h'.isSome_iff, h.isSome_iff, hbelow', numbers_plug, numbers_plug, numbers_tagged]
  simp only [List.mem_append, List.mem_cons, hmem]
  tauto

/-- A replacement that succeeds puts the tree of forms at the end of the path, and nothing else
changes. -/
theorem Tidy.replaced {n : Nat} {category : Category} {form : Rose Form} (h : t.Tidy r)
    (hw : form.WellFormed) (hc : form.category = category)
    (hok : t.replace n category form = .ok t') :
    Replaced (· < t.slots.size) t t' n form := by
  subst hc
  obtain ⟨hr, s, hs, hcategory, ht'⟩ := eq_of_replace hok
  obtain ⟨⟨k, f⟩, hx, hkn⟩ := List.mem_map.1 (h.live hs)
  obtain rfl : k = n := hkn
  obtain ⟨C, parts, rfl, -⟩ := h.represents.exists_plug hx
  obtain ⟨link, hheld, -⟩ := h.represents.holds.plug
  have hnodup := h.represents.nodup_plug.1
  obtain rfl := Option.some.inj (hs.symm.trans hheld.slot?)
  simp only at hcategory ht'
  have hlink : t'.parent? k = t.parent? k :=
    ht' ▸ parent?_of_replace hheld hnodup h.represents.aligned
  obtain ⟨t'', hok', h'⟩ := h.replace hw (by simpa using hcategory.symm) hr
  obtain rfl : t' = t'' := Except.ok.inj (hok.symm.trans hok')
  rw [number_node] at h'
  obtain ⟨link', hheld', hbelow'⟩ := h'.holds_tagged
  have hkept : ∀ m, (t.slot? m).isSome → ¬t.Below k m → m ≠ k → t'.cell m = t.cell m := by
    intro m hm hbelow hmn
    rw [ht']
    exact cell_of_replace hheld hnodup h.represents.aligned hbelow hmn hm
  have hlive := h.isSome_of_replace h'
  refine ⟨?_, ⟨form.tagged k t.slots.size, ?_, forms_tagged form⟩, hlive,
    fun m hm hbelow hmk => Prod.mk.inj (hkept m hm hbelow hmk), fun m hm hbelow => ?_,
    fun m hm => ?_⟩
  · obtain ⟨s, hs, hrose⟩ := h.toScript_eq_ok
    obtain ⟨s', hs', hrose'⟩ := h'.toScript_eq_ok
    obtain ⟨links, hpath, hway⟩ := h.path_plug
    refine ⟨s, s', links, hs, hpath, hs', ?_⟩
    rw [hrose, hrose', hway, forms, forms, map_plug, map_plug, ← Context.way_map Prod.snd,
      alterAt_way]
    congr 2
    exact (forms_tagged form).symm
  · have hbranch := hheld'.branch? h'.represents.nodup_plug.1
    rwa [number_tagged] at hbranch
  · have hmove := h.path_move h' (t.Below k) (f := id) (fun hp hc => hp.tail hc)
      (fun _ => rfl) ?_ hbelow hm ((hlive m).2 (.inl ⟨hm, hbelow⟩))
    · rw [hmove]
      cases t.path m <;> simp [Except.map]
    · intro c l hc hl
      by_cases hcn : c = k
      · rw [hcn] at hl ⊢
        exact hlink.trans hl
      · exact (congrArg Prod.snd (hkept c (h.isSome_of_parent? hl) hc hcn)).trans hl
  · rw [hbelow', List.mem_range'_1] at hm
    omega

/-! ## Removals -/

section Removing

variable {C : Context (Nat × Form)} {k : Nat} {form : Form} {left right : List (Rose (Nat × Form))}
  (h : t.Tidy (C.plug (.node (k, form) (left ++ r :: right))))
  (hbody : ∀ i, form.kind.fieldAt i = .body)
  (hcell : ∀ {m}, m ∉ r.numbers → t'.cell m =
    (if m = k then (t.slot? m).map fun s =>
        { s with children := s.children.eraseIdx left.length } else t.slot? m,
      if m ∈ right.map number then (t.parent? m).map ParentLink.shifted else t.parent? m))

include h hbody

/-- Where a child of the parent is linked. -/
theorem parent?_of_part {i : Nat} {x : Rose (Nat × Form)}
    (hx : (left ++ r :: right)[i]? = some x) : t.parent? x.number = some ⟨k, .body, i⟩ := by
  obtain ⟨link, hheld, -⟩ := h.represents.holds.plug
  have hpart := (hheld.part hx).parent?_eq
  rwa [hbody] at hpart

theorem parent?_of_removed_element : t.parent? r.number = some ⟨k, .body, left.length⟩ :=
  parent?_of_part h hbody (by simp)

/-- The children behind the one that goes are linked behind it. -/
theorem mem_right_iff {m : Nat} {l : ParentLink} (hm : m ≠ r.number)
    (hl : t.parent? m = some l) :
    m ∈ right.map number ↔ l.parent = k ∧ left.length < l.index := by
  constructor
  · intro hright
    obtain ⟨x, hx, rfl⟩ := List.mem_map.1 hright
    obtain ⟨j, hj⟩ := List.mem_iff_getElem?.1 hx
    have hat : (left ++ r :: right)[left.length + (j + 1)]? = some x := by
      rw [List.getElem?_append_right (by omega), Nat.add_sub_cancel_left,
        List.getElem?_cons_succ, hj]
    obtain rfl := Option.some.inj (hl.symm.trans (parent?_of_part h hbody hat))
    exact ⟨rfl, by simp⟩
  · rintro ⟨rfl, hindex⟩
    obtain ⟨link, hheld, -⟩ := h.represents.holds.plug
    obtain ⟨s, hs, hchild, -⟩ := h.placed.1 hl
    obtain rfl := Option.some.inj (hs.symm.trans hheld.slot?)
    obtain ⟨j, hj⟩ := Nat.exists_eq_add_of_le (Nat.succ_le_of_lt hindex)
    rw [hj, List.map_append, List.map_cons, List.getElem?_append_right (by simp; omega)] at hchild
    rw [List.length_map, Nat.succ_eq_add_one, Nat.add_assoc, Nat.add_sub_cancel_left,
      Nat.add_comm 1, List.getElem?_cons_succ] at hchild
    exact List.mem_of_getElem? hchild

include hcell

/-- The nodes that stay move when they are behind the element that goes. -/
theorem parent?_of_removed {m : Nat} {l : ParentLink} (hm : m ∉ r.numbers)
    (hl : t.parent? m = some l) :
    t'.parent? m = some (ParentLink.behind ⟨k, .body, left.length⟩ l) := by
  have hmr : m ≠ r.number := fun hmr => hm (hmr ▸ r.number_mem_numbers)
  have hright := mem_right_iff h hbody hmr hl
  rw [show t'.parent? m = _ from congrArg Prod.snd (hcell hm), hl, ParentLink.behind]
  by_cases hbehind : m ∈ right.map number
  · rw [if_pos hbehind, if_pos (hright.1 hbehind)]
    rfl
  · rw [if_neg hbehind, if_neg (hright.not.1 hbehind)]

/-- The nodes that stay keep their children, without the element that goes. -/
theorem children_of_removed {m : Nat} (hm : m ∉ r.numbers) :
    t'.children m = (t.children m).erase r.number := by
  obtain ⟨link, hheld, -⟩ := h.represents.holds.plug
  obtain ⟨-, -, -, -, -, -, hlr⟩ := nodup_split h.represents.nodup_plug.1
  have hslot : t'.slot? m = _ := congrArg Prod.fst (hcell hm)
  by_cases hmk : m = k
  · subst hmk
    have hout : r.number ∉ left.map number := fun hr =>
      (hlr _ (mem_flatMap_numbers hr)).1 r.number_mem_numbers
    rw [children, children, hslot, if_pos rfl, hheld.slot?]
    simp only [Option.map_some, Option.getD_some, List.map_append, List.map_cons]
    rw [List.eraseIdx_append_of_length_le (by simp), List.erase_append_right _ hout]
    simp
  · have hout : r.number ∉ t.children m := by
      intro hr
      cases hs : t.slot? m with
      | none =>
        rw [children, hs] at hr
        cases hr
      | some s =>
        rw [children, hs] at hr
        obtain ⟨i, hi⟩ := List.mem_iff_getElem?.1 hr
        have hl : t.parent? r.number = some ⟨m, s.form.kind.fieldAt i, i⟩ :=
          h.placed.2 ⟨s, hs, hi, rfl⟩
        rw [parent?_of_removed_element h hbody] at hl
        exact hmk (congrArg ParentLink.parent (Option.some.inj hl)).symm
    rw [List.erase_of_not_mem hout, children, children, hslot, if_neg hmk]

end Removing

/-- The nodes of a tree without a part. -/
theorem mem_numbers_without {C : Context (Nat × Form)} {k m : Nat} {form : Form}
    {left right : List (Rose (Nat × Form))}
    (h : t.Represents (C.plug (.node (k, form) (left ++ r :: right)))) :
    m ∈ (C.plug (.node (k, form) (left ++ right))).numbers ↔
      m ∈ (C.plug (.node (k, form) (left ++ r :: right))).numbers ∧ m ∉ r.numbers := by
  obtain ⟨hnodup, hout⟩ := h.nodup_plug
  obtain ⟨-, hkr, -, -, -, hrr, hlr⟩ := nodup_split hnodup
  have hside : m ∈ C.before.map Prod.fst ++ C.after.map Prod.fst → m ∉ r.numbers := by
    intro hm hmr
    refine (hout m hm).1 (mem_numbers_of_part ?_ hmr)
    exact List.mem_append_right _ List.mem_cons_self
  rw [numbers_plug, numbers_plug, numbers_node, numbers_node]
  simp only [List.flatMap_append, List.flatMap_cons, List.mem_append, List.mem_cons] at hside ⊢
  constructor
  · rintro ((hm | rfl | hm | hm) | hm)
    · exact ⟨.inl (.inl hm), hside (.inl hm)⟩
    · exact ⟨.inl (.inr (.inl rfl)), hkr⟩
    · exact ⟨.inl (.inr (.inr (.inl hm))), (hlr m hm).1⟩
    · exact ⟨.inl (.inr (.inr (.inr (.inr hm)))), fun hmr => hrr m hmr hm⟩
    · exact ⟨.inr hm, hside (.inr hm)⟩
  · rintro ⟨(hm | rfl | hm | hm | hm) | hm, hmr⟩
    · exact .inl (.inl hm)
    · exact .inl (.inr (.inl rfl))
    · exact .inl (.inr (.inr (.inl hm)))
    · exact absurd hm hmr
    · exact .inl (.inr (.inr (.inr hm)))
    · exact .inr hm

/-- A removal that succeeds takes the element at the end of the path out of its list, and nothing
else changes. -/
theorem Tidy.removed {n : Nat} (h : t.Tidy r) (hok : t.removeStatement n = .ok t') :
    Removed t t' n := by
  obtain ⟨hr, hs, hlist, -⟩ := eq_of_removeStatement hok
  obtain ⟨s, hs⟩ := Option.isSome_iff_exists.1 hs
  obtain ⟨C, k, form, left, x, right, rfl, rfl, hk⟩ :=
    ((h.editable hr).listed (h.live hs) hlist).exists_plug
  have hbody : ∀ i, form.kind.fieldAt i = .body := by
    rcases hk with hk | hk <;> simp [hk, Kind.fieldAt]
  have ht' := Except.ok.inj (hok.symm.trans (h.represents.removeStatement_eq hr hbody))
  obtain ⟨t'', hok', h'⟩ := h.removeStatement hk hr
  obtain rfl : t' = t'' := Except.ok.inj (hok.symm.trans hok')
  have hcell : ∀ {m}, m ∉ x.numbers → _ := fun {m} hm =>
    (h.represents.cell_removed m).trans (if_neg hm)
  rw [← ht'] at hcell
  obtain ⟨link, hheld, -⟩ := h.represents.holds.plug
  have hlive : ∀ m, (t'.slot? m).isSome ↔ (t.slot? m).isSome ∧ m ∉ x.numbers := fun m => by
    rw [h'.isSome_iff, h.isSome_iff, mem_numbers_without h.represents]
  have hmem : ∀ m, m ∈ x.numbers ↔ m = x.number ∨ t.Below x.number m := by
    intro m
    obtain ⟨link, hpart⟩ := hheld.mem_part (r := x) (by simp)
    cases x with
    | node label parts => exact hpart.mem_numbers_iff
  refine ⟨?_, fun m => ?_, fun m hm => ?_, fun m hm =>
    children_of_removed h hbody hcell ((hlive m).1 hm).2⟩
  · obtain ⟨s, hs, hrose⟩ := h.toScript_eq_ok
    obtain ⟨s', hs', hrose'⟩ := h'.toScript_eq_ok
    obtain ⟨links, hdown, hway⟩ := h.represents.holds.descent_plug
    rw [h.represents.root] at hdown
    have hl := parent?_of_removed_element h hbody
    refine ⟨s, s', links, _, hs, h.path_eq (h.isSome_of_parent? hl) (hdown.down hl), rfl, hs', ?_,
      fun m hm => ?_⟩
    · rw [hrose, hrose', hway, forms, forms, map_plug, map_plug, ← Context.way_map Prod.snd,
        alterAt_way]
      simp [withoutPart, List.eraseIdx_append_of_length_le]
    · obtain ⟨hold, hout⟩ := (hlive m).1 hm
      refine h.path_move h' (· ∈ x.numbers) (fun hp hc => ?_) (fun l => ?_)
        (fun hc hl => parent?_of_removed h hbody hcell hc hl) hout hold hm
      · obtain ⟨link, hpart⟩ := hheld.mem_part (r := x) (by simp)
        exact hpart.mem_of_child hp hc
      · rw [ParentLink.behind]
        split <;> rfl
  · rw [hlive, hmem, not_or]
  · rw [show t'.slot? m = _ from congrArg Prod.fst (hcell ((hlive m).1 hm).2)]
    split
    · cases t.slot? m <;> rfl
    · rfl

/-! ## Histories -/

/-- No call gives up slots. -/
theorem size_slots_perform (call : Call) : t.slots.size ≤ (t.perform call).slots.size := by
  unfold SyntaxTree.perform
  cases hrun : call.run t with
  | error fault => exact Nat.le_refl _
  | ok t' =>
    have hreplace : ∀ {n category form}, t.replace n category form = .ok t' →
        t.slots.size ≤ t'.slots.size := by
      intro n category form hok
      obtain ⟨-, s, -, -, rfl⟩ := eq_of_replace hok
      simp [plantAt]
    cases call with
    | replaceStatement n s => exact hreplace hrun
    | replaceExpression n e => exact hreplace hrun
    | replaceTarget n p => exact hreplace hrun
    | removeStatement n =>
      obtain ⟨-, -, -, later, parent, index, rfl⟩ := eq_of_removeStatement hrun
      rw [shiftLink_foldl_eq]
      simp [dropChild]
    | scope n use =>
      obtain ⟨⟨_, _⟩, hscope, hrun⟩ := bind_eq_ok.1 hrun
      cases hrun
      obtain ⟨holder, s, -, rfl⟩ := eq_of_useScope hscope
      exact Nat.le_refl _
    | start n =>
      obtain ⟨⟨_, _⟩, hcursor, hrun⟩ := bind_eq_ok.1 hrun
      cases hrun
      obtain rfl := eq_of_cursor hcursor
      exact Nat.le_refl _
    | finish c =>
      cases hrun
      exact Nat.le_refl _

theorem size_slots_foldl_perform (calls : List Call) :
    t.slots.size ≤ (calls.foldl perform t).slots.size := by
  induction calls generalizing t with
  | nil => exact Nat.le_refl _
  | cons call calls ih => exact Nat.le_trans (size_slots_perform call) ih

/-- Numbers that were used have slots. -/
theorem Used.lt_size {s : Script} {calls : List Call} {n : Nat} (h : Used s calls n) :
    n < (calls.foldl perform (ofScript s)).slots.size := by
  obtain ⟨earlier, ⟨later, rfl⟩, hn⟩ := h
  obtain ⟨slot, hslot⟩ := Option.isSome_iff_exists.1 hn
  rw [List.foldl_append]
  exact Nat.lt_of_lt_of_le (lt_size_of_slot? hslot) (size_slots_foldl_perform later)

theorem Replaced.imp {used used' : Nat → Prop} {n : Nat} {form : Rose Form}
    (h : Replaced used t t' n form) (himp : ∀ m, used' m → used m) :
    Replaced used' t t' n form :=
  { h with fresh := fun m hm hused => h.fresh m hm (himp m hused) }

/-- What a call on a tidy arena does when it succeeds. -/
theorem Tidy.effect (h : t.Tidy r) {call : Call} (hrun : call.run t = .ok t') :
    call.Effect (· < t.slots.size) t t' := by
  cases call with
  | replaceStatement n s => exact h.replaced s.wellFormed_rose s.category_rose hrun
  | replaceExpression n e => exact h.replaced e.wellFormed_rose e.category_rose hrun
  | replaceTarget n p => exact h.replaced p.wellFormed_rose p.category_rose hrun
  | removeStatement n => exact h.removed hrun
  | scope n use =>
    obtain ⟨⟨_, _⟩, hscope, hrun⟩ := bind_eq_ok.1 hrun
    cases hrun
    obtain ⟨_, s, -, -, rfl⟩ := h.eq_of_useScope hscope
    exact ⟨rfl, rfl⟩
  | start n =>
    obtain ⟨⟨_, _⟩, hcursor, hrun⟩ := bind_eq_ok.1 hrun
    cases hrun
    obtain rfl := eq_of_cursor hcursor
    exact ⟨rfl, rfl⟩
  | finish c =>
    cases hrun
    exact ⟨rfl, rfl⟩

theorem Call.Effect.imp {used used' : Nat → Prop} {call : Call} (h : call.Effect used t t')
    (himp : ∀ m, used' m → used m) : call.Effect used' t t' := by
  cases call with
  | replaceStatement n s => exact Replaced.imp h himp
  | replaceExpression n e => exact Replaced.imp h himp
  | replaceTarget n p => exact Replaced.imp h himp
  | removeStatement n => exact h
  | scope n use => exact h
  | start n => exact h
  | finish c => exact h

/-- A call that succeeds, after any calls on a new arena, changes the script at the end of a path
and nothing else, and gives out numbers that were never used. -/
theorem effect_of_history (s : Script) (calls : List Call) {call : Call} {t' : SyntaxTree}
    (h : call.run (calls.foldl perform (ofScript s)) = .ok t') :
    call.Effect (Used s calls) (calls.foldl perform (ofScript s)) t' := by
  obtain ⟨r, htidy⟩ := (tidy_ofScript s).history calls
  exact (htidy.effect h).imp fun m hm => hm.lt_size

/-- A block is put in the place of a statement, and then its first element is taken out. -/
theorem effect_of_replace_and_remove :
    let s : Script := { body := [.push .undefined none, .ret none none] }
    let calls : List Call := [.replaceStatement 1 (.block [.empty none, .ret none none] none)]
    let t := calls.foldl perform (ofScript s)
    ∃ t', (Call.removeStatement 4).run t = .ok t' ∧
      (Call.removeStatement 4).Effect (Used s calls) t t' ∧ t.live = [0, 1, 3, 4, 5] ∧
      t'.live = [0, 1, 3, 5] :=
  ⟨_, rfl, effect_of_history _ _ rfl, by decide, by decide⟩

end SyntaxTree

end ScriptRecovery
