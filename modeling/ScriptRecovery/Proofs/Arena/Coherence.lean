import Mathlib.Logic.Relation
import ScriptRecovery.Proofs.Arena.Histories

/-!
# Coherent arenas

What a caller of a tree relies on is said of its slots, its links and its scopes
(`SyntaxTree.Coherent`).  Links and children are the two sides of one relation, the nodes are those
that the script leads to, each in one place, and where no node is there is neither a link nor a
scope, though the three are kept apart and cleared one by one.  Every node has children of the kinds
and in the fields that its own kind calls for, so statements, expressions, targets and the script
can be read, and the way up from a node ends at the script.

Tidy arenas are coherent (`Tidy.coherent`): the tree that they represent is gone through once for
each of these (`Holds.placed`, `Holds.reachable`, `Holds.descent`), and what is read is what is read
from its parts.  So an arena is coherent after any calls on a new arena (`coherent_of_history`).
-/

namespace ScriptRecovery

open Rose

namespace SyntaxTree

variable {t : SyntaxTree} {link : Option ParentLink} {r : Rose (Nat × Form)}

/-! ## Coherence -/

/-- The links on the way down from one node to another. -/
inductive Descent (t : SyntaxTree) (a : Nat) : List ParentLink → Nat → Prop
  | here : Descent t a [] a
  | down {links : List ParentLink} {l : ParentLink} {n : Nat} : Descent t a links l.parent →
      t.parent? n = some l → Descent t a (links ++ [l]) n

/-- Whether the slots, links and scopes of an arena fit together. -/
structure Coherent (t : SyntaxTree) : Prop where
  /-- A node is at a place among the children of another one exactly when its link says so. -/
  placed : ∀ {c : Nat} {l : ParentLink}, t.parent? c = some l ↔ ∃ s, t.slot? l.parent = some s ∧
    s.children[l.index]? = some c ∧ s.form.kind.fieldAt l.index = l.field
  /-- The nodes are those that the script leads to. -/
  reachable : ∀ {n : Nat}, (t.slot? n).isSome ↔
    Relation.ReflTransGen (fun p c => c ∈ t.children p) root n
  /-- Going through the script comes to every node once. -/
  once : (t.nodes.map Prod.fst).Perm t.live
  /-- The script is the only node without a parent. -/
  orphan : ∀ {n : Nat}, (t.slot? n).isSome → (t.parent? n = none ↔ n = root)
  /-- What is no node has no parent and no scope. -/
  dead : ∀ {n : Nat}, t.slot? n = none → t.parent? n = none ∧ t.scope? n = none
  /-- The script is the only node of its kind. -/
  script : ∀ {n : Nat}, t.kind? n = some .script ↔ n = root
  /-- A node has the children its kind calls for. -/
  admits : ∀ {n : Nat} {s : Slot}, t.slot? n = some s →
    ∃ kinds : List Kind, s.children.map t.kind? = kinds.map some ∧
      s.form.kind.admits (kinds.map Kind.category)
  /-- Statements can be read. -/
  statement : ∀ {n : Nat} {k : Kind}, t.kind? n = some k → k.category = .statement →
    ∃ s b, t.statement n = .ok s ∧ t.branch? n = some b ∧ s.rose = b.forms
  /-- Expressions can be read. -/
  expression : ∀ {n : Nat} {k : Kind}, t.kind? n = some k → k.category = .expression →
    ∃ e b, t.expression n = .ok e ∧ t.branch? n = some b ∧ e.rose = b.forms
  /-- Targets can be read. -/
  target : ∀ {n : Nat} {k : Kind}, t.kind? n = some k → k.category = .target →
    ∃ p b, t.target n = .ok p ∧ t.branch? n = some b ∧ p.rose = b.forms
  /-- The script can be read. -/
  toScript : ∃ s b, t.toScript = .ok s ∧ t.branch? root = some b ∧ s.rose = b.forms
  /-- The path to a node leads down from the script. -/
  path : ∀ {n : Nat}, (t.slot? n).isSome → ∃ links, t.path n = .ok links ∧ t.Descent root links n

/-! ## Places -/

/-- The nodes of a tree are in the places that their links name, but for its root. -/
theorem Holds.placed (h : t.Holds link r) {m : Nat} (hm : m ∈ r.numbers) :
    m = r.number ∨ ∃ p s k, t.slot? p = some s ∧ s.children[k]? = some m ∧
      t.parent? m = some ⟨p, s.form.kind.fieldAt k, k⟩ := by
  induction h with
  | @node link n form parts hcell hparts ih =>
    rw [numbers_node, List.mem_cons, List.mem_flatMap] at hm
    rcases hm with rfl | ⟨x, hx, hm⟩
    · exact .inl rfl
    obtain ⟨i, hi⟩ := List.mem_iff_getElem?.1 hx
    rcases ih i x hi hm with rfl | h
    · refine .inr ⟨n, _, i, congrArg Prod.fst hcell, by simp [hi], ?_⟩
      rw [(hparts i x hi).parent?_eq]
    · exact .inr h

/-- The root of a tree leads to its nodes. -/
theorem Holds.reachable (h : t.Holds link r) {m : Nat} (hm : m ∈ r.numbers) :
    Relation.ReflTransGen (fun p c => c ∈ t.children p) r.number m := by
  induction h with
  | @node link n form parts hcell _ ih =>
    rw [numbers_node, List.mem_cons, List.mem_flatMap] at hm
    rcases hm with rfl | ⟨x, hx, hm⟩
    · exact .refl
    obtain ⟨i, hi⟩ := List.mem_iff_getElem?.1 hx
    refine .head ?_ (ih i x hi hm)
    rw [number_node, children, show t.slot? n = _ from congrArg Prod.fst hcell]
    exact List.mem_map_of_mem hx

/-! ## Ways down -/

theorem Descent.cons {a n : Nat} {l : ParentLink} {links : List ParentLink}
    (h : t.Descent a links n) (hl : t.parent? a = some l) : t.Descent l.parent (l :: links) n := by
  induction h with
  | here =>
    have hdown : t.Descent l.parent ([] ++ [l]) a := .down .here hl
    exact hdown
  | down _ hn ih => exact .down ih hn

/-- The links up from a node are those on the way down to it, and then those up from where that
starts. -/
theorem Descent.linksUp {a n fuel : Nat} {links : List ParentLink} (h : t.Descent a links n)
    (hf : links.length ≤ fuel) :
    t.linksUp n fuel = links.reverse ++ t.linksUp a (fuel - links.length) := by
  induction h generalizing fuel with
  | here => rfl
  | @down links l n _ hn ih =>
    rw [List.length_append, List.length_singleton] at hf
    obtain ⟨fuel, rfl⟩ := Nat.exists_eq_add_of_le' (Nat.le_of_add_left_le hf)
    rw [SyntaxTree.linksUp, hn]
    simp only
    rw [ih (by omega), List.length_append, List.length_singleton, Nat.add_sub_add_right,
      List.reverse_append]
    rfl

/-- From the root of a tree there is a way down to each of its nodes, along fewer links than the
tree has nodes. -/
theorem Holds.descent (h : t.Holds link r) {m : Nat} (hm : m ∈ r.numbers) :
    ∃ links, t.Descent r.number links m ∧ links.length < r.labels.length := by
  induction h with
  | @node link n form parts hcell hparts ih =>
    rw [numbers_node, List.mem_cons, List.mem_flatMap] at hm
    rcases hm with rfl | ⟨x, hx, hm⟩
    · exact ⟨[], .here, by simp⟩
    obtain ⟨i, hi⟩ := List.mem_iff_getElem?.1 hx
    obtain ⟨links, hdescent, hlen⟩ := ih i x hi hm
    refine ⟨_ :: links, hdescent.cons (hparts i x hi).parent?_eq, ?_⟩
    have := length_labels_le hx
    rw [labels_node, List.length_cons, List.length_cons]
    omega

/-! ## Tidy arenas are coherent -/

section Tidy

variable (h : t.Tidy r) {n : Nat}

include h

/-- The part of the tree that a node is the root of. -/
theorem Tidy.exists_holds {s : Slot} (hs : t.slot? n = some s) :
    ∃ link parts, t.Holds link (.node (n, s.form) parts) ∧ s.children = parts.map number ∧
      (Rose.node (n, s.form) parts).numbers.Nodup ∧
      (Rose.node (n, s.form) parts).forms.WellFormed := by
  obtain ⟨⟨_, form⟩, hx, rfl⟩ := List.mem_map.1 (h.live hs)
  obtain ⟨C, parts, rfl, -⟩ := h.represents.exists_plug hx
  obtain ⟨link, hheld, -⟩ := h.represents.holds.plug
  obtain rfl := Option.some.inj (hs.symm.trans hheld.slot?)
  refine ⟨link, parts, hheld, rfl, h.represents.nodup_plug.1, ?_⟩
  have hw := h.wellFormed
  rw [forms, map_plug] at hw
  exact hw.of_plug

theorem Tidy.isSome_iff : (t.slot? n).isSome ↔ n ∈ r.numbers := by
  constructor
  · intro hn
    obtain ⟨s, hs⟩ := Option.isSome_iff_exists.1 hn
    exact h.live hs
  · intro hn
    obtain ⟨⟨_, form⟩, hx, rfl⟩ := List.mem_map.1 hn
    obtain ⟨C, parts, rfl, -⟩ := h.represents.exists_plug hx
    obtain ⟨link, hheld, -⟩ := h.represents.holds.plug
    simp [hheld.slot?]

/-- Only nodes have links. -/
theorem Tidy.isSome_of_parent? {l : ParentLink} (hl : t.parent? n = some l) :
    (t.slot? n).isSome := h.isSome_iff.2 (h.linked hl)

theorem Tidy.parent?_root : t.parent? root = none := by
  rw [← h.represents.root]
  exact h.represents.holds.parent?_eq

theorem Tidy.isSome_root : (t.slot? root).isSome := by
  rw [h.isSome_iff, ← h.represents.root]
  exact r.number_mem_numbers

/-- A node other than the script is where its link says. -/
theorem Tidy.exists_place (hn : (t.slot? n).isSome) (hroot : n ≠ root) :
    ∃ p s k, t.slot? p = some s ∧ s.children[k]? = some n ∧
      t.parent? n = some ⟨p, s.form.kind.fieldAt k, k⟩ :=
  (h.represents.holds.placed (h.isSome_iff.1 hn)).resolve_left
    fun heq => hroot (heq.trans h.represents.root)

theorem Tidy.placed {l : ParentLink} : t.parent? n = some l ↔ ∃ s, t.slot? l.parent = some s ∧
    s.children[l.index]? = some n ∧ s.form.kind.fieldAt l.index = l.field := by
  constructor
  · intro hl
    have hroot : n ≠ root := by
      rintro rfl
      cases h.parent?_root.symm.trans hl
    obtain ⟨p, s, k, hs, hk, hp⟩ := h.exists_place (h.isSome_of_parent? hl) hroot
    obtain rfl := Option.some.inj (hl.symm.trans hp)
    exact ⟨s, hs, hk, rfl⟩
  · obtain ⟨p, f, k⟩ := l
    rintro ⟨s, hs, hk, hf⟩
    simp only at hs hk hf
    subst hf
    obtain ⟨_, parts, hheld, hchildren, -, -⟩ := h.exists_holds hs
    rw [hchildren, List.getElem?_map, Option.map_eq_some_iff] at hk
    obtain ⟨x, hx, rfl⟩ := hk
    exact (hheld.part hx).parent?_eq

/-- The first child of a node is the one that is linked to it at position zero. -/
theorem Tidy.firstChild?_eq_some {c : Nat} :
    t.firstChild? n = some c ↔ ∃ field, t.parent? c = some ⟨n, field, 0⟩ := by
  rw [firstChild?, List.head?_eq_getElem?, children]
  constructor
  · intro hc
    cases hs : t.slot? n with
    | none => simp [hs] at hc
    | some s => exact ⟨s.form.kind.fieldAt 0, h.placed.2 ⟨s, hs, by simpa [hs] using hc, rfl⟩⟩
  · rintro ⟨field, hlink⟩
    obtain ⟨s, hs, hc, -⟩ := h.placed.1 hlink
    simpa [hs] using hc

theorem Tidy.reachable : (t.slot? n).isSome ↔
    Relation.ReflTransGen (fun p c => c ∈ t.children p) root n := by
  constructor
  · intro hn
    rw [← h.represents.root]
    exact h.represents.holds.reachable (h.isSome_iff.1 hn)
  · intro hn
    induction hn with
    | refl => exact h.isSome_root
    | @tail p c _ hc hp =>
      -- a child has a link, and only nodes have links
      obtain ⟨s, hs⟩ := Option.isSome_iff_exists.1 hp
      rw [children, hs] at hc
      obtain ⟨k, hk⟩ := List.mem_iff_getElem?.1 hc
      have hl : t.parent? c = some ⟨p, s.form.kind.fieldAt k, k⟩ := h.placed.2 ⟨s, hs, hk, rfl⟩
      exact h.isSome_of_parent? hl

theorem Tidy.orphan (hn : (t.slot? n).isSome) : t.parent? n = none ↔ n = root := by
  constructor
  · intro hnone
    by_contra hroot
    obtain ⟨p, s, k, -, -, hp⟩ := h.exists_place hn hroot
    cases hnone.symm.trans hp
  · rintro rfl
    exact h.parent?_root

/-- What was cleared is cleared everywhere: the node, its link and its source of temporaries. -/
theorem Tidy.dead (hn : t.slot? n = none) : t.parent? n = none ∧ t.scope? n = none := by
  have hout : n ∉ r.numbers := fun hin => by simpa [hn] using h.isSome_iff.2 hin
  have hroot : n ≠ root := by
    rintro rfl
    simpa [hn] using h.isSome_root
  refine ⟨congrArg Prod.snd (h.empty hout), ?_⟩
  rw [scope?, List.lookup_eq_none_iff]
  intro x hx
  simpa [h.anchored x hx] using hroot

theorem Tidy.admits {s : Slot} (hs : t.slot? n = some s) :
    ∃ kinds : List Kind, s.children.map t.kind? = kinds.map some ∧
      s.form.kind.admits (kinds.map Kind.category) := by
  obtain ⟨_, parts, hheld, hchildren, -, hw⟩ := h.exists_holds hs
  refine ⟨parts.map fun x => x.forms.label.kind, ?_, ?_⟩
  · rw [hchildren, List.map_map, List.map_map]
    refine List.map_congr_left fun x hx => ?_
    obtain ⟨link, hl⟩ := hheld.mem_part hx
    exact hl.kind?_eq
  · rw [forms_node] at hw
    have hadmits := hw.admits
    rwa [List.map_map] at hadmits ⊢

theorem Tidy.script : t.kind? n = some .script ↔ n = root := by
  constructor
  · intro hk
    by_contra hroot
    have hn : (t.slot? n).isSome := by
      rw [kind?, Option.map_eq_some_iff] at hk
      obtain ⟨s, hs, -⟩ := hk
      simp [hs]
    obtain ⟨p, s, i, hs, hi, -⟩ := h.exists_place hn hroot
    obtain ⟨kinds, hkinds, hadmits⟩ := h.admits hs
    have hat : (kinds.map some)[i]? = some (some .script) := by
      rw [← hkinds, List.getElem?_map, hi, Option.map_some, hk]
    rw [List.getElem?_map, Option.map_eq_some_iff] at hat
    obtain ⟨_, hat, hscript⟩ := hat
    cases hscript
    exact Kind.not_script_of_admits hadmits _ (List.mem_map_of_mem (List.mem_of_getElem? hat)) rfl
  · rintro rfl
    rw [← h.represents.root, h.represents.holds.kind?_eq, Kind.eq_script_of_category h.category]

/-- What a node of a category stands for can be read. -/
theorem Tidy.readAs_eq_ok {α : Type} {category : Category} {ofRose? : Rose Form → Option α}
    {rose : α → Rose Form} (hread : ∀ {x : Rose Form}, x.WellFormed → x.category = category →
      ∃ a, ofRose? x = some a ∧ rose a = x) {k : Kind} (hk : t.kind? n = some k)
    (hc : k.category = category) :
    ∃ a b, t.readAs category ofRose? n = .ok a ∧ t.branch? n = some b ∧ rose a = b.forms := by
  rw [kind?, Option.map_eq_some_iff] at hk
  obtain ⟨s, hs, rfl⟩ := hk
  obtain ⟨_, parts, hheld, -, hnodup, hw⟩ := h.exists_holds hs
  have hcategory : (Rose.node (n, s.form) parts).forms.category = category := by
    rw [forms_node]
    exact hc
  obtain ⟨a, ha, hrose⟩ := hread hw hcategory
  exact ⟨a, _, hheld.readAs_eq_ok hnodup hcategory ha, hheld.branch? hnodup, hrose⟩

theorem Tidy.path (hn : (t.slot? n).isSome) :
    ∃ links, t.path n = .ok links ∧ t.Descent root links n := by
  obtain ⟨links, hdescent, hlen⟩ := h.represents.holds.descent (h.isSome_iff.1 hn)
  rw [h.represents.root] at hdescent
  have hle := h.represents.holds.length_le h.represents.nodup
  have hstop : ∀ fuel, t.linksUp root fuel = [] := by
    intro fuel
    cases fuel with
    | zero => rfl
    | succ fuel => rw [SyntaxTree.linksUp, h.parent?_root]
  obtain ⟨s, hs⟩ := Option.isSome_iff_exists.1 hn
  refine ⟨links, ?_, hdescent⟩
  rw [SyntaxTree.path, hdescent.linksUp (by omega), hstop, List.append_nil, List.reverse_reverse,
    slot, hs]
  rfl

theorem Tidy.once : (t.nodes.map Prod.fst).Perm t.live := by
  rw [h.represents.nodes]
  refine (List.perm_ext_iff_of_nodup h.represents.nodup (List.nodup_range.filter _)).2 fun n => ?_
  rw [List.mem_filter, List.mem_range, h.isSome_iff]
  exact ⟨fun hn => ⟨h.represents.holds.lt_size n hn, hn⟩, And.right⟩

/-- Tidy arenas are coherent. -/
theorem Tidy.coherent : t.Coherent where
  placed := h.placed
  reachable := h.reachable
  once := h.once
  orphan := h.orphan
  dead := h.dead
  script := h.script
  admits := h.admits
  statement := h.readAs_eq_ok fun hw hc => hw.read_stmt hc
  expression := h.readAs_eq_ok fun hw hc => hw.read.1 hc
  target := h.readAs_eq_ok fun hw hc => hw.read.2 hc
  toScript := h.readAs_eq_ok (fun hw hc => hw.read_script hc) (h.script.2 rfl) rfl
  path := h.path

end Tidy

/-- A tree is coherent after any calls on a new one, whether they succeed or fail. -/
theorem coherent_of_history (s : Script) (calls : List Call) :
    (calls.foldl perform (ofScript s)).Coherent := by
  obtain ⟨r, h⟩ := (tidy_ofScript s).history calls
  exact h.coherent

end SyntaxTree

end ScriptRecovery
