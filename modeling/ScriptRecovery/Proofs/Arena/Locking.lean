import ScriptRecovery.Proofs.Arena.InPlace

/-!
# Walks lock the tree they were started on

Several trees, copies among them, with the walks that were started on them: a `Bench`.  A walk is
outstanding until its ticket is given back, however far it has got, and whichever tree it has walked
through since.  A `Deed` is anything that can be done to a bench.  Walks are started, moved on and
finished in any order, trees are copied and edited in place, and a visitor is led through a tree,
who does more of the same at every step and then says how to go on, or fails.

The invariant is `Bench.Sound`: the tickets of a tree are those of the outstanding walks that were
started on it.  `Bench.locked_of_history` reads off it that a tree counts as being walked exactly
when such a walk is outstanding, and that no edit gets through then.  That an edit which fails for
whatever reason has not changed the tree is `Tidy.inPlace`.
-/

namespace ScriptRecovery

open SyntaxTree

/-- Trees, and the walks that were started on them. -/
structure Bench where
  /-- The trees. -/
  trees : List SyntaxTree
  /-- The walks in the order in which they were started, each with the tree it was started on.
  A walk that has given its ticket back is gone. -/
  walks : List (Option (Nat × Cursor))

/-- Something that is done to a bench. -/
inductive Deed
  /-- A walk is started on a tree. -/
  | start (i n : Nat)
  /-- A walk goes one step further, through some tree. -/
  | advance (k i : Nat) (reply : Reply)
  /-- A walk gives its ticket back. -/
  | finish (k : Nat)
  /-- A tree is copied. -/
  | copy (i : Nat)
  /-- A tree is edited. -/
  | edit (i : Nat) (edit : Edit)
  /-- A temporary is asked for. -/
  | freshTemporary (i n : Nat)
  /-- A visitor is led through a tree.  At every step it does something, and then replies. -/
  | traverse (i n : Nat) (acts : Step → List Deed) (reply : Step → Except Fault Reply)

namespace Bench

/-! ## What is done -/

/-- Trees of scripts, without walks. -/
def ofScripts (ss : List Script) : Bench := ⟨ss.map ofScript, []⟩

/-- A bench with a tree changed. -/
def onTree (b : Bench) (i : Nat) (f : SyntaxTree → SyntaxTree) : Bench :=
  { b with trees := b.trees.modify i f }

/-- Starts a walk on a tree. -/
def start (b : Bench) (i n : Nat) : Bench :=
  match b.trees[i]? with
  | none => b
  | some t =>
      match t.cursor n with
      | .error _ => b
      | .ok (c, t') => ⟨b.trees.set i t', b.walks ++ [some (i, c)]⟩

/-- Moves a walk on through a tree. -/
def advance (b : Bench) (k i : Nat) (reply : Reply) : Bench :=
  match b.walks[k]?, b.trees[i]? with
  | some (some (owner, c)), some t =>
      match c.advance t reply with
      | .error _ => b
      | .ok c' => { b with walks := b.walks.set k (some (owner, c')) }
  | _, _ => b

/-- Gives the ticket of a walk back. -/
def finish (b : Bench) (k : Nat) : Bench :=
  match b.walks[k]? with
  | some (some (i, c)) => { b.onTree i (·.release c) with walks := b.walks.set k none }
  | _ => b

/-- Copies a tree. -/
def copy (b : Bench) (i : Nat) : Bench :=
  match b.trees[i]? with
  | none => b
  | some t => { b with trees := b.trees ++ [t.copy] }

/-- Leads a visitor through a tree.  The walk of its own is finished however that ends. -/
def traverse (b : Bench) (i n : Nat) (visit : Visitor Bench) : Bench :=
  match b.trees[i]? with
  | none => b
  | some t => (t.traverse n visit (b.start i n)).2.finish b.walks.length

mutual

/-- The bench after something that is done to it. -/
def run (b : Bench) : Deed → Bench
  | .start i n => b.start i n
  | .advance k i reply => b.advance k i reply
  | .finish k => b.finish k
  | .copy i => b.copy i
  | .edit i edit => b.onTree i fun t => (edit.inPlace t).state
  | .freshTemporary i n => b.onTree i fun t =>
      ((t.freshTemporary n).map Prod.snd).toOption.getD t
  | .traverse i n acts reply => b.traverse i n fun step b => (reply step, b.runAll (acts step))

/-- The bench after a history. -/
def runAll (b : Bench) : List Deed → Bench
  | [] => b
  | deed :: deeds => (b.run deed).runAll deeds

end

/-- Whether a walk that was started on a tree is outstanding. -/
def Walked (b : Bench) (i : Nat) : Prop :=
  ∃ (k : Nat) (c : Cursor), b.walks[k]? = some (some (i, c))

/-! ## Tickets -/

/-- Whether the tickets of the trees are those of the outstanding walks. -/
structure Sound (b : Bench) : Prop where
  tidy : ∀ {i : Nat} {t : SyntaxTree}, b.trees[i]? = some t → ∃ r, t.Tidy r
  owned : ∀ {k i : Nat} {c : Cursor}, b.walks[k]? = some (some (i, c)) →
    ∃ t, b.trees[i]? = some t ∧ c.ticket ∈ t.readers
  held : ∀ {i ticket : Nat} {t : SyntaxTree}, b.trees[i]? = some t → ticket ∈ t.readers →
    ticket < t.nextTicket ∧
      ∃ (k : Nat) (c : Cursor), b.walks[k]? = some (some (i, c)) ∧ c.ticket = ticket
  apart : ∀ {k k' i : Nat} {c c' : Cursor}, b.walks[k]? = some (some (i, c)) →
    b.walks[k']? = some (some (i, c')) → c.ticket = c'.ticket → k = k'

variable {b : Bench} {i k n : Nat} {t : SyntaxTree}

theorem sound_ofScripts (ss : List Script) : (ofScripts ss).Sound where
  tidy ht := by
    rw [ofScripts, List.getElem?_map, Option.map_eq_some_iff] at ht
    obtain ⟨s, -, rfl⟩ := ht
    exact ⟨_, tidy_ofScript s⟩
  owned hk := by simp [ofScripts] at hk
  held ht hm := by
    rw [ofScripts, List.getElem?_map, Option.map_eq_some_iff] at ht
    obtain ⟨s, -, rfl⟩ := ht
    simp [ofScript, plantAt] at hm
  apart hk := by simp [ofScripts] at hk

/-- A tree counts as being walked exactly when a walk that was started on it is outstanding. -/
theorem Sound.isWalked_iff (h : b.Sound) (ht : b.trees[i]? = some t) :
    t.isWalked = true ↔ b.Walked i := by
  constructor
  · intro hwalk
    obtain ⟨ticket, hm⟩ := List.exists_mem_of_ne_nil t.readers (by simpa [isWalked] using hwalk)
    obtain ⟨-, k, c, hk, -⟩ := h.held ht hm
    exact ⟨k, c, hk⟩
  · rintro ⟨k, c, hk⟩
    obtain ⟨t', ht', hm⟩ := h.owned hk
    obtain rfl := Option.some.inj (ht.symm.trans ht')
    have hne : t.readers ≠ [] := List.ne_nil_of_mem hm
    simpa [isWalked] using hne

/-! ## What is done keeps the tickets right -/

theorem getElem?_onTree {f : SyntaxTree → SyntaxTree} (j : Nat) :
    (b.onTree i f).trees[j]? = b.trees[j]?.map fun t => if i = j then f t else t :=
  List.getElem?_modify ..

/-- A tree that changes and keeps its tickets. -/
theorem Sound.onTree (h : b.Sound) {f : SyntaxTree → SyntaxTree}
    (hf : ∀ {t r}, t.Tidy r → (∃ r', (f t).Tidy r') ∧ (f t).readers = t.readers ∧
      (f t).nextTicket = t.nextTicket) : (b.onTree i f).Sound := by
  have hkeep : ∀ {j t}, b.trees[j]? = some t → (∃ r', (if i = j then f t else t).Tidy r') ∧
      (if i = j then f t else t).readers = t.readers ∧
      (if i = j then f t else t).nextTicket = t.nextTicket := by
    intro j t ht
    obtain ⟨r, hr⟩ := h.tidy ht
    split
    · exact hf hr
    · exact ⟨⟨r, hr⟩, rfl, rfl⟩
  refine ⟨fun ht => ?_, fun hk => ?_, fun ht hm => ?_, h.apart⟩
  · rw [getElem?_onTree, Option.map_eq_some_iff] at ht
    obtain ⟨t, ht, rfl⟩ := ht
    exact (hkeep ht).1
  · obtain ⟨t, ht, hm⟩ := h.owned hk
    refine ⟨_, by rw [getElem?_onTree, ht]; rfl, ?_⟩
    rwa [(hkeep ht).2.1]
  · rw [getElem?_onTree, Option.map_eq_some_iff] at ht
    obtain ⟨t, ht, rfl⟩ := ht
    rw [(hkeep ht).2.1] at hm
    rw [(hkeep ht).2.2]
    exact h.held ht hm

theorem getElem?_set_tree {t' : SyntaxTree} (ht : b.trees[i]? = some t) (j : Nat) :
    (b.trees.set i t')[j]? = if i = j then some t' else b.trees[j]? := by
  have hi : i < b.trees.length := (List.getElem?_eq_some_iff.1 ht).1
  rw [List.getElem?_set, if_pos hi]

theorem getElem?_concat_eq_some {α : Type} {l : List α} {a a' : α} :
    (l ++ [a])[k]? = some a' ↔ l[k]? = some a' ∨ k = l.length ∧ a' = a := by
  rcases Nat.lt_trichotomy k l.length with hk | rfl | hk
  · rw [List.getElem?_append_left hk]
    exact ⟨.inl, fun h => h.resolve_right fun hlast => Nat.ne_of_lt hk hlast.1⟩
  · simp [eq_comm]
  · have hnone : l[k]? = none := List.getElem?_eq_none (Nat.le_of_lt hk)
    have hnone' : (l ++ [a])[k]? = none := List.getElem?_eq_none (by simp; omega)
    simp [hnone, hnone', Nat.ne_of_gt hk]

/-- A new walk takes a ticket that no other one has. -/
theorem Sound.opened (h : b.Sound) (ht : b.trees[i]? = some t) {c : Cursor}
    (hc : c.ticket = t.nextTicket) :
    Sound ⟨b.trees.set i { t with
        readers := t.nextTicket :: t.readers, nextTicket := t.nextTicket + 1 },
      b.walks ++ [some (i, c)]⟩ := by
  -- tickets that were given out before are below the new one
  have hold : ∀ {k : Nat} {c : Cursor}, b.walks[k]? = some (some (i, c)) →
      c.ticket ≠ t.nextTicket := fun hk => by
    obtain ⟨u, hu, hm⟩ := h.owned hk
    obtain rfl := Option.some.inj (ht.symm.trans hu)
    exact Nat.ne_of_lt (h.held ht hm).1
  refine ⟨fun {j u} hu => ?_, fun {k j c'} hk => ?_, fun {j ticket u} hu hm => ?_,
    fun {k k' j d d'} hk hk' heq => ?_⟩
  · rw [getElem?_set_tree ht] at hu
    split at hu
    · cases hu
      obtain ⟨r, hr⟩ := h.tidy ht
      exact ⟨r, hr.congr rfl rfl hr.anchored⟩
    · exact h.tidy hu
  · rw [getElem?_set_tree ht]
    rcases getElem?_concat_eq_some.1 hk with hk | ⟨-, heq⟩
    · obtain ⟨u, hu, hm⟩ := h.owned hk
      split
      · next hij =>
        obtain rfl := Option.some.inj ((hij ▸ ht).symm.trans hu)
        exact ⟨_, rfl, List.mem_cons_of_mem _ hm⟩
      · exact ⟨u, hu, hm⟩
    · cases heq
      exact ⟨_, if_pos rfl, hc ▸ List.mem_cons_self⟩
  · rw [getElem?_set_tree ht] at hu
    split at hu
    · next hij =>
      subst hij
      cases hu
      rcases List.mem_cons.1 hm with rfl | hm
      · exact ⟨Nat.lt_succ_self _, _, _, getElem?_concat_eq_some.2 (.inr ⟨rfl, rfl⟩), hc⟩
      · obtain ⟨hlt, k, c', hk, hticket⟩ := h.held ht hm
        exact ⟨Nat.lt_succ_of_lt hlt, k, c', getElem?_concat_eq_some.2 (.inl hk), hticket⟩
    · obtain ⟨hlt, k, c', hk, hticket⟩ := h.held hu hm
      exact ⟨hlt, k, c', getElem?_concat_eq_some.2 (.inl hk), hticket⟩
  · rcases getElem?_concat_eq_some.1 hk with hk | ⟨rfl, hnew⟩ <;>
      rcases getElem?_concat_eq_some.1 hk' with hk' | ⟨rfl, hnew'⟩
    · exact h.apart hk hk' heq
    · cases hnew'
      exact absurd (heq.trans hc) (hold hk)
    · cases hnew
      exact absurd (heq.symm.trans hc) (hold hk')
    · rfl

theorem getElem?_set_walk {w w' : Option (Nat × Cursor)} {k' : Nat}
    (hk : b.walks[k]? = some w) :
    (b.walks.set k w')[k']? = if k = k' then some w' else b.walks[k']? := by
  rw [List.getElem?_set, if_pos (List.getElem?_eq_some_iff.1 hk).1]

/-- A walk that goes on with its ticket. -/
theorem Sound.moved (h : b.Sound) {c c' : Cursor} (hk : b.walks[k]? = some (some (i, c)))
    (hc : c'.ticket = c.ticket) : Sound { b with walks := b.walks.set k (some (i, c')) } := by
  -- the outstanding walks have the tickets that they had
  have hback : ∀ {j : Nat} {l : Nat} {d : Cursor},
      (b.walks.set k (some (i, c')))[l]? = some (some (j, d)) →
        ∃ d', b.walks[l]? = some (some (j, d')) ∧ d'.ticket = d.ticket := fun {j l d} hl => by
    rw [getElem?_set_walk hk] at hl
    split at hl
    · next hkl =>
      cases hl
      exact ⟨c, hkl ▸ hk, hc.symm⟩
    · exact ⟨d, hl, rfl⟩
  refine ⟨h.tidy, fun hl => ?_, fun hu hm => ?_, fun hl hl' heq => ?_⟩
  · obtain ⟨d, hd, hticket⟩ := hback hl
    exact hticket ▸ h.owned hd
  · obtain ⟨hlt, l, d, hl, hticket⟩ := h.held hu hm
    refine ⟨hlt, l, ?_⟩
    simp only [getElem?_set_walk hk]
    split
    · next hkl =>
      subst hkl
      cases hk.symm.trans hl
      exact ⟨c', rfl, hc.trans hticket⟩
    · exact ⟨d, hl, hticket⟩
  · obtain ⟨d, hd, hticket⟩ := hback hl
    obtain ⟨d', hd', hticket'⟩ := hback hl'
    exact h.apart hd hd' (hticket.trans (heq.trans hticket'.symm))

/-- A walk that gives its ticket back. -/
theorem Sound.released (h : b.Sound) {c : Cursor} (hk : b.walks[k]? = some (some (i, c))) :
    Sound { b.onTree i (·.release c) with walks := b.walks.set k none } := by
  have hback : ∀ {j l : Nat} {d : Cursor}, (b.walks.set k none)[l]? = some (some (j, d)) →
      k ≠ l ∧ b.walks[l]? = some (some (j, d)) := fun {j l d} hl => by
    rw [getElem?_set_walk hk] at hl
    split at hl
    · cases hl
    · next hkl => exact ⟨hkl, hl⟩
  refine ⟨fun hu => ?_, fun {l j d} hl => ?_, fun {j ticket u} hu hm => ?_,
    fun hl hl' heq => h.apart (hback hl).2 (hback hl').2 heq⟩
  · rw [getElem?_onTree, Option.map_eq_some_iff] at hu
    obtain ⟨t, ht, rfl⟩ := hu
    obtain ⟨r, hr⟩ := h.tidy ht
    refine ⟨r, ?_⟩
    split
    · exact hr.congr rfl rfl hr.anchored
    · exact hr
  · obtain ⟨hkl, hl⟩ := hback hl
    obtain ⟨t, ht, hm⟩ := h.owned hl
    refine ⟨_, by rw [getElem?_onTree, ht]; rfl, ?_⟩
    split
    · next hij =>
      subst hij
      have hne : d.ticket ≠ c.ticket := fun heq => hkl (h.apart hk hl heq.symm)
      exact List.mem_filter.2 ⟨hm, by simpa using hne⟩
    · exact hm
  · rw [getElem?_onTree, Option.map_eq_some_iff] at hu
    obtain ⟨t, ht, rfl⟩ := hu
    split at hm
    · next hij =>
      subst hij
      obtain ⟨hm, hne⟩ := List.mem_filter.1 hm
      obtain ⟨hlt, l, d, hl, rfl⟩ := h.held ht hm
      refine ⟨by rw [if_pos rfl]; exact hlt, l, d, ?_, rfl⟩
      rw [getElem?_set_walk hk, if_neg]
      · exact hl
      · rintro rfl
        cases hk.symm.trans hl
        simp at hne
    · next hij =>
      obtain ⟨hlt, l, d, hl, rfl⟩ := h.held ht hm
      refine ⟨by rwa [if_neg hij], l, d, ?_, rfl⟩
      rw [getElem?_set_walk hk, if_neg]
      · exact hl
      · rintro rfl
        cases hk.symm.trans hl
        exact hij rfl

/-- A copy has no tickets. -/
theorem Sound.copied (h : b.Sound) (ht : b.trees[i]? = some t) :
    Sound { b with trees := b.trees ++ [t.copy] } := by
  refine ⟨fun hu => ?_, fun hk => ?_, fun hu hm => ?_, h.apart⟩
  · rcases getElem?_concat_eq_some.1 hu with hu | ⟨-, rfl⟩
    · exact h.tidy hu
    · obtain ⟨r, hr⟩ := h.tidy ht
      exact ⟨r, hr.congr rfl rfl hr.anchored⟩
  · obtain ⟨u, hu, hm⟩ := h.owned hk
    exact ⟨u, getElem?_concat_eq_some.2 (.inl hu), hm⟩
  · rcases getElem?_concat_eq_some.1 hu with hu | ⟨-, rfl⟩
    · exact h.held hu hm
    · cases hm

/-! ## Deeds -/

theorem Sound.start (h : b.Sound) (i n : Nat) : (b.start i n).Sound := by
  unfold Bench.start
  split
  · exact h
  · next t ht =>
    split
    · exact h
    · next c t' hcursor =>
      obtain ⟨_, -, hres⟩ := bind_eq_ok.1 hcursor
      cases hres
      exact h.opened ht rfl

/-- A walk that goes on keeps its ticket. -/
theorem ticket_of_advance {c c' : Cursor} {reply : Reply} (h : c.advance t reply = .ok c') :
    c'.ticket = c.ticket := by
  unfold Cursor.advance at h
  split at h
  · cases h
    rfl
  · obtain ⟨_, -, h⟩ := bind_eq_ok.1 h
    cases h
    rfl

theorem Sound.advance (h : b.Sound) (k i : Nat) (reply : Reply) : (b.advance k i reply).Sound := by
  unfold Bench.advance
  split
  · next owner c t hk ht =>
    split
    · exact h
    · next c' hadvance => exact h.moved hk (ticket_of_advance hadvance)
  · exact h

theorem Sound.finish (h : b.Sound) (k : Nat) : (b.finish k).Sound := by
  unfold Bench.finish
  split
  · next hk => exact h.released hk
  · exact h

theorem Sound.copy (h : b.Sound) (i : Nat) : (b.copy i).Sound := by
  unfold Bench.copy
  split
  · exact h
  · next ht => exact h.copied ht

/-- An edit leaves the tickets alone. -/
theorem tidy_of_edit {r : Rose (Nat × Form)} {t' : SyntaxTree} {edit : Edit} (h : t.Tidy r)
    (hrun : edit.run t = .ok t') :
    (∃ r', t'.Tidy r') ∧ t'.readers = t.readers ∧ t'.nextTicket = t.nextTicket := by
  have hreplace : ∀ {n : Nat} {category : Category} {form : Rose Form},
      t.replace n category form = .ok t' →
        t'.readers = t.readers ∧ t'.nextTicket = t.nextTicket := fun hok => by
    obtain ⟨-, s, -, -, rfl⟩ := eq_of_replace hok
    exact ⟨rfl, rfl⟩
  cases edit with
  | replaceStatement n s =>
    exact ⟨h.of_replace s.wellFormed_rose s.category_rose hrun, hreplace hrun⟩
  | replaceExpression n e =>
    exact ⟨h.of_replace e.wellFormed_rose e.category_rose hrun, hreplace hrun⟩
  | replaceTarget n p =>
    exact ⟨h.of_replace p.wellFormed_rose p.category_rose hrun, hreplace hrun⟩
  | removeStatement n =>
    refine ⟨h.of_removeStatement hrun, ?_⟩
    obtain ⟨-, -, -, later, parent, index, rfl⟩ := eq_of_removeStatement hrun
    exact (foldl_shiftLink_rest _ later).2.2

theorem Sound.edit (h : b.Sound) (i : Nat) (edit : Edit) :
    (b.onTree i fun t => (edit.inPlace t).state).Sound := by
  refine h.onTree fun {t r} hr => ?_
  simp only [hr.inPlace]
  cases hrun : edit.run t with
  | error fault => exact ⟨⟨r, hr⟩, rfl, rfl⟩
  | ok t' => exact tidy_of_edit hr hrun

theorem Sound.freshTemporary (h : b.Sound) (i n : Nat) :
    (b.onTree i fun t => ((t.freshTemporary n).map Prod.snd).toOption.getD t).Sound := by
  refine h.onTree fun {t r} hr => ?_
  cases hfresh : t.freshTemporary n with
  | error fault => exact ⟨⟨r, hr⟩, rfl, rfl⟩
  | ok res =>
    obtain ⟨id, u⟩ := res
    obtain ⟨_, s, -, -, rfl⟩ := hr.eq_of_useScope hfresh
    exact ⟨⟨r, hr.keepScope s⟩, rfl, rfl⟩

/-- A visitor who keeps a property of its state is led through a tree with that property. -/
theorem walkFrom_induct {σ : Type} {p : σ → Prop} {visit : Visitor σ}
    (hvisit : ∀ step s, p s → p (visit step s).2) (start : Nat) {s : σ} (hs : p s)
    (step : Option Step) (fuel : Nat) : p (t.walkFrom start visit s step fuel).2 := by
  induction fuel generalizing s step with
  | zero => cases step <;> exact hs
  | succ fuel ih =>
    cases step with
    | none => exact hs
    | some step =>
      have hnext := hvisit step s hs
      unfold walkFrom
      split
      · next heq => rwa [heq] at hnext
      · next heq =>
        rw [heq] at hnext
        split
        · exact hnext
        · exact ih hnext _

theorem Sound.traverse (h : b.Sound) (i n : Nat) {visit : Visitor Bench}
    (hvisit : ∀ step b, Sound b → Sound (visit step b).2) : (b.traverse i n visit).Sound := by
  have hstart := h.start i n
  unfold Bench.traverse
  split
  · exact h
  · next t ht =>
    refine Sound.finish ?_ _
    unfold SyntaxTree.traverse
    split
    · exact hstart
    · exact walkFrom_induct hvisit n hstart _ _

mutual

/-- Whatever is done, the tickets stay right. -/
theorem Sound.run {b : Bench} (h : b.Sound) : (deed : Deed) → (b.run deed).Sound
  | .start i n => h.start i n
  | .advance k i reply => h.advance k i reply
  | .finish k => h.finish k
  | .copy i => h.copy i
  | .edit i edit => h.edit i edit
  | .freshTemporary i n => h.freshTemporary i n
  | .traverse i n acts _ => h.traverse i n fun step _ hb => Sound.runAll hb (acts step)

/-- Along a history the tickets stay right. -/
theorem Sound.runAll {b : Bench} (h : b.Sound) : (deeds : List Deed) → (b.runAll deeds).Sound
  | [] => h
  | deed :: deeds => Sound.runAll (Sound.run h deed) deeds

end

/-! ## Histories -/

/-- A walk that gives its ticket back is gone. -/
theorem getElem?_finish (b : Bench) (k : Nat) (w : Nat × Cursor) :
    (b.finish k).walks[k]? ≠ some (some w) := by
  unfold finish
  split
  · next hk => simp [getElem?_set_walk hk]
  · next hk => exact fun heq => hk w.1 w.2 heq

/-- The walk of a visitor is gone at the end, also when the visitor has stopped or failed. -/
theorem getElem?_traverse (b : Bench) (i n : Nat) (visit : Visitor Bench) (w : Nat × Cursor) :
    (b.traverse i n visit).walks[b.walks.length]? ≠ some (some w) := by
  unfold traverse
  split
  · simp
  · exact getElem?_finish _ _ w

/-- An edit of a tree that is being walked is refused. -/
theorem inPlace_of_isWalked (edit : Edit) (h : t.isWalked = true) :
    edit.inPlace t = .failed t .traversalActive := by
  cases edit <;> simp [Edit.inPlace, replaceInPlace, prepare, removeInPlace, h, Outcome.failed]

/-- After any history, a tree counts as being walked exactly when a walk that was started on it is
outstanding, and as long as it does no edit gets through.  An edit that fails, for that or another
reason, leaves the tree as it was.  The walk of a visitor gives its ticket back however it ends. -/
theorem locked_of_history (ss : List Script) (deeds : List Deed) {i : Nat} {t : SyntaxTree}
    (ht : ((ofScripts ss).runAll deeds).trees[i]? = some t) :
    (t.isWalked = true ↔ ((ofScripts ss).runAll deeds).Walked i) ∧
    (∀ edit : Edit, t.isWalked = true → (edit.inPlace t).changed = .error .traversalActive) ∧
    (∀ (edit : Edit) (fault : Fault), (edit.inPlace t).changed = .error fault →
      (edit.inPlace t).state = t) ∧
    ∀ (n : Nat) (acts : Step → List Deed) (reply : Step → Except Fault Reply) (w : Nat × Cursor),
      let b := (ofScripts ss).runAll deeds
      (b.run (.traverse i n acts reply)).walks[b.walks.length]? ≠ some (some w) := by
  have hsound := (sound_ofScripts ss).runAll deeds
  refine ⟨hsound.isWalked_iff ht, fun edit hwalk => ?_, fun edit fault hfault => ?_,
    fun n acts reply w => getElem?_traverse _ i n _ w⟩
  · rw [inPlace_of_isWalked edit hwalk]
    rfl
  · obtain ⟨r, hr⟩ := hsound.tidy ht
    rw [hr.inPlace edit] at hfault ⊢
    cases hrun : edit.run t with
    | error fault' => rfl
    | ok t' =>
      rw [hrun] at hfault
      cases hfault

/-- A walk locks the tree it was started on, and not the copy that it goes through.  A visitor who
fails does not lock the copy either, and a statement is taken out of it. -/
theorem locked_of_history_copy :
    let deeds : List Deed := [.start 0 root, .copy 0, .advance 0 1 .advance,
      .traverse 1 root (fun _ => []) (fun _ => .error (.unsupported "Empty")),
      .edit 1 (.removeStatement 1)]
    let b := (ofScripts [{ body := [.empty none] }]).runAll deeds
    ∃ t t' : SyntaxTree, b.trees[0]? = some t ∧ b.trees[1]? = some t' ∧
      t.live = [0, 1] ∧ t'.live = [0] ∧ b.Walked 0 ∧ ¬b.Walked 1 ∧
      ∀ edit : Edit, (edit.inPlace t).changed = .error .traversalActive := by
  intro deeds b
  have hfirst := locked_of_history [{ body := [.empty none] }] deeds (i := 0) rfl
  have hsecond := locked_of_history [{ body := [.empty none] }] deeds (i := 1) rfl
  exact ⟨_, _, rfl, rfl, by decide, by decide, hfirst.1.1 rfl,
    fun h => Bool.false_ne_true (hsecond.1.2 h), fun edit => hfirst.2.1 edit rfl⟩

end Bench

end ScriptRecovery
