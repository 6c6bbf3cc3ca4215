import ScriptRecovery.Proofs.Reduce.Edges
import ScriptRecovery.Reduce.Chains

/-!
# Merging along chains

The chains of a graph are lanes that do not meet (`chains_cases`), since the search for them marks
every node it takes.  The edges along a chain fit between its ends, and so does the row they are
merged into (`Fits.reduceRow_cases`): a test edge can only be the last one, and nothing but a plain
edge disappears into it.

So the pass does not fail but for a counter at the end of its range (`Regular.mergeChains`).
-/

namespace ScriptRecovery

namespace FlowGraph

variable {traceName : String} {g g' : FlowGraph}

/-! ## Chains are lanes -/

/-- Nodes in a row with one way out each, that lead to `dest` along some edges.  Nothing else leads
to a node after the first one. -/
inductive IsChain (g : FlowGraph) (dest : Nat) : List Nat → List Edge → Prop
  | mk {n x : Nat} {e : Edge} {ns : List Nat} {es : List Edge} : g.Reachable n →
      g.node? n = some (.simple ⟨e, x⟩) → g.Lane dest n x ns es → (n :: ns).Nodup →
      IsChain g dest (n :: ns) (e :: es)

/-- The nodes of a chain are reachable. -/
theorem IsChain.reachable (hg : g.Sound) {dest : Nat} {chain : List Nat} {es : List Edge}
    (h : g.IsChain dest chain es) : ∀ x ∈ chain, g.Reachable x := by
  cases h with
  | @mk n x _ _ _ hn hnode hlane _ =>
    have hx : x ∈ g.targets n := by simp [Graph.targets_of_simple hnode]
    exact List.forall_mem_cons.2 ⟨hn, (hlane.reachable hg (hg.reachable_target hn hx)).1⟩

theorem IsChain.nodup {dest : Nat} {chain : List Nat} {es : List Edge}
    (h : g.IsChain dest chain es) : chain.Nodup := by
  cases h with
  | mk _ _ _ hnd => exact hnd

/-- Continuing a chain gives a lane of nodes that were free, and marks them. -/
theorem chainFrom_cases (hg : g.Sound) {marks : Marks} {next prev : Nat} {e : Edge}
    (hp : g.Reachable prev) (hnode : g.node? prev = some (.simple ⟨e, next⟩)) :
    ∃ dest es, g.Lane dest prev next (g.chainFrom marks next).2 es ∧
      (g.chainFrom marks next).2.Nodup ∧
      (∀ x ∈ (g.chainFrom marks next).2, marks.isFree x) ∧
      ∀ x, (g.chainFrom marks next).1.isFree x ↔
        marks.isFree x ∧ x ∉ (g.chainFrom marks next).2 := by
  have hnext : next ∈ g.targets prev := by simp [Graph.targets_of_simple hnode]
  fun_induction chainFrom g marks next generalizing prev e with
  | case1 => exact ⟨_, [], .done, by simp, by simp, by simp⟩
  | case2 marks next h out hout tail =>
    rename_i ih
    simp only [Bool.and_eq_true, bne_iff_ne, beq_iff_eq] at h
    obtain ⟨⟨hfree, hsource⟩, hdegree⟩ := h
    obtain ⟨e', y⟩ := out
    have hnode' := Graph.bind_simpleOut?_eq_some.1 hout
    have hreach := hg.reachable_target hp hnext
    have hpreds : ∀ m, m ∈ g.predecessors next ↔ m = prev := by
      obtain ⟨k, hk⟩ := Graph.inDegree_eq_one_iff.1 hdegree
      obtain rfl := (hk prev).1 (hg.index.2 ⟨hp, hnext⟩)
      exact hk
    obtain ⟨dest, es, hlane, hnd, hfree', hmarks⟩ :=
      ih hreach hnode' (by simp [Graph.targets_of_simple hnode'])
    refine ⟨dest, e' :: es, .step hsource hpreds hnode' hlane, ?_, ?_, ?_⟩
    · refine List.nodup_cons.2 ⟨fun hmem => ?_, hnd⟩
      simpa using hfree' _ hmem
    · intro x hx
      rcases List.mem_cons.1 hx with rfl | hx
      · exact hfree
      · have := hfree' x hx
        simp only [Marks.isFree_mark, Bool.and_eq_true] at this
        exact this.1
    · intro x
      refine (hmarks x).trans ?_
      simp only [Marks.isFree_mark, Bool.and_eq_true, bne_iff_ne, ne_eq, List.mem_cons, not_or]
      tauto
  | case3 => exact ⟨_, [], .done, by simp, by simp, by simp⟩

/-- A free node with one way out and what continues its chain are a chain of free nodes, which get
a mark. -/
theorem isChain_chainFrom (hg : g.Sound) {marks : Marks} {start x : Nat} {e : Edge}
    (hs : g.Reachable start) (hnode : g.node? start = some (.simple ⟨e, x⟩))
    (hfree : marks.isFree start) :
    ∃ dest es, g.IsChain dest (start :: (g.chainFrom (marks.mark start) x).2) es ∧
      (∀ y ∈ start :: (g.chainFrom (marks.mark start) x).2, marks.isFree y) ∧
      ∀ y, (g.chainFrom (marks.mark start) x).1.isFree y ↔
        marks.isFree y ∧ y ∉ start :: (g.chainFrom (marks.mark start) x).2 := by
  obtain ⟨dest, es, hlane, hnd, htail, hmarks⟩ :=
    @chainFrom_cases g hg (marks.mark start) x start e hs hnode
  have hrest : ∀ y ∈ (g.chainFrom (marks.mark start) x).2, marks.isFree y ∧ start ≠ y :=
    fun y hy => by simpa using htail y hy
  refine ⟨dest, e :: es, .mk hs hnode hlane (List.nodup_cons.2 ⟨fun hmem => ?_, hnd⟩),
    List.forall_mem_cons.2 ⟨hfree, fun y hy => (hrest y hy).1⟩, fun y => (hmarks y).trans ?_⟩
  · exact (hrest start hmem).2 rfl
  · simp only [Marks.isFree_mark, Bool.and_eq_true, bne_iff_ne, ne_eq, List.mem_cons, not_or]
    tauto

/-- The chains found are chains of nodes that were free, and have no node in common. -/
theorem chainsFrom_cases (hg : g.Sound) {marks : Marks} {stack : List Nat}
    (hs : ∀ x ∈ stack, g.Reachable x) :
    (∀ chain ∈ g.chainsFrom marks stack, (∃ dest es, g.IsChain dest chain es) ∧
      ∀ x ∈ chain, marks.isFree x) ∧ (g.chainsFrom marks stack).Pairwise List.Disjoint := by
  fun_induction chainsFrom g marks stack with
  | case1 => simp
  | case2 marks start stack hfree hout ih =>
    have hstart := hs start (by simp)
    obtain ⟨hchains, hdisjoint⟩ := ih fun x hx => by
      rcases List.mem_append.1 hx with hx | hx
      · exact hg.reachable_target hstart (List.mem_reverse.1 hx)
      · exact hs x (by simp [hx])
    refine ⟨fun chain hc => ⟨(hchains chain hc).1, fun x hx => ?_⟩, hdisjoint⟩
    have := (hchains chain hc).2 x hx
    simp only [Marks.isFree_mark, Bool.and_eq_true] at this
    exact this.1
  | case3 marks start stack hfree out hout tail last ih =>
    have hstart := hs start (by simp)
    obtain ⟨e, y⟩ := out
    obtain ⟨dest, es, hchain, hfirst, hmarks⟩ :=
      isChain_chainFrom hg hstart (Graph.bind_simpleOut?_eq_some.1 hout) hfree
    obtain ⟨hchains, hdisjoint⟩ := ih fun x hx => by
      rcases List.mem_append.1 hx with hx | hx
      · exact hg.reachable_target (hchain.reachable hg _ List.getLastD_mem_cons)
          (List.mem_reverse.1 hx)
      · exact hs x (by simp [hx])
    refine ⟨List.forall_mem_cons.2 ⟨⟨⟨dest, es, hchain⟩, hfirst⟩, fun chain hc => ?_⟩,
      List.pairwise_cons.2 ⟨fun chain hc x hx hx' => ?_, hdisjoint⟩⟩
    · exact ⟨(hchains chain hc).1, fun x hx => ((hmarks x).1 ((hchains chain hc).2 x hx)).1⟩
    · exact ((hmarks x).1 ((hchains chain hc).2 x hx')).2 hx
  | case4 marks start stack hfree ih =>
    exact ih fun x hx => hs x (by simp [hx])

theorem chains_cases (hg : g.Sound) : (∀ chain ∈ g.chains, ∃ dest es, g.IsChain dest chain es) ∧
    g.chains.Pairwise List.Disjoint := by
  obtain ⟨hchains, hdisjoint⟩ := chainsFrom_cases hg fun x hx => by
      rw [List.mem_singleton.1 hx]
      exact hg.reachable_source
  exact ⟨fun chain hc => (hchains chain hc).1, hdisjoint⟩

/-! ## Rows along chains -/

/-- An edge that can stand before others in a row. -/
abbrev Inner (traceName : String) (e : Edge) : Prop := e.Lawful traceName ∧ e ≠ .ifTest

theorem Fits.single {dest : Nat} {e : Edge} (he : e.Lawful traceName)
    (h : e = .ifTest ↔ ∃ a b, g.node? dest = some (.branch a b)) :
    g.Fits traceName dest [e] := by
  refine ⟨by simpa using he, fun {pre _ post} hrow hpost => ?_, fun {pre _} hrow => ?_⟩
  · cases pre with
    | nil => exact absurd (List.cons.inj hrow).2.symm hpost
    | cons _ pre => simp at hrow
  · cases pre with
    | nil =>
      obtain rfl := (List.cons.inj hrow).1
      exact h
    | cons _ pre => simp at hrow

/-- The edges of a row are inner ones, but for the last. -/
theorem fits_append_iff {dest : Nat} {init : List Edge} {last : Edge} :
    g.Fits traceName dest (init ++ [last]) ↔
      (∀ e ∈ init, Inner traceName e) ∧ last.Lawful traceName ∧
      (last = .ifTest ↔ ∃ a b, g.node? dest = some (.branch a b)) := by
  constructor
  · intro h
    refine ⟨fun e he => ⟨h.lawful e (by simp [he]), ?_⟩, h.lawful last (by simp), h.last rfl⟩
    obtain ⟨pre, post, rfl⟩ := List.append_of_mem he
    have hrow : pre ++ e :: post ++ [last] = pre ++ e :: (post ++ [last]) := by simp
    exact h.inner hrow (by simp)
  · rintro ⟨hinit, hlast, htest⟩
    refine ⟨fun e he => ?_, fun {pre e post} hrow hpost => ?_, fun {pre e} hrow => ?_⟩
    · rcases List.mem_append.1 he with he | he
      · exact (hinit e he).1
      · rw [List.mem_singleton.1 he]
        exact hlast
    · obtain ⟨post', z, rfl⟩ := List.eq_nil_or_concat post |>.resolve_left hpost
      rw [List.concat_eq_append, ← List.cons_append, ← List.append_assoc] at hrow
      have := (List.append_inj' hrow rfl).1
      exact (hinit e (by simp [this])).2
    · obtain rfl : last = e := by simpa using (List.append_inj' hrow rfl).2
      exact htest

/-- The edges along a lane fit between its ends. -/
theorem Regular.fits_of_lane (hg : g.Regular traceName) {dest prev x : Nat} {ns : List Nat}
    {e : Edge}
    {es : List Edge} (hlane : g.Lane dest prev x ns es) (hp : g.Reachable prev)
    (hnode : g.node? prev = some (.simple ⟨e, x⟩)) : g.Fits traceName dest (e :: es) := by
  have hlawful : e.Lawful traceName := hg.lawful hp hnode (List.mem_singleton.2 rfl)
  have hx : x ∈ g.targets prev := by simp [Graph.targets_of_simple hnode]
  induction hlane generalizing e with
  | done =>
    refine .single hlawful ⟨fun he => hg.tested.branch hp (he ▸ hnode), fun ⟨a, b, hab⟩ => ?_⟩
    cases hnode.symm.trans (hg.tested.only hp hx hab)
    rfl
  | @step x prev e' y ns es _ _ hnode' _ ih =>
    have hreach := hg.sound.reachable_target hp hx
    have hfits := ih hreach hnode' (hg.lawful hreach hnode' (List.mem_singleton.2 rfl))
      (by simp [Graph.targets_of_simple hnode'])
    obtain ⟨init, last, hrow⟩ := List.eq_nil_or_concat (e' :: es) |>.resolve_left (by simp)
    rw [List.concat_eq_append] at hrow
    rw [hrow, ← List.cons_append, fits_append_iff]
    rw [hrow, fits_append_iff] at hfits
    refine ⟨fun e'' he => ?_, hfits.2⟩
    rcases List.mem_cons.1 he with rfl | he
    · refine ⟨hlawful, ?_⟩
      rintro rfl
      obtain ⟨a, b, hab⟩ := hg.tested.branch hp hnode
      cases hnode'.symm.trans hab
    · exact hfits.1 e'' he

end FlowGraph

/-! ## Merging keeps rows fitting -/

namespace Edge

open FlowGraph

variable {traceName : String}

/-- What two edges merge into: the other beside a plain one, or one template for two. -/
theorem merge_eq_ok {a b both : Edge} (h : a.merge b = .ok (some both)) :
    a = .plain ∧ both = b ∨ b = .plain ∧ both = a ∨ ∃ t₁ t₂ t, a = .template t₁ ∧
      b = .template t₂ ∧ t₁.merge t₂ = .ok (some t) ∧ both = .template t := by
  unfold merge at h
  split at h
  · cases h
    exact .inl ⟨rfl, rfl⟩
  · cases h
    exact .inr (.inl ⟨rfl, rfl⟩)
  · next t₁ t₂ =>
    obtain ⟨merged, hmerge, h⟩ := bind_eq_ok.1 h
    obtain ⟨t, rfl, rfl⟩ := Option.map_eq_some_iff.1 (Except.ok.inj h)
    exact .inr (.inr ⟨t₁, t₂, t, rfl, rfl, hmerge, rfl⟩)
  · cases h

/-- Merging two edges fails only when a counter is at the end of its range. -/
theorem merge_error {a b : Edge} {fault : Fault} (h : a.merge b = .error fault) :
    fault = .counterOverflow := by
  unfold merge at h
  split at h
  · cases h
  · cases h
  · obtain hmerge | ⟨_, -, h⟩ := bind_eq_error.1 h
    · exact Template.merge_error hmerge
    · cases h
  · cases h

theorem mergeOnto_error {edge : Edge} {merged : List Edge} {fault : Fault}
    (h : edge.mergeOnto merged = .error fault) : fault = .counterOverflow := by
  induction merged generalizing edge with
  | nil => cases h
  | cons last merged ih =>
    rw [mergeOnto] at h
    obtain hmerge | ⟨both?, -, h⟩ := bind_eq_error.1 h
    · exact merge_error hmerge
    · cases both? with
      | none => cases h
      | some both =>
        obtain honto | ⟨_, -, h⟩ := bind_eq_error.1 h
        · exact ih honto
        · cases h

theorem mergeRow_error {merged row : List Edge} {changed : Bool} {fault : Fault}
    (h : mergeRow merged changed row = .error fault) : fault = .counterOverflow := by
  induction row generalizing merged changed with
  | nil => cases h
  | cons edge row ih =>
    rw [mergeRow] at h
    obtain honto | ⟨_, -, h⟩ := bind_eq_error.1 h
    · exact mergeOnto_error honto
    · exact ih h

/-- Merging a row fails only when a counter is at the end of its range. -/
theorem reduceRow_error {row : List Edge} {fault : Fault} (h : reduceRow row = .error fault) :
    fault = .counterOverflow := by
  obtain hrow | ⟨_, -, h⟩ := bind_eq_error.1 h
  · exact mergeRow_error hrow
  · cases h

/-- A row in which two neighbours are merged. -/
inductive MergesTo : List Edge → List Edge → Prop
  | mk {a b both : Edge} (pre post : List Edge) : a.merge b = .ok (some both) →
      MergesTo (pre ++ a :: b :: post) (pre ++ both :: post)

/-- An edge is put on others by merging neighbours. -/
theorem mergeOnto_merges {edge : Edge} {merged merged' : List Edge} {grew : Bool}
    (h : edge.mergeOnto merged = .ok (merged', grew)) (post : List Edge) :
    Relation.ReflTransGen MergesTo (merged.reverse ++ edge :: post) (merged'.reverse ++ post) := by
  induction merged generalizing edge merged' grew with
  | nil =>
    cases h
    exact .refl
  | cons last merged ih =>
    rw [mergeOnto] at h
    obtain ⟨both?, hmerge, h⟩ := bind_eq_ok.1 h
    cases both? with
    | none =>
      obtain ⟨rfl, rfl⟩ := Prod.mk.inj (Except.ok.inj h)
      simp only [List.reverse_cons, List.append_assoc, List.singleton_append]
      exact .refl
    | some both =>
      obtain ⟨⟨rest, grew'⟩, honto, h⟩ := bind_eq_ok.1 h
      obtain ⟨rfl, rfl⟩ := Prod.mk.inj (Except.ok.inj h)
      rw [List.reverse_cons, List.append_assoc]
      exact .head (.mk _ _ hmerge) (ih honto)

theorem mergeRow_merges {row merged merged' : List Edge} {changed changed' : Bool}
    (h : mergeRow merged changed row = .ok (merged', changed')) :
    Relation.ReflTransGen MergesTo (merged.reverse ++ row) merged'.reverse := by
  induction row generalizing merged changed with
  | nil =>
    cases h
    rw [List.append_nil]
  | cons edge row ih =>
    rw [mergeRow] at h
    obtain ⟨⟨rest, grew⟩, honto, h⟩ := bind_eq_ok.1 h
    exact (mergeOnto_merges honto row).trans (ih h)

/-- A row is reduced by merging neighbours, one pair after another. -/
theorem reduceRow_merges {row row' : List Edge} (h : reduceRow row = .ok (some row')) :
    Relation.ReflTransGen MergesTo row row' := by
  obtain ⟨⟨merged, changed⟩, hrow, h⟩ := bind_eq_ok.1 h
  obtain ⟨-, rfl⟩ := by simpa using Except.ok.inj h
  exact mergeRow_merges hrow

/-- What comes of merging two edges, of which the first is an inner one. -/
theorem merge_cases {a b : Edge} (ha : Inner traceName a) (hb : b.Lawful traceName) :
    a.merge b = .error .counterOverflow ∨ a.merge b = .ok none ∨
      ∃ c, a.merge b = .ok (some c) ∧ c.Lawful traceName ∧ (c = .ifTest ↔ b = .ifTest) := by
  cases a with
  | plain => exact .inr (.inr ⟨b, rfl, hb, Iff.rfl⟩)
  | template t₁ =>
    cases b with
    | plain => exact .inr (.inr ⟨_, rfl, ha.1, by simp⟩)
    | template t₂ =>
      have ht₁ : t₁.Formed traceName := by cases ha.1; assumption
      have ht₂ : t₂.Formed traceName := by cases hb; assumption
      simp only [merge, bind, Except.bind]
      cases hmerge : t₁.merge t₂ with
      | error fault =>
        rw [Template.merge_error hmerge]
        exact .inl rfl
      | ok t? =>
        cases t? with
        | none => exact .inr (.inl rfl)
        | some t => exact .inr (.inr ⟨_, rfl, .template (ht₁.merge ht₂ hmerge), by simp⟩)
    | _ => exact .inr (.inl rfl)
  | _ =>
    cases b with
    | plain => exact .inr (.inr ⟨_, rfl, ha.1, iff_of_false ha.2 (by simp)⟩)
    | _ => exact .inr (.inl rfl)

/-- Merging onto inner edges leaves one edge for the new one, and inner edges below. -/
theorem mergeOnto_cases {edge : Edge} {merged : List Edge} (he : edge.Lawful traceName)
    (hm : ∀ e ∈ merged, Inner traceName e) :
    edge.mergeOnto merged = .error .counterOverflow ∨
      ∃ e' rest grew, edge.mergeOnto merged = .ok (e' :: rest, grew) ∧ e'.Lawful traceName ∧
        (e' = .ifTest ↔ edge = .ifTest) ∧ ∀ e ∈ rest, Inner traceName e := by
  induction merged generalizing edge with
  | nil => exact .inr ⟨edge, [], false, rfl, he, Iff.rfl, by simp⟩
  | cons last merged ih =>
    rcases merge_cases (hm last (by simp)) he with h | h | ⟨c, h, hc, htest⟩
    · exact .inl (by simp [mergeOnto, h, bind, Except.bind])
    · refine .inr ⟨edge, last :: merged, false, ?_, he, Iff.rfl, hm⟩
      simp [mergeOnto, h, bind, Except.bind, pure, Except.pure]
    · rcases ih hc fun e he => hm e (by simp [he]) with h' | ⟨e', rest, grew, h', he', htest', hr⟩
      · exact .inl (by simp [mergeOnto, h, h', bind, Except.bind])
      · refine .inr ⟨e', rest, true, ?_, he', htest'.trans htest, hr⟩
        simp [mergeOnto, h, h', bind, Except.bind, pure, Except.pure]

/-- Merging a row onto inner edges leaves one edge for the last, and inner edges below. -/
theorem mergeRow_cases {merged init : List Edge} {last : Edge} (changed : Bool)
    (hm : ∀ e ∈ merged, Inner traceName e) (hi : ∀ e ∈ init, Inner traceName e)
    (hl : last.Lawful traceName) :
    mergeRow merged changed (init ++ [last]) = .error .counterOverflow ∨
      ∃ e' rest grew, mergeRow merged changed (init ++ [last]) = .ok (e' :: rest, grew) ∧
        e'.Lawful traceName ∧ (e' = .ifTest ↔ last = .ifTest) ∧ ∀ e ∈ rest, Inner traceName e := by
  induction init generalizing merged changed with
  | nil =>
    rcases mergeOnto_cases hl hm with h | ⟨e', rest, grew, h, hrest⟩
    · exact .inl (by simp [mergeRow, h, bind, Except.bind])
    · exact .inr ⟨e', rest, changed || grew, by simp [mergeRow, h, bind, Except.bind], hrest⟩
  | cons edge init ih =>
    have hedge := hi edge (by simp)
    rcases mergeOnto_cases hedge.1 hm with h | ⟨e', rest, grew, h, he', htest, hr⟩
    · exact .inl (by simp [mergeRow, h, bind, Except.bind])
    · have hmerged : ∀ e ∈ e' :: rest, Inner traceName e := by
        intro e he
        rcases List.mem_cons.1 he with rfl | he
        · exact ⟨he', fun h => hedge.2 (htest.1 h)⟩
        · exact hr e he
      simp only [List.cons_append, mergeRow, h, bind, Except.bind]
      exact ih _ hmerged fun e he => hi e (by simp [he])

end Edge

namespace FlowGraph

variable {traceName : String} {g g' : FlowGraph}

/-- The row that a fitting row is merged into fits too. -/
theorem Fits.reduceRow_cases {dest : Nat} {row : List Edge} (h : g.Fits traceName dest row)
    (hne : row ≠ []) : Edge.reduceRow row = .error .counterOverflow ∨
      ∃ reduced, Edge.reduceRow row = .ok reduced ∧
        ∀ row', reduced = some row' → row' ≠ [] ∧ g.Fits traceName dest row' := by
  obtain ⟨init, last, rfl⟩ := List.eq_nil_or_concat row |>.resolve_left hne
  rw [List.concat_eq_append] at h ⊢
  obtain ⟨hinit, hlast, htest⟩ := fits_append_iff.1 h
  rcases Edge.mergeRow_cases false (List.forall_mem_nil _) hinit hlast with
    h | ⟨e', rest, grew, h, he', ht, hr⟩
  · exact .inl (by simp [Edge.reduceRow, h, bind, Except.bind])
  · refine .inr ⟨if grew then some (e' :: rest).reverse else none, ?_, fun row' hrow => ?_⟩
    · simp [Edge.reduceRow, h, bind, Except.bind, pure, Except.pure]
    · cases grew with
      | false => cases hrow
      | true =>
        obtain rfl : rest.reverse ++ [e'] = row' := by simpa using hrow
        refine ⟨by simp, fits_append_iff.2 ⟨fun e he => hr e (List.mem_reverse.1 he), he', ?_⟩⟩
        exact ht.trans htest

/-! ## The pass -/

/-- The node that the last node of a chain leads to. -/
def chainDest (g : FlowGraph) (chain : List Nat) : Nat :=
  (g.targets (chain.getLastD 0)).headD 0

/-- The splice of a row in place of a chain. -/
def chainPatch (g : FlowGraph) (r : List Nat × List Edge) : Patch where
  source := r.1.headD 0
  dest := g.chainDest r.1
  gone := r.1.tail
  row := Graph.rowOf r.2

/-- Whether a chain of a graph is still one in another, and is merged into a row. -/
def StillChain (g g' : FlowGraph) (r : List Nat × List Edge) : Prop :=
  ∃ es, g'.IsChain (g.chainDest r.1) r.1 es ∧ Edge.reduceRow es = .ok (some r.2)

/-- The last node of a lane leads to its destination alone. -/
theorem targets_last {dest prev x : Nat} {ns : List Nat} {es : List Edge}
    (h : g.Lane dest prev x ns es) (hp : g.targets prev = [x]) :
    g.targets (ns.getLastD prev) = [dest] := by
  induction h with
  | done => exact hp
  | step _ _ hnode _ ih =>
    rw [List.getLastD_cons]
    exact ih (Graph.targets_of_simple hnode)

theorem IsChain.dest_eq {dest : Nat} {chain : List Nat} {es : List Edge}
    (h : g.IsChain dest chain es) : g.chainDest chain = dest := by
  cases h with
  | mk _ hnode hlane _ =>
    rw [chainDest, List.getLastD_cons, targets_last hlane (Graph.targets_of_simple hnode)]
    rfl

theorem chainEdges_of_lane {dest prev x : Nat} {ns : List Nat} {es : List Edge}
    (h : g.Lane dest prev x ns es) : g.chainEdges ns = es := by
  induction h with
  | done => rfl
  | step _ _ hnode _ ih =>
    rw [← ih]
    simp [chainEdges, hnode, Node.simpleOut?]

theorem IsChain.edges_eq {dest : Nat} {chain : List Nat} {es : List Edge}
    (h : g.IsChain dest chain es) : g.chainEdges chain = es := by
  cases h with
  | mk _ hnode hlane _ =>
    rw [← chainEdges_of_lane hlane]
    simp [chainEdges, hnode, Node.simpleOut?]

/-- The chains that are merged are some of the chains given, in their order. -/
theorem mergedChains_cases {chains : List (List Nat)}
    (hc : ∀ chain ∈ chains, ∃ dest es, g.IsChain dest chain es) :
    g.mergedChains chains = .error .counterOverflow ∨
      ∃ rs, g.mergedChains chains = .ok rs ∧ (rs.map Prod.fst).Sublist chains ∧
        ∀ r ∈ rs, g.StillChain g r := by
  induction chains with
  | nil => exact .inr ⟨[], rfl, .slnil, by simp⟩
  | cons chain chains ih =>
    obtain ⟨dest, es, hchain⟩ := hc chain (by simp)
    cases h : Edge.reduceRow es with
    | error fault =>
      obtain rfl := Edge.reduceRow_error h
      exact .inl (by simp [mergedChains, hchain.edges_eq, h, bind, Except.bind])
    | ok reduced =>
      rcases ih fun chain hm => hc chain (by simp [hm]) with h' | ⟨rs, h', hsub, hrs⟩
      · exact .inl (by simp [mergedChains, hchain.edges_eq, h, h', bind, Except.bind])
      refine .inr ⟨reduced.toList.map (chain, ·) ++ rs, ?_, ?_, fun r hr => ?_⟩
      · simp [mergedChains, hchain.edges_eq, h, h', bind, Except.bind, pure, Except.pure]
      · cases reduced with
        | none => simpa using hsub.cons chain
        | some row => simpa using hsub.cons_cons chain
      · rcases List.mem_append.1 hr with hr | hr
        · obtain ⟨row, hrow, rfl⟩ := List.mem_map.1 hr
          refine ⟨es, hchain.dest_eq ▸ hchain, ?_⟩
          rw [h, Option.mem_toList.1 hrow]
        · exact hrs r hr

theorem IsChain.keeps {dest : Nat} {chain : List Nat} {es : List Edge}
    (h : g.IsChain dest chain es) (hk : g.Keeps g' (chain.headD 0) (· ∈ chain.tail)) :
    g'.IsChain dest chain es := by
  cases h with
  | mk hn hnode hlane hnd =>
    exact .mk (hk.reachable hn) ((hk.node (.inl rfl)).trans hnode)
      (hlane.keeps hk fun y hy => hy) hnd

theorem IsChain.lt_size {dest : Nat} {chain : List Nat} {es : List Edge}
    (h : g.IsChain dest chain es) : ∀ x ∈ chain.tail, x < g.size := by
  cases h with
  | mk _ _ hlane _ => exact fun x hx => hlane.lt_size hx

/-- The splice of a chain is carried out, whatever row is laid. -/
theorem IsChain.splice {chain : List Nat} {es : List Edge} (hg : Graph.Sound g)
    (h : g.IsChain (g'.chainDest chain) chain es) (row : List Edge) :
    ∃ g₂, g.spliceChain chain row = .ok g₂ ∧ Graph.Sound g₂ ∧
      (g'.chainPatch (chain, row)).Carried g g₂ := by
  simp only [chainPatch]
  generalize g'.chainDest chain = dest at h ⊢
  cases h with
  | mk hn hnode hlane hnd =>
    obtain ⟨g₂, hsplice, hsound, hspliced⟩ := hg.spliceChain_eq_ok hn hnode hlane hnd row
    exact ⟨g₂, hsplice, hsound, hlane.region hg hn hnode hnd, hspliced⟩

theorem StillChain.keeps {g₁ g₂ : FlowGraph} {r : List Nat × List Edge}
    (h : g.StillChain g₁ r)
    (hk : g₁.Keeps g₂ (g.chainPatch r).source (· ∈ (g.chainPatch r).gone)) :
    g.StillChain g₂ r := by
  obtain ⟨es, hchain, hrow⟩ := h
  exact ⟨es, hchain.keeps hk, hrow⟩

theorem StillChain.gone_lt_size {g₁ : FlowGraph} {r : List Nat × List Edge}
    (h : g.StillChain g₁ r) : ∀ x ∈ (g.chainPatch r).gone, x < g₁.size := by
  obtain ⟨es, hchain, -⟩ := h
  exact hchain.lt_size

theorem StillChain.splice {g₁ : FlowGraph} {r : List Nat × List Edge} (h : g.StillChain g₁ r)
    (hg : Graph.Sound g₁) :
    ∃ g₂, g₁.spliceChain r.1 r.2 = .ok g₂ ∧ Graph.Sound g₂ ∧ (g.chainPatch r).Carried g₁ g₂ := by
  obtain ⟨es, hchain, -⟩ := h
  exact hchain.splice hg r.2

/-- The splice of a chain keeps a graph regular. -/
theorem StillChain.applied {g₁ g₂ : FlowGraph} {r : List Nat × List Edge} (h : g.StillChain g₁ r)
    (hg : g₁.Regular traceName) (hg₂ : Graph.Sound g₂) (hc : (g.chainPatch r).Carried g₁ g₂) :
    (g.chainPatch r).Applied traceName g₁ g₂ := by
  obtain ⟨chain, row⟩ := r
  obtain ⟨es, hchain, hrow⟩ := h
  obtain ⟨hregion, hspliced⟩ := hc
  simp only [chainPatch] at hchain hrow hregion hspliced ⊢
  generalize g.chainDest chain = dest at hchain hregion hspliced ⊢
  cases hchain with
  | @mk n x e ns es hn hnode hlane hnd =>
    have hx : x ∈ g₁.targets n := by simp [Graph.targets_of_simple hnode]
    have hleads : ∃ u, (u = n ∨ u ∈ ns) ∧ g₁.Reachable u ∧ dest ∈ g₁.targets u :=
      ⟨_, List.mem_cons.1 List.getLastD_mem_cons, hlane.last_reachable hg.sound hn hx,
        hlane.dest_mem_targets hx⟩
    have hfits : g₁.Fits traceName dest (Graph.rowOf row) := by
      rcases (hg.fits_of_lane hlane hn hnode).reduceRow_cases (by simp) with h | ⟨_, h, hfits⟩
      · cases h.symm.trans hrow
      · obtain rfl := Except.ok.inj (h.symm.trans hrow)
        obtain ⟨hne, hfits⟩ := hfits row rfl
        cases row with
        | nil => exact absurd rfl hne
        | cons _ _ => exact hfits
    exact ⟨hregion, hspliced, hg.splice hregion ⟨_, hnode⟩ hleads hspliced hg₂ hfits, hleads,
      fun x hx => hlane.lone hx⟩

/-- Chains without a node in common are apart. -/
theorem IsChain.apart (hg : g.Sound) {dest dest' : Nat} {p q : List Nat × List Edge}
    {es es' : List Edge} (hp : g.IsChain dest p.1 es) (hq : g.IsChain dest' q.1 es')
    (hd : p.1.Disjoint q.1) : (g.chainPatch p).Apart (g.chainPatch q) := by
  obtain ⟨chain, row⟩ := p
  obtain ⟨chain', row'⟩ := q
  have hdest := hp.dest_eq
  simp only at hp hq hd hdest
  cases hp with
  | @mk n x e ns es hn hnode hlane hnd =>
    cases hq with
    | @mk n' x' e' ns' es' hn' hnode' hlane' hnd' =>
      refine ⟨fun y hy => ?_, fun hmem => ?_⟩
      · have hy : y ∈ n' :: ns' := List.mem_cons.2 hy
        have hy' : y ∉ n :: ns := fun h => hd h hy
        exact ⟨fun h => hy' (List.mem_cons.2 (.inl h)), fun h => hy' (List.mem_cons.2 (.inr h))⟩
      · have hx : x ∈ g.targets n := by simp [Graph.targets_of_simple hnode]
        have hlast : ns.getLastD n ∈ n' :: ns' := by
          refine List.mem_cons.2 (hlane'.pred_mem (d := dest) ?_ ?_)
          · rw [← hdest]
            exact hmem
          · exact hg.index.2 ⟨hlane.last_reachable hg hn hx, hlane.dest_mem_targets hx⟩
        exact hd List.getLastD_mem_cons hlast

/-- What is merged along the chains of a sound graph: chains that are apart from each other. -/
theorem merged_cases (hg : Graph.Sound g) : g.mergedChains g.chains = .error .counterOverflow ∨
    ∃ rs, g.mergedChains g.chains = .ok rs ∧ (∀ r ∈ rs, g.StillChain g r) ∧
      rs.Pairwise fun p q => (g.chainPatch p).Apart (g.chainPatch q) := by
  obtain ⟨hchains, hdisjoint⟩ := chains_cases hg
  refine (mergedChains_cases hchains).imp id fun ⟨rs, h, hsub, hrs⟩ => ⟨rs, h, hrs, ?_⟩
  refine (List.pairwise_map.1 (hdisjoint.sublist hsub)).imp_of_mem fun {p q} hp hq hd => ?_
  obtain ⟨es, hp, -⟩ := hrs p hp
  obtain ⟨es', hq, -⟩ := hrs q hq
  exact hp.apart hg hq hd

/-- Chains that are apart from each other give way to any rows. -/
theorem spliceChains_eq_ok (hg : Graph.Sound g) {rs : List (List Nat × List Edge)}
    (hrs : ∀ r ∈ rs, ∃ es, g.IsChain (g.chainDest r.1) r.1 es)
    (hapart : rs.Pairwise fun p q => (g.chainPatch p).Apart (g.chainPatch q)) :
    ∃ g', Outcome.applyAll (fun g r => g.spliceChain r.1 r.2) g rs = ⟨g', .ok true⟩ ∧
      Graph.Sound g' ∧ g'.source = g.source :=
  Sound.applyAll_eq_ok (p := g.chainPatch)
    (V := fun g₁ r => ∃ es, g₁.IsChain (g.chainDest r.1) r.1 es) (fun ⟨_, h⟩ => h.lt_size)
    (fun ⟨es, h⟩ hk => ⟨es, h.keeps hk⟩) (fun {_ r} hg ⟨_, h⟩ => h.splice hg r.2) hg hrs hapart

/-- Merging along chains does not fail but for a counter at the end of its range. -/
theorem Regular.mergeChains (hg : g.Regular traceName) (iteration : Nat) :
    (Pass.mergeChains.run iteration g).changed = .error .counterOverflow ∨
      ∃ g' changed, Pass.mergeChains.run iteration g = ⟨g', .ok changed⟩ ∧
        g'.Regular traceName ∧ Reduces traceName g.chainPatch g.StillChain g g' := by
  rcases merged_cases hg.sound with h | ⟨rs, h, hrs, hapart⟩
  · exact .inl (by simp [Pass.mergeChains, h, Outcome.ofEdits, Outcome.failed])
  · obtain ⟨g', happly, hg', hreduces, -⟩ := hg.applyAll_eq_ok (p := g.chainPatch)
      StillChain.gone_lt_size StillChain.keeps (fun {g₁ r} hg hv => by
        obtain ⟨g₂, hsplice, hsound, hcarried⟩ := hv.splice hg.sound
        exact ⟨g₂, hsplice, hv.applied hg hsound hcarried⟩) hrs hapart
    obtain ⟨changed, hchanged⟩ := Outcome.ofEdits_eq_of_applyAll happly
    refine .inr ⟨g', changed, ?_, hg', hreduces⟩
    rw [← hchanged]
    simp [Pass.mergeChains, h]

end FlowGraph

end ScriptRecovery
