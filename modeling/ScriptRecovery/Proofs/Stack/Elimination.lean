import ScriptRecovery.Proofs.Stack.Binding
import ScriptRecovery.Proofs.Stack.Matching

/-!
# Eliminating pushes and pops keeps what a script does

The edits that `SyntaxTree.eliminations` finds go with the use of the stack: they are a `Plan`, and
they can be applied (`SyntaxTree.Ready`).  So the script that `SyntaxTree.bindPushes` leaves does
what the old one did.  The ending is the same, and so are the state, the constant pool in force and
every temporary that is not new, and at the end of the script the stacks are equal
(`run_bindPushes`).
-/

namespace ScriptRecovery

open Rose StackState

namespace SyntaxTree

variable {t : SyntaxTree} {r : Rose (Nat × Form)} {usage : List (Passage StackState)}
  {out : StackState}

/-! ## Pops with their pushes -/

theorem Represents.stackUsage_eq (h : t.Represents r) :
    t.stackUsage = (rule.thread [] r).map Prod.snd := by
  have hb := h.holds.branch? h.nodup
  rw [h.root] at hb
  obtain ⟨⟨n, form⟩, parts⟩ := r
  obtain rfl : n = SyntaxTree.root := h.root
  unfold stackUsage Rule.passages
  simp only [h.holds.slot_eq_ok, hb, bind, Except.bind]
  cases rule.thread [] (.node (SyntaxTree.root, form) parts) <;> rfl

theorem Represents.stackUsage_eq_ok (h : t.Represents r) :
    t.stackUsage = .ok usage ↔ ∃ out, rule.thread [] r = .ok (out, usage) := by
  rw [h.stackUsage_eq]
  cases rule.thread [] r with
  | error fault => simp [Except.map]
  | ok res =>
    obtain ⟨out, usage'⟩ := res
    simp [Except.map]

theorem passageAt?_eq_some (hn : (usage.map Passage.node).Nodup) {p : Passage StackState}
    (hp : p ∈ usage) : passageAt? usage p.node = some p := by
  unfold passageAt?
  cases hf : usage.find? (·.node == p.node) with
  | none =>
    have := List.find?_eq_none.1 hf p hp
    simp at this
  | some q =>
    have hq := List.find?_some hf
    rw [List.inj_on_of_nodup_map hn (List.mem_of_find?_eq_some hf) hp (by simpa using hq)]

/-- A pop is matched when the value it takes is that of a push that does not stay. -/
theorem mem_matchedPops (h : t.Represents r) (hn : (usage.map Passage.node).Nodup) {k n : Nat} :
    (k, n) ∈ t.matchedPops usage ↔ ∃ loc, (n, (⟨.atom .pop, loc⟩ : Form)) ∈ r.labels ∧
      ∃ p ∈ usage, p.node = n ∧ p.input.topPush? = some k ∧ k ∉ t.dangling usage := by
  unfold matchedPops
  rw [h.nodes, List.mem_filterMap]
  constructor
  · rintro ⟨⟨m, ⟨kind, loc⟩⟩, hm, hf⟩
    unfold guard at hf
    simp only [Option.bind_eq_bind, Option.bind_eq_some_iff, Option.pure_def] at hf
    obtain ⟨u, hu, p, hp, k', hk', u', hu', heq⟩ := hf
    split at hu
    · next hkind =>
      split at hu'
      · next hd =>
        obtain ⟨rfl, rfl⟩ : k' = k ∧ m = n := by simpa using heq
        obtain rfl : kind = .atom .pop := by simpa using hkind
        refine ⟨loc, hm, p, List.mem_of_find?_eq_some hp, ?_, hk', by simpa using hd⟩
        simpa using List.find?_some hp
      · cases hu'
    · cases hu
  · rintro ⟨loc, hm, p, hp, rfl, hk, hd⟩
    refine ⟨_, hm, ?_⟩
    unfold guard
    simp [passageAt?_eq_some hn hp, hk, hd]

theorem map_filterMap_sublist {α β : Type} {f : α × β → Option (Nat × α)} {l : List (α × β)}
    (hf : ∀ x y, f x = some y → y.2 = x.1) :
    ((l.filterMap f).map Prod.snd).Sublist (l.map Prod.fst) := by
  induction l with
  | nil => exact .slnil
  | cons x l ih =>
    rw [List.filterMap_cons, List.map_cons]
    split
    · exact ih.cons _
    · next y hy =>
      rw [List.map_cons, hf x y hy]
      exact ih.cons_cons _

/-- No pop is matched twice. -/
theorem Represents.nodup_matchedPops (h : t.Represents r) :
    ((t.matchedPops usage).map Prod.snd).Nodup := by
  unfold matchedPops
  rw [h.nodes]
  refine List.Nodup.sublist (map_filterMap_sublist fun x y hf => ?_) h.nodup
  unfold guard at hf
  simp only [Option.bind_eq_bind, Option.bind_eq_some_iff, Option.pure_def] at hf
  obtain ⟨_, _, _, _, _, _, _, _, heq⟩ := hf
  rw [← Option.some.inj heq]

/-! ## The edits found -/

/-- The pushes to eliminate. -/
def firsts (t : SyntaxTree) (usage : List (Passage StackState)) : List Nat :=
  (Ascending.ofList ((t.matchedPops usage).map Prod.fst)).toList

theorem mem_firsts {k : Nat} : k ∈ t.firsts usage ↔ ∃ n, (k, n) ∈ t.matchedPops usage := by
  unfold firsts
  rw [← Ascending.mem_def, Ascending.mem_ofList, List.mem_map]
  exact ⟨fun ⟨⟨_, n⟩, hp, heq⟩ => ⟨n, heq ▸ hp⟩, fun ⟨n, hp⟩ => ⟨_, hp, rfl⟩⟩

theorem nodup_firsts : (t.firsts usage).Nodup :=
  Ascending.nodup_toList _

theorem pushPops_eq : t.pushPops usage = (t.firsts usage).map fun k =>
    (k, ((t.matchedPops usage).filter (·.1 == k)).map Prod.snd) := rfl

section Substitutions

variable {first : Nat} {pairs : List (Nat × List Nat)}

/-- The edits that replace pops. -/
def popEdits (first : Nat) (pairs : List (Nat × List Nat)) : List Substitution :=
  (pairs.mapIdx fun i p => .take p.1 :: p.2.map (.pop · (first + i))).flatten

/-- The edits that replace pushes. -/
def pushEdits (first : Nat) (pairs : List (Nat × List Nat)) : List Substitution :=
  pairs.mapIdx fun i p => .push p.1 (first + i)

theorem substitutions_eq :
    substitutions first pairs = popEdits first pairs ++ pushEdits first pairs := rfl

theorem popEdits_cons {p : Nat × List Nat} : popEdits first (p :: pairs) =
    .take p.1 :: p.2.map (.pop · first) ++ popEdits (first + 1) pairs := by
  simp [popEdits, List.mapIdx_cons, Nat.add_assoc, Nat.add_comm 1]

theorem pushEdits_cons {p : Nat × List Nat} : pushEdits first (p :: pairs) =
    .push p.1 first :: pushEdits (first + 1) pairs := by
  simp [pushEdits, List.mapIdx_cons, Nat.add_assoc, Nat.add_comm 1]

theorem targets_append {subs subs' : List Substitution} :
    targets (subs ++ subs') = targets subs ++ targets subs' := List.filterMap_append

theorem targets_map_pop {ns : List Nat} {id : Nat} :
    (targets (ns.map (.pop · id))).map Prod.fst = ns := by
  induction ns with
  | nil => rfl
  | cons n ns ih => rw [List.map_cons, targets_pop, List.map_cons, ih]

theorem keys_popEdits : (targets (popEdits first pairs)).map Prod.fst =
    (pairs.map Prod.snd).flatten := by
  induction pairs generalizing first with
  | nil => rfl
  | cons p pairs ih =>
    rw [popEdits_cons, targets_append, targets_take, List.map_append, targets_map_pop, ih]
    rfl

theorem keys_pushEdits : (targets (pushEdits first pairs)).map Prod.fst =
    pairs.map Prod.fst := by
  induction pairs generalizing first with
  | nil => rfl
  | cons p pairs ih => rw [pushEdits_cons, targets_push, List.map_cons, ih, List.map_cons]

theorem mem_popEdits {sub : Substitution} : sub ∈ popEdits first pairs ↔
    ∃ i p, pairs[i]? = some p ∧
      (sub = .take p.1 ∨ ∃ n ∈ p.2, sub = .pop n (first + i)) := by
  simp only [popEdits, List.mem_flatten, List.mem_mapIdx]
  constructor
  · rintro ⟨_, ⟨i, hi, rfl⟩, hm⟩
    refine ⟨i, _, List.getElem?_eq_getElem hi, ?_⟩
    rcases List.mem_cons.1 hm with rfl | hm
    · exact .inl rfl
    · obtain ⟨n, hn, rfl⟩ := List.mem_map.1 hm
      exact .inr ⟨n, hn, rfl⟩
  · rintro ⟨i, p, hp, hm⟩
    obtain ⟨hi, rfl⟩ := List.getElem?_eq_some_iff.1 hp
    refine ⟨_, ⟨i, hi, rfl⟩, ?_⟩
    rcases hm with rfl | ⟨n, hn, rfl⟩
    · exact List.mem_cons_self
    · exact List.mem_cons_of_mem _ (List.mem_map_of_mem hn)

theorem mem_pushEdits {sub : Substitution} : sub ∈ pushEdits first pairs ↔
    ∃ i p, pairs[i]? = some p ∧ sub = .push p.1 (first + i) := by
  simp only [pushEdits, List.mem_mapIdx]
  constructor
  · rintro ⟨i, hi, rfl⟩
    exact ⟨i, _, List.getElem?_eq_getElem hi, rfl⟩
  · rintro ⟨i, p, hp, rfl⟩
    obtain ⟨hi, rfl⟩ := List.getElem?_eq_some_iff.1 hp
    exact ⟨i, hi, rfl⟩

theorem lookup_eq_some {l : List (Nat × Nat)} (hn : (l.map Prod.fst).Nodup) {n id : Nat} :
    l.lookup n = some id ↔ (n, id) ∈ l := by
  induction l with
  | nil => simp
  | cons p l ih =>
    rw [List.map_cons, List.nodup_cons] at hn
    rw [lookup_cons, List.mem_cons]
    by_cases h : n = p.1
    · rw [if_pos h]
      constructor
      · intro hid
        exact .inl (Prod.ext h (Option.some.inj hid).symm)
      · rintro (rfl | hm)
        · rfl
        · exact absurd (List.mem_map.2 ⟨_, hm, h⟩) hn.1
    · rw [if_neg h, ih hn.2]
      constructor
      · exact .inr
      · rintro (rfl | hm)
        · exact absurd rfl h
        · exact hm

end Substitutions

/-! ## The edits are a plan -/

section Plans

variable {first : Nat}

/-- The edits of a script, by the first temporary. -/
def edits (t : SyntaxTree) (usage : List (Passage StackState)) (first : Nat) : List Substitution :=
  substitutions first (t.pushPops usage)

theorem getElem?_pushPops {i : Nat} {p : Nat × List Nat} : (t.pushPops usage)[i]? = some p ↔
    ∃ k, (t.firsts usage)[i]? = some k ∧
      p = (k, ((t.matchedPops usage).filter (·.1 == k)).map Prod.snd) := by
  rw [pushPops_eq, List.getElem?_map, Option.map_eq_some_iff]
  exact ⟨fun ⟨k, hk, h⟩ => ⟨k, hk, h.symm⟩, fun ⟨k, hk, h⟩ => ⟨k, hk, h.symm⟩⟩

theorem take_mem_edits {n : Nat} (h : .take n ∈ t.edits usage first) : n ∈ t.firsts usage := by
  rcases List.mem_append.1 h with h | h
  · obtain ⟨i, p, hp, h | ⟨m, -, h⟩⟩ := mem_popEdits.1 h
    · cases h
      obtain ⟨k, hk, rfl⟩ := getElem?_pushPops.1 hp
      exact List.mem_of_getElem? hk
    · cases h
  · obtain ⟨i, p, hp, h⟩ := mem_pushEdits.1 h
    cases h

theorem pop_mem_edits {n id : Nat} : .pop n id ∈ t.edits usage first ↔
    ∃ i k, (t.firsts usage)[i]? = some k ∧ (k, n) ∈ t.matchedPops usage ∧ id = first + i := by
  rw [edits, substitutions_eq, List.mem_append]
  constructor
  · rintro (h | h)
    · obtain ⟨i, p, hp, h | ⟨m, hm, h⟩⟩ := mem_popEdits.1 h
      · cases h
      · cases h
        obtain ⟨k, hk, rfl⟩ := getElem?_pushPops.1 hp
        obtain ⟨⟨k', n⟩, hfilter, rfl⟩ := List.mem_map.1 hm
        obtain ⟨hmem, hkk⟩ := List.mem_filter.1 hfilter
        obtain rfl : k' = k := by simpa using hkk
        exact ⟨i, k', hk, hmem, rfl⟩
    · obtain ⟨i, p, hp, h⟩ := mem_pushEdits.1 h
      cases h
  · rintro ⟨i, k, hk, hm, rfl⟩
    refine .inl (mem_popEdits.2 ⟨i, _, getElem?_pushPops.2 ⟨k, hk, rfl⟩, .inr ⟨n, ?_, rfl⟩⟩)
    exact List.mem_map.2 ⟨_, List.mem_filter.2 ⟨hm, by simp⟩, rfl⟩

theorem push_mem_pushEdits {n id : Nat} : .push n id ∈ pushEdits first (t.pushPops usage) ↔
    ∃ i, (t.firsts usage)[i]? = some n ∧ id = first + i := by
  rw [mem_pushEdits]
  constructor
  · rintro ⟨i, p, hp, h⟩
    cases h
    obtain ⟨k, hk, rfl⟩ := getElem?_pushPops.1 hp
    exact ⟨i, hk, rfl⟩
  · rintro ⟨i, hi, rfl⟩
    exact ⟨i, _, getElem?_pushPops.2 ⟨n, hi, rfl⟩, rfl⟩

theorem push_mem_edits {n id : Nat} : .push n id ∈ t.edits usage first ↔
    ∃ i, (t.firsts usage)[i]? = some n ∧ id = first + i := by
  rw [edits, substitutions_eq, List.mem_append, push_mem_pushEdits]
  refine or_iff_right fun h => ?_
  obtain ⟨i, p, hp, h | ⟨m, -, h⟩⟩ := mem_popEdits.1 h <;> cases h

/-- A matched push is a push, and a matched pop is a pop. -/
theorem labels_of_matched (h : t.Represents r) (ht : rule.thread [] r = .ok (out, usage))
    {k n : Nat} (hm : (k, n) ∈ t.matchedPops usage) :
    (∃ loc, (k, (⟨.push, loc⟩ : Form)) ∈ r.labels) ∧
      ∃ loc, (n, (⟨.atom .pop, loc⟩ : Form)) ∈ r.labels := by
  obtain ⟨loc, hn, p, hp, -, htop, -⟩ := (mem_matchedPops h (h.nodup_usage ht)).1 hm
  refine ⟨?_, loc, hn⟩
  have hpush : ∀ x ∈ r.labels, x.2.kind = .push → ∃ loc, (x.1, (⟨.push, loc⟩ : Form)) ∈ r.labels :=
    fun x hx hk => ⟨x.2.loc, by rw [← hk]; exact hx⟩
  have hkeeps : rule.Keeps r.labels fun S =>
      ∀ k ∈ S.pushes, ∃ loc, (k, (⟨.push, loc⟩ : Form)) ∈ r.labels := keeps_pushes hpush
  exact ((hkeeps.thread r ht (by simp [pushes])).2 p hp).1 k (mem_pushes_of_topPush? htop)

theorem push_of_mem_firsts (h : t.Represents r) (ht : rule.thread [] r = .ok (out, usage)) {k : Nat}
    (hk : k ∈ t.firsts usage) : ∃ loc, (k, (⟨.push, loc⟩ : Form)) ∈ r.labels := by
  obtain ⟨n, hm⟩ := mem_firsts.1 hk
  exact (labels_of_matched h ht hm).1

theorem not_dangling_of_mem_firsts (h : t.Represents r) (ht : rule.thread [] r = .ok (out, usage))
    {k : Nat} (hk : k ∈ t.firsts usage) : k ∉ t.dangling usage := by
  obtain ⟨n, hm⟩ := mem_firsts.1 hk
  obtain ⟨-, -, -, -, -, -, hd⟩ := (mem_matchedPops h (h.nodup_usage ht)).1 hm
  exact hd

theorem nodup_keys_edits (h : t.Represents r) (ht : rule.thread [] r = .ok (out, usage)) :
    ((targets (t.edits usage first)).map Prod.fst).Nodup := by
  rw [edits, substitutions_eq, targets_append, List.map_append, keys_popEdits, keys_pushEdits,
    pushPops_eq, List.map_map, List.map_map, List.nodup_append]
  refine ⟨?_, by simpa [Function.comp_def] using nodup_firsts, ?_⟩
  · rw [List.nodup_flatten]
    refine ⟨fun l hl => ?_, ?_⟩
    · obtain ⟨k, -, rfl⟩ := List.mem_map.1 hl
      exact h.nodup_matchedPops.sublist (List.filter_sublist.map _)
    · rw [List.pairwise_map]
      refine nodup_firsts.imp fun {k k'} hne => ?_
      rintro n hn hn'
      obtain ⟨⟨a, n₁⟩, hp, rfl⟩ := List.mem_map.1 hn
      obtain ⟨⟨b, n₂⟩, hp', heq⟩ := List.mem_map.1 hn'
      obtain ⟨hp, ha⟩ := List.mem_filter.1 hp
      obtain ⟨hp', hb⟩ := List.mem_filter.1 hp'
      have := List.inj_on_of_nodup_map h.nodup_matchedPops hp hp' heq.symm
      simp only [beq_iff_eq] at ha hb
      exact hne (ha.symm.trans ((congrArg Prod.fst this).trans hb))
  · intro n hn m hm heq
    subst heq
    obtain ⟨l, hl, hnl⟩ := List.mem_flatten.1 hn
    obtain ⟨k, -, rfl⟩ := List.mem_map.1 hl
    obtain ⟨⟨k', n'⟩, hp, rfl⟩ := List.mem_map.1 hnl
    obtain ⟨loc, hpop⟩ := (labels_of_matched h ht (List.mem_filter.1 hp).1).2
    have hm : n' ∈ t.firsts usage := by simpa [Function.comp_def] using hm
    obtain ⟨loc', hpush⟩ := push_of_mem_firsts h ht hm
    have := h.eq_of_number hpop hpush rfl
    simp at this

/-- The edits can be applied. -/
theorem ready_edits (he : t.Editable r) (ht : rule.thread [] r = .ok (out, usage)) :
    Ready t r (t.edits usage first) := by
  have h := he.represents
  refine ⟨he, nodup_keys_edits h ht, fun hn => ?_, fun hn => ?_, fun hn => ?_, ?_⟩
  · exact push_of_mem_firsts h ht (take_mem_edits hn)
  · obtain ⟨i, k, -, hm, -⟩ := pop_mem_edits.1 hn
    exact (labels_of_matched h ht hm).2
  · obtain ⟨i, hi, -⟩ := push_mem_edits.1 hn
    exact push_of_mem_firsts h ht (List.mem_of_getElem? hi)
  · rw [edits, substitutions_eq, List.pairwise_append]
    refine ⟨?_, ?_, fun a ha b hb _ => ?_⟩
    · refine List.Pairwise.imp_of_mem (R := fun _ _ => True) (fun {a b} ha _ _ hp => ?_)
        (List.pairwise_of_forall fun _ _ => trivial)
      obtain ⟨i, p, -, rfl | ⟨n, -, rfl⟩⟩ := mem_popEdits.1 ha <;> cases hp
    · refine List.Pairwise.imp_of_mem (R := fun _ _ => True) (fun {a b} _ hb _ _ => ?_)
        (List.pairwise_of_forall fun _ _ => trivial)
      obtain ⟨i, p, -, rfl⟩ := mem_pushEdits.1 hb
      rfl
    · obtain ⟨i, p, -, rfl⟩ := mem_pushEdits.1 hb
      rfl

/-- The temporary of a push. -/
def chosen (t : SyntaxTree) (usage : List (Passage StackState)) (first n : Nat) : Option Nat :=
  (targets (pushEdits first (t.pushPops usage))).lookup n

theorem chosen_eq_some {n id : Nat} : t.chosen usage first n = some id ↔
    ∃ i, (t.firsts usage)[i]? = some n ∧ id = first + i := by
  have hn : ((targets (pushEdits first (t.pushPops usage))).map Prod.fst).Nodup := by
    rw [keys_pushEdits, pushPops_eq, List.map_map]
    simpa [Function.comp_def] using nodup_firsts
  rw [chosen, lookup_eq_some hn, mem_targets, push_mem_pushEdits]
  refine or_iff_right fun h => ?_
  obtain ⟨i, p, -, h⟩ := mem_pushEdits.1 h
  cases h

/-- What stays on the stack at the end of the script or of an arm is dangling. -/
theorem mem_dangling (hn : (usage.map Passage.node).Nodup) {p : Passage StackState} (hp : p ∈ usage)
    (hroot : p.node = SyntaxTree.root ∨ p.node ∈ t.arms) {k : Nat} (hk : k ∈ p.output.pushes) :
    k ∈ t.dangling usage := by
  unfold dangling
  refine List.mem_flatMap.2 ⟨p.node, ?_, ?_⟩
  · rcases hroot with h | h
    · rw [h]
      exact List.mem_cons_self
    · exact List.mem_cons_of_mem _ h
  · rw [passageAt?_eq_some hn hp]
    exact hk

theorem Represents.mem_arms (h : t.Represents r) {n : Nat} {form : Form}
    {parts : List (Rose (Nat × Form))} {arm : Rose (Nat × Form)}
    (hin : Within r (.node (n, form) parts)) (hk : form.kind = .branch) (ha : arm ∈ parts.drop 1) :
    arm.number ∈ t.arms := by
  have hmem := hin.label_mem
  obtain ⟨C, rfl⟩ := hin
  obtain ⟨link, hl, -⟩ := h.holds.plug
  unfold arms
  rw [h.nodes]
  refine List.mem_flatMap.2 ⟨_, hmem, ?_⟩
  rw [if_pos hk, children, hl.slot?]
  simp only [Option.map_some, Option.getD_some]
  rw [← List.map_drop]
  exact List.mem_map_of_mem ha

/-- Every temporary of a script is before the first that is new. -/
theorem Represents.lt_next (h : t.Represents r) (hs : t.scope? SyntaxTree.root = none) {s : Scope}
    (hc : t.currentScope SyntaxTree.root = .ok s) {x : Nat × Form} (hx : x ∈ r.labels) {id : Nat}
    (hid : x.2.kind.temporary? = some id) : id < s.next := by
  have hmem : id ∈ (((t.branch? SyntaxTree.root).map Rose.labels).getD []).filterMap
      fun n => n.2.kind.temporary? := by
    change id ∈ t.nodes.filterMap _
    rw [h.nodes]
    exact List.mem_filterMap.2 ⟨x, hx, hid⟩
  unfold currentScope at hc
  rw [hs] at hc
  simp only at hc
  split at hc
  · next hmax =>
    rw [List.max?_eq_none_iff] at hmax
    rw [hmax] at hmem
    cases hmem
  · next greatest hmax =>
    split at hc
    · cases hc
      exact Nat.lt_succ_of_le ((List.max?_le_iff hmax).1 (Nat.le_refl _) _ hmem)
    · cases hc

theorem lookup_edits (h : t.Represents r) (ht : rule.thread [] r = .ok (out, usage)) {n id : Nat} :
    (targets (t.edits usage first)).lookup n = some id ↔
      .pop n id ∈ t.edits usage first ∨ .push n id ∈ t.edits usage first := by
  rw [lookup_eq_some (nodup_keys_edits h ht), mem_targets]

/-- A push gets the temporary chosen for it. -/
theorem lookup_edits_push (h : t.Represents r) (ht : rule.thread [] r = .ok (out, usage)) {n : Nat}
    {loc : Loc} (hn : (n, (⟨.push, loc⟩ : Form)) ∈ r.labels) :
    (targets (t.edits usage first)).lookup n = t.chosen usage first n := by
  refine Option.ext fun id => ?_
  rw [lookup_edits h ht, chosen_eq_some, ← push_mem_edits]
  refine or_iff_right fun hm => ?_
  obtain ⟨i, k, -, hm, -⟩ := pop_mem_edits.1 hm
  obtain ⟨loc', hn'⟩ := (labels_of_matched h ht hm).2
  have := h.eq_of_number hn hn' rfl
  simp at this

/-- A pop gets the temporary chosen for the push whose value it takes. -/
theorem lookup_edits_pop (h : t.Represents r) (ht : rule.thread [] r = .ok (out, usage)) {loc : Loc}
    {p : Passage StackState} (hn : (p.node, (⟨.atom .pop, loc⟩ : Form)) ∈ r.labels)
    (hp : p ∈ usage) : (targets (t.edits usage first)).lookup p.node =
      p.input.topPush?.bind (t.chosen usage first) := by
  have hnodup := h.nodup_usage ht
  have hpop : ∀ {id : Nat}, Substitution.push p.node id ∉ t.edits usage first := by
    intro id hm
    obtain ⟨i, hi, -⟩ := push_mem_edits.1 hm
    obtain ⟨loc', hn'⟩ := push_of_mem_firsts h ht (List.mem_of_getElem? hi)
    have := h.eq_of_number hn hn' rfl
    simp at this
  refine Option.ext fun id => ?_
  rw [lookup_edits h ht, or_iff_left hpop, pop_mem_edits, Option.bind_eq_some_iff]
  constructor
  · rintro ⟨i, k, hi, hm, rfl⟩
    obtain ⟨-, -, q, hq, hqn, htop, -⟩ := (mem_matchedPops h hnodup).1 hm
    obtain rfl := List.inj_on_of_nodup_map hnodup hq hp hqn
    exact ⟨k, htop, chosen_eq_some.2 ⟨i, hi, rfl⟩⟩
  · rintro ⟨k, htop, hk⟩
    obtain ⟨i, hi, rfl⟩ := chosen_eq_some.1 hk
    have hd := not_dangling_of_mem_firsts h ht (List.mem_of_getElem? hi)
    exact ⟨i, k, hi, (mem_matchedPops h hnodup).2 ⟨loc, hn, p, hp, rfl, htop, hd⟩, rfl⟩

/-- What an arm leaves on the stack stays. -/
theorem mem_dangling_of_arm (h : t.Represents r) (ht : rule.thread [] r = .ok (out, usage))
    {n : Nat} {form : Form} {parts : List (Rose (Nat × Form))} {arm : Rose (Nat × Form)}
    {p : Passage StackState} (hin : Within r (.node (n, form) parts)) (hk : form.kind = .branch)
    (ha : arm ∈ parts.drop 1) (hp : p ∈ usage) (hpn : p.node = arm.number) {k : Nat}
    (hk' : k ∈ p.output.pushes) : k ∈ t.dangling usage :=
  mem_dangling (h.nodup_usage ht) hp (.inr (hpn ▸ h.mem_arms hin hk ha)) hk'

/-- The edits go with the use of the stack. -/
theorem plan_edits (h : t.Represents r) (hw : r.forms.WellFormed)
    (ht : rule.thread [] r = .ok (out, usage))
    (hold : ∀ x ∈ r.labels, ∀ id, x.2.kind.temporary? = some id → id < first) :
    Plan r usage (fun n => (targets (t.edits usage first)).lookup n) (t.chosen usage first)
      (· ∈ t.dangling usage) := by
  refine ⟨hw, ?_, ?_, ?_, lookup_edits_push h ht, lookup_edits_pop h ht, ?_⟩
  · intro x hx id hid n hn
    obtain ⟨i, -, rfl⟩ := chosen_eq_some.1 hn
    have := hold x hx _ hid
    omega
  · intro n m id hn hm
    obtain ⟨i, hi, rfl⟩ := chosen_eq_some.1 hn
    obtain ⟨j, hj, heq⟩ := chosen_eq_some.1 hm
    obtain rfl : i = j := by omega
    exact Option.some.inj (hi.symm.trans hj)
  · intro n hn
    refine Option.eq_none_iff_forall_not_mem.2 fun id hid => ?_
    obtain ⟨i, hi, -⟩ := chosen_eq_some.1 hid
    exact not_dangling_of_mem_firsts h ht (List.mem_of_getElem? hi) hn
  · exact fun hin hk ha hp hpn k => mem_dangling_of_arm h ht hin hk ha hp hpn

/-- Without pushes to eliminate, the script stays as it is. -/
theorem plan_nothing (h : t.Represents r) (hw : r.forms.WellFormed)
    (ht : rule.thread [] r = .ok (out, usage)) :
    Plan r usage (fun _ => none) (fun _ => none) (· ∈ t.dangling usage) where
  wellFormed := hw
  old _ _ _ _ _ := nofun
  inj := nofun
  unbound _ := rfl
  push _ := rfl
  pop _ _ := (Option.bind_fun_none _).symm
  arm hin hk ha hp hpn _ := mem_dangling_of_arm h ht hin hk ha hp hpn

end Plans

/-- What becomes of a script when pushes are bound. -/
structure Bound (r r' : Rose (Nat × Form)) (f g : Nat → Option Nat) (kept : Nat → Prop)
    (usage : List (Passage StackState)) : Prop where
  thread : ∃ out, rule.thread [] r = .ok (out, usage) ∧ ∀ k ∈ out.pushes, kept k
  plan : Plan r usage f g kept
  forms : r'.forms = r.bound f
  push : ∀ {n id : Nat}, g n = some id → ∃ loc, (n, (⟨.push, loc⟩ : Form)) ∈ r.labels
  /-- Every push whose value is taken gets a temporary. -/
  taken : ∀ {loc : Loc} {p : Passage StackState} {k : Nat},
    (p.node, (⟨.atom .pop, loc⟩ : Form)) ∈ r.labels → p ∈ usage → p.input.topPush? = some k →
    g k ≠ none

section Outcomes

variable (he : t.Editable r) (ht : rule.thread [] r = .ok (out, usage))
include he ht

theorem Editable.dangling_of_out {k : Nat} (hk : k ∈ out.pushes) : k ∈ t.dangling usage :=
  mem_dangling (he.represents.nodup_usage ht) (Rule.thread_last ht) (.inl he.represents.root) hk

/-- Every push whose value is taken is one to eliminate. -/
theorem Editable.mem_firsts_of_topPush {loc : Loc} {p : Passage StackState} {k : Nat}
    (hpop : (p.node, (⟨.atom .pop, loc⟩ : Form)) ∈ r.labels) (hp : p ∈ usage)
    (htop : p.input.topPush? = some k) : k ∈ t.firsts usage :=
  mem_firsts.2 ⟨p.node, (mem_matchedPops he.represents (he.represents.nodup_usage ht)).2
    ⟨loc, hpop, p, hp, rfl, htop,
      he.represents.not_dangling he.wellFormed ht hpop hp htop⟩⟩

/-- Without pushes to eliminate there is nothing to bind. -/
theorem Editable.bound_nothing (hempty : t.firsts usage = []) :
    Bound r r (fun _ => none) (fun _ => none) (· ∈ t.dangling usage) usage where
  thread := ⟨out, ht, fun _ => he.dangling_of_out ht⟩
  plan := plan_nothing he.represents he.wellFormed ht
  forms := (bound_none r fun _ _ => rfl).symm
  push := nofun
  taken hpop hp htop := by
    have hmem := he.mem_firsts_of_topPush ht hpop hp htop
    rw [hempty] at hmem
    cases hmem

/-- What the edits make of a script. -/
theorem Editable.bound_edits (hs : t.scope? SyntaxTree.root = none) {s : Scope}
    (hscope : t.currentScope SyntaxTree.root = .ok s) {r' : Rose (Nat × Form)}
    (hforms : r'.forms = made (t.edits usage s.next) r) :
    Bound r r' (fun n => (targets (t.edits usage s.next)).lookup n) (t.chosen usage s.next)
      (· ∈ t.dangling usage) usage where
  thread := ⟨out, ht, fun _ => he.dangling_of_out ht⟩
  plan := plan_edits he.represents he.wellFormed ht fun x hx id hid =>
    he.represents.lt_next hs hscope hx hid
  forms := hforms
  push hn := by
    obtain ⟨i, hi, -⟩ := chosen_eq_some.1 hn
    exact push_of_mem_firsts he.represents ht (List.mem_of_getElem? hi)
  taken hpop hp htop hnone := by
    obtain ⟨i, hi⟩ := List.mem_iff_getElem?.1 (he.mem_firsts_of_topPush ht hpop hp htop)
    cases hnone.symm.trans (chosen_eq_some.2 ⟨i, hi, rfl⟩)

end Outcomes

/-- Binding pushes fails only at a part without a rule or when the temporaries run out. -/
theorem Editable.bindPushes_cases (he : t.Editable r) (hs : t.scope? SyntaxTree.root = none) :
    (∃ x ∈ r.labels, rule.Lacks x.2.kind ∧
      t.bindPushes.toExcept = .error (.unsupported x.2.kind.name)) ∨
      t.bindPushes.toExcept = .error .counterOverflow ∨
      ∃ t' r' f g kept usage, t.bindPushes.toExcept = .ok t' ∧ t'.Editable r' ∧
        Bound r r' f g kept usage := by
  have hfound : t.eliminations = (do
      let pairs := t.pushPops (← (rule.thread [] r).map Prod.snd)
      if pairs.isEmpty then return []
      return substitutions (← t.currentScope SyntaxTree.root).next pairs) := by
    unfold eliminations
    rw [he.represents.stackUsage_eq]
  unfold bindPushes
  rw [hfound]
  cases ht : rule.thread [] r with
  | error fault =>
    obtain ⟨x, hx, hlacks, rfl⟩ := Rule.thread_error r ht
    exact .inl ⟨x, hx, hlacks, rfl⟩
  | ok res =>
    obtain ⟨out, usage⟩ := res
    right
    simp only [Except.map, bind, Except.bind, pure, Except.pure]
    by_cases hempty : (t.pushPops usage).isEmpty = true
    · have hnone : t.firsts usage = [] := by simpa [pushPops_eq] using hempty
      right
      rw [if_pos hempty]
      exact ⟨t, r, _, _, _, usage, rfl, he, he.bound_nothing ht hnone⟩
    · rw [if_neg hempty]
      rcases currentScope_cases t SyntaxTree.root with herr | ⟨s, hscope⟩
      · left
        rw [herr]
        rfl
      · have hready : Ready t r (t.edits usage s.next) := ready_edits he ht
        rw [hscope]
        simp only [Outcome.toExcept_ofEdits]
        rw [← edits]
        rcases hready.applyAll with ⟨t', herr⟩ | ⟨t', r', hok, hready', hforms⟩
        · left
          rw [herr]
          rfl
        · right
          exact ⟨t', r', _, _, _, usage, by rw [hok]; rfl, hready'.toEditable,
            he.bound_edits ht hs hscope hforms⟩

/-! ## The new script does the same -/

variable {V σ : Type}

/-- Binding pushes keeps what a script does. -/
theorem Bound.same {r r' : Rose (Nat × Form)} {f g : Nat → Option Nat} {kept : Nat → Prop}
    (h : Bound r r' f g kept usage) (hn : r.numbers.Nodup) (I : Interpretation V σ)
    (m : Memory V σ) : SameOutcome (Taken g) (I.exec r.forms m) (I.exec r'.forms m) := by
  obtain ⟨out, ht, hkept⟩ := h.thread
  have hsim := h.plan.exec (I := I) r ⟨[], rfl⟩ hn ht (fun p hp => hp) (settled_of_pushes hkept)
    (by simp [pushes]) ⟨.refl m, rfl⟩
  rw [h.forms]
  exact ⟨hsim.ending, hsim.agrees, fun a ha =>
    (hsim.faces a ha).2.eq fun n hn => h.plan.unbound (hkept n hn)⟩

/-- The temporary of a push is in the new script. -/
theorem mem_labels_bound {f : Nat → Option Nat} {n id : Nat} {loc : Loc} (hf : f n = some id) :
    ∀ {r : Rose (Nat × Form)}, r.forms.WellFormed → (n, (⟨.push, loc⟩ : Form)) ∈ r.labels →
      (⟨.temporaryTarget id, none⟩ : Form) ∈ (r.bound f).labels := by
  intro r
  induction r using Rose.induct with
  | h label parts ih =>
    obtain ⟨k, form⟩ := label
    intro hw hn
    rcases List.mem_cons.1 (labels_node ▸ hn) with heq | hn
    · cases heq
      rw [bound, hf]
      simp [labelsAll]
    · obtain ⟨part, hpart, hmem⟩ := mem_labelsAll.1 hn
      have hpush : form.kind ≠ .push := by
        intro hk
        obtain ⟨v, e, rfl, -, -, -, hquiet⟩ := hw.exists_operand (by rw [hk]; exact fun _ h => h)
        obtain rfl := List.mem_singleton.1 hpart
        exact hquiet _ hmem rfl
      rw [forms_node] at hw
      have hpop : form.kind ≠ .atom .pop := by
        intro hk
        have := hw.admits
        rw [hk] at this
        obtain rfl : parts = [] := by simpa [Kind.admits] using this
        simp at hpart
      rw [bound_of_other hpop hpush, labels_node, boundAll_eq_map]
      refine List.mem_cons_of_mem _ (mem_labelsAll.2 ⟨_, List.mem_map_of_mem hpart, ?_⟩)
      exact ih part hpart (hw.parts _ (List.mem_map_of_mem hpart)) hmem

end SyntaxTree

/-- The temporaries that a script names. -/
def Script.temporaries (s : Script) : List Nat :=
  s.rose.labels.filterMap fun form => form.kind.temporary?

open SyntaxTree in
/-- Eliminating pushes and pops keeps what a script does, apart from new temporaries. -/
theorem run_bindPushes {V σ : Type} {s : Script} {t : SyntaxTree}
    (h : (SyntaxTree.ofScript s).bindPushes.toExcept = .ok t) :
    ∃ s', t.toScript = .ok s' ∧ ∀ (I : Interpretation V σ) (m : Memory V σ),
      SameOutcome (fun id => id ∈ s'.temporaries ∧ id ∉ s.temporaries) (I.run s m)
        (I.run s' m) := by
  have hedit := editable_ofScript s
  have hforms : (s.rose.tagged 0 1).forms = s.rose := forms_tagged _
  rcases hedit.bindPushes_cases rfl with
    ⟨_, -, -, herr⟩ | herr | ⟨t', r', f, g, kept, usage, hok, hedit', hbound⟩
  · cases h.symm.trans herr
  · cases h.symm.trans herr
  · obtain rfl := Except.ok.inj (h.symm.trans hok)
    obtain ⟨s', hs', hrose⟩ := hedit'.represents.toScript_eq_ok hedit'.wellFormed hedit'.category
    refine ⟨s', hs', fun I m => ?_⟩
    have hsame := hbound.same hedit.represents.nodup I m
    rw [hforms, ← hrose] at hsame
    refine hsame.mono fun id hid => ?_
    obtain ⟨n, hn⟩ := hid
    obtain ⟨loc, hl⟩ := hbound.push hn
    constructor
    · rw [Script.temporaries, hrose, hbound.forms]
      exact List.mem_filterMap.2 ⟨_, mem_labels_bound ((hbound.plan.push hl).trans hn)
        hedit.wellFormed hl, rfl⟩
    · intro hold
      obtain ⟨form, hform, hid⟩ := List.mem_filterMap.1 hold
      rw [← hforms, forms, labels_map] at hform
      obtain ⟨x, hx, rfl⟩ := List.mem_map.1 hform
      exact hbound.plan.old x hx id hid n hn

/-- A push of a text, and its pop as the value of a return. -/
def Script.handover : Script where
  body := [.push (.string "a") none, .ret (some .pop) none]

/-- The pushed text is returned by way of a temporary. -/
theorem run_bindPushes_handover :
    (SyntaxTree.ofScript .handover).bindPushes.toExcept =
        .ok (SyntaxTree.ofScript .handover).bindPushes.state ∧
      ∃ s', (SyntaxTree.ofScript .handover).bindPushes.state.toScript = .ok s' ∧
        s'.temporaries = [0, 0] ∧ ∀ (I : Interpretation Nat Unit) (m : Memory Nat Unit),
          SameOutcome (fun id => id ∈ s'.temporaries ∧ id ∉ Script.handover.temporaries)
            (I.run .handover m) (I.run s' m) := by
  have hok : (SyntaxTree.ofScript .handover).bindPushes.toExcept =
      .ok (SyntaxTree.ofScript .handover).bindPushes.state := by rfl
  have htemporaries : (SyntaxTree.ofScript .handover).bindPushes.state.toScript.map
      Script.temporaries = .ok [0, 0] := by rfl
  obtain ⟨s', hs', h⟩ := run_bindPushes (V := Nat) (σ := Unit) hok
  rw [hs'] at htemporaries
  exact ⟨hok, s', hs', Except.ok.inj htemporaries, h⟩

end ScriptRecovery
