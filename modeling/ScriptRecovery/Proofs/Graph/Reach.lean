import Mathlib
import ScriptRecovery.Graph.Order

/-!
# The orders list what is reachable

`Adjacency.Reach` says which nodes a start reaches inside the graph.  Both searches list exactly
these nodes (`mem_preorder`, `mem_postorder`), the postorder lists each of them once
(`nodup_postorder`), and it ends with the start (`postorder_eq_append`).

Each search is followed with one closure invariant.  For the preorder it speaks of the nodes that
have left the stack, for the postorder of the nodes that are marked: their successors are marked
themselves or still to be explored.

This is the only module that imports the whole of Mathlib.  The examples of the modules above it are
evaluated, and evaluation uses equations of the library wherever they are declared.
-/

namespace ScriptRecovery

namespace Adjacency

variable {a : Adjacency} {start : Nat}

/-- The nodes that `start` reaches inside the graph. -/
inductive Reach (a : Adjacency) (start : Nat) : Nat → Prop where
  | start : start < a.size → Reach a start start
  | step : Reach a start m → n ∈ a.successors m → n < a.size → Reach a start n

theorem Reach.lt_size {n : Nat} (h : a.Reach start n) : n < a.size := by
  cases h with
  | start h => exact h
  | step _ _ h => exact h

theorem Reach.start_lt {n : Nat} (h : a.Reach start n) : start < a.size := by
  induction h with
  | start h => exact h
  | step _ _ _ ih => exact ih

/-- A set that holds the start and is closed under successors holds everything reachable. -/
theorem Reach.mem_of_closed {n : Nat} (h : a.Reach start n) {p : Nat → Prop} (hs : p start)
    (hc : ∀ x, p x → ∀ y ∈ a.successors x, y < a.size → p y) : p n := by
  induction h with
  | start _ => exact hs
  | step _ hm hn ih => exact hc _ ih _ hm hn

end Adjacency

/-! ## Enlisting -/

namespace Marks

theorem isFree_of_enlist {m : Marks} {stack is : List Nat} {j : Nat}
    (h : (m.enlist stack is).1.isFree j) : m.isFree j ∧ j ∉ is := by
  induction is generalizing m stack with
  | nil => exact ⟨h, by simp⟩
  | cons i is ih =>
    unfold enlist at h
    split at h
    · obtain ⟨hf, hn⟩ := ih h
      simp only [isFree_mark, Bool.and_eq_true, bne_iff_ne, ne_eq] at hf
      exact ⟨hf.1, by simp [hn, Ne.symm hf.2]⟩
    · next hi =>
      obtain ⟨hf, hn⟩ := ih h
      refine ⟨hf, ?_⟩
      rintro (_ | _)
      · exact hi hf
      · contradiction

theorem mem_enlist_of_mem {m : Marks} {stack is : List Nat} {j : Nat} (h : j ∈ stack) :
    j ∈ (m.enlist stack is).2 := by
  induction is generalizing m stack with
  | nil => exact h
  | cons i is ih =>
    unfold enlist
    split
    · exact ih (List.mem_cons_of_mem _ h)
    · exact ih h

theorem mem_enlist_of_marked {m : Marks} {stack is : List Nat} {j : Nat} (h : m.isFree j)
    (h' : ¬ (m.enlist stack is).1.isFree j) : j ∈ (m.enlist stack is).2 := by
  induction is generalizing m stack with
  | nil => exact absurd h h'
  | cons i is ih =>
    unfold enlist at h' ⊢
    split at h'
    · next hi =>
      rw [if_pos hi]
      by_cases hij : i = j
      · exact mem_enlist_of_mem (by simp [hij])
      · exact ih (by simp [h, hij]) h'
    · next hi =>
      rw [if_neg hi]
      exact ih h h'

theorem mem_of_mem_enlist {m : Marks} {stack is : List Nat} {j : Nat}
    (h : j ∈ (m.enlist stack is).2) : j ∈ stack ∨ j ∈ is ∧ m.isFree j := by
  induction is generalizing m stack with
  | nil => exact .inl h
  | cons i is ih =>
    unfold enlist at h
    split at h
    · next hi =>
      rcases ih h with h | ⟨h, hf⟩
      · rcases List.mem_cons.1 h with rfl | h
        · exact .inr ⟨by simp, hi⟩
        · exact .inl h
      · simp only [isFree_mark, Bool.and_eq_true] at hf
        exact .inr ⟨by simp [h], hf.1⟩
    · rcases ih h with h | ⟨h, hf⟩
      · exact .inl h
      · exact .inr ⟨by simp [h], hf⟩

end Marks

namespace Adjacency

variable {a : Adjacency} {start : Nat}

/-! ## Preorder -/

theorem drain_cons (marks : Marks) (node : Nat) (stack : List Nat) :
    a.drain marks (node :: stack) =
      node :: a.drain (marks.enlist stack (a.successors node)).1
        (marks.enlist stack (a.successors node)).2 := by
  rw [drain]

theorem drain_nil (marks : Marks) : a.drain marks [] = [] := by
  rw [drain]

/-- Nothing leaves the stack that the stack does not reach. -/
theorem reach_of_mem_drain {marks : Marks} {stack : List Nat}
    (hf : ∀ j, marks.isFree j → j < a.size) (hs : ∀ j ∈ stack, a.Reach start j) {n : Nat}
    (h : n ∈ a.drain marks stack) : a.Reach start n := by
  induction marks, stack using drain.induct a with
  | case1 marks =>
    rw [drain_nil] at h
    simp at h
  | case2 marks node stack enlisted ih =>
    rw [drain_cons] at h
    rcases List.mem_cons.1 h with rfl | h
    · exact hs _ (by simp)
    · refine ih (fun j hj => hf j (Marks.isFree_of_enlist hj).1) (fun j hj => ?_) h
      rcases Marks.mem_of_mem_enlist hj with hj | ⟨hj, hfree⟩
      · exact hs j (by simp [hj])
      · exact .step (hs node (by simp)) hj (hf j hfree)

theorem mem_drain_of_mem_stack {marks : Marks} {stack : List Nat} {n : Nat} (h : n ∈ stack) :
    n ∈ a.drain marks stack := by
  induction marks, stack using drain.induct a with
  | case1 marks => simp at h
  | case2 marks node stack enlisted ih =>
    rw [drain_cons]
    rcases List.mem_cons.1 h with rfl | h
    · simp
    · exact List.mem_cons_of_mem _ (ih (Marks.mem_enlist_of_mem h))

/-- Once the nodes that have left the stack have only marked successors, so has everything that
leaves it later. -/
theorem drain_closed {marks : Marks} {stack : List Nat} {left : Nat → Prop}
    (hm : ∀ x, x < a.size → ¬ marks.isFree x → x ∈ stack ∨ left x)
    (hc : ∀ x, left x → ∀ y ∈ a.successors x, y < a.size → ¬ marks.isFree y) :
    ∀ x, left x ∨ x ∈ a.drain marks stack →
      ∀ y ∈ a.successors x, y < a.size → left y ∨ y ∈ a.drain marks stack := by
  induction marks, stack using drain.induct a generalizing left with
  | case1 marks =>
    rw [drain_nil]
    intro x hx y hy hlt
    have hx : left x := hx.resolve_right (by simp)
    exact .inl ((hm y hlt (hc x hx y hy hlt)).resolve_left (by simp))
  | case2 marks node stack enlisted =>
    rename_i ih
    rw [drain_cons]
    intro x hx y hy hlt
    -- the node that leaves the stack joins those that have left it
    have key := @ih (fun z => left z ∨ z = node) ?_ ?_ x ?_ y hy hlt
    · rcases key with (key | rfl) | key
      · exact .inl key
      · exact .inr (by simp)
      · exact .inr (List.mem_cons_of_mem _ key)
    · intro z hz hfree
      by_cases hz' : marks.isFree z
      · exact .inl (Marks.mem_enlist_of_marked hz' hfree)
      · rcases hm z hz hz' with h | h
        · rcases List.mem_cons.1 h with rfl | h
          · exact .inr (.inr rfl)
          · exact .inl (Marks.mem_enlist_of_mem h)
        · exact .inr (.inl h)
    · rintro z (hz | rfl) w hw hwlt hfree
      · exact hc z hz w hw hwlt (Marks.isFree_of_enlist hfree).1
      · exact (Marks.isFree_of_enlist hfree).2 hw
    · rcases hx with hx | hx
      · exact .inl (.inl hx)
      · rcases List.mem_cons.1 hx with rfl | hx
        · exact .inl (.inr rfl)
        · exact .inr hx

/-- The preorder lists what the start reaches. -/
theorem mem_preorder {n : Nat} : n ∈ a.preorder start ↔ a.Reach start n := by
  unfold preorder
  split
  · next hlt =>
    constructor
    · refine reach_of_mem_drain (fun j hj => ?_) (fun j hj => ?_)
      · simp at hj
        exact hj.1
      · rw [List.mem_singleton.1 hj]
        exact .start hlt
    · intro h
      refine h.mem_of_closed (mem_drain_of_mem_stack (by simp)) fun x hx y hy hylt => ?_
      have hstack : ∀ z, z < a.size → ¬ ((Marks.none a.size).mark start).isFree z →
          z ∈ [start] ∨ False := by
        intro z hz hfree
        simp only [Marks.isFree_mark, Marks.isFree_none, hz, decide_true, Bool.true_and,
          bne_iff_ne, ne_eq, Decidable.not_not] at hfree
        exact .inl (by simp [hfree])
      simpa using drain_closed hstack (by simp) x (.inr hx) y hy hylt
  · next hlt => exact ⟨by simp, fun h => absurd h.start_lt hlt⟩

/-! ## Postorder -/

/-- Induction along the postorder search. -/
theorem leaving_induct (a : Adjacency) {motive : Marks → List Task → Prop}
    (nil : ∀ marks, motive marks [])
    (leave : ∀ marks node tasks, motive marks tasks → motive marks (.leave node :: tasks))
    (enter : ∀ marks node tasks, marks.isFree node →
      motive (marks.mark node) ((a.successors node).map .enter ++ .leave node :: tasks) →
      motive marks (.enter node :: tasks))
    (skip : ∀ marks node tasks, ¬ marks.isFree node → motive marks tasks →
      motive marks (.enter node :: tasks)) :
    ∀ marks tasks, motive marks tasks := by
  intro marks tasks
  induction marks, tasks using leaving.induct a with
  | case1 marks => exact nil marks
  | case2 marks node tasks ih => exact leave marks node tasks ih
  | case3 marks node tasks hf ih => exact enter marks node tasks hf (by simpa using ih)
  | case4 marks node tasks hf ih => exact skip marks node tasks hf ih

theorem leaving_nil (marks : Marks) : a.leaving marks [] = [] := by
  rw [leaving]

theorem leaving_leave (marks : Marks) (node : Nat) (tasks : List Task) :
    a.leaving marks (.leave node :: tasks) = node :: a.leaving marks tasks := by
  rw [leaving]

theorem leaving_enter {marks : Marks} {node : Nat} (tasks : List Task) (h : marks.isFree node) :
    a.leaving marks (.enter node :: tasks) =
      a.leaving (marks.mark node) ((a.successors node).map .enter ++ .leave node :: tasks) := by
  rw [leaving, if_pos h]

theorem leaving_skip {marks : Marks} {node : Nat} (tasks : List Task) (h : ¬ marks.isFree node) :
    a.leaving marks (.enter node :: tasks) = a.leaving marks tasks := by
  rw [leaving, if_neg h]

theorem mem_leaving_of_leave {marks : Marks} {tasks : List Task} {n : Nat}
    (h : Task.leave n ∈ tasks) : n ∈ a.leaving marks tasks := by
  induction marks, tasks using leaving_induct a with
  | nil marks => simp at h
  | leave marks node tasks ih =>
    rw [leaving_leave]
    rcases List.mem_cons.1 h with h | h
    · cases h
      exact List.mem_cons_self
    · exact List.mem_cons_of_mem _ (ih h)
  | enter marks node tasks hf ih =>
    rw [leaving_enter _ hf]
    exact ih (by simp_all)
  | skip marks node tasks hf ih =>
    rw [leaving_skip _ hf]
    exact ih (by simpa using h)

/-- Nothing is listed that the tasks do not reach. -/
theorem reach_of_mem_leaving {marks : Marks} {tasks : List Task}
    (hf : ∀ j, marks.isFree j → j < a.size)
    (he : ∀ j, Task.enter j ∈ tasks → j < a.size → a.Reach start j)
    (hl : ∀ j, Task.leave j ∈ tasks → a.Reach start j) {n : Nat}
    (h : n ∈ a.leaving marks tasks) : a.Reach start n := by
  induction marks, tasks using leaving_induct a with
  | nil marks =>
    rw [leaving_nil] at h
    simp at h
  | leave marks node tasks ih =>
    rw [leaving_leave] at h
    rcases List.mem_cons.1 h with rfl | h
    · exact hl _ (by simp)
    · exact ih hf (fun j hj => he j (by simp [hj])) (fun j hj => hl j (by simp [hj])) h
  | enter marks node tasks hfree ih =>
    rw [leaving_enter _ hfree] at h
    have hnode : a.Reach start node := he node (by simp) (hf node hfree)
    refine ih (fun j hj => hf j (by simp_all)) (fun j hj hlt => ?_) (fun j hj => ?_) h
    · rcases List.mem_append.1 hj with hj | hj
      · obtain ⟨k, hk, hkj⟩ := List.mem_map.1 hj
        cases hkj
        exact .step hnode hk hlt
      · exact he j (by simp_all) hlt
    · rcases List.mem_append.1 hj with hj | hj
      · obtain ⟨k, _, hkj⟩ := List.mem_map.1 hj
        cases hkj
      · rcases List.mem_cons.1 hj with hj | hj
        · cases hj
          exact hnode
        · exact hl j (by simp [hj])
  | skip marks node tasks hfree ih =>
    rw [leaving_skip _ hfree] at h
    exact ih hf (fun j hj => he j (by simp [hj])) (fun j hj => hl j (by simp [hj])) h

/-- Whether a node is marked, or is listed by what is left of the tasks. -/
def Met (a : Adjacency) (marks : Marks) (tasks : List Task) (n : Nat) : Prop :=
  ¬ marks.isFree n ∨ n ∈ a.leaving marks tasks

section Met

variable {marks : Marks} {tasks : List Task} {node n : Nat}

theorem met_nil : a.Met marks [] n ↔ ¬ marks.isFree n := by
  simp [Met, leaving_nil]

theorem met_leave (h : ¬ marks.isFree node) :
    a.Met marks (.leave node :: tasks) n ↔ a.Met marks tasks n := by
  rw [Met, Met, leaving_leave, List.mem_cons]
  constructor
  · rintro (hn | rfl | hn)
    · exact .inl hn
    · exact .inl h
    · exact .inr hn
  · exact Or.imp_right .inr

/-- A node that is entered is met, since it is to be left. -/
theorem met_enter (h : marks.isFree node) : a.Met marks (.enter node :: tasks) n ↔
    a.Met (marks.mark node) ((a.successors node).map .enter ++ .leave node :: tasks) n := by
  rw [Met, Met, leaving_enter _ h]
  constructor
  · exact Or.imp_left fun hn => by simp [hn]
  · rintro (hn | hn)
    · by_cases heq : n = node
      · exact .inr (mem_leaving_of_leave (by simp [heq]))
      · exact .inl (by simpa [Ne.symm heq] using hn)
    · exact .inr hn

theorem met_skip (h : ¬ marks.isFree node) :
    a.Met marks (.enter node :: tasks) n ↔ a.Met marks tasks n := by
  rw [Met, Met, leaving_skip _ h]

end Met

/-- When the marked nodes have only successors that are marked or to be entered, the nodes that
are met are closed under successors. -/
theorem leaving_closed {marks : Marks} {tasks : List Task}
    (hl : ∀ x, Task.leave x ∈ tasks → ¬ marks.isFree x)
    (hc : ∀ x, x < a.size → ¬ marks.isFree x → ∀ y ∈ a.successors x, y < a.size →
      ¬ marks.isFree y ∨ Task.enter y ∈ tasks) :
    (∀ y, Task.enter y ∈ tasks → a.Met marks tasks y) ∧
    ∀ x, x < a.size → a.Met marks tasks x →
      ∀ y ∈ a.successors x, y < a.size → a.Met marks tasks y := by
  induction marks, tasks using leaving_induct a with
  | nil marks =>
    simp only [met_nil]
    exact ⟨by simp, fun x hx h y hy hlt => (hc x hx h y hy hlt).resolve_right (by simp)⟩
  | leave marks node tasks ih =>
    simp only [met_leave (hl node (by simp))]
    obtain ⟨he, hs⟩ := ih (fun x hx => hl x (by simp [hx])) (by simpa using hc)
    exact ⟨fun y hy => he y (by simpa using hy), hs⟩
  | enter marks node tasks hfree ih =>
    simp only [met_enter hfree]
    have hleave : ∀ x, Task.leave x ∈ (a.successors node).map .enter ++ .leave node :: tasks →
        ¬ (marks.mark node).isFree x := by
      intro x hx
      have hx : x = node ∨ Task.leave x ∈ tasks := by simpa using hx
      rcases hx with rfl | hx
      · simp
      · simp [hl x (by simp [hx])]
    obtain ⟨he, hs⟩ := ih hleave fun x hx hmarked y hy hlt => by
      by_cases hxn : x = node
      · exact .inr (by simp [hxn ▸ hy])
      · rcases hc x hx (by simpa [Ne.symm hxn] using hmarked) y hy hlt with h | h
        · exact .inl (by simp [h])
        · have h : y = node ∨ Task.enter y ∈ tasks := by simpa using h
          exact h.imp (fun h => by simp [h]) fun h => by simp [h]
    refine ⟨fun y hy => ?_, hs⟩
    have hy : y = node ∨ Task.enter y ∈ tasks := by simpa using hy
    rcases hy with rfl | hy
    · exact .inl (by simp)
    · exact he y (by simp [hy])
  | skip marks node tasks hfree ih =>
    simp only [met_skip hfree]
    -- the node is marked, whether it was entered before or is still to be
    have hskip : ∀ y, Task.enter y ∈ .enter node :: tasks →
        ¬ marks.isFree y ∨ Task.enter y ∈ tasks := by
      intro y hy
      have hy : y = node ∨ Task.enter y ∈ tasks := by simpa using hy
      exact hy.imp_left (by rintro rfl; exact hfree)
    obtain ⟨he, hs⟩ := ih (fun x hx => hl x (by simp [hx])) fun x hx hmarked y hy hlt =>
      (hc x hx hmarked y hy hlt).elim .inl (hskip y)
    exact ⟨fun y hy => (hskip y hy).elim .inl (he y), hs⟩

/-- What is listed was to be left already, or free. -/
theorem mem_leaving {marks : Marks} {tasks : List Task} {n : Nat}
    (h : n ∈ a.leaving marks tasks) : Task.leave n ∈ tasks ∨ marks.isFree n := by
  induction marks, tasks using leaving_induct a with
  | nil marks =>
    rw [leaving_nil] at h
    simp at h
  | leave marks node tasks ih =>
    rw [leaving_leave] at h
    rcases List.mem_cons.1 h with rfl | h
    · exact .inl (by simp)
    · exact (ih h).imp (by simp +contextual) id
  | enter marks node tasks hfree ih =>
    rw [leaving_enter _ hfree] at h
    rcases ih h with h | h
    · rcases List.mem_append.1 h with h | h
      · simp at h
      · rcases List.mem_cons.1 h with h | h
        · cases h
          exact .inr hfree
        · exact .inl (by simp [h])
    · exact .inr (by simp_all)
  | skip marks node tasks hfree ih =>
    rw [leaving_skip _ hfree] at h
    exact (ih h).imp (by simp +contextual) id

/-- The postorder lists what the start reaches. -/
theorem mem_postorder {n : Nat} : n ∈ a.postorder start ↔ a.Reach start n := by
  unfold postorder
  constructor
  · refine reach_of_mem_leaving (fun j hj => by simpa using hj) (fun j hj hlt => ?_) (by simp)
    obtain rfl : j = start := by simpa using hj
    exact .start hlt
  · intro h
    have free : ∀ x, x < a.size → (Marks.none a.size).isFree x := by simp
    have hnone : ∀ x, Task.leave x ∈ [Task.enter start] → ¬ (Marks.none a.size).isFree x := by simp
    obtain ⟨he, hs⟩ := leaving_closed (a := a) hnone fun x hx hm => absurd (free x hx) hm
    have hstart := (he start (by simp)).resolve_left (by simp [h.start_lt])
    refine h.mem_of_closed hstart fun x hx y hy hlt => ?_
    have hmet := hs x (by simpa using mem_leaving hx) (.inr hx) y hy hlt
    exact hmet.resolve_left (by simp [hlt])

/-- The nodes that a list of tasks is to leave. -/
def leaves (tasks : List Task) : List Nat :=
  tasks.filterMap fun
    | .leave node => some node
    | .enter _ => none

theorem mem_leaves {tasks : List Task} {n : Nat} : n ∈ leaves tasks ↔ Task.leave n ∈ tasks := by
  unfold leaves
  rw [List.mem_filterMap]
  constructor
  · rintro ⟨t, ht, h⟩
    cases t with
    | enter node => simp at h
    | leave node => simp_all
  · exact fun h => ⟨_, h, rfl⟩

/-- Nothing is listed twice when the nodes to be left are marked and different. -/
theorem nodup_leaving {marks : Marks} {tasks : List Task} (hn : (leaves tasks).Nodup)
    (hm : ∀ x, Task.leave x ∈ tasks → ¬ marks.isFree x) : (a.leaving marks tasks).Nodup := by
  induction marks, tasks using leaving_induct a with
  | nil marks =>
    rw [leaving_nil]
    exact .nil
  | leave marks node tasks ih =>
    rw [leaving_leave]
    have hn' : node ∉ leaves tasks ∧ (leaves tasks).Nodup := by simpa [leaves] using hn
    refine List.nodup_cons.2 ⟨fun h => ?_, ih hn'.2 fun x hx => hm x (by simp [hx])⟩
    rcases mem_leaving h with h | h
    · exact hn'.1 (mem_leaves.2 h)
    · exact hm node (by simp) h
  | enter marks node tasks hfree ih =>
    rw [leaving_enter _ hfree]
    have hnew : leaves ((a.successors node).map Task.enter ++ .leave node :: tasks) =
        node :: leaves tasks := by
      simp [leaves, List.filterMap_append, List.filterMap_map]
    have hold : node ∉ leaves tasks := fun h => hm node (by simp [mem_leaves.1 h]) hfree
    refine ih ?_ fun x hx => ?_
    · rw [hnew]
      exact List.nodup_cons.2 ⟨hold, by simpa [leaves] using hn⟩
    · have hx : x ∈ node :: leaves tasks := hnew ▸ mem_leaves.2 hx
      rcases List.mem_cons.1 hx with rfl | hx
      · simp
      · have := hm x (by simp [mem_leaves.1 hx])
        simp [this]
  | skip marks node tasks hfree ih =>
    rw [leaving_skip _ hfree]
    exact ih (by simpa [leaves] using hn) fun x hx => hm x (by simp [hx])

theorem nodup_postorder (a : Adjacency) (start : Nat) : (a.postorder start).Nodup :=
  nodup_leaving (by simp [leaves]) (by simp)

/-- The task at the bottom is done last. -/
theorem leaving_append_leave (marks : Marks) (tasks : List Task) (n : Nat) :
    ∃ ns, a.leaving marks (tasks ++ [.leave n]) = ns ++ [n] := by
  induction marks, tasks using leaving_induct a with
  | nil marks =>
    exact ⟨[], by rw [List.nil_append, leaving_leave, leaving_nil]; rfl⟩
  | leave marks node tasks ih =>
    obtain ⟨ns, hns⟩ := ih
    exact ⟨node :: ns, by rw [List.cons_append, leaving_leave, hns]; rfl⟩
  | enter marks node tasks hfree ih =>
    obtain ⟨ns, hns⟩ := ih
    refine ⟨ns, ?_⟩
    rw [List.cons_append, leaving_enter _ hfree, ← hns]
    simp
  | skip marks node tasks hfree ih =>
    obtain ⟨ns, hns⟩ := ih
    exact ⟨ns, by rw [List.cons_append, leaving_skip _ hfree, hns]⟩

/-- The postorder ends with the start. -/
theorem postorder_eq_append (h : start < a.size) : ∃ ns, a.postorder start = ns ++ [start] := by
  unfold postorder
  rw [leaving_enter _ (by simpa using h)]
  exact leaving_append_leave _ _ _

/-! ## Reverse postorder -/

theorem mem_reversePostorder {n : Nat} : n ∈ a.reversePostorder start ↔ a.Reach start n := by
  unfold reversePostorder
  rw [List.mem_reverse, mem_postorder]

theorem nodup_reversePostorder (a : Adjacency) (start : Nat) :
    (a.reversePostorder start).Nodup :=
  List.nodup_reverse.2 (nodup_postorder a start)

/-- The reverse postorder begins with the start. -/
theorem reversePostorder_eq_cons (h : start < a.size) :
    ∃ ns, a.reversePostorder start = start :: ns := by
  obtain ⟨ns, hns⟩ := postorder_eq_append h
  exact ⟨ns.reverse, by simp [reversePostorder, hns]⟩

end Adjacency

end ScriptRecovery
