import ScriptRecovery.Proofs.Arena.Locking

/-!
# Walks are recursions

A walk has no stack.  It finds its way by the first child of a node, the sibling after it and the
link to its parent.  `Rose.walk` is the recursion that it stands for: a node is entered, its parts
are walked in order unless the visitor skips them, and the node is left.

In a tidy arena the links of all parts are right, so a walk that has entered a node is at some time
where the recursion through that node ends, with the fuel that the nodes have cost
(`SyntaxTree.Holds.retraces`).  A part is not the node where the walk has started, which is what
brings the walk back to the parent.  The fuel of `SyntaxTree.traverse` pays for every node of the
arena, so the walk ends by itself (`Bench.traverse_of_history`).
-/

namespace ScriptRecovery

open SyntaxTree

variable {σ : Type} {visit : Visitor σ} {s : σ}

namespace Rose

/-! ## The recursion -/

/-- Goes on with a walk that has not ended. -/
def onward (k : σ → Except Fault Bool × σ) : Except Fault Bool × σ → Except Fault Bool × σ
  | (.ok true, s) => k s
  | ended => ended

/-- Leaves a node.  The answer is whether the walk goes on. -/
def walkOut (visit : Visitor σ) (s : σ) (n : Nat) : Except Fault Bool × σ :=
  match visit (.leave n) s with
  | (.error fault, s) => (.error fault, s)
  | (.ok .stop, s) => (.ok false, s)
  | (.ok _, s) => (.ok true, s)

mutual

/-- Leads a visitor through a tree.  The answer is whether the walk goes on behind it. -/
def walk (visit : Visitor σ) (s : σ) : Rose (Nat × Form) → Except Fault Bool × σ
  | .node (n, _) parts =>
      match visit (.enter n) s with
      | (.error fault, s) => (.error fault, s)
      | (.ok .stop, s) => (.ok false, s)
      | (.ok .skip, s) => walkOut visit s n
      | (.ok .advance, s) => onward (fun s => walkOut visit s n) (walkAll visit s parts)

/-- Leads a visitor through trees in a row. -/
def walkAll (visit : Visitor σ) (s : σ) : List (Rose (Nat × Form)) → Except Fault Bool × σ
  | [] => (.ok true, s)
  | part :: parts => onward (fun s => walkAll visit s parts) (walk visit s part)

end

/-! ## The calls of a walk -/

/-- A visitor with its calls on record. -/
def recorded (visit : Visitor σ) : Visitor (σ × List Step) :=
  fun step s => ((visit step s.1).1, (visit step s.1).2, s.2 ++ [step])

mutual

/-- The steps through a tree when nothing is skipped. -/
def tour : Rose (Nat × Form) → List Step
  | .node (n, _) parts => .enter n :: (tourAll parts ++ [.leave n])

/-- The steps through trees in a row. -/
def tourAll : List (Rose (Nat × Form)) → List Step
  | [] => []
  | part :: parts => tour part ++ tourAll parts

end

mutual

/-- A tour enters and leaves every node of the tree. -/
theorem perm_tour : ∀ r : Rose (Nat × Form),
    r.tour.Perm (r.numbers.map .enter ++ r.numbers.map .leave)
  | .node (n, form) parts => by
      rw [tour, numbers_node, List.map_cons, List.map_cons, List.cons_append]
      refine .cons _ ?_
      have hrest := (perm_tourAll parts).append_right [Step.leave n]
      exact hrest.trans (by
        rw [List.append_assoc]
        exact List.perm_append_comm.append_left _)

theorem perm_tourAll : ∀ rs : List (Rose (Nat × Form)),
    (tourAll rs).Perm ((rs.flatMap numbers).map .enter ++ (rs.flatMap numbers).map .leave)
  | [] => .nil
  | r :: rs => by
      rw [tourAll, List.flatMap_cons, List.map_append, List.map_append]
      refine ((perm_tour r).append (perm_tourAll rs)).trans ?_
      simp only [List.append_assoc]
      refine List.Perm.append_left _ ?_
      simp only [← List.append_assoc]
      exact List.perm_append_comm.append_right _

end

theorem nodup_tour {r : Rose (Nat × Form)} (hn : r.numbers.Nodup) : r.tour.Nodup := by
  rw [(perm_tour r).nodup_iff, List.nodup_append]
  refine ⟨hn.map fun _ _ h => Step.enter.inj h, hn.map fun _ _ h => Step.leave.inj h, ?_⟩
  rintro _ h _ h' rfl
  obtain ⟨n, -, rfl⟩ := List.mem_map.1 h
  obtain ⟨m, -, h⟩ := List.mem_map.1 h'
  cases h

theorem mem_numbers_of_tour {r : Rose (Nat × Form)} {n : Nat}
    (h : .enter n ∈ r.tour ∨ .leave n ∈ r.tour) : n ∈ r.numbers := by
  simpa [(perm_tour r).mem_iff] using h

/-- Whether a recorded walk makes some of the calls of a tour, in order, and does what the walk does
that is not recorded. -/
def Logs (tour log : List Step) (plain : Except Fault Bool × σ)
    (noted : Except Fault Bool × σ × List Step) : Prop :=
  ∃ calls, calls.Sublist tour ∧ noted = (plain.1, plain.2, log ++ calls)

section Logs

variable {tour tour' log log' : List Step} {plain : Except Fault Bool × σ}
  {noted : Except Fault Bool × σ × List Step} {answer : Except Fault Bool}

theorem Logs.mono (h : Logs tour log plain noted) (hsub : tour.Sublist tour') :
    Logs tour' log plain noted := by
  obtain ⟨calls, hcalls, heq⟩ := h
  exact ⟨calls, hcalls.trans hsub, heq⟩

theorem Logs.onward {k : σ → Except Fault Bool × σ}
    {k' : σ × List Step → Except Fault Bool × σ × List Step} (h : Logs tour log plain noted)
    (hk : ∀ s log, Logs tour' log (k s) (k' (s, log))) :
    Logs (tour ++ tour') log (onward k plain) (onward k' noted) := by
  obtain ⟨calls, hcalls, rfl⟩ := h
  have hshort : calls.Sublist (tour ++ tour') := hcalls.trans (List.sublist_append_left _ _)
  rcases plain with ⟨_ | _ | _, s⟩
  · exact ⟨calls, hshort, rfl⟩
  · exact ⟨calls, hshort, rfl⟩
  · obtain ⟨calls', hcalls', heq⟩ := hk s (log ++ calls)
    exact ⟨calls ++ calls', hcalls.append hcalls', by rw [← List.append_assoc]; exact heq⟩

theorem logs_step (step : Step) (log : List Step) (answer : Except Fault Bool) (s : σ) :
    Logs [step] log (answer, s) (answer, s, log ++ [step]) :=
  ⟨[step], .refl _, rfl⟩

theorem logs_walkOut (n : Nat) (s : σ) (log : List Step) :
    Logs [.leave n] log (walkOut visit s n) (walkOut (recorded visit) (s, log) n) := by
  unfold walkOut recorded
  rcases visit (.leave n) s with ⟨_ | reply, s'⟩
  · exact logs_step ..
  · cases reply <;> exact logs_step ..

/-- What follows when a node has been entered. -/
theorem Logs.entered {n : Nat} (h : Logs tour (log ++ [.enter n]) plain noted) :
    Logs (.enter n :: tour) log plain noted := by
  obtain ⟨calls, hcalls, rfl⟩ := h
  exact ⟨.enter n :: calls, hcalls.cons_cons _, by rw [List.append_assoc]; rfl⟩

mutual

/-- The record of a walk is part of the tour, and changes nothing else. -/
theorem logs_walk (s : σ) (log : List Step) : ∀ r : Rose (Nat × Form),
    Logs r.tour log (r.walk visit s) (r.walk (recorded visit) (s, log))
  | .node (n, form) parts => by
      rw [tour, walk, walk, recorded]
      rcases visit (.enter n) s with ⟨fault | reply, s'⟩
      · exact (logs_step _ _ _ _).mono ((List.nil_sublist _).cons_cons _)
      · cases reply with
        | stop => exact (logs_step _ _ _ _).mono ((List.nil_sublist _).cons_cons _)
        | skip => exact ((logs_walkOut n s' _).mono (List.sublist_append_right _ _)).entered
        | advance => exact ((logs_walkAll s' _ parts).onward (logs_walkOut n)).entered

theorem logs_walkAll (s : σ) (log : List Step) : ∀ rs : List (Rose (Nat × Form)),
    Logs (tourAll rs) log (walkAll visit s rs) (walkAll (recorded visit) (s, log) rs)
  | [] => by
      rw [tourAll, walkAll, walkAll]
      exact ⟨[], .refl _, by rw [List.append_nil]⟩
  | r :: rs => by
      rw [tourAll, walkAll, walkAll]
      exact (logs_walk s log r).onward fun s log => logs_walkAll s log rs

end

end Logs

end Rose

open Rose

namespace SyntaxTree

variable {t : SyntaxTree} {start n : Nat} {link : Option ParentLink} {form : Form}
  {left rs : List (Rose (Nat × Form))}

/-! ## One step -/

/-- What a walk does behind a node, when the recursion through it has ended. -/
def walkOn (t : SyntaxTree) (start : Nat) (visit : Visitor σ) (n fuel : Nat) :
    Except Fault Bool × σ → Except Fault Unit × σ
  | (.error fault, s) => (.error fault, s)
  | (.ok false, s) => (.ok (), s)
  | (.ok true, s) =>
      match t.stepAfter start (.leave n) .advance with
      | .error fault => (.error fault, s)
      | .ok next => t.walkFrom start visit s next fuel

theorem walkFrom_leave (fuel : Nat) :
    t.walkFrom start visit s (some (.leave n)) (fuel + 1) =
      t.walkOn start visit n fuel (walkOut visit s n) := by
  unfold walkFrom walkOut
  rcases visit (.leave n) s with ⟨_ | reply, s'⟩
  · rfl
  · cases reply with
    | stop => cases fuel <;> rfl
    | advance => rfl
    | skip => rfl

/-- The step of a walk that is about to go through some parts of a node. -/
def stepInto (n : Nat) : List (Rose (Nat × Form)) → Step
  | [] => .leave n
  | r :: _ => .enter r.number

theorem Holds.stepAfter_enter (h : t.Holds link (.node (n, form) rs)) :
    t.stepAfter start (.enter n) .advance = .ok (some (stepInto n rs)) := by
  simp only [stepAfter, h.slot_eq_ok]
  cases rs <;> rfl

/-- Behind a part comes the next one, and behind the last one the node is left. -/
theorem Holds.stepAfter_part {r : Rose (Nat × Form)}
    (h : t.Holds link (.node (n, form) (left ++ r :: rs))) (hr : r.number ≠ start) :
    t.stepAfter start (.leave r.number) .advance = .ok (some (stepInto n rs)) := by
  have hpart : t.Holds (some ⟨n, form.kind.fieldAt left.length, left.length⟩) r :=
    h.part (by simp)
  have hnext : t.nextSibling? r.number = (rs.map number).head? := by
    simp [nextSibling?, hpart.parent?_eq, children, h.slot?, List.getElem?_append_right,
      List.head?_eq_getElem?]
  simp only [stepAfter, if_neg hr, hpart.parent?_eq, hnext]
  cases rs <;> rfl

/-! ## Whole trees -/

/-- Whether a walk that enters a tree does what the recursion does, and then goes on behind the tree
with all fuel but what the nodes of the tree have cost. -/
def Retraces (t : SyntaxTree) (start : Nat) (visit : Visitor σ) (r : Rose (Nat × Form)) : Prop :=
  ∀ (s : σ) (fuel : Nat), 2 * r.labels.length ≤ fuel → ∃ rest, fuel ≤ rest + 2 * r.labels.length ∧
    t.walkFrom start visit s (some (.enter r.number)) fuel =
      t.walkOn start visit r.number rest (r.walk visit s)

/-- What a walk does when the recursion through the parts of a node has ended. -/
def walkUp (t : SyntaxTree) (start : Nat) (visit : Visitor σ) (n fuel : Nat) :
    Except Fault Bool × σ → Except Fault Unit × σ
  | (.error fault, s) => (.error fault, s)
  | (.ok false, s) => (.ok (), s)
  | (.ok true, s) => t.walkFrom start visit s (some (.leave n)) fuel

/-- A walk goes through the parts of a node one after the other, and then leaves the node. -/
theorem Holds.walkFrom_parts (h : t.Holds link (.node (n, form) (left ++ rs)))
    (hstart : ∀ r ∈ rs, r.number ≠ start) (hrs : ∀ r ∈ rs, t.Retraces start visit r) (s : σ)
    (fuel : Nat) (hfuel : 2 * (labelsAll rs).length ≤ fuel) :
    ∃ rest, fuel ≤ rest + 2 * (labelsAll rs).length ∧
      t.walkFrom start visit s (some (stepInto n rs)) fuel =
        t.walkUp start visit n rest (walkAll visit s rs) := by
  induction rs generalizing left s fuel with
  | nil => exact ⟨fuel, Nat.le_add_right _ _, by rw [walkAll]; rfl⟩
  | cons r rs ih =>
    rw [labelsAll, List.length_append] at hfuel
    obtain ⟨rest, hrest, hwalk⟩ := hrs r (by simp) s fuel (by omega)
    have hnext := h.stepAfter_part (hstart r (by simp))
    rw [stepInto, hwalk, walkAll]
    rcases r.walk visit s with ⟨_ | _ | _, s'⟩
    · exact ⟨fuel, Nat.le_add_right _ _, rfl⟩
    · exact ⟨fuel, Nat.le_add_right _ _, rfl⟩
    · have h' : t.Holds link (.node (n, form) ((left ++ [r]) ++ rs)) := by simpa using h
      obtain ⟨rest', hrest', hwalk'⟩ := ih h' (fun x hx => hstart x (by simp [hx]))
        (fun x hx => hrs x (by simp [hx])) s' rest (by omega)
      refine ⟨rest', by rw [labelsAll, List.length_append]; omega, ?_⟩
      simp only [walkOn, hnext, hwalk', onward]

/-- A walk follows the recursion through a tree in which it has not started further down. -/
theorem Holds.retraces (r : Rose (Nat × Form)) : ∀ {link : Option ParentLink}, t.Holds link r →
    start ∉ r.parts.flatMap numbers → t.Retraces start visit r := by
  induction r using Rose.induct with
  | h label parts ih =>
    intro link h hstart s fuel hfuel
    obtain ⟨n, form⟩ := label
    rw [labels_node, List.length_cons] at hfuel ⊢
    have hparts : ∀ r ∈ parts, start ∉ r.numbers := fun r hr hmem =>
      hstart (List.mem_flatMap.2 ⟨r, hr, hmem⟩)
    have hretraces : ∀ r ∈ parts, t.Retraces start visit r := by
      intro r hr
      obtain ⟨link', h'⟩ := h.mem_part hr
      refine ih r hr h' fun hmem => hparts r hr ?_
      obtain ⟨⟨m, form'⟩, parts'⟩ := r
      rw [numbers_node]
      exact List.mem_cons_of_mem _ hmem
    obtain ⟨fuel, rfl⟩ : ∃ k, fuel = k + 2 := ⟨fuel - 2, by omega⟩
    rw [number_node, walkFrom, walk]
    rcases visit (.enter n) s with ⟨_ | reply, s'⟩
    · exact ⟨fuel + 2, by omega, rfl⟩
    · cases reply with
      | stop => exact ⟨fuel + 2, by omega, rfl⟩
      | skip =>
        refine ⟨fuel, by omega, ?_⟩
        simp only [stepAfter, walkFrom_leave]
      | advance =>
        have hne : ∀ r ∈ parts, r.number ≠ start := fun r hr heq =>
          hparts r hr (heq ▸ r.number_mem_numbers)
        have h' : t.Holds link (.node (n, form) ([] ++ parts)) := h
        obtain ⟨rest, hrest, hwalk⟩ :=
          h'.walkFrom_parts hne hretraces s' (fuel + 1) (by omega)
        simp only [h.stepAfter_enter, hwalk]
        rcases walkAll visit s' parts with ⟨_ | _ | _, s''⟩
        · exact ⟨fuel + 2, by omega, rfl⟩
        · exact ⟨fuel + 2, by omega, rfl⟩
        · obtain ⟨rest, rfl⟩ : ∃ k, rest = k + 1 := ⟨rest - 1, by omega⟩
          exact ⟨rest, by omega, walkFrom_leave rest⟩

/-- How a walk ends by the recursion through the tree where it has started. -/
def ended (r : Except Fault Bool × σ) : Except Fault Unit × σ := (r.1.map fun _ => (), r.2)

/-- With fuel for every slot, a walk does what the recursion does and then ends. -/
theorem Holds.walkFrom_eq {r : Rose (Nat × Form)} (h : t.Holds link r) (hn : r.numbers.Nodup)
    (s : σ) (fuel : Nat) (hfuel : 2 * t.slots.size ≤ fuel) :
    t.walkFrom r.number visit s (some (.enter r.number)) fuel = ended (r.walk visit s) := by
  have hstart : r.number ∉ r.parts.flatMap numbers := by
    obtain ⟨⟨n, form⟩, parts⟩ := r
    rw [numbers_node, List.nodup_cons] at hn
    exact hn.1
  have hlen := h.length_le hn
  obtain ⟨rest, -, hwalk⟩ := Holds.retraces r h hstart s fuel (by omega)
  rw [hwalk]
  rcases r.walk visit s with ⟨_ | _ | _, s'⟩
  · rfl
  · rfl
  · simp only [walkOn, stepAfter, if_true]
    cases rest <;> rfl

end SyntaxTree

/-- After any history, a visitor who is led through the tree below a node makes the calls of the
recursion through that tree: to enter a node, to go through its parts unless they are skipped, and
to leave it.  The walk ends without running out of fuel, however much there is.  A visitor whose
calls are recorded makes no call twice, and each of them for a node that the start leads to. -/
theorem Bench.traverse_of_history (ss : List Script) (deeds : List Deed) {i start : Nat}
    {t : SyntaxTree} (ht : ((ofScripts ss).runAll deeds).trees[i]? = some t)
    (hstart : (t.slot? start).isSome) :
    ∃ r, t.branch? start = some r ∧ ∀ {σ : Type} (visit : Visitor σ) (s : σ),
      t.traverse start visit s = ended (r.walk visit s) ∧
      (∀ fuel, 2 * t.slots.size ≤ fuel →
        t.walkFrom start visit s (some (.enter start)) fuel = t.traverse start visit s) ∧
      ∃ calls, t.traverse start (recorded visit) (s, []) =
          ((t.traverse start visit s).1, (t.traverse start visit s).2, calls) ∧
        calls.Nodup ∧ ∀ n, .enter n ∈ calls ∨ .leave n ∈ calls →
          Relation.ReflTransGen (fun p c => c ∈ t.children p) start n := by
  obtain ⟨_, htidy⟩ := ((sound_ofScripts ss).runAll deeds).tidy ht
  obtain ⟨slot, hslot⟩ := Option.isSome_iff_exists.1 hstart
  obtain ⟨_, parts, hheld, -, hnodup, -⟩ := htidy.exists_holds hslot
  have htraverse : ∀ {σ : Type} (visit : Visitor σ) (s : σ),
      t.traverse start visit s = ended ((Rose.node (start, slot.form) parts).walk visit s) := by
    intro σ visit s
    simp only [SyntaxTree.traverse, hheld.slot_eq_ok]
    exact hheld.walkFrom_eq hnodup s _ (Nat.le_refl _)
  refine ⟨_, hheld.branch? hnodup, fun visit s => ⟨htraverse visit s, fun fuel hfuel => ?_, ?_⟩⟩
  · rw [htraverse]
    exact hheld.walkFrom_eq hnodup s fuel hfuel
  · have hlogs : Logs _ [] ((Rose.node (start, slot.form) parts).walk visit s) _ :=
      logs_walk s [] _
    obtain ⟨calls, hcalls, hlog⟩ := hlogs
    refine ⟨calls, ?_, (nodup_tour hnodup).sublist hcalls, fun n hn => ?_⟩
    · rw [htraverse, htraverse, hlog]
      rfl
    · exact hheld.reachable (mem_numbers_of_tour (hn.imp (hcalls.subset ·) (hcalls.subset ·)))

/-- The push in front has been taken out, and the visitor skips what is below the return. -/
theorem Bench.traverse_of_history_skip :
    let s : Script := { body := [.push .undefined none, .ret (some .pop) none] }
    let deeds : List Deed := [.edit 0 (.removeStatement 1)]
    let visit : Visitor (List Step) := fun step calls =>
      (.ok (if step = .enter 3 then .skip else .advance), calls ++ [step])
    ∃ t, ((ofScripts [s]).runAll deeds).trees[0]? = some t ∧ (t.slot? root).isSome ∧
      ∃ r, t.branch? root = some r ∧ t.traverse root visit [] = ended (r.walk visit []) ∧
        t.traverse root visit [] = (.ok (), [.enter 0, .enter 3, .leave 3, .leave 0]) := by
  intro s deeds visit
  obtain ⟨t, ht, hlive, hcalls⟩ : ∃ t, ((ofScripts [s]).runAll deeds).trees[0]? = some t ∧
      (t.slot? root).isSome ∧
      t.traverse root visit [] = (.ok (), [.enter 0, .enter 3, .leave 3, .leave 0]) :=
    ⟨_, rfl, by decide, by decide⟩
  obtain ⟨r, hr, h⟩ := traverse_of_history [s] deeds ht hlive
  exact ⟨t, ht, hlive, r, hr, (h visit []).1, hcalls⟩

end ScriptRecovery
