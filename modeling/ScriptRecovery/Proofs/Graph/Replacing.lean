import ScriptRecovery.Graph.InPlace
import ScriptRecovery.Proofs.Graph.Histories

/-!
# What a splice replaces

A splice that is carried out in place gives what the splice gives (`toExcept_inPlace`), and the one
fault that leaves a graph half written is that of a link out of the arena
(`state_of_changed_eq_error`).  So a refused splice has changed nothing.

A splice that is not refused changes exactly what it replaces.  From where to where it goes, and
what is given up on the way, can be read off the call and the graph before it (`Call.Covers`): a
chain or a region may come back to its start, and a region may end where it starts.  After it there
is a row of edges from the one to the other, what lies between is pending, and every other node is
as it was (`Graph.Replaced`).

`inPlace_exact` puts the two together.  Nothing is asked of the graph there, not even a right index,
so it holds after every history of calls.
-/

namespace ScriptRecovery

namespace Graph

variable {ε : Type} {g g' : Graph ε}

/-! ## What a call is to do -/

/-- The nodes that `start` leads to on ways that do not pass `dest`. -/
inductive Before (g : Graph ε) (dest start : Nat) : Nat → Prop where
  | start : Before g dest start start
  | step : Before g dest start m → d ∈ g.targets m → d ≠ dest → Before g dest start d

/-- From where to where a call replaces what, by a row of which edges.  Of a chain that comes back
to its first node, the first node is not given up. -/
inductive Call.Covers (g : Graph ε) : Call ε → Nat → Nat → (Nat → Prop) → List ε → Prop where
  | edge : g.node? n = some (.simple ⟨e, dest⟩) →
      Covers g (.edge n row) n dest (fun _ => False) row
  | chain : g.node? (rest.getLastD n) = some (.simple ⟨e, dest⟩) →
      Covers g (.chain (n :: rest) row) n dest (fun m => m ∈ rest ∧ m ≠ n) row
  | region : Covers g (.region start dest row) start dest
      (fun m => g.Before dest start m ∧ m ≠ start ∧ m ≠ dest) row

variable {n dest start m : Nat} {edges : List ε} {call : Call ε}

/-! ## Calls in place -/

/-- What a call in place leaves. -/
def Call.inPlace [PlainEdge ε] (g : Graph ε) : Call ε → Outcome (Graph ε)
  | edge node edges => g.spliceEdgeInPlace node edges
  | chain nodes edges => g.spliceChainInPlace nodes edges
  | region start dest edges => g.spliceRegionInPlace start dest edges

theorem toExcept_linkInPlace (g : Graph ε) (n : Nat) (edge : ε) (dest : Nat) :
    (g.linkInPlace n edge dest).toExcept = g.link n edge dest := by
  by_cases h : dest < g.preds.size <;>
    simp [linkInPlace, link, h, Outcome.toExcept, Outcome.failed, Except.map]

/-- One more node in front of a row, and the rest of it. -/
theorem toExcept_layInPlace_cons (g : Graph ε) (n dest : Nat) (first edge : ε) (row : List ε) :
    (g.layInPlace n first dest (edge :: row)).toExcept =
      g.grow.link g.size edge dest >>= fun g₁ => (g₁.layInPlace n first g.size row).toExcept := by
  rw [← toExcept_linkInPlace, layInPlace]
  cases h : (g.grow.linkInPlace g.size edge dest).changed <;>
    simp [Outcome.toExcept, Outcome.failed, h, bind, Except.bind, Except.map]

/-- What is laid first is a row that is paved. -/
theorem toExcept_layInPlace (g : Graph ε) (n dest : Nat) (first : ε) (es row : List ε) :
    (g.layInPlace n first dest (es.reverse ++ row)).toExcept =
      g.pave dest es >>= fun p => (p.1.layInPlace n first p.2 row).toExcept := by
  induction es generalizing row with
  | nil => rfl
  | cons e es ih =>
    rw [List.reverse_cons, List.append_assoc, List.singleton_append, ih, pave]
    cases hpave : g.pave dest es with
    | error fault => rfl
    | ok p =>
      simp only [bind, Except.bind]
      rw [toExcept_layInPlace_cons]
      cases hlink : p.1.grow.link p.1.size e p.2 with
      | error fault => rfl
      | ok g₁ =>
        have hsize : g₁.size - 1 = p.1.size := by
          rw [(node?_link hlink).2.1, size_grow, Nat.add_sub_cancel]
        simp only [bind, Except.bind, pure, Except.pure, hsize]

theorem toExcept_layEdgesInPlace [PlainEdge ε] (g : Graph ε) (n dest : Nat) (edges : List ε) :
    (g.layEdgesInPlace n dest edges).toExcept = g.layEdges n dest edges := by
  cases edges with
  | nil => exact toExcept_linkInPlace g n _ dest
  | cons edge edges =>
    have h := toExcept_layInPlace g n dest edge edges []
    rw [List.append_nil] at h
    rw [layEdgesInPlace, layEdges, h]
    simp only [layInPlace, toExcept_linkInPlace]

/-- A call in place gives what the splice gives. -/
theorem toExcept_inPlace [PlainEdge ε] (g : Graph ε) (call : Call ε) :
    (call.inPlace g).toExcept = call.splice g := by
  cases call with
  | edge n edges =>
    simp only [Call.inPlace, Call.splice, spliceEdgeInPlace, spliceEdge]
    cases g.outTarget n with
    | error fault => rfl
    | ok dest => exact toExcept_layEdgesInPlace _ _ _ _
  | chain nodes edges =>
    cases nodes with
    | nil => rfl
    | cons first rest =>
      simp only [Call.inPlace, Call.splice, spliceChainInPlace, spliceChain]
      cases g.outTarget first with
      | error fault => rfl
      | ok next =>
        simp only
        cases g.chainTarget next rest with
        | error fault => rfl
        | ok dest => exact toExcept_layEdgesInPlace _ _ _ _
  | region start dest edges =>
    simp only [Call.inPlace, Call.splice, spliceRegionInPlace, spliceRegion]
    split_ifs
    · rfl
    · rfl
    · rfl
    · rfl
    · exact toExcept_layEdgesInPlace _ _ _ _

/-! ## What fails -/

theorem link_eq_error {n t : Nat} {e : ε} {fault : Fault} (h : g.link n e t = .error fault) :
    fault = .linkOutsideArena := by
  unfold link at h
  split at h
  · cases h
  · cases h
    rfl

theorem pave_eq_error {fault : Fault} (h : g.pave dest edges = .error fault) :
    fault = .linkOutsideArena := by
  induction edges with
  | nil => cases h
  | cons e es ih =>
    rcases bind_eq_error.1 h with h | ⟨p, -, h⟩
    · exact ih h
    · rcases bind_eq_error.1 h with h | ⟨g₁, -, h⟩
      · exact link_eq_error h
      · cases h

/-- A row is laid, or it ends outside the arena. -/
theorem layEdges_eq_error [PlainEdge ε] {fault : Fault}
    (h : g.layEdges n dest edges = .error fault) : fault = .linkOutsideArena := by
  obtain ⟨e, es, -, hlay⟩ := g.layEdges_eq n dest edges
  rw [hlay] at h
  rcases bind_eq_error.1 h with h | ⟨p, -, h⟩
  · exact pave_eq_error h
  · exact link_eq_error h

theorem changed_layEdgesInPlace [PlainEdge ε] {fault : Fault}
    (h : (g.layEdgesInPlace n dest edges).changed = .error fault) :
    fault = .linkOutsideArena := by
  have hlay : g.layEdges n dest edges = .error fault := by
    rw [← toExcept_layEdgesInPlace, Outcome.toExcept, h]
    rfl
  exact layEdges_eq_error hlay

/-- A call in place that is refused leaves the graph it was called on. -/
theorem state_of_changed_eq_error [PlainEdge ε] {fault : Fault}
    (h : (call.inPlace g).changed = .error fault) (hf : fault ≠ .linkOutsideArena) :
    (call.inPlace g).state = g := by
  cases call with
  | edge n edges =>
    simp only [Call.inPlace, spliceEdgeInPlace] at h ⊢
    split at h
    · rfl
    · exact absurd (changed_layEdgesInPlace h) hf
  | chain nodes edges =>
    cases nodes with
    | nil => rfl
    | cons first rest =>
      simp only [Call.inPlace, spliceChainInPlace] at h ⊢
      split at h
      · rfl
      · split at h
        · rfl
        · exact absurd (changed_layEdgesInPlace h) hf
  | region start dest edges =>
    simp only [Call.inPlace, spliceRegionInPlace] at h ⊢
    split_ifs at h ⊢
    · rfl
    · rfl
    · rfl
    · rfl
    · exact absurd (changed_layEdgesInPlace h) hf

/-! ## What is replaced -/

/-- A row that is laid after some nodes are given up. -/
theorem replaced_of_vacate [PlainEdge ε] {bare : Graph ε} {ns : List Nat} {gone : Nat → Prop}
    (hnodes : bare.nodes = g.nodes) (hsource : bare.source = g.source) (hn : n < g.size)
    (hns : ∀ m ∈ ns, m < g.size) (hgone : ∀ m, gone m ↔ m ∈ ns ∧ m ≠ n)
    (hl : (bare.vacate ns).layEdges n dest edges = .ok g') :
    g.Replaced g' n dest gone (rowOf edges) := by
  have hbare : bare.size = g.size := by rw [size, hnodes, size]
  have hsize : (bare.vacate ns).size = g.size := size_vacate.trans hbare
  have hlaid := replaced_of_layEdges (hsize ▸ hn) hl
  refine ⟨hlaid.source.trans hsource, hsize ▸ hlaid.size, hsize ▸ hlaid.laid,
    fun {m} hm => ?_, fun {m} hm hne hkept => ?_⟩
  · obtain ⟨hm, hne⟩ := (hgone m).1 hm
    have hlt := hns m hm
    refine ⟨hlt, ?_⟩
    rw [hlaid.kept (hsize ▸ hlt) hne id, node?_vacate_of_mem hm (hbare ▸ hlt)]
  · have hm' : m ∉ ns := fun hmem => hkept ((hgone m).2 ⟨hmem, hne⟩)
    rw [hlaid.kept (hsize ▸ hm) hne id, node?_vacate hm', node?, hnodes]
    rfl

/-- The last node of a chain has one way out, to where the chain ends. -/
theorem node?_getLastD_of_chainTarget {next : Nat} {rest : List Nat} {e : ε}
    (hnode : g.node? n = some (.simple ⟨e, next⟩)) (h : g.chainTarget next rest = .ok dest) :
    ∃ e, g.node? (rest.getLastD n) = some (.simple ⟨e, dest⟩) := by
  induction rest generalizing n next e with
  | nil =>
    cases h
    exact ⟨e, hnode⟩
  | cons k rest ih =>
    obtain ⟨rfl, -, e', y, hnode', hrest⟩ := chainTarget_cons_eq_ok h
    rw [List.getLastD_cons]
    exact ih hnode' hrest

/-- When no link of it leaves the arena, a region is what its start leads to before its end. -/
theorem mem_region_iff_before (hs : start < g.size)
    (hin : ∀ u ∈ g.region start dest, ∀ d ∈ g.targets u, d < g.size) :
    m ∈ g.region start dest ↔ g.Before dest start m := by
  constructor
  · intro hm
    refine (mem_region.1 hm).mem_of_closed .start fun x hx y hy _ => ?_
    obtain ⟨hy, hne⟩ := List.mem_filter.1 hy
    exact hx.step hy (by simpa using hne)
  · intro hm
    induction hm with
    | start => exact mem_region.2 (.start hs)
    | @step u d _ hd hne ih =>
      exact mem_region.2 (.step (mem_region.1 ih) (by simp [hd, hne]) (hin u ih d hd))

/-! ## Splices -/

theorem replaced_of_spliceChain [PlainEdge ε] {nodes : List Nat}
    (h : g.spliceChain nodes edges = .ok g') :
    ∃ n dest gone, Call.Covers g (.chain nodes edges) n dest gone edges ∧
      g.Replaced g' n dest gone (rowOf edges) := by
  obtain ⟨n, rest, e, next, dest, rfl, hnode, hchain, hl⟩ := spliceChain_eq_ok h
  obtain ⟨e', hlast⟩ := node?_getLastD_of_chainTarget hnode hchain
  obtain ⟨hnodes, hsource, -⟩ := @unlinkChain_nodes _ g n dest rest
  exact ⟨n, dest, _, .chain hlast, replaced_of_vacate hnodes hsource (lt_size_of_node? hnode)
    (fun m hm => ((chainTarget_leads hchain).2 m hm).1) (fun _ => Iff.rfl) hl⟩

theorem replaced_of_spliceRegion [PlainEdge ε] (h : g.spliceRegion start dest edges = .ok g') :
    ∃ gone, Call.Covers g (.region start dest edges) start dest gone edges ∧
      g.Replaced g' start dest gone (rowOf edges) := by
  obtain ⟨⟨hs, -⟩, hin, -, hl⟩ := spliceRegion_eq_ok h
  have hmem : ∀ m, m ∈ g.region start dest ↔ g.Before dest start m := fun m =>
    mem_region_iff_before hs hin
  obtain ⟨hnodes, hsource, -⟩ := @unlinkAll_nodes _ g (g.region start dest)
  refine ⟨_, .region, replaced_of_vacate hnodes hsource hs (fun m hm => ?_) (fun m => ?_) hl⟩
  · exact (mem_region.1 (List.mem_filter.1 hm).1).lt_size
  · -- a way comes to its end by no step, so it is there only if it starts there
    have hne : g.Before dest start m → m ≠ start → m ≠ dest := fun hm hms => by
      cases hm with
      | start => exact absurd rfl hms
      | step _ _ hd => exact hd
    simp only [List.mem_filter, bne_iff_ne, ne_eq, hmem]
    exact ⟨fun ⟨hm, hms, _⟩ => ⟨⟨hm, hms⟩, hms⟩, fun ⟨⟨hm, hms⟩, _⟩ => ⟨hm, hms, hne hm hms⟩⟩

/-- A splice replaces what its call covers. -/
theorem replaced_of_splice [PlainEdge ε] (h : call.splice g = .ok g') :
    ∃ n dest gone row, call.Covers g n dest gone row ∧ g.Replaced g' n dest gone (rowOf row) := by
  cases call with
  | edge n row =>
    obtain ⟨e, dest, hnode, hr⟩ := replaced_of_spliceEdge h
    exact ⟨n, dest, _, row, .edge hnode, hr⟩
  | chain nodes row =>
    obtain ⟨n, dest, gone, hc, hr⟩ := replaced_of_spliceChain h
    exact ⟨n, dest, gone, row, hc, hr⟩
  | region start dest row =>
    obtain ⟨gone, hc, hr⟩ := replaced_of_spliceRegion h
    exact ⟨start, dest, gone, row, hc, hr⟩

theorem splice_of_changed_eq_ok [PlainEdge ε] {changed : Bool}
    (h : (call.inPlace g).changed = .ok changed) : call.splice g = .ok (call.inPlace g).state := by
  rw [← toExcept_inPlace, Outcome.toExcept, h]
  rfl

/-! ## Histories -/

/-- A call in place leaves the graph after the call. -/
theorem state_of_perform [PlainEdge ε] (h : g.perform call = .ok g') :
    (call.inPlace g).state = g' := by
  have hx := toExcept_inPlace g call
  rw [Outcome.toExcept] at hx
  unfold perform at h
  cases hc : (call.inPlace g).changed with
  | ok changed =>
    rw [hc] at hx
    rw [← hx] at h
    exact Except.ok.inj h
  | error fault =>
    rw [hc] at hx
    rw [← hx] at h
    simp only [Except.map] at h
    split at h
    · cases h
    · next hfatal =>
      rw [← Except.ok.inj h]
      refine state_of_changed_eq_error hc ?_
      rintro rfl
      exact hfatal rfl

/-- A call keeps the entry, and takes no place away. -/
theorem source_of_perform [PlainEdge ε] (h : g.perform call = .ok g') :
    g'.source = g.source ∧ g.size ≤ g'.size := by
  unfold perform at h
  split at h
  · next g₁ hs =>
    cases h
    obtain ⟨_, _, _, _, -, hr⟩ := replaced_of_splice hs
    exact ⟨hr.source, hr.size_le⟩
  · split at h
    · cases h
    · cases h
      exact ⟨rfl, Nat.le_refl _⟩

/-- Calls in place, one after another, leave the graph after the calls.  It has the same entry and
all the places it had. -/
theorem history_inPlace [PlainEdge ε] {calls : List (Call ε)}
    (h : calls.foldlM Graph.perform g = .ok g') :
    calls.foldl (fun g call => (call.inPlace g).state) g = g' ∧
      g'.source = g.source ∧ g.size ≤ g'.size := by
  induction calls generalizing g with
  | nil =>
    cases h
    exact ⟨rfl, rfl, Nat.le_refl _⟩
  | cons call calls ih =>
    rw [List.foldlM_cons] at h
    obtain ⟨g₁, hcall, h⟩ := bind_eq_ok.1 h
    obtain ⟨hstate, hsource, hsize⟩ := ih h
    obtain ⟨hsource₁, hsize₁⟩ := source_of_perform hcall
    refine ⟨?_, hsource.trans hsource₁, Nat.le_trans hsize₁ hsize⟩
    rw [List.foldl_cons, state_of_perform hcall, hstate]

/-! ## Rewrites -/

/-- What a call in place leaves is what the splice gives, the graph it was called on if the call is
refused, and otherwise a graph in which the call has replaced what it covers, and nothing else. -/
theorem inPlace_exact [PlainEdge ε] (g : Graph ε) (call : Call ε) :
    (call.inPlace g).toExcept = call.splice g ∧
    (∀ fault, (call.inPlace g).changed = .error fault → fault ≠ .linkOutsideArena →
      (call.inPlace g).state = g) ∧
    ∀ changed, (call.inPlace g).changed = .ok changed → ∃ n dest gone row,
      call.Covers g n dest gone row ∧
        g.Replaced (call.inPlace g).state n dest gone (rowOf row) := by
  refine ⟨toExcept_inPlace g call, fun fault => state_of_changed_eq_error, fun changed h => ?_⟩
  exact replaced_of_splice (splice_of_changed_eq_ok h)

/-- A region with two loops gives way to three edges, and the test that it starts with has no one
edge to replace. -/
theorem inPlace_exact_loops :
    let nodes : Array (Node Edge) := #[.simple ⟨.plain, 1⟩, .branch ⟨.ifTrue, 2⟩ ⟨.ifFalse, 3⟩,
      .simple ⟨.sub, 1⟩, .branch ⟨.ifTrue, 3⟩ ⟨.ifFalse, 4⟩, .done]
    let g := indexed nodes 0
    let refused := Call.inPlace g (.edge 1 [.sub])
    let done := Call.inPlace g (.region 1 4 [.sub, .plain, .action .trace])
    (refused.changed = .error (.violation (.notSimple 1 (.branch 2 3))) ∧ refused.state = g) ∧
      done.changed = .ok true ∧ done.state.size = 7 ∧
      (∃ next, done.state.node? 1 = some (.simple ⟨.sub, next⟩) ∧
        done.state.Row 5 4 next [.plain, .action .trace]) ∧
      done.state.node? 2 = some .pending ∧ done.state.node? 3 = some .pending ∧
      done.state.node? 4 = some .done := by
  intro nodes g refused done
  have hrefused : refused.changed = .error (.violation (.notSimple 1 (.branch 2 3))) := by cbv
  have hdone : (Call.inPlace (indexed nodes 0)
      (.region 1 4 [.sub, .plain, .action .trace])).changed = .ok true := by cbv
  have hsize : g.size = 5 := by cbv
  obtain ⟨n, dest, gone, row, hc, hr⟩ := (inPlace_exact g _).2.2 true hdone
  refine ⟨⟨hrefused, (inPlace_exact g _).2.1 _ hrefused (by decide)⟩, hdone, ?_⟩
  cases hc
  obtain ⟨e, es, next, hrow, hnode, hlaid⟩ := hr.laid
  cases hrow
  have htargets : g.targets 1 = [2, 3] := by cbv
  have htwo : g.Before 4 1 2 := .step .start (by simp [htargets]) (by decide)
  have hthree : g.Before 4 1 3 := .step .start (by simp [htargets]) (by decide)
  have hlen := hr.size
  refine ⟨?_, ⟨next, hnode, hlaid⟩, (hr.vacated ⟨htwo, by decide, by decide⟩).2,
    (hr.vacated ⟨hthree, by decide, by decide⟩).2, ?_⟩
  · rw [hsize] at hlen
    exact Nat.succ.inj hlen
  · exact hr.kept (by omega) (by decide) fun h => h.2.2 rfl

end Graph

end ScriptRecovery
