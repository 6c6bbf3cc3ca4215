import Mathlib.Algebra.GroupWithZero.Nat
import Mathlib.Algebra.Order.BigOperators.Group.List
import Mathlib.Algebra.Order.Group.Nat
import Mathlib.Order.Bounds.Basic
import Mathlib.Order.Lattice
import ScriptRecovery.Flow.Analysis

/-!
# Where an analysis settles

The passes of an analysis end before their fuel does, with states that a further pass leaves alone
(`Climbs.solveIn`).  The states form a semilattice with a rank.  While the passes go on, the state
of every visited node stays below what its in-edges carry to it (`Table`), so a visit that changes
a state raises it, and with it the sum of all ranks.  That sum is at most the number of nodes times
the height.
-/

namespace ScriptRecovery

namespace Analysis

variable {σ : Type} [SemilatticeSup σ] {a : Analysis σ} {g : FlowGraph} {order : List Nat}
  {fits : σ → Prop} {rank : σ → Nat} {height : Nat}

/-- What lets the states of the nodes in an order climb to where they settle: they are states that
fit, and the rank of a state that fits says how often it rose. -/
structure Climbs (a : Analysis σ) (g : FlowGraph) (order : List Nat) (fits : σ → Prop)
    (rank : σ → Nat) (height : Nat) : Prop where
  join_eq : ∀ s t, a.join s t = s ⊔ t
  initial_le : ∀ s, a.initial ≤ s
  transfer_mono : ∀ e, Monotone (a.transfer e)
  fits_initial : fits a.initial
  fits_boundary : fits a.boundary
  fits_sup : ∀ {s t}, fits s → fits t → fits (s ⊔ t)
  fits_transfer : ∀ {n e s}, e ∈ g.inEdges n → e.source ∈ order → fits s →
    fits (a.transfer e.edge s)
  rank_lt : ∀ {s t}, fits s → fits t → s < t → rank s < rank t
  rank_le : ∀ {s}, fits s → rank s ≤ height

/-! ## Joins of several states -/

section Joins

variable (hjoin : ∀ s t, a.join s t = s ⊔ t)
include hjoin

theorem joinAll_mono {ss ts : List σ} (hst : List.Forall₂ (· ≤ ·) ss ts) :
    a.joinAll ss ≤ a.joinAll ts := by
  have hfold : ∀ {ss ts : List σ}, List.Forall₂ (· ≤ ·) ss ts → ∀ s t, s ≤ t →
      ss.foldl a.join s ≤ ts.foldl a.join t := by
    intro ss ts hst
    induction hst with
    | nil => exact fun _ _ hst => hst
    | cons h₁ _ ih =>
      intro s t hst
      refine ih _ _ ?_
      rw [hjoin, hjoin]
      exact sup_le_sup hst h₁
  cases hst with
  | nil => exact le_rfl
  | cons h₁ h₂ => exact hfold h₂ _ _ h₁

/-- A state is below the join it goes into. -/
theorem le_joinAll {ss : List σ} {s : σ} (hs : s ∈ ss) : s ≤ a.joinAll ss := by
  have hfold : ∀ (ss : List σ) (t : σ),
      t ≤ ss.foldl a.join t ∧ ∀ s ∈ ss, s ≤ ss.foldl a.join t := by
    intro ss
    induction ss with
    | nil => exact fun t => ⟨le_rfl, by simp⟩
    | cons u us ih =>
      intro t
      obtain ⟨hle, hmem⟩ := ih (a.join t u)
      rw [hjoin, sup_le_iff] at hle
      exact ⟨by simpa [hjoin] using hle.1,
        List.forall_mem_cons.2 ⟨by simpa [hjoin] using hle.2, hmem⟩⟩
  cases ss with
  | nil => cases hs
  | cons t ts =>
    rcases List.mem_cons.1 hs with rfl | hs
    · exact (hfold ts s).1
    · exact (hfold ts t).2 s hs

/-- A join is below whatever all its parts are below. -/
theorem joinAll_le {ss : List σ} {t : σ} (hne : ss ≠ []) (hle : ∀ s ∈ ss, s ≤ t) :
    a.joinAll ss ≤ t := by
  cases ss with
  | nil => exact absurd rfl hne
  | cons s ss =>
    obtain ⟨hs, hss⟩ := List.forall_mem_cons.1 hle
    show ss.foldl a.join s ≤ t
    refine List.foldlRecOn ss a.join (motive := (· ≤ t)) hs fun u hu v hv => ?_
    rw [hjoin]
    exact sup_le hu (hss v hv)

theorem isLUB_joinAll {ss : List σ} (hne : ss ≠ []) : IsLUB {s | s ∈ ss} (a.joinAll ss) :=
  ⟨fun _ hs => le_joinAll hjoin hs, fun _ ht => joinAll_le hjoin hne ht⟩

/-- A join of some states depends on which they are, and not on their order or number. -/
theorem joinAll_congr {ss ts : List σ} (hne : ss ≠ []) (hmem : ∀ s, s ∈ ss ↔ s ∈ ts) :
    a.joinAll ss = a.joinAll ts := by
  obtain ⟨s, hs⟩ := List.exists_mem_of_ne_nil ss hne
  have hts := isLUB_joinAll hjoin (List.ne_nil_of_mem ((hmem s).1 hs))
  exact (isLUB_joinAll hjoin hne).unique (Set.ext hmem ▸ hts)

end Joins

theorem fits_joinAll (h : a.Climbs g order fits rank height) {ss : List σ}
    (hs : ∀ s ∈ ss, fits s) : fits (a.joinAll ss) := by
  cases ss with
  | nil => exact h.fits_boundary
  | cons s ss =>
    obtain ⟨hfirst, hss⟩ := List.forall_mem_cons.1 hs
    refine List.foldlRecOn ss a.join hfirst fun t ht u hu => ?_
    rw [h.join_eq]
    exact h.fits_sup ht (hss u hu)

/-! ## Tables of states -/

/-- A table with a state for every node in an order, which is below what the in-edges of the node
carry to it, and with no others. -/
structure Table (a : Analysis σ) (g : FlowGraph) (order : List Nat) (fits : σ → Prop)
    (states : Array (Option σ)) : Prop where
  visited : ∀ n ∈ order, ∃ s, states[n]? = some (some s) ∧ fits s ∧ s ≤ a.incoming g states n
  others : ∀ n, n ∉ order → states[n]?.join = none

/-- Whether a visit of a node would leave its state alone. -/
def Settled (a : Analysis σ) (g : FlowGraph) (states : Array (Option σ)) (n : Nat) : Prop :=
  states[n]? = some (some (a.incoming g states n))

theorem incoming_mono (h : a.Climbs g order fits rank height) {states states' : Array (Option σ)}
    (hle : ∀ n : Nat, Option.Rel (fun s t : σ => s ≤ t) states[n]?.join states'[n]?.join)
    (n : Nat) :
    a.incoming g states n ≤ a.incoming g states' n := by
  refine joinAll_mono h.join_eq ?_
  induction g.inEdges n with
  | nil => exact .nil
  | cons e es ih =>
    rw [List.filterMap_cons, List.filterMap_cons]
    have hsource := hle e.source
    generalize states[e.source]?.join = s at hsource ⊢
    generalize states'[e.source]?.join = s' at hsource ⊢
    cases hsource with
    | none => exact ih
    | some hs => exact .cons (h.transfer_mono e.edge hs) ih

theorem Table.fits_incoming (h : a.Climbs g order fits rank height) {states : Array (Option σ)}
    (ht : a.Table g order fits states) (n : Nat) : fits (a.incoming g states n) := by
  refine fits_joinAll h fun s hs => ?_
  obtain ⟨e, he, hstate⟩ := List.mem_filterMap.1 hs
  obtain ⟨t, hsource, rfl⟩ := Option.map_eq_some_iff.1 hstate
  have hmem : e.source ∈ order := by
    by_contra hout
    simp [ht.others _ hout] at hsource
  obtain ⟨t', hstate, hfits, -⟩ := ht.visited _ hmem
  obtain rfl : t' = t := by simpa [hstate] using hsource
  exact h.fits_transfer he hmem hfits

/-- A table stays one when the state of a node is raised to what is carried to it. -/
theorem Table.raise (h : a.Climbs g order fits rank height) {states : Array (Option σ)}
    (ht : a.Table g order fits states) {n : Nat} (hn : n ∈ order) :
    a.Table g order fits (states.setIfInBounds n (some (a.incoming g states n))) := by
  set states' := states.setIfInBounds n (some (a.incoming g states n)) with hstates'
  have hself : states'[n]? = some (some (a.incoming g states n)) := by
    obtain ⟨s, hs, -⟩ := ht.visited n hn
    obtain ⟨hlt, -⟩ := Array.getElem?_eq_some_iff.1 hs
    simp [hstates', hlt]
  have hother : ∀ m, m ≠ n → states'[m]? = states[m]? := fun m hm => by
    simp [hstates', hm.symm]
  have hle : ∀ m : Nat, Option.Rel (fun s t : σ => s ≤ t) states[m]?.join states'[m]?.join := by
    intro m
    by_cases hm : m = n
    · obtain ⟨s, hs, -, hle⟩ := ht.visited n hn
      rw [hm, hs, hself]
      exact .some hle
    · rw [hother m hm]
      cases states[m]?.join with
      | none => exact .none
      | some s => exact .some le_rfl
  refine ⟨fun m hm => ?_, fun m hm => ?_⟩
  · by_cases hmn : m = n
    · exact ⟨_, hmn ▸ hself, ht.fits_incoming h n, hmn ▸ incoming_mono h hle n⟩
    · obtain ⟨s, hs, hfits, hles⟩ := ht.visited m hm
      exact ⟨s, (hother m hmn).trans hs, hfits, hles.trans (incoming_mono h hle m)⟩
  · rw [hother m fun hmn => hm (hmn ▸ hn)]
    exact ht.others m hm

/-! ## The sum of the ranks -/

/-- How far the states of the nodes in an order have climbed. -/
def climbed (rank : σ → Nat) (order : List Nat) (states : Array (Option σ)) : Nat :=
  (order.map fun n => (states[n]?.join.map rank).getD 0).sum

theorem Table.climbed_le (h : a.Climbs g order fits rank height) {states : Array (Option σ)}
    (ht : a.Table g order fits states) : climbed rank order states ≤ order.length * height := by
  have hall : ∀ x ∈ order.map fun n => (states[n]?.join.map rank).getD 0, x ≤ height := by
    intro x hx
    obtain ⟨n, hn, rfl⟩ := List.mem_map.1 hx
    obtain ⟨s, hs, hfits, -⟩ := ht.visited n hn
    simpa [hs] using h.rank_le hfits
  simpa [climbed] using List.sum_le_card_nsmul _ _ hall

theorem Table.climbed_lt (h : a.Climbs g order fits rank height) {states : Array (Option σ)}
    (ht : a.Table g order fits states) {n : Nat} (hn : n ∈ order)
    (hnew : ¬ a.Settled g states n) : climbed rank order states <
      climbed rank order (states.setIfInBounds n (some (a.incoming g states n))) := by
  obtain ⟨s, hs, hfits, hle⟩ := ht.visited n hn
  obtain ⟨hlt, -⟩ := Array.getElem?_eq_some_iff.1 hs
  have hne : s ≠ a.incoming g states n := fun hsn => hnew (hs.trans (by rw [← hsn]))
  have hrank := h.rank_lt hfits (ht.fits_incoming h n) (lt_of_le_of_ne hle hne)
  have hraised : ((states[n]?.join.map rank).getD 0) <
      (((states.setIfInBounds n (some (a.incoming g states n)))[n]?.join.map rank).getD 0) := by
    rw [hs, Array.getElem?_setIfInBounds_self_of_lt hlt]
    exact hrank
  refine List.sum_lt_sum _ _ (fun m _ => ?_) ⟨n, hn, hraised⟩
  by_cases hmn : m = n
  · subst hmn
    exact hraised.le
  · simp [Ne.symm hmn]

/-! ## Passes -/

variable [DecidableEq σ]

/-- Visits leave a table alone whose states they all agree with, or they raise a state. -/
theorem Table.visits (h : a.Climbs g order fits rank height) {states : Array (Option σ)}
    (ht : a.Table g order fits states) {ns : List Nat} (hns : ∀ n ∈ ns, n ∈ order)
    (changed : Bool) :
    (ns.foldl (a.visit g) (states, changed) = (states, changed) ∧
        ∀ n ∈ ns, a.Settled g states n) ∨
      ∃ states', ns.foldl (a.visit g) (states, changed) = (states', true) ∧
        a.Table g order fits states' ∧ climbed rank order states < climbed rank order states' := by
  induction ns generalizing states changed with
  | nil => exact .inl ⟨rfl, by simp⟩
  | cons n ns ih =>
    obtain ⟨hn, hns⟩ := List.forall_mem_cons.1 hns
    rw [List.foldl_cons]
    by_cases hsettled : a.Settled g states n
    · rw [show a.visit g (states, changed) n = (states, changed) from if_pos hsettled]
      refine (ih ht hns changed).imp_left fun ⟨hfold, hrest⟩ => ⟨hfold, ?_⟩
      exact List.forall_mem_cons.2 ⟨hsettled, hrest⟩
    · rw [show a.visit g (states, changed) n =
        (states.setIfInBounds n (some (a.incoming g states n)), true) from if_neg hsettled]
      have hlt := ht.climbed_lt h hn hsettled
      rcases ih (ht.raise h hn) hns true with ⟨hfold, -⟩ | ⟨states', hfold, ht', hlt'⟩
      · exact .inr ⟨_, hfold, ht.raise h hn, hlt⟩
      · exact .inr ⟨states', hfold, ht', hlt.trans hlt'⟩

/-- With enough fuel the passes end at a table they would leave alone. -/
theorem Table.iterate (h : a.Climbs g order fits rank height) {states : Array (Option σ)}
    (ht : a.Table g order fits states) {fuel : Nat}
    (hfuel : order.length * height < climbed rank order states + fuel) (passes : Nat) :
    a.Table g order fits (a.iterate g order states passes fuel).states ∧
      ∀ n ∈ order, a.Settled g (a.iterate g order states passes fuel).states n := by
  induction fuel generalizing states passes with
  | zero => exact absurd (ht.climbed_le h) (Nat.not_le.2 hfuel)
  | succ fuel ih =>
    unfold Analysis.iterate
    rcases ht.visits h (fun n hn => hn) false with ⟨hpass, hsettled⟩ | ⟨states', hpass, ht', hlt⟩
    · rw [show a.pass g order states = (states, false) from hpass]
      exact ⟨ht, hsettled⟩
    · rw [show a.pass g order states = (states', true) from hpass]
      exact ih ht' (by omega) _

omit [SemilatticeSup σ] [DecidableEq σ] in
theorem getElem?_start {size n : Nat} (hlt : ∀ n ∈ order, n < size) :
    (a.start size order)[n]?.join = if n ∈ order then some a.initial else none := by
  have hfold : ∀ states : Array (Option σ), (∀ n ∈ order, n < states.size) →
      (order.foldl (fun states n => states.setIfInBounds n (some a.initial)) states)[n]?.join =
        if n ∈ order then some a.initial else states[n]?.join := by
    clear hlt
    induction order with
    | nil => simp
    | cons m ms ih =>
      intro states hlt
      obtain ⟨hm, hms⟩ := List.forall_mem_cons.1 hlt
      rw [List.foldl_cons, ih _ (by simpa using hms)]
      by_cases hn : n ∈ ms
      · simp [hn]
      · by_cases hnm : n = m
        · simp [hnm, hm]
        · simp [hn, hnm, Ne.symm hnm]
  rw [start, hfold _ (by simpa using hlt)]
  refine if_congr Iff.rfl rfl ?_
  rw [Array.getElem?_replicate]
  split <;> rfl

omit [SemilatticeSup σ] [DecidableEq σ] in
theorem size_start {size : Nat} : (a.start size order).size = size := by
  have hfold : ∀ states : Array (Option σ),
      (order.foldl (fun states n => states.setIfInBounds n (some a.initial)) states).size =
        states.size := by
    induction order with
    | nil => exact fun _ => rfl
    | cons n ns ih =>
      intro states
      rw [List.foldl_cons, ih, Array.size_setIfInBounds]
  rw [start, hfold, Array.size_replicate]

omit [DecidableEq σ] in
/-- The initial states are below whatever is carried to their nodes. -/
theorem Climbs.table_start (h : a.Climbs g order fits rank height)
    (hlt : ∀ n ∈ order, n < g.size) : a.Table g order fits (a.start g.size order) := by
  refine ⟨fun n hn => ⟨a.initial, ?_, h.fits_initial, h.initial_le _⟩, fun n hn => ?_⟩
  · have := getElem?_start (a := a) (n := n) hlt
    rw [if_pos hn] at this
    exact Option.join_eq_some_iff.1 this
  · rw [getElem?_start hlt, if_neg hn]

/-- An analysis whose states climb ends with every state equal to what is carried to its node. -/
theorem Climbs.solveIn (h : a.Climbs g order fits rank height) (hlt : ∀ n ∈ order, n < g.size) :
    a.Table g order fits (a.solveIn g height order).states ∧
      ∀ n ∈ order, a.Settled g (a.solveIn g height order).states n :=
  (h.table_start hlt).iterate h (by omega) 0

end Analysis

end ScriptRecovery
