import ScriptRecovery.Proofs.Flow.Flat
import ScriptRecovery.Proofs.Flow.Listings

/-!
# Flat programs

A flat program is a row of segments, each an action or a test with one or two arms that have no
test in them (`Segment`).  Control stays in a segment until it comes to its end, and only one way
leads to a position within.

Once the branches of a program are linked (`Program.Laid`), its listing is read as a flat stream
(`Laid.flat`), and control may get to every action of it (`Laid.reaches`).
-/

namespace ScriptRecovery

/-! ## Segments -/

/-- Whether an action hands control on to the next one. -/
def Action.isStraight : Action → Bool
  | .branch _ | .jump _ => false
  | _ => true

/-- An action that hands control on to the next one. -/
abbrev Straight := { a : Action // a.isStraight = true }

/-- A part of a program.  The displacements of its branches may be anything, since linking sets
them. -/
inductive Segment
  /-- A single action. -/
  | action (a : Straight)
  /-- A branch to `onTrue`, with `onFalse` and a jump to the end before it. -/
  | ifElse (test skip : Int16) (onFalse onTrue : List Straight)
  /-- A branch to the end, with `onFalse` before it. -/
  | ifOnly (test : Int16) (onFalse : List Straight)

namespace Segment

/-- The actions of a segment. -/
def code : Segment → List Action
  | action a => [a]
  | ifElse test skip onFalse onTrue =>
      .branch test :: (onFalse.map (·.val) ++ .jump skip :: onTrue.map (·.val))
  | ifOnly test onFalse => .branch test :: onFalse.map (·.val)

/-- The positions of the branches of a segment, and those where they lead. -/
def links : Segment → List (Nat × Nat)
  | action _ => []
  | ifElse _ _ onFalse onTrue =>
      [(0, onFalse.length + 2), (onFalse.length + 1, onFalse.length + 2 + onTrue.length)]
  | ifOnly _ onFalse => [(0, onFalse.length + 1)]

end Segment

/-- A row of segments. -/
abbrev Program := List Segment

namespace Program

/-- The actions of a program. -/
def code (p : Program) : List Action := p.flatMap Segment.code

/-- The positions of the branches of a program, and those where they lead. -/
def links : Program → List (Nat × Nat)
  | [] => []
  | σ :: p => σ.links ++ (links p).map fun link =>
      (σ.code.length + link.1, σ.code.length + link.2)

end Program

/-! ## Actions and displacements -/

namespace Action

variable {a a' : Action}

theorem isStraight_iff : a.isStraight = true ↔ (∀ d, a ≠ .branch d) ∧ ∀ d, a ≠ .jump d := by
  cases a <;> simp [isStraight]

theorem unlinked_cases (a : Action) : (a.isStraight = true ∧ a.unlinked = a) ∨
    (∃ d, a = .branch d) ∨ ∃ d, a = .jump d := by
  cases a <;> simp [isStraight, unlinked]

theorem eq_of_unlinked (h : a'.unlinked = a.unlinked) (ha : a.isStraight = true) : a' = a := by
  rcases a.unlinked_cases with ⟨-, hu⟩ | ⟨d, rfl⟩ | ⟨d, rfl⟩
  · rw [hu] at h
    rcases a'.unlinked_cases with ⟨-, hu'⟩ | ⟨d, rfl⟩ | ⟨d, rfl⟩
    · exact hu'.symm.trans h
    · cases h
      cases ha
    · cases h
      cases ha
  · cases ha
  · cases ha

theorem eq_branch_of_unlinked {d : Int16} (h : a'.unlinked = (Action.branch d).unlinked) :
    ∃ d', a' = .branch d' := by
  rcases a'.unlinked_cases with ⟨hs, hu⟩ | h' | ⟨d, rfl⟩
  · rw [hu] at h
    cases h
    cases hs
  · exact h'
  · cases h

theorem eq_jump_of_unlinked {d : Int16} (h : a'.unlinked = (Action.jump d).unlinked) :
    ∃ d', a' = .jump d' := by
  rcases a'.unlinked_cases with ⟨hs, hu⟩ | ⟨d, rfl⟩ | h'
  · rw [hu] at h
    cases h
    cases hs
  · cases h
  · exact h'

end Action

/-! ## Control in a segment -/

namespace Segment

variable {σ : Segment} {k j : Nat} {way : Way}

/-- Whether control leaves a position of a segment for another one in some way. -/
inductive Leads (σ : Segment) : Nat × Way → Nat → Prop
  | action {k : Nat} {a : Action} : σ.code[k]? = some a → a.isStraight = true →
      Leads σ (k, .onward) (k + 1)
  | jump {k j : Nat} {d : Int16} : σ.code[k]? = some (.jump d) → (k, j) ∈ σ.links →
      Leads σ (k, .onward) j
  | taken {k j : Nat} {d : Int16} : σ.code[k]? = some (.branch d) → (k, j) ∈ σ.links →
      Leads σ (k, .taken) j
  | passed {k : Nat} {d : Int16} : σ.code[k]? = some (.branch d) → Leads σ (k, .passed) (k + 1)

@[simp] theorem length_action (a : Straight) : (action a).code.length = 1 := rfl

@[simp] theorem length_ifElse (test skip : Int16) (onFalse onTrue : List Straight) :
    (ifElse test skip onFalse onTrue).code.length = onFalse.length + onTrue.length + 2 := by
  simp [code]
  omega

@[simp] theorem length_ifOnly (test : Int16) (onFalse : List Straight) :
    (ifOnly test onFalse).code.length = onFalse.length + 1 := by
  simp [code]

theorem leads_of_straight {a : Action} (h : σ.code[k]? = some a) (ha : a.isStraight = true) :
    σ.Leads (k, way) j ↔ way = .onward ∧ j = k + 1 := by
  constructor
  · intro hleads
    cases hleads with
    | action => exact ⟨rfl, rfl⟩
    | jump h' | taken h' | passed h' =>
      cases h.symm.trans h'
      cases ha
  · rintro ⟨rfl, rfl⟩
    exact .action h ha

theorem leads_of_jump {d : Int16} (h : σ.code[k]? = some (.jump d)) :
    σ.Leads (k, way) j ↔ way = .onward ∧ (k, j) ∈ σ.links := by
  constructor
  · intro hleads
    cases hleads with
    | action h' ha =>
      cases h.symm.trans h'
      cases ha
    | jump _ hlink => exact ⟨rfl, hlink⟩
    | taken h' | passed h' => cases h.symm.trans h'
  · rintro ⟨rfl, hlink⟩
    exact .jump h hlink

theorem leads_of_branch {d : Int16} (h : σ.code[k]? = some (.branch d)) :
    σ.Leads (k, way) j ↔ way = .taken ∧ (k, j) ∈ σ.links ∨ way = .passed ∧ j = k + 1 := by
  constructor
  · intro hleads
    cases hleads with
    | action h' ha =>
      cases h.symm.trans h'
      cases ha
    | jump h' => cases h.symm.trans h'
    | taken _ hlink => exact .inl ⟨rfl, hlink⟩
    | passed => exact .inr ⟨rfl, rfl⟩
  · rintro (⟨rfl, hlink⟩ | ⟨rfl, rfl⟩)
    · exact .taken h hlink
    · exact .passed h

theorem Leads.lt_length {w : Nat × Way} (h : σ.Leads w j) : w.1 < σ.code.length := by
  cases h with
  | action h | jump h | taken h | passed h => exact (List.getElem?_eq_some_iff.1 h).1

/-- Within a row of actions each hands on to the next. -/
theorem straight_of_getElem? {as : List Straight} {a : Action}
    (h : (as.map (·.val))[k]? = some a) : a.isStraight = true := by
  obtain ⟨x, -, rfl⟩ := List.mem_map.1 (List.mem_of_getElem? h)
  exact x.property

theorem leads_action (a : Straight) :
    (Segment.action a).Leads (k, way) j ↔ way = .onward ∧ k = 0 ∧ j = 1 := by
  cases k with
  | zero =>
    rw [leads_of_straight (σ := .action a) (a := a.val) rfl a.property]
    simp
  | succ k =>
    refine ⟨fun h => absurd h.lt_length (by simp [code]), fun ⟨_, h, _⟩ => by omega⟩

theorem code_ifOnly {test : Int16} {onFalse : List Straight} {a : Action}
    (h : (ifOnly test onFalse).code[k]? = some a) :
    k = 0 ∧ a = .branch test ∨ 0 < k ∧ a.isStraight = true := by
  cases k with
  | zero => exact .inl ⟨rfl, (Option.some.inj h).symm⟩
  | succ k => exact .inr ⟨Nat.succ_pos k, straight_of_getElem? h⟩

theorem code_ifElse {test skip : Int16} {onFalse onTrue : List Straight} {a : Action}
    (h : (ifElse test skip onFalse onTrue).code[k]? = some a) :
    k = 0 ∧ a = .branch test ∨ k = onFalse.length + 1 ∧ a = .jump skip ∨
      0 < k ∧ k ≠ onFalse.length + 1 ∧ a.isStraight = true := by
  cases k with
  | zero => exact .inl ⟨rfl, (Option.some.inj h).symm⟩
  | succ k =>
    rw [code, List.getElem?_cons_succ, List.getElem?_append, List.length_map] at h
    split at h
    · exact .inr (.inr ⟨Nat.succ_pos k, by omega, straight_of_getElem? h⟩)
    · cases hm : k - onFalse.length with
      | zero =>
        rw [hm] at h
        exact .inr (.inl ⟨by omega, (Option.some.inj h).symm⟩)
      | succ m =>
        rw [hm, List.getElem?_cons_succ] at h
        exact .inr (.inr ⟨Nat.succ_pos k, by omega, straight_of_getElem? h⟩)

theorem leads_ifOnly (test : Int16) (onFalse : List Straight) :
    (ifOnly test onFalse).Leads (k, way) j ↔
      way = .taken ∧ k = 0 ∧ j = onFalse.length + 1 ∨ way = .passed ∧ k = 0 ∧ j = 1 ∨
      way = .onward ∧ 0 < k ∧ k ≤ onFalse.length ∧ j = k + 1 := by
  cases h : (ifOnly test onFalse).code[k]? with
  | none =>
    have hk : onFalse.length + 1 ≤ k := by simpa using h
    refine ⟨fun hleads => absurd hleads.lt_length (by simp; omega), fun hleads => by omega⟩
  | some a =>
    have hk : k < onFalse.length + 1 := by simpa using (List.getElem?_eq_some_iff.1 h).1
    rcases code_ifOnly h with ⟨rfl, rfl⟩ | ⟨hpos, ha⟩
    · rw [leads_of_branch h]
      simp [links]
    · rw [leads_of_straight h ha]
      grind

theorem leads_ifElse (test skip : Int16) (onFalse onTrue : List Straight) :
    (ifElse test skip onFalse onTrue).Leads (k, way) j ↔
      way = .taken ∧ k = 0 ∧ j = onFalse.length + 2 ∨ way = .passed ∧ k = 0 ∧ j = 1 ∨
      way = .onward ∧ (k = onFalse.length + 1 ∧ j = onFalse.length + 2 + onTrue.length ∨
        0 < k ∧ k ≠ onFalse.length + 1 ∧ k < onFalse.length + 2 + onTrue.length ∧ j = k + 1) := by
  cases h : (ifElse test skip onFalse onTrue).code[k]? with
  | none =>
    have hk : onFalse.length + onTrue.length + 2 ≤ k := by simpa using h
    refine ⟨fun hleads => absurd hleads.lt_length (by simp; omega), fun hleads => by omega⟩
  | some a =>
    have hk : k < onFalse.length + onTrue.length + 2 := by
      simpa using (List.getElem?_eq_some_iff.1 h).1
    rcases code_ifElse h with ⟨rfl, rfl⟩ | ⟨rfl, rfl⟩ | ⟨hpos, hne, ha⟩
    · rw [leads_of_branch h]
      simp [links]
    · rw [leads_of_jump h]
      simp [links]
    · rw [leads_of_straight h ha]
      grind

/-- The positions of branches lie in their segment. -/
theorem link_lt (σ : Segment) (h : (k, j) ∈ σ.links) : k < σ.code.length := by
  cases σ with
  | action => simp [links] at h
  | ifElse | ifOnly =>
    simp [links] at h ⊢
    omega

theorem link_unique (σ : Segment) {j' : Nat} (h : (k, j) ∈ σ.links) (h' : (k, j') ∈ σ.links) :
    j' = j := by
  cases σ with
  | action => simp [links] at h
  | ifElse | ifOnly =>
    simp [links] at h h'
    omega

/-- Every branch of a segment is linked. -/
theorem exists_link (σ : Segment) {a : Action} (h : σ.code[k]? = some a)
    (ha : a.isStraight = false) : ∃ j, (k, j) ∈ σ.links := by
  cases σ with
  | action x =>
    have hx : [x].map (·.val) = (action x).code := rfl
    rw [← hx] at h
    rw [straight_of_getElem? h] at ha
    cases ha
  | ifElse test skip onFalse onTrue =>
    rcases code_ifElse h with ⟨rfl, -⟩ | ⟨rfl, -⟩ | ⟨-, -, hstraight⟩
    · exact ⟨_, List.mem_cons_self⟩
    · exact ⟨_, List.mem_cons_of_mem _ List.mem_cons_self⟩
    · cases ha.symm.trans hstraight
  | ifOnly test onFalse =>
    rcases code_ifOnly h with ⟨rfl, -⟩ | ⟨-, hstraight⟩
    · exact ⟨_, List.mem_cons_self⟩
    · cases ha.symm.trans hstraight

/-- Control goes forward and stays in its segment until it comes to the end. -/
theorem Leads.forward (h : σ.Leads (k, way) j) : k < j ∧ j ≤ σ.code.length := by
  cases σ with
  | action a =>
    rw [leads_action] at h
    rw [length_action]
    omega
  | ifElse test skip onFalse onTrue =>
    rw [leads_ifElse] at h
    rw [length_ifElse]
    omega
  | ifOnly test onFalse =>
    rw [leads_ifOnly] at h
    rw [length_ifOnly]
    omega

/-- One way leads to a position within a segment. -/
theorem Leads.unique {k' : Nat} {way' : Way} (h : σ.Leads (k, way) j) (h' : σ.Leads (k', way') j)
    (hj : j < σ.code.length) : k = k' ∧ way = way' := by
  cases σ with
  | action a =>
    rw [leads_action] at h h'
    rw [length_action] at hj
    omega
  | ifElse test skip onFalse onTrue =>
    rw [leads_ifElse] at h h'
    rw [length_ifElse] at hj
    grind
  | ifOnly test onFalse =>
    rw [leads_ifOnly] at h h'
    rw [length_ifOnly] at hj
    grind

/-- Some way leads to every position of a segment but the first. -/
theorem exists_leads (hpos : 0 < j) (hj : j ≤ σ.code.length) : ∃ k way, σ.Leads (k, way) j := by
  obtain ⟨i, rfl⟩ := Nat.exists_eq_add_of_lt hpos
  cases σ with
  | action a =>
    rw [length_action] at hj
    exact ⟨0, .onward, (leads_action a).2 ⟨rfl, rfl, by omega⟩⟩
  | ifElse test skip onFalse onTrue =>
    rw [length_ifElse] at hj
    by_cases hfirst : i = 0
    · exact ⟨0, .passed, (leads_ifElse ..).2 (by simp [hfirst])⟩
    · by_cases htaken : i = onFalse.length + 1
      · exact ⟨0, .taken, (leads_ifElse ..).2 (by simp [htaken])⟩
      · refine ⟨i, .onward, (leads_ifElse ..).2 (.inr (.inr ⟨rfl, ?_⟩))⟩
        omega
  | ifOnly test onFalse =>
    rw [length_ifOnly] at hj
    by_cases hfirst : i = 0
    · exact ⟨0, .passed, (leads_ifOnly ..).2 (by simp [hfirst])⟩
    · refine ⟨i, .onward, (leads_ifOnly ..).2 (.inr (.inr ⟨rfl, ?_⟩))⟩
      omega

/-- Every position within a segment leads on. -/
theorem exists_onward (hpos : 0 < k) (hk : k < σ.code.length) : ∃ j, σ.Leads (k, .onward) j := by
  cases σ with
  | action a =>
    rw [length_action] at hk
    omega
  | ifElse test skip onFalse onTrue =>
    rw [length_ifElse] at hk
    by_cases hjump : k = onFalse.length + 1
    · exact ⟨_, (leads_ifElse ..).2 (.inr (.inr ⟨rfl, .inl ⟨hjump, rfl⟩⟩))⟩
    · refine ⟨k + 1, (leads_ifElse ..).2 (.inr (.inr ⟨rfl, .inr ?_⟩))⟩
      omega
  | ifOnly test onFalse =>
    rw [length_ifOnly] at hk
    refine ⟨k + 1, (leads_ifOnly ..).2 (.inr (.inr ⟨rfl, ?_⟩))⟩
    omega

/-- At most two ways lead to the end of a segment. -/
theorem exists_ways (σ : Segment) :
    ∃ w w', ∀ v, σ.Leads v σ.code.length → v = w ∨ v = w' := by
  cases σ with
  | action a =>
    refine ⟨(0, .onward), (0, .onward), fun v hv => ?_⟩
    obtain ⟨hway, hk, -⟩ := (leads_action a).1 hv
    exact .inl (Prod.ext hk hway)
  | ifElse test skip onFalse onTrue =>
    -- an empty second arm ends where the branch leads
    refine ⟨(onFalse.length + 1, .onward), if onTrue.length = 0 then (0, .taken) else
      (onFalse.length + onTrue.length + 1, .onward), fun ⟨k, way⟩ hv => ?_⟩
    rw [length_ifElse, leads_ifElse] at hv
    split <;> grind
  | ifOnly test onFalse =>
    refine ⟨(0, .taken), if onFalse.length = 0 then (0, .passed) else (onFalse.length, .onward),
      fun ⟨k, way⟩ hv => ?_⟩
    rw [length_ifOnly, leads_ifOnly] at hv
    split <;> grind

end Segment

/-! ## Segments of a program -/

/-- Whether a segment of a program starts at a position. -/
inductive Segment.At (σ : Segment) : Program → Nat → Prop
  | head {p : Program} : At σ (σ :: p) 0
  | tail {τ : Segment} {p : Program} {b : Nat} : At σ p b → At σ (τ :: p) (τ.code.length + b)

namespace Program

variable {p : Program} {σ σ' : Segment} {b b' k k' : Nat}

theorem code_cons (τ : Segment) (p : Program) : code (τ :: p) = τ.code ++ code p := by simp [code]

theorem getElem?_at (h : σ.At p b) (hk : k < σ.code.length) :
    p.code[b + k]? = σ.code[k]? := by
  induction h with
  | head => rw [Nat.zero_add, code_cons, List.getElem?_append_left hk]
  | tail _ ih =>
    rw [code_cons, Nat.add_assoc, List.getElem?_append_right (Nat.le_add_right _ _),
      Nat.add_sub_cancel_left, ih]

/-- Every position of a program is one of a segment. -/
theorem exists_at {i : Nat} (hi : i < p.code.length) :
    ∃ (σ : Segment) (b k : Nat), σ.At p b ∧ k < σ.code.length ∧ i = b + k := by
  induction p generalizing i with
  | nil => simp [code] at hi
  | cons τ p ih =>
    rw [code_cons, List.length_append] at hi
    rcases Nat.lt_or_ge i τ.code.length with hlt | hge
    · exact ⟨τ, 0, i, .head, hlt, by omega⟩
    · obtain ⟨σ, b, k, hat, hk, hi⟩ := ih (i := i - τ.code.length) (by omega)
      exact ⟨σ, _, k, hat.tail, hk, by omega⟩

theorem at_unique (h : σ.At p b) (h' : σ'.At p b') (hk : k < σ.code.length)
    (hk' : k' < σ'.code.length) (heq : b + k = b' + k') : σ = σ' ∧ b = b' := by
  induction h generalizing b' with
  | head =>
    cases h' with
    | head => exact ⟨rfl, rfl⟩
    | tail => omega
  | tail _ ih =>
    cases h' with
    | head => omega
    | tail h' =>
      obtain ⟨hσ, hb⟩ := ih h' (by omega)
      exact ⟨hσ, congrArg _ hb⟩

theorem at_le (h : σ.At p b) : b + σ.code.length ≤ p.code.length := by
  induction h with
  | head => simp [code_cons]
  | tail _ ih =>
    rw [code_cons, List.length_append]
    omega

theorem mem_links {i t : Nat} : (i, t) ∈ p.links ↔
    ∃ (σ : Segment) (b k j : Nat), σ.At p b ∧ (k, j) ∈ σ.links ∧ i = b + k ∧ t = b + j := by
  induction p generalizing i t with
  | nil =>
    simp only [links, List.not_mem_nil, false_iff]
    rintro ⟨σ, b, k, j, hat, -⟩
    cases hat
  | cons τ p ih =>
    simp only [links, List.mem_append, List.mem_map, Prod.exists, Prod.mk.injEq]
    constructor
    · rintro (h | ⟨i', t', h, rfl, rfl⟩)
      · exact ⟨τ, 0, i, t, .head, h, by omega, by omega⟩
      · obtain ⟨σ, b, k, j, hat, hlink, rfl, rfl⟩ := ih.1 h
        exact ⟨σ, _, k, j, hat.tail, hlink, by omega, by omega⟩
    · rintro ⟨σ, b, k, j, hat, hlink, rfl, rfl⟩
      cases hat with
      | head => exact .inl (by simpa using hlink)
      | @tail _ _ b hat =>
        exact .inr ⟨b + k, b + j, ih.2 ⟨σ, b, k, j, hat, hlink, rfl, rfl⟩, by omega, by omega⟩

/-- No branch is asked to lead to two places. -/
theorem links_unique {i t t' : Nat} (h : (i, t) ∈ p.links) (h' : (i, t') ∈ p.links) : t' = t := by
  obtain ⟨σ, b, k, j, hat, hlink, rfl, rfl⟩ := mem_links.1 h
  obtain ⟨σ', b', k', j', hat', hlink', heq, rfl⟩ := mem_links.1 h'
  obtain ⟨rfl, rfl⟩ := at_unique hat hat' (σ.link_lt hlink) (σ'.link_lt hlink') heq
  obtain rfl : k = k' := by omega
  rw [σ.link_unique hlink hlink']

/-! ## Linked programs -/

/-- The listing of a program whose branches lead where they are asked to. -/
structure Laid (p : Program) (l : Listing) : Prop where
  relinked : Listing.Relinked ⟨p.code⟩ l
  points : ∀ {i t : Nat}, (i, t) ∈ p.links → l.Points i t
  bounded : total Action.encodedLength l.actions < offsetBound

theorem laid_of_retargetAll {links : List (Nat × Nat)} {l : Listing}
    (hlinks : ∀ link, link ∈ links ↔ link ∈ p.links)
    (h : Listing.retargetAll ⟨p.code⟩ links = .ok l)
    (hbound : total Action.encodedLength l.actions < offsetBound) : p.Laid l where
  relinked := Listing.retargetAll_relinked h
  points hlink := Listing.retargetAll_points
    (fun h h' => links_unique ((hlinks _).1 h) ((hlinks _).1 h')) h ((hlinks _).2 hlink)
  bounded := hbound

namespace Laid

variable {l : Listing} {j : Nat} {way : Way}

/-- The listing has the straight actions of the program, where the program has them. -/
theorem straight_iff (hl : p.Laid l) {i : Nat} {a : Action} (ha : a.isStraight = true) :
    l.actions[i]? = some a ↔ p.code[i]? = some a := by
  constructor
  · intro h
    obtain ⟨a', h', hu⟩ := hl.relinked.symm.exists_action h
    rwa [Action.eq_of_unlinked hu ha] at h'
  · intro h
    obtain ⟨a', h', hu⟩ := hl.relinked.exists_action h
    rwa [Action.eq_of_unlinked hu ha] at h'

theorem branchTarget_eq (hl : p.Laid l) {i t : Nat} {d : Int16} (hlink : (i, t) ∈ p.links)
    (hd : l.actions[i]? = some (.branch d) ∨ l.actions[i]? = some (.jump d)) :
    branchTarget (l.start (i + 1)) d = some (l.start t) := by
  obtain ⟨d', hd', hdistance⟩ := hl.points hlink
  have hsame : d = d' := by
    rcases hd with h | h <;> rcases hd' with h' | h' <;> cases h.symm.trans h' <;> rfl
  exact Listing.branchTarget_start (hsame ▸ hdistance) hl.bounded

/-- Control goes in the stream as it does in a segment. -/
theorem leads (hl : p.Laid l) (hat : σ.At p b) (h : σ.Leads (k, way) j) :
    l.toStream.Leads (l.start (b + k), way) (l.start (b + j)) := by
  have hcode := getElem?_at hat h.lt_length
  cases h with
  | action h ha =>
    obtain ⟨hb, hj⟩ := Action.isStraight_iff.1 ha
    exact .action (Listing.readAt?_start ((hl.straight_iff ha).2 (hcode.trans h))) hb hj
  | jump h hlink =>
    obtain ⟨a, ha, hu⟩ := hl.relinked.exists_action (hcode.trans h)
    obtain ⟨d, rfl⟩ := Action.eq_jump_of_unlinked hu
    have hlink := mem_links.2 ⟨σ, b, k, j, hat, hlink, rfl, rfl⟩
    exact .jump (Listing.readAt?_start ha) (hl.branchTarget_eq hlink (.inr ha))
  | taken h hlink =>
    obtain ⟨a, ha, hu⟩ := hl.relinked.exists_action (hcode.trans h)
    obtain ⟨d, rfl⟩ := Action.eq_branch_of_unlinked hu
    have hlink := mem_links.2 ⟨σ, b, k, j, hat, hlink, rfl, rfl⟩
    exact .taken (Listing.readAt?_start ha) (hl.branchTarget_eq hlink (.inl ha))
  | passed h =>
    obtain ⟨a, ha, hu⟩ := hl.relinked.exists_action (hcode.trans h)
    obtain ⟨d, rfl⟩ := Action.eq_branch_of_unlinked hu
    exact .passed (Listing.readAt?_start ha)

/-- What can be read stands in a segment. -/
theorem read_cases (hl : p.Laid l) {o next : Nat} {a : Action}
    (h : l.toStream.readAt? o = some (a, next)) : ∃ (σ : Segment) (b k : Nat) (a' : Action),
      σ.At p b ∧ σ.code[k]? = some a' ∧ a.unlinked = a'.unlinked ∧ l.actions[b + k]? = some a ∧
        o = l.start (b + k) ∧ next = l.start (b + k + 1) := by
  obtain ⟨i, hi, rfl, rfl⟩ := Listing.readAt?_iff.1 h
  obtain ⟨a', ha', hu⟩ := hl.relinked.symm.exists_action hi
  obtain ⟨σ, b, k, hat, hk, rfl⟩ := exists_at (List.getElem?_eq_some_iff.1 ha').1
  exact ⟨σ, b, k, a', hat, (getElem?_at hat hk).symm.trans ha', hu.symm, hi, rfl, rfl⟩

/-- Control goes in the stream only as it does in a segment. -/
theorem leads_cases (hl : p.Laid l) {w : Nat × Way} {t : Nat} (h : l.toStream.Leads w t) :
    ∃ (σ : Segment) (b k j : Nat), σ.At p b ∧ σ.Leads (k, w.2) j ∧ w.1 = l.start (b + k) ∧
      t = l.start (b + j) := by
  cases h with
  | action hr hb hj =>
    obtain ⟨σ, b, k, a, hat, hcode, hu, -, rfl, rfl⟩ := hl.read_cases hr
    have hstraight := Action.isStraight_iff.2 ⟨hb, hj⟩
    cases Action.eq_of_unlinked hu.symm hstraight
    exact ⟨σ, b, k, k + 1, hat, .action hcode hstraight, rfl, rfl⟩
  | jump hr htarget =>
    obtain ⟨σ, b, k, a, hat, hcode, hu, ha, rfl, rfl⟩ := hl.read_cases hr
    obtain ⟨d', rfl⟩ := Action.eq_jump_of_unlinked hu.symm
    obtain ⟨j, hlink⟩ := σ.exists_link hcode rfl
    have heq := hl.branchTarget_eq (mem_links.2 ⟨σ, b, k, j, hat, hlink, rfl, rfl⟩) (.inr ha)
    exact ⟨σ, b, k, j, hat, .jump hcode hlink, rfl, Option.some.inj (htarget.symm.trans heq)⟩
  | taken hr htarget =>
    obtain ⟨σ, b, k, a, hat, hcode, hu, ha, rfl, rfl⟩ := hl.read_cases hr
    obtain ⟨d', rfl⟩ := Action.eq_branch_of_unlinked hu.symm
    obtain ⟨j, hlink⟩ := σ.exists_link hcode rfl
    have heq := hl.branchTarget_eq (mem_links.2 ⟨σ, b, k, j, hat, hlink, rfl, rfl⟩) (.inl ha)
    exact ⟨σ, b, k, j, hat, .taken hcode hlink, rfl, Option.some.inj (htarget.symm.trans heq)⟩
  | passed hr =>
    obtain ⟨σ, b, k, a, hat, hcode, hu, -, rfl, rfl⟩ := hl.read_cases hr
    obtain ⟨d', rfl⟩ := Action.eq_branch_of_unlinked hu.symm
    exact ⟨σ, b, k, k + 1, hat, .passed hcode, rfl, rfl⟩

/-- Ways to a position of a segment but its first come from the segment. -/
theorem ways_in (hl : p.Laid l) (hat : σ.At p b) (hpos : 0 < j) (hj : j ≤ σ.code.length)
    {v : Nat × Way} (h : l.toStream.Leads v (l.start (b + j))) :
    ∃ k, σ.Leads (k, v.2) j ∧ v.1 = l.start (b + k) := by
  obtain ⟨σ', b', k', j', hat', hleads, hv, heq⟩ := hl.leads_cases h
  obtain ⟨hlt, hle⟩ := hleads.forward
  have hend := at_le hat
  have hend' := at_le hat'
  have hlength := hl.relinked.length_eq
  have hsum : b + j = b' + j' :=
    Listing.start_inj (hlength ▸ hend.trans' (by omega)) (hlength ▸ hend'.trans' (by omega)) heq
  have hk : j - 1 < σ.code.length := by omega
  have hk' : j' - 1 < σ'.code.length := by omega
  obtain ⟨rfl, rfl⟩ := at_unique hat hat' hk hk' (by omega)
  obtain rfl : j = j' := by omega
  exact ⟨k', hleads, hv⟩

/-- Every position of a segment but its first leads to the end of the segment. -/
theorem arm (hl : p.Laid l) (hat : σ.At p b) (hpos : 0 < j) (hj : j ≤ σ.code.length) :
    l.toStream.Arm (l.start (b + σ.code.length)) (l.start (b + j)) := by
  induction hm : σ.code.length - j using Nat.strong_induction_on generalizing j with
  | _ m ih =>
    rcases Nat.lt_or_ge j σ.code.length with hlt | hge
    · obtain ⟨t, honward⟩ := Segment.exists_onward hpos hlt
      obtain ⟨hjt, ht⟩ := honward.forward
      obtain ⟨k, way, hin⟩ := Segment.exists_leads hpos hj
      refine .onward (w := (l.start (b + k), way)) (hl.leads hat honward) (fun v hv => ?_)
        (ih (σ.code.length - t) (by omega) (by omega) ht rfl)
      obtain ⟨k', hin', hv⟩ := hl.ways_in hat hpos hj hv
      obtain ⟨hk, hway⟩ := hin.unique hin' hlt
      exact Prod.ext (hv.trans (by rw [hk])) hway.symm
    · obtain rfl : j = σ.code.length := by omega
      exact .here

/-- A linked program is read as a flat stream. -/
theorem flat (hl : p.Laid l) : l.toStream.Flat where
  forward h := by
    obtain ⟨σ, b, k, j, hat, hleads, hw, rfl⟩ := hl.leads_cases h
    obtain ⟨hlt, hle⟩ := hleads.forward
    rw [hw]
    have hend := at_le hat
    exact Listing.start_lt (hl.relinked.length_eq ▸ (by simp; omega)) (by omega)
  joined {o next d} h := by
    obtain ⟨σ, b, k, a, hat, hcode, hu, ha, rfl, rfl⟩ := hl.read_cases h
    obtain ⟨d', rfl⟩ := Action.eq_branch_of_unlinked hu.symm
    obtain ⟨j, hlink⟩ := σ.exists_link hcode rfl
    have htarget := hl.branchTarget_eq (mem_links.2 ⟨σ, b, k, j, hat, hlink, rfl, rfl⟩) (.inl ha)
    obtain ⟨htaken, hj⟩ := (Segment.Leads.taken hcode hlink).forward
    obtain ⟨-, hk⟩ := (Segment.Leads.passed hcode).forward
    obtain ⟨w, w', hends⟩ := σ.exists_ways
    refine ⟨_, l.start (b + σ.code.length), (l.start (b + w.1), w.2), (l.start (b + w'.1), w'.2),
      htarget, hl.arm hat (by omega) hj, hl.arm hat (Nat.succ_pos k) hk, fun v hv => ?_⟩
    obtain ⟨m, hin, hv⟩ := hl.ways_in hat (by omega) (Nat.le_refl _) hv
    rcases hends _ hin with rfl | rfl
    · exact .inl (Prod.ext hv rfl)
    · exact .inr (Prod.ext hv rfl)

/-- Control may get to every position of a linked program. -/
theorem reaches (hl : p.Laid l) {i : Nat} (hi : i ≤ p.code.length) :
    l.toStream.Reaches (l.start i) := by
  induction i using Nat.strong_induction_on with
  | _ i ih =>
    cases i with
    | zero => exact Listing.start_zero (l := l) ▸ .start
    | succ i =>
      obtain ⟨σ, b, k, hat, hk, rfl⟩ := exists_at hi
      obtain ⟨m, way, hleads⟩ := Segment.exists_leads (Nat.succ_pos k) hk
      obtain ⟨hlt, -⟩ := hleads.forward
      have hstep : l.toStream.Leads (l.start (b + m), way) (l.start (b + (k + 1))) :=
        hl.leads hat hleads
      exact .step (ih (b + m) (by omega) (by omega)) hstep

end Laid

end Program

end ScriptRecovery
