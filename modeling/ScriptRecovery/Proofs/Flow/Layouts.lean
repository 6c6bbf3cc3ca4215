import ScriptRecovery.Action.Layout
import ScriptRecovery.Proofs.Flow.Listings

/-!
# The table of a layout

The table that a layout is made with has the offsets of its listing (`Layout.offsetOf?_ofActions`),
so bisection finds what can be read there (`Layout.readAt?_ofActions`).  Pointing a branch keeps the
length of every action, hence the table is still the one that would be made for the actions
(`Layout.ofActions_set`).  That is the invariant along a history of links
(`Layout.pointAll_ofActions`).

As long as the actions end at a signed word, which actions that fit in memory do, no offset is taken
for another one.  A branch is then pointed as in a listing (`Layout.toExcept_point`): exactly if it
can hold the distance, and it leads where it is pointed (`Layout.pointable_ofActions`).
-/

namespace ScriptRecovery

theorem Action.redirected?_eq_some_iff {a a' : Action} {d : Int16} : a.redirected? d = some a' ↔
    ((∃ d', a = .branch d') ∧ a' = .branch d) ∨ (∃ d', a = .jump d') ∧ a' = .jump d := by
  cases a <;> simp [Action.redirected?, eq_comm]

/-- A branch that is pointed elsewhere differs in its displacement only. -/
theorem Action.unlinked_of_redirected? {a a' : Action} {d : Int16}
    (h : a.redirected? d = some a') : a'.unlinked = a.unlinked := by
  rcases Action.redirected?_eq_some_iff.1 h with ⟨⟨d', rfl⟩, rfl⟩ | ⟨⟨d', rfl⟩, rfl⟩
  · rfl
  · rfl

namespace Layout

variable {as : List Action} {l : Layout} {i t o : Nat}

/-! ## Laying out -/

theorem lay_finish (offsets : Array Nat) (start : Nat) (as : List Action) :
    (lay offsets start as).2 = start + total Action.encodedLength as := by
  induction as generalizing offsets start with
  | nil => rfl
  | cons a as ih => rw [lay, ih, total, Nat.add_assoc]

theorem size_lay (offsets : Array Nat) (start : Nat) (as : List Action) :
    (lay offsets start as).1.size = offsets.size + as.length := by
  induction as generalizing offsets start with
  | nil => rfl
  | cons a as ih =>
    rw [lay, ih, Array.size_push, List.length_cons]
    omega

/-- Laying out keeps what the table has. -/
theorem getElem?_lay_of_lt {offsets : Array Nat} (start : Nat) (as : List Action)
    (h : i < offsets.size) : (lay offsets start as).1[i]? = offsets[i]? := by
  induction as generalizing offsets start with
  | nil => rfl
  | cons a as ih =>
    have hi : i < (offsets.push start).size := by
      rw [Array.size_push]
      omega
    rw [lay, ih _ hi, Array.getElem?_push_lt h, ← Array.getElem?_eq_getElem h]

/-- Laying out adds the offset of every action. -/
theorem getElem?_lay (offsets : Array Nat) (start : Nat) {as : List Action} (h : i < as.length) :
    (lay offsets start as).1[offsets.size + i]? =
      some (start + total Action.encodedLength (as.take i)) := by
  induction as generalizing offsets start i with
  | nil => cases h
  | cons a as ih =>
    rw [lay]
    cases i with
    | zero =>
      rw [Nat.add_zero, getElem?_lay_of_lt _ _ (by simp)]
      simp [total]
    | succ i =>
      have hnext := ih (offsets.push start) (start + a.encodedLength) (Nat.lt_of_succ_lt_succ h)
      rw [Array.size_push, Nat.add_assoc, Nat.add_comm 1 i] at hnext
      rw [hnext, List.take_succ_cons, total, Nat.add_assoc]

/-- The table depends on the lengths of the actions alone. -/
theorem lay_unlinked (offsets : Array Nat) (start : Nat) (as : List Action) :
    lay offsets start (as.map Action.unlinked) = lay offsets start as := by
  induction as generalizing offsets start with
  | nil => rfl
  | cons a as ih => rw [List.map_cons, lay, lay, ih, Action.encodedLength_unlinked]

theorem offsets_ofActions (h : i < as.length) :
    (ofActions as).offsets[i]? = some (Listing.start ⟨as⟩ i) := by
  have hat := getElem?_lay #[] 0 h
  rwa [Nat.zero_add, show (#[] : Array Nat).size + i = i by simp] at hat

theorem size_offsets_ofActions (as : List Action) : (ofActions as).offsets.size = as.length := by
  have hsize := size_lay #[] 0 as
  rwa [show (#[] : Array Nat).size + as.length = as.length by simp] at hsize

theorem finish_ofActions (as : List Action) :
    (ofActions as).finish = total Action.encodedLength as := by
  have hfinish := lay_finish #[] 0 as
  rwa [Nat.zero_add] at hfinish

/-- The table has the offsets of the listing. -/
theorem offsetOf?_ofActions (as : List Action) (i : Nat) :
    (ofActions as).offsetOf? i = Listing.offsetOf? ⟨as⟩ i := by
  have hsize : (ofActions as).actions.size = as.length := by simp [ofActions]
  have hlength : (Listing.mk as).length = as.length := rfl
  rw [offsetOf?, Listing.offsetOf?, hsize, hlength, finish_ofActions]
  rcases Nat.lt_trichotomy i as.length with hi | hi | hi
  · rw [if_neg (Nat.ne_of_lt hi), if_pos (Nat.le_of_lt hi), offsets_ofActions hi]
    rfl
  · subst hi
    rw [if_pos rfl, if_pos (Nat.le_refl _), List.take_length]
  · have hout : (ofActions as).offsets.size ≤ i := by
      rw [size_offsets_ofActions]
      omega
    rw [if_neg (Nat.ne_of_gt hi), if_neg (Nat.not_le.2 hi), Array.getElem?_eq_none hout]

theorem offsetOf?_eq_some_iff {x : Nat} :
    (ofActions as).offsetOf? i = some x ↔ i ≤ as.length ∧ x = Listing.start ⟨as⟩ i := by
  have hlength : (Listing.mk as).length = as.length := rfl
  rw [offsetOf?_ofActions, Listing.offsetOf?, hlength]
  by_cases hi : i ≤ as.length
  · rw [if_pos hi, Option.some.injEq]
    exact ⟨fun h => ⟨hi, h.symm⟩, fun h => h.2.symm⟩
  · simp [hi]

/-! ## Bisection -/

/-- What bisection finds is there, also in a table that does not ascend. -/
theorem getElem?_of_bisect {offsets : Array Nat} {low high : Nat}
    (h : bisect offsets o low high = some i) : offsets[i]? = some o := by
  induction low, high using bisect.induct offsets o with
  | case1 low high hlt middle hnone =>
    unfold bisect at h
    simp only [hlt, ↓reduceIte, middle, hnone] at h
    cases h
  | case2 low high hlt middle hfound =>
    unfold bisect at h
    simp only [hlt, ↓reduceIte, middle, hfound] at h
    cases h
    exact hfound
  | case3 low high hlt middle found hfound hne hless ih =>
    unfold bisect at h
    simp only [hlt, ↓reduceIte, middle, hfound, hne, hless] at h
    exact ih h
  | case4 low high hlt middle found hfound hne hless ih =>
    unfold bisect at h
    simp only [hlt, ↓reduceIte, middle, hfound, hne, hless] at h
    exact ih h
  | case5 low high hlt =>
    rw [bisect, if_neg hlt] at h
    cases h

/-- In a table that ascends, bisection finds what is between its bounds. -/
theorem bisect_eq_some {offsets : Array Nat} {low high : Nat}
    (hasc : ∀ {i j x y : Nat}, offsets[i]? = some x → offsets[j]? = some y → i < j → x < y)
    (hi : offsets[i]? = some o) (hlow : low ≤ i) (hhigh : i < high) (hsize : high ≤ offsets.size) :
    bisect offsets o low high = some i := by
  induction low, high using bisect.induct offsets o with
  | case1 low high hlt middle hnone =>
    have hmiddle : middle < offsets.size := by
      show low + (high - low) / 2 < offsets.size
      omega
    rw [Array.getElem?_eq_getElem hmiddle] at hnone
    cases hnone
  | case2 low high hlt middle hfound =>
    unfold bisect
    simp only [hlt, ↓reduceIte, middle, hfound]
    rcases Nat.lt_trichotomy middle i with hbefore | heq | hafter
    · exact absurd (hasc hfound hi hbefore) (Nat.lt_irrefl o)
    · rw [← heq]
    · exact absurd (hasc hi hfound hafter) (Nat.lt_irrefl o)
  | case3 low high hlt middle found hfound hne hless ih =>
    have hbefore : middle < i := by
      rcases Nat.lt_trichotomy middle i with hbefore | heq | hafter
      · exact hbefore
      · rw [heq, hi] at hfound
        exact absurd (Option.some.inj hfound).symm hne
      · have := hasc hi hfound hafter
        omega
    unfold bisect
    simp only [hlt, ↓reduceIte, middle, hfound, hne, hless]
    exact ih hbefore hhigh hsize
  | case4 low high hlt middle found hfound hne hless ih =>
    have hafter : i < middle := by
      rcases Nat.lt_trichotomy middle i with hbefore | heq | hafter
      · have := hasc hfound hi hbefore
        omega
      · rw [heq, hi] at hfound
        exact absurd (Option.some.inj hfound).symm hne
      · exact hafter
    have hmiddle : middle ≤ high := by
      show low + (high - low) / 2 ≤ high
      omega
    unfold bisect
    simp only [hlt, ↓reduceIte, middle, hfound, hne, hless]
    exact ih hlow hafter (Nat.le_trans hmiddle hsize)
  | case5 low high hlt => omega

/-! ## What can be read -/

theorem offsets_ascend {j x y : Nat} (hx : (ofActions as).offsets[i]? = some x)
    (hy : (ofActions as).offsets[j]? = some y) (h : i < j) : x < y := by
  have hj : j < as.length := by
    obtain ⟨hj, -⟩ := Array.getElem?_eq_some_iff.1 hy
    rwa [size_offsets_ofActions] at hj
  have hi : i < as.length := Nat.lt_trans h hj
  rw [offsets_ofActions hi] at hx
  rw [offsets_ofActions hj] at hy
  cases hx
  cases hy
  exact Listing.start_lt (l := ⟨as⟩) hi h

/-- A layout can be read where one of its actions starts. -/
theorem readAt?_eq_some_iff {r : Action × Nat} : (ofActions as).readAt? o = some r ↔
    ∃ i, as[i]? = some r.1 ∧ o = Listing.start ⟨as⟩ i ∧ r.2 = Listing.start ⟨as⟩ (i + 1) := by
  have hactions : ∀ i, (ofActions as).actions[i]? = as[i]? := fun i => List.getElem?_toArray
  constructor
  · intro h
    obtain ⟨i, hi, h⟩ := Option.bind_eq_some_iff.1 h
    obtain ⟨a, ha, h⟩ := Option.bind_eq_some_iff.1 h
    cases h
    rw [hactions] at ha
    have hlt : i < as.length := (List.getElem?_eq_some_iff.1 ha).1
    have ho : some (Listing.start ⟨as⟩ i) = some o := by
      rw [← offsets_ofActions hlt, getElem?_of_bisect hi]
    cases ho
    exact ⟨i, ha, rfl, (Listing.start_succ (l := ⟨as⟩) ha).symm⟩
  · rintro ⟨i, ha, rfl, hnext⟩
    have hlt : i < as.length := (List.getElem?_eq_some_iff.1 ha).1
    have hfound : bisect (ofActions as).offsets (Listing.start ⟨as⟩ i) 0
        (ofActions as).offsets.size = some i := by
      refine bisect_eq_some offsets_ascend (offsets_ofActions hlt) (Nat.zero_le i) ?_ (Nat.le_refl _)
      rwa [size_offsets_ofActions]
    rw [readAt?, hfound, Option.bind_eq_bind, Option.bind_some, hactions, ha]
    rw [Listing.start_succ (l := ⟨as⟩) ha] at hnext
    show some (r.1, Listing.start ⟨as⟩ i + r.1.encodedLength) = some r
    rw [← hnext]

/-- Bisection finds what reading the actions one after another finds. -/
theorem readAt?_ofActions (as : List Action) (o : Nat) :
    (ofActions as).readAt? o = Listing.readAt? ⟨as⟩ o := by
  refine Option.ext fun r => ?_
  exact readAt?_eq_some_iff.trans Listing.readAt?_iff.symm

/-! ## Pointing a branch -/

/-- Pointing a branch fails and leaves the layout as it is, or writes one displacement. -/
theorem point_cases (l : Layout) (i t : Nat) :
    (∃ fault, l.point i t = .failed l fault) ∨
      ∃ start dest d a a', l.offsetOf? (i + 1) = some start ∧ l.offsetOf? t = some dest ∧
        Listing.displacement (signedOr 0 start) (signedOr (signedBound - 1) dest) = .ok d ∧
        l.actions[i]? = some a ∧ a.redirected? d = some a' ∧
        l.point i t = ⟨{ l with actions := l.actions.setIfInBounds i a' }, .ok true⟩ := by
  unfold point
  cases hstart : l.offsetOf? (i + 1) with
  | none => exact .inl ⟨_, rfl⟩
  | some start =>
    cases hdest : l.offsetOf? t with
    | none => exact .inl ⟨_, rfl⟩
    | some dest =>
      dsimp only
      cases hd : Listing.displacement (signedOr 0 start) (signedOr (signedBound - 1) dest) with
      | error fault => exact .inl ⟨_, rfl⟩
      | ok d =>
        cases ha : l.actions[i]? with
        | none => exact .inl ⟨_, rfl⟩
        | some a =>
          dsimp only
          cases ha' : a.redirected? d with
          | none => exact .inl ⟨_, rfl⟩
          | some a' => exact .inr ⟨start, dest, d, a, a', rfl, rfl, hd, rfl, ha', rfl⟩

/-- The table of actions is also that of the actions with one branch pointed elsewhere. -/
theorem ofActions_set {a a' : Action} (ha : as[i]? = some a) (hsame : a'.unlinked = a.unlinked) :
    { ofActions as with actions := (ofActions as).actions.setIfInBounds i a' } =
      ofActions (as.set i a') := by
  have hrelinked : Listing.Relinked ⟨as⟩ ⟨as.set i a'⟩ := Listing.relinked_set ha hsame
  have hlay : lay #[] 0 (as.set i a') = lay #[] 0 as := by
    rw [← lay_unlinked, hrelinked, lay_unlinked]
  show Layout.mk (as.toArray.setIfInBounds i a') _ _ = Layout.mk _ _ _
  rw [List.setIfInBounds_toArray, hlay]
  rfl

/-- Pointing a branch leaves a layout with the table of its actions, of the lengths that they had. -/
theorem point_ofActions (as : List Action) (i t : Nat) :
    ∃ bs, ((ofActions as).point i t).state = ofActions bs ∧ Listing.Relinked ⟨as⟩ ⟨bs⟩ := by
  rcases point_cases (ofActions as) i t with ⟨fault, h⟩ | ⟨start, dest, d, a, a', -, -, -, ha, ha', h⟩
  · rw [h]
    exact ⟨as, rfl, rfl⟩
  · have ha : as[i]? = some a := by rwa [← List.getElem?_toArray]
    have hsame := Action.unlinked_of_redirected? ha'
    rw [h]
    exact ⟨as.set i a', ofActions_set ha hsame, Listing.relinked_set ha hsame⟩

/-- So does pointing one branch after another. -/
theorem pointAll_ofActions (as : List Action) (links : List (Nat × Nat)) :
    ∃ bs, (ofActions as).pointAll links = ofActions bs ∧ Listing.Relinked ⟨as⟩ ⟨bs⟩ := by
  induction links generalizing as with
  | nil => exact ⟨as, rfl, rfl⟩
  | cons link links ih =>
    obtain ⟨bs, hbs, hrelinked⟩ := point_ofActions as link.1 link.2
    obtain ⟨cs, hcs, hrelinked'⟩ := ih bs
    refine ⟨cs, ?_, hrelinked.trans hrelinked'⟩
    show (((ofActions as).point link.1 link.2).state).pointAll links = ofActions cs
    rw [hbs, hcs]

/-! ## Layouts of signed words -/

theorem lt_signedBound_of_offsetOf? {x : Nat} (hfits : total Action.encodedLength as < signedBound)
    (h : (ofActions as).offsetOf? i = some x) : x < signedBound := by
  obtain ⟨-, rfl⟩ := offsetOf?_eq_some_iff.1 h
  exact Nat.lt_of_le_of_lt (Listing.start_le_total ⟨as⟩ i) hfits

theorem signedOr_of_lt (other : Nat) (h : o < signedBound) : signedOr other o = o := if_pos h

/-- A branch is pointed as in the listing of its actions, fault by fault. -/
theorem toExcept_point (hfits : total Action.encodedLength as < signedBound) (i t : Nat) :
    ((ofActions as).point i t).toExcept =
      (Listing.retarget ⟨as⟩ i t).map fun l => ofActions l.actions := by
  have hactions : (ofActions as).actions[i]? = as[i]? := List.getElem?_toArray
  unfold point Listing.retarget
  rw [← offsetOf?_ofActions, ← offsetOf?_ofActions, hactions]
  cases hstart : (ofActions as).offsetOf? (i + 1) with
  | none => rfl
  | some start =>
    cases hdest : (ofActions as).offsetOf? t with
    | none => rfl
    | some dest =>
      dsimp only
      rw [signedOr_of_lt 0 (lt_signedBound_of_offsetOf? hfits hstart),
        signedOr_of_lt _ (lt_signedBound_of_offsetOf? hfits hdest)]
      cases Listing.displacement start dest with
      | error fault => rfl
      | ok d =>
        cases ha : as[i]? with
        | none => rfl
        | some a =>
          cases a with
          | branch d' | jump d' => exact congrArg Except.ok (ofActions_set ha rfl)
          | _ => rfl

/-! ## Every history of links -/

/-- A layout that is read as its actions lie, and in which a link changes one displacement or
nothing. -/
structure Laid (l : Layout) : Prop where
  /-- The table is the one that would be made for the actions. -/
  eq_ofActions : l = ofActions l.actions.toList
  /-- Every action has an offset, and so has the end. -/
  exists_offset : ∀ {i : Nat}, i ≤ l.actions.size ↔ ∃ x, l.offsetOf? i = some x
  /-- Offsets ascend. -/
  ascending : ∀ {i j x y : Nat}, l.offsetOf? i = some x → l.offsetOf? j = some y → i < j → x < y
  /-- An action is read at its offset, and the next offset is that of the action after it. -/
  read : ∀ {i : Nat} {a : Action}, l.actions[i]? = some a → ∃ x next,
    l.offsetOf? i = some x ∧ l.offsetOf? (i + 1) = some next ∧ l.readAt? x = some (a, next)
  /-- Nothing is read at other offsets. -/
  only_read : ∀ {x next : Nat} {a : Action}, l.readAt? x = some (a, next) → ∃ i,
    l.actions[i]? = some a ∧ l.offsetOf? i = some x ∧ l.offsetOf? (i + 1) = some next
  /-- A link that is refused changes nothing. -/
  refused : ∀ {i t : Nat} {fault : Fault},
    (l.point i t).changed = .error fault → (l.point i t).state = l
  /-- A link changes the displacement of one branch. -/
  pointed : ∀ {i t : Nat} {b : Bool}, (l.point i t).changed = .ok b → ∃ a a' d,
    l.actions[i]? = some a ∧ a.redirected? d = some a' ∧
      (l.point i t).state = { l with actions := l.actions.setIfInBounds i a' }

/-- A layout in which the branches that can hold a distance are those that can be pointed, and lead
where they are pointed. -/
structure Pointable (l : Layout) : Prop where
  /-- A branch is pointed exactly if it can hold the distance. -/
  point_iff : ∀ {i t : Nat}, (l.point i t).changed = .ok true ↔
    (∃ d, l.actions[i]? = some (.branch d) ∨ l.actions[i]? = some (.jump d)) ∧
      t ≤ l.actions.size ∧ ∃ next dest : Nat, l.offsetOf? (i + 1) = some next ∧
        l.offsetOf? t = some dest ∧ -0x8000 ≤ (dest : Int) - next ∧ (dest : Int) - next < 0x8000
  /-- Afterwards it leads from its end to the offset that it is pointed to. -/
  leads : ∀ {i t : Nat} {b : Bool}, (l.point i t).changed = .ok b → ∃ x next dest d a,
    l.offsetOf? i = some x ∧ l.offsetOf? t = some dest ∧ (a = .branch d ∨ a = .jump d) ∧
      (l.point i t).state.readAt? x = some (a, next) ∧
      (l.point i t).state.offsetOf? t = some dest ∧ branchTarget next d = some dest

theorem laid_ofActions (as : List Action) : Laid (ofActions as) where
  eq_ofActions := rfl
  exists_offset := by
    intro i
    have hsize : (ofActions as).actions.size = as.length := List.size_toArray
    rw [hsize]
    exact ⟨fun hi => ⟨_, offsetOf?_eq_some_iff.2 ⟨hi, rfl⟩⟩,
      fun ⟨x, hx⟩ => (offsetOf?_eq_some_iff.1 hx).1⟩
  ascending := by
    intro i j x y hx hy h
    obtain ⟨-, rfl⟩ := offsetOf?_eq_some_iff.1 hx
    obtain ⟨hj, rfl⟩ := offsetOf?_eq_some_iff.1 hy
    exact Listing.start_lt (l := ⟨as⟩) (Nat.lt_of_lt_of_le h hj) h
  read := by
    intro i a ha
    have ha : as[i]? = some a := by rwa [← List.getElem?_toArray]
    have hi : i < as.length := (List.getElem?_eq_some_iff.1 ha).1
    exact ⟨Listing.start ⟨as⟩ i, Listing.start ⟨as⟩ (i + 1),
      offsetOf?_eq_some_iff.2 ⟨Nat.le_of_lt hi, rfl⟩, offsetOf?_eq_some_iff.2 ⟨hi, rfl⟩,
      readAt?_eq_some_iff.2 ⟨i, ha, rfl, rfl⟩⟩
  only_read := by
    intro x next a h
    obtain ⟨i, ha, hx, hnext⟩ := readAt?_eq_some_iff.1 h
    have hi : i < as.length := (List.getElem?_eq_some_iff.1 ha).1
    refine ⟨i, ?_, offsetOf?_eq_some_iff.2 ⟨Nat.le_of_lt hi, hx⟩, offsetOf?_eq_some_iff.2 ⟨hi, hnext⟩⟩
    exact List.getElem?_toArray.trans ha
  refused := by
    intro i t fault h
    rcases point_cases (ofActions as) i t with ⟨fault, hp⟩ | ⟨_, _, _, _, _, -, -, -, -, -, hp⟩
    · rw [hp]
      rfl
    · rw [hp] at h
      cases h
  pointed := by
    intro i t b h
    rcases point_cases (ofActions as) i t with ⟨fault, hp⟩ | ⟨_, _, d, a, a', -, -, -, ha, ha', hp⟩
    · rw [hp] at h
      cases h
    · rw [hp]
      exact ⟨a, a', d, ha, ha', rfl⟩

/-- The distances that a branch can hold. -/
theorem exists_displacement_iff {start dest : Nat} :
    (∃ d, Listing.displacement start dest = .ok d) ↔
      -0x8000 ≤ (dest : Int) - start ∧ (dest : Int) - start < 0x8000 := by
  unfold Listing.displacement
  dsimp only
  split
  · next hfits => exact ⟨fun _ => hfits, fun _ => ⟨_, rfl⟩⟩
  · next hfits =>
    constructor
    · rintro ⟨d, h⟩
      cases h
    · intro h
      exact absurd h hfits

/-- What a link that is not refused does. -/
theorem exists_of_point_ok {b : Bool} (hfits : total Action.encodedLength as < signedBound)
    (h : ((ofActions as).point i t).changed = .ok b) : ∃ next dest d a a',
      (ofActions as).offsetOf? (i + 1) = some next ∧ (ofActions as).offsetOf? t = some dest ∧
      Listing.displacement next dest = .ok d ∧ as[i]? = some a ∧ a.redirected? d = some a' ∧
      ((ofActions as).point i t).state = ofActions (as.set i a') := by
  rcases point_cases (ofActions as) i t with
    ⟨fault, hp⟩ | ⟨next, dest, d, a, a', hnext, hdest, hd, ha, ha', hp⟩
  · rw [hp] at h
    cases h
  · have ha : as[i]? = some a := by rwa [← List.getElem?_toArray]
    rw [signedOr_of_lt 0 (lt_signedBound_of_offsetOf? hfits hnext),
      signedOr_of_lt _ (lt_signedBound_of_offsetOf? hfits hdest)] at hd
    refine ⟨next, dest, d, a, a', hnext, hdest, hd, ha, ha', ?_⟩
    rw [hp]
    exact ofActions_set ha (Action.unlinked_of_redirected? ha')

/-- A branch that can hold the distance is pointed. -/
theorem point_ok {next dest : Nat} {a : Action} {d' : Int16}
    (hfits : total Action.encodedLength as < signedBound) (ha : as[i]? = some a)
    (hbranch : a = .branch d' ∨ a = .jump d') (hnext : (ofActions as).offsetOf? (i + 1) = some next)
    (hdest : (ofActions as).offsetOf? t = some dest)
    (hdistance : -0x8000 ≤ (dest : Int) - next ∧ (dest : Int) - next < 0x8000) :
    ((ofActions as).point i t).changed = .ok true := by
  have ha : (ofActions as).actions[i]? = some a := List.getElem?_toArray.trans ha
  obtain ⟨d, hd⟩ := exists_displacement_iff.2 hdistance
  unfold point
  rw [hnext, hdest, ha]
  dsimp only
  rw [signedOr_of_lt 0 (lt_signedBound_of_offsetOf? hfits hnext),
    signedOr_of_lt _ (lt_signedBound_of_offsetOf? hfits hdest), hd]
  rcases hbranch with rfl | rfl
  · rfl
  · rfl

theorem pointable_ofActions (hfits : total Action.encodedLength as < signedBound) :
    Pointable (ofActions as) where
  point_iff := by
    intro i t
    have hactions : (ofActions as).actions[i]? = as[i]? := List.getElem?_toArray
    have hsize : (ofActions as).actions.size = as.length := List.size_toArray
    rw [hactions, hsize]
    constructor
    · intro h
      obtain ⟨next, dest, d, a, a', hnext, hdest, hd, ha, ha', -⟩ := exists_of_point_ok hfits h
      refine ⟨?_, (offsetOf?_eq_some_iff.1 hdest).1, next, dest, hnext, hdest,
        exists_displacement_iff.1 ⟨d, hd⟩⟩
      rw [ha]
      rcases Action.redirected?_eq_some_iff.1 ha' with ⟨⟨d', rfl⟩, -⟩ | ⟨⟨d', rfl⟩, -⟩
      · exact ⟨d', .inl rfl⟩
      · exact ⟨d', .inr rfl⟩
    · rintro ⟨⟨d', hbranch⟩, -, next, dest, hnext, hdest, hdistance⟩
      rcases hbranch with ha | ha
      · exact point_ok hfits ha (.inl rfl) hnext hdest hdistance
      · exact point_ok hfits ha (.inr rfl) hnext hdest hdistance
  leads := by
    intro i t b h
    obtain ⟨next, dest, d, a, a', hnext, hdest, hd, ha, ha', hstate⟩ := exists_of_point_ok hfits h
    have hlt : i < as.length := (List.getElem?_eq_some_iff.1 ha).1
    have hrelinked : Listing.Relinked ⟨as⟩ ⟨as.set i a'⟩ :=
      Listing.relinked_set ha (Action.unlinked_of_redirected? ha')
    obtain ⟨-, rfl⟩ := offsetOf?_eq_some_iff.1 hnext
    obtain ⟨ht, rfl⟩ := offsetOf?_eq_some_iff.1 hdest
    have hdistance := Listing.displacement_eq_ok hd
    have hbound : total Action.encodedLength as < offsetBound :=
      Nat.lt_trans hfits (by decide)
    refine ⟨_, _, _, d, a', offsetOf?_eq_some_iff.2 ⟨Nat.le_of_lt hlt, rfl⟩, hdest, ?_, ?_, ?_,
      Listing.branchTarget_start (l := ⟨as⟩) hdistance hbound⟩
    · rcases Action.redirected?_eq_some_iff.1 ha' with ⟨-, rfl⟩ | ⟨-, rfl⟩
      · exact .inl rfl
      · exact .inr rfl
    · rw [hstate]
      have hread : (as.set i a')[i]? = some a' := by simp [hlt]
      exact readAt?_eq_some_iff.2 ⟨i, hread, (hrelinked.start_eq i).symm,
        (hrelinked.start_eq (i + 1)).symm⟩
    · rw [hstate]
      refine offsetOf?_eq_some_iff.2 ⟨?_, (hrelinked.start_eq t).symm⟩
      rwa [List.length_set]

/-- However the branches of a list of actions are pointed, reading agrees with the layout, and as
long as the actions end at a signed word, so does branching. -/
theorem laid_pointAll (as : List Action) (links : List (Nat × Nat)) :
    Laid ((ofActions as).pointAll links) ∧
      (total Action.encodedLength as < signedBound →
        Pointable ((ofActions as).pointAll links)) := by
  obtain ⟨bs, hbs, hrelinked⟩ := pointAll_ofActions as links
  rw [hbs]
  refine ⟨laid_ofActions bs, fun hfits => pointable_ofActions ?_⟩
  have hlength := hrelinked.start_eq bs.length
  rw [Listing.start, Listing.start, List.take_length, hrelinked.length_eq, List.take_length]
    at hlength
  rwa [hlength]

/-- A jump is pointed back over itself, and what is no branch is not pointed. -/
theorem pointable_jump_back : total Action.encodedLength [.stop, .jump 0] < signedBound ∧
    ((ofActions [.stop, .jump 0]).pointAll [(1, 0), (0, 1)]).actions = #[.stop, .jump (-6)] ∧
      Pointable ((ofActions [.stop, .jump 0]).pointAll [(1, 0), (0, 1)]) := by
  have hfits : total Action.encodedLength [.stop, .jump 0] < signedBound := by decide
  exact ⟨hfits, rfl, (laid_pointAll [.stop, .jump 0] [(1, 0), (0, 1)]).2 hfits⟩

end Layout

end ScriptRecovery
