import Mathlib.Order.Monotone.Basic
import ScriptRecovery.Action.Listing
import ScriptRecovery.Flow.Build

/-!
# Layout and links of a listing

The actions of a listing start at ascending offsets (`Listing.start_lt`), and these are the offsets
at which its stream can be read (`Listing.readAt?_iff`).

Pointing branches changes displacements only (`Listing.Relinked`), so no action moves.  A branch
leads from then on to the position that it has been pointed to (`Listing.Points`), as long as it is
not pointed elsewhere (`Listing.retargetAll_points`).
-/

namespace ScriptRecovery

/-! ## Actions without their displacements -/

/-- An action with its displacement left out. -/
def Action.unlinked : Action → Action
  | .branch _ => .branch 0
  | .jump _ => .jump 0
  | a => a

@[simp] theorem Action.encodedLength_unlinked (a : Action) :
    a.unlinked.encodedLength = a.encodedLength := by
  cases a <;> rfl

namespace Listing

variable {l l' : Listing}

/-! ## Layout -/

/-- Where the action at a position starts, or the end for a position past the last one. -/
def start (l : Listing) (i : Nat) : Nat := total Action.encodedLength (l.actions.take i)

theorem start_zero : l.start 0 = 0 := by simp [start, total]

theorem start_succ {i : Nat} {a : Action} (h : l.actions[i]? = some a) :
    l.start (i + 1) = l.start i + a.encodedLength := by
  simp [start, List.take_add_one, h, total_append, total]

theorem start_le_succ (l : Listing) (i : Nat) : l.start i ≤ l.start (i + 1) := by
  simp [start, List.take_add_one, total_append]

theorem start_mono (l : Listing) : Monotone l.start := monotone_nat_of_le_succ l.start_le_succ

theorem start_lt {i j : Nat} (hi : i < l.actions.length) (h : i < j) : l.start i < l.start j := by
  have hpos := Action.encodedLength_pos l.actions[i]
  have hstep := start_succ (List.getElem?_eq_getElem hi)
  have hle : l.start (i + 1) ≤ l.start j := l.start_mono h
  omega

theorem start_inj {i j : Nat} (hi : i ≤ l.actions.length) (hj : j ≤ l.actions.length)
    (h : l.start i = l.start j) : i = j := by
  rcases Nat.lt_trichotomy i j with hlt | heq | hlt
  · have hi : i < l.actions.length := by omega
    exact absurd h (Nat.ne_of_lt (start_lt hi hlt))
  · exact heq
  · have hj : j < l.actions.length := by omega
    exact absurd h (Nat.ne_of_gt (start_lt hj hlt))

theorem start_le_total (l : Listing) (i : Nat) :
    l.start i ≤ total Action.encodedLength l.actions := by
  have hsplit := total_append Action.encodedLength (l.actions.take i) (l.actions.drop i)
  rw [List.take_append_drop] at hsplit
  rw [start]
  omega

theorem readAt?_layout {as : List Action} {base o : Nat} {r : Action × Nat} :
    (layout base as).readAt? o = some r ↔ ∃ i, as[i]? = some r.1 ∧
      o = base + total Action.encodedLength (as.take i) ∧
      r.2 = base + total Action.encodedLength (as.take (i + 1)) := by
  induction as generalizing base with
  | nil => simp [layout, Stream.readAt?, Stream.entryAt?]
  | cons a as ih =>
    have hpos := a.encodedLength_pos
    have hcons : (layout base (a :: as)).readAt? o = if base = o then
        some (a, base + a.encodedLength) else (layout (base + a.encodedLength) as).readAt? o := by
      by_cases h : base = o <;> simp [layout, Stream.readAt?, Stream.entryAt?, h]
    rw [hcons]
    split
    · next h =>
      subst h
      constructor
      · rintro ⟨⟩
        exact ⟨0, by simp [total]⟩
      · rintro ⟨i, hi, ho, hr⟩
        cases i with
        | zero =>
          obtain rfl : a = r.1 := by simpa using hi
          simp [Prod.ext_iff, hr, total]
        | succ i =>
          simp only [List.take_succ_cons, total] at ho
          omega
    · next h =>
      rw [ih]
      constructor
      · rintro ⟨i, hi, ho, hr⟩
        exact ⟨i + 1, by simpa using hi, by simp [ho, total, Nat.add_assoc],
          by simp [hr, total, Nat.add_assoc]⟩
      · rintro ⟨i, hi, ho, hr⟩
        cases i with
        | zero => exact absurd (by simp [ho, total]) h
        | succ i =>
          exact ⟨i, by simpa using hi, by simp [ho, total, Nat.add_assoc],
            by simp [hr, total, Nat.add_assoc]⟩

/-- A listing can be read where one of its actions starts. -/
theorem readAt?_iff {o : Nat} {r : Action × Nat} : l.toStream.readAt? o = some r ↔
    ∃ i, l.actions[i]? = some r.1 ∧ o = l.start i ∧ r.2 = l.start (i + 1) := by
  simp [toStream, readAt?_layout, start]

theorem readAt?_start {i : Nat} {a : Action} (h : l.actions[i]? = some a) :
    l.toStream.readAt? (l.start i) = some (a, l.start (i + 1)) :=
  readAt?_iff.2 ⟨i, h, rfl, rfl⟩

/-! ## Links -/

/-- Whether two listings differ in displacements only. -/
def Relinked (l l' : Listing) : Prop :=
  l'.actions.map Action.unlinked = l.actions.map Action.unlinked

theorem Relinked.trans {l'' : Listing} (h : l.Relinked l') (h' : l'.Relinked l'') :
    l.Relinked l'' :=
  Eq.trans h' h

theorem Relinked.symm (h : l.Relinked l') : l'.Relinked l := Eq.symm h

theorem Relinked.length_eq (h : l.Relinked l') : l'.actions.length = l.actions.length := by
  simpa using congrArg List.length h

/-- What stands at a position afterwards differs in its displacement only. -/
theorem Relinked.exists_action (h : l.Relinked l') {i : Nat} {a : Action}
    (ha : l.actions[i]? = some a) : ∃ a', l'.actions[i]? = some a' ∧ a'.unlinked = a.unlinked := by
  have hsame : l'.actions[i]?.map Action.unlinked = l.actions[i]?.map Action.unlinked := by
    rw [← List.getElem?_map, ← List.getElem?_map, h]
  rw [ha, Option.map_some] at hsame
  exact Option.map_eq_some_iff.1 hsame

/-- What actions come to together, when no displacement counts. -/
theorem total_unlinked {w : Action → Nat} (hw : ∀ a : Action, w a.unlinked = w a)
    (as : List Action) : total w (as.map Action.unlinked) = total w as := by
  simp [total_map, hw]

theorem Relinked.total_eq (h : l.Relinked l') {w : Action → Nat}
    (hw : ∀ a : Action, w a.unlinked = w a) : total w l'.actions = total w l.actions := by
  rw [← total_unlinked hw, ← total_unlinked hw l.actions, h]

theorem Relinked.start_eq (h : l.Relinked l') (i : Nat) : l'.start i = l.start i := by
  have hlength := total_unlinked Action.encodedLength_unlinked
  rw [start, start, ← hlength, ← hlength (l.actions.take i), List.map_take, List.map_take, h]

/-- Whether the displacement of the branch at a position is that to another one. -/
def Points (l : Listing) (i t : Nat) : Prop :=
  ∃ d : Int16, (l.actions[i]? = some (.branch d) ∨ l.actions[i]? = some (.jump d)) ∧
    d.toInt = (l.start t : Int) - l.start (i + 1)

theorem displacement_eq_ok {start dest : Nat} {d : Int16} (h : displacement start dest = .ok d) :
    d.toInt = (dest : Int) - start := by
  unfold displacement at h
  dsimp only at h
  split at h
  · next hfits =>
    cases h
    rw [Int16.toInt_ofInt]
    exact Int.bmod_eq_of_le (by simpa [Int16.size] using hfits.1)
      (by simpa [Int16.size] using hfits.2)
  · cases h

/-- A listing in which an action gives way to one that differs in its displacement only. -/
theorem relinked_set {i : Nat} {a a' : Action} (h : l.actions[i]? = some a)
    (ha : a'.unlinked = a.unlinked) : l.Relinked ⟨l.actions.set i a'⟩ := by
  obtain ⟨hi, rfl⟩ := List.getElem?_eq_some_iff.1 h
  rw [Relinked, List.map_set, ha, ← List.map_set, List.set_getElem_self]

theorem offsetOf?_eq_some {i o : Nat} (h : l.offsetOf? i = some o) : o = l.start i := by
  unfold offsetOf? at h
  split at h
  · exact (Option.some.inj h).symm
  · cases h

/-- What pointing a branch does. -/
theorem retarget_eq_ok {i t : Nat} (h : l.retarget i t = .ok l') :
    l.Relinked l' ∧ (∀ k, k ≠ i → l'.actions[k]? = l.actions[k]?) ∧ l'.Points i t := by
  unfold retarget at h
  split at h
  · next start hstart =>
    split at h
    · next dest hdest =>
      obtain ⟨d, hd, h⟩ := bind_eq_ok.1 h
      have hdistance := displacement_eq_ok hd
      rw [offsetOf?_eq_some hstart, offsetOf?_eq_some hdest] at hdistance
      -- both kinds of branches are pointed alike
      have hset : ∀ {a : Action} (a' : Action), l.actions[i]? = some a → a'.unlinked = a.unlinked →
          a' = .branch d ∨ a' = .jump d → l' = ⟨l.actions.set i a'⟩ →
          l.Relinked l' ∧ (∀ k, k ≠ i → l'.actions[k]? = l.actions[k]?) ∧ l'.Points i t := by
        rintro a a' ha hsame hbranch rfl
        have hrelinked := relinked_set ha hsame
        refine ⟨hrelinked, fun k hk => List.getElem?_set_ne (Ne.symm hk), d, ?_, ?_⟩
        · obtain ⟨hi, -⟩ := List.getElem?_eq_some_iff.1 ha
          simpa [hi] using hbranch
        · rw [hrelinked.start_eq, hrelinked.start_eq, hdistance]
      split at h
      · next ha => exact hset (.branch d) ha rfl (.inl rfl) (Except.ok.inj h).symm
      · next ha => exact hset (.jump d) ha rfl (.inr rfl) (Except.ok.inj h).symm
      · cases h
      · cases h
    · cases h
  · cases h

theorem retargetAll_relinked {links : List (Nat × Nat)} (h : l.retargetAll links = .ok l') :
    l.Relinked l' := by
  induction links generalizing l with
  | nil =>
    cases h
    rfl
  | cons link links ih =>
    obtain ⟨l₁, h₁, h⟩ := bind_eq_ok.1 h
    exact (retarget_eq_ok h₁).1.trans (ih h)

/-- A branch stays pointed where it is until it is pointed elsewhere. -/
theorem Points.retargetAll {links : List (Nat × Nat)} {i t : Nat} (hl : l.Points i t)
    (hsame : ∀ t', (i, t') ∈ links → t' = t) (h : l.retargetAll links = .ok l') :
    l'.Points i t := by
  induction links generalizing l with
  | nil =>
    cases h
    exact hl
  | cons link links ih =>
    obtain ⟨j, t'⟩ := link
    obtain ⟨l₁, h₁, h⟩ := bind_eq_ok.1 h
    refine ih ?_ (fun t' ht' => hsame t' (List.mem_cons_of_mem _ ht')) h
    obtain ⟨hrelinked, hkept, hpoints⟩ := retarget_eq_ok h₁
    by_cases hij : i = j
    · subst hij
      exact hsame t' List.mem_cons_self ▸ hpoints
    · obtain ⟨d, hd, hdistance⟩ := hl
      refine ⟨d, by simpa [hkept i hij] using hd, ?_⟩
      rw [hrelinked.start_eq, hrelinked.start_eq, hdistance]

/-- Every branch is pointed where it has been asked for, when no branch is asked to lead to two
places. -/
theorem retargetAll_points {links : List (Nat × Nat)}
    (hsame : ∀ {i t t' : Nat}, (i, t) ∈ links → (i, t') ∈ links → t' = t)
    (h : l.retargetAll links = .ok l') {i t : Nat} (hlink : (i, t) ∈ links) : l'.Points i t := by
  induction links generalizing l with
  | nil => cases hlink
  | cons link links ih =>
    obtain ⟨j, t'⟩ := link
    obtain ⟨l₁, h₁, hrest⟩ := bind_eq_ok.1 h
    rcases List.mem_cons.1 hlink with heq | hlink
    · cases heq
      exact (retarget_eq_ok h₁).2.2.retargetAll
        (fun t' ht' => hsame List.mem_cons_self (List.mem_cons_of_mem _ ht')) hrest
    · refine ih (fun h h' => ?_) hrest hlink
      exact hsame (List.mem_cons_of_mem _ h) (List.mem_cons_of_mem _ h')

/-- A branch that is pointed to a position leads where that position starts. -/
theorem branchTarget_start {i t : Nat} {d : Int16}
    (hd : d.toInt = (l.start t : Int) - l.start (i + 1))
    (hbound : total Action.encodedLength l.actions < offsetBound) :
    branchTarget (l.start (i + 1)) d = some (l.start t) := by
  have hle := l.start_le_total t
  have htarget : (l.start (i + 1) : Int) + d.toInt = l.start t := by omega
  unfold branchTarget
  rw [htarget]
  exact (if_pos (by omega)).trans (by simp)

end Listing

end ScriptRecovery
