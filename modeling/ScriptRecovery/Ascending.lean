/-!
# Finite sets in ascending order

A finite set over a linear order, kept as the list of its members in ascending order.  The order is
part of the type, so a set has one form: two sets with the same members are equal
(`Ascending.ext_mem`).  Answers list members in this order.
-/

namespace ScriptRecovery

/-- The laws of a linear order, said of `<`. -/
class LinearLT (α : Type) [LT α] : Prop where
  /-- Nothing is below itself. -/
  irrefl (a : α) : ¬ a < a
  /-- What is below something is below everything above that. -/
  trans {a b c : α} : a < b → b < c → a < c
  /-- Two different elements are one below the other. -/
  trichotomy (a b : α) : a < b ∨ a = b ∨ b < a

instance {α : Type} [LT α] [Std.Irrefl (α := α) (· < ·)] [Std.Trichotomous (α := α) (· < ·)]
    [Trans (α := α) (· < ·) (· < ·) (· < ·)] : LinearLT α where
  irrefl := Std.Irrefl.irrefl
  trans := Trans.trans
  trichotomy := Std.lt_trichotomy

instance : LinearLT Nat := ⟨Nat.lt_irrefl, Nat.lt_trans, Nat.lt_trichotomy⟩

/-- A finite set, as the ascending list of its members. -/
structure Ascending (α : Type) [LT α] where
  /-- The members. -/
  toList : List α
  /-- They ascend, so none is repeated. -/
  ascending : toList.Pairwise (· < ·)

namespace Ascending

variable {α : Type} [LT α]

instance [DecidableEq α] : DecidableEq (Ascending α) := fun a b =>
  if h : a.toList = b.toList then isTrue (by cases a; cases b; simp_all)
  else isFalse (by rintro rfl; exact h rfl)

/-- The set without members. -/
def empty : Ascending α := ⟨[], .nil⟩

instance : Inhabited (Ascending α) := ⟨empty⟩

instance : Membership α (Ascending α) := ⟨fun s a => a ∈ s.toList⟩

theorem mem_def {s : Ascending α} {a : α} : a ∈ s ↔ a ∈ s.toList := Iff.rfl

@[simp] theorem not_mem_empty (a : α) : a ∉ (empty : Ascending α) := by simp [mem_def, empty]

/-- The number of members. -/
def size (s : Ascending α) : Nat := s.toList.length

/-- The set with one member. -/
def singleton (a : α) : Ascending α := ⟨[a], List.pairwise_singleton ..⟩

@[simp] theorem mem_singleton {a b : α} : b ∈ singleton a ↔ b = a := by simp [mem_def, singleton]

/-- The one member of a set that has exactly one. -/
def single? (s : Ascending α) : Option α :=
  match s.toList with
  | [a] => some a
  | _ => none

/-! ## Adding a member -/

section Insert

variable [DecidableLT α]

/-- Adds an element to an ascending list unless it is there. -/
def insertInto (a : α) : List α → List α
  | [] => [a]
  | b :: bs => if a < b then a :: b :: bs else if b < a then b :: insertInto a bs else b :: bs

variable [LinearLT α]

theorem mem_insertInto {a b : α} {bs : List α} : b ∈ insertInto a bs ↔ b = a ∨ b ∈ bs := by
  induction bs with
  | nil => simp [insertInto]
  | cons c cs ih =>
    unfold insertInto
    split
    · simp
    · split
      · simp only [List.mem_cons, ih]
        grind
      · next h₁ h₂ =>
        have : a = c := by
          rcases LinearLT.trichotomy a c with h | h | h <;> simp_all
        subst this
        simp

theorem pairwise_insertInto {a : α} {bs : List α} (h : bs.Pairwise (· < ·)) :
    (insertInto a bs).Pairwise (· < ·) := by
  induction bs with
  | nil => simp [insertInto]
  | cons c cs ih =>
    obtain ⟨hc, hcs⟩ := List.pairwise_cons.1 h
    unfold insertInto
    split
    · next hac =>
      refine List.pairwise_cons.2 ⟨fun d hd => ?_, h⟩
      rcases List.mem_cons.1 hd with rfl | hd
      · exact hac
      · exact LinearLT.trans hac (hc d hd)
    · split
      · next hca =>
        refine List.pairwise_cons.2 ⟨fun d hd => ?_, ih hcs⟩
        rcases mem_insertInto.1 hd with rfl | hd
        · exact hca
        · exact hc d hd
      · exact h

/-- A set with one more member. -/
def insert (a : α) (s : Ascending α) : Ascending α :=
  ⟨insertInto a s.toList, pairwise_insertInto s.ascending⟩

@[simp] theorem mem_insert {a b : α} {s : Ascending α} : b ∈ s.insert a ↔ b = a ∨ b ∈ s :=
  mem_insertInto

/-- The set of the elements of a list. -/
def ofList (as : List α) : Ascending α := as.foldr insert empty

@[simp] theorem mem_ofList {a : α} {as : List α} : a ∈ ofList as ↔ a ∈ as := by
  induction as with
  | nil => simp [ofList]
  | cons b bs ih =>
    have : ofList (b :: bs) = (ofList bs).insert b := rfl
    rw [this, mem_insert, ih, List.mem_cons]

/-- The members of either of two sets. -/
def union (s t : Ascending α) : Ascending α := s.toList.foldr insert t

@[simp] theorem mem_union {a : α} {s t : Ascending α} : a ∈ s.union t ↔ a ∈ s ∨ a ∈ t := by
  have key : ∀ as : List α, a ∈ as.foldr insert t ↔ a ∈ as ∨ a ∈ t := by
    intro as
    induction as with
    | nil => simp
    | cons b bs ih => rw [List.foldr_cons, mem_insert, ih, List.mem_cons, or_assoc]
  exact key s.toList

end Insert

/-! ## Removing a member -/

/-- A set without one element. -/
def erase [DecidableEq α] (s : Ascending α) (a : α) : Ascending α :=
  ⟨s.toList.filter (· ≠ a), s.ascending.filter _⟩

@[simp] theorem mem_erase [DecidableEq α] {s : Ascending α} {a b : α} :
    b ∈ s.erase a ↔ b ∈ s ∧ b ≠ a := by
  simp [mem_def, erase]

/-! ## One form -/

/-- Two ascending lists with the same members are equal. -/
theorem eq_of_mem_iff [LinearLT α] {as bs : List α} (ha : as.Pairwise (· < ·))
    (hb : bs.Pairwise (· < ·)) (h : ∀ c, c ∈ as ↔ c ∈ bs) : as = bs := by
  have irrefl : ∀ c : α, ¬ c < c := LinearLT.irrefl
  induction as generalizing bs with
  | nil =>
    cases bs with
    | nil => rfl
    | cons b bs => exact absurd ((h b).2 (by simp)) (by simp)
  | cons a as ih =>
    cases bs with
    | nil => exact absurd ((h a).1 (by simp)) (by simp)
    | cons b bs =>
      obtain ⟨haa, has⟩ := List.pairwise_cons.1 ha
      obtain ⟨hbb, hbs⟩ := List.pairwise_cons.1 hb
      have hab : a = b := by
        rcases List.mem_cons.1 ((h a).1 (by simp)) with e | e
        · exact e
        · rcases List.mem_cons.1 ((h b).2 (by simp)) with e' | e'
          · exact e'.symm
          · exact absurd (LinearLT.trans (haa b e') (hbb a e)) (irrefl a)
      subst hab
      rw [ih has hbs fun c => ?_]
      constructor
      · intro hc
        rcases List.mem_cons.1 ((h c).1 (List.mem_cons_of_mem _ hc)) with e | e
        · exact absurd (haa c hc) (e ▸ irrefl c)
        · exact e
      · intro hc
        rcases List.mem_cons.1 ((h c).2 (List.mem_cons_of_mem _ hc)) with e | e
        · exact absurd (hbb c hc) (e ▸ irrefl c)
        · exact e

/-- No member is repeated. -/
theorem nodup_toList [LinearLT α] (s : Ascending α) : s.toList.Nodup :=
  s.ascending.imp fun {a b} (h : a < b) (hab : a = b) => LinearLT.irrefl b (hab ▸ h)

/-- Two sets with the same members are equal. -/
theorem ext_mem [LinearLT α] {s t : Ascending α} (h : ∀ a, a ∈ s ↔ a ∈ t) : s = t := by
  have := eq_of_mem_iff s.ascending t.ascending h
  cases s
  cases t
  simp_all

end Ascending

end ScriptRecovery
