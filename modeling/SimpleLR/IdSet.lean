/-!
# Sets of small numbers

Symbols, items and productions are numbered, and the sets of them that occur in the construction of
a parse table are read in ascending order.  An `IdSet` is therefore a strictly ascending list, with
the order as part of the type: two sets with the same members are equal, and the members of a set
can be enumerated without sorting.

## Main Definitions

* `IdSet` — a finite set of natural numbers as a strictly ascending list
* `IdSet.insert`, `IdSet.union` — the two ways a set grows
* `IdSet.mem_insert`, `IdSet.mem_union`, `IdSet.ext_mem` — what they mean

## Design Notes

A union walks both lists once.  It is written by nested structural recursion, so that closed sets
still compute by unfolding.
-/

namespace SimpleLR

/-- Insert a number into an ascending list, leaving the list alone if it is already there. -/
def insertAscending (x : Nat) : List Nat → List Nat
  | [] => [x]
  | y :: ys => if x < y then x :: y :: ys else if x = y then y :: ys else y :: insertAscending x ys

/-- The part of a merge in which `x` is the next number of the first list and `rest` merges what
comes after it. -/
def mergeFrom (x : Nat) (rest : List Nat → List Nat) : List Nat → List Nat
  | [] => x :: rest []
  | y :: ys =>
    if x < y then x :: rest (y :: ys)
    else if x = y then x :: rest ys
    else y :: mergeFrom x rest ys

/-- Merge two ascending lists, keeping one copy of a number they share. -/
def mergeAscending : List Nat → List Nat → List Nat
  | [], ys => ys
  | x :: xs, ys => mergeFrom x (mergeAscending xs) ys

theorem mem_insertAscending {x z : Nat} {ys : List Nat} :
    z ∈ insertAscending x ys ↔ z = x ∨ z ∈ ys := by
  induction ys with
  | nil => simp [insertAscending]
  | cons y ys ih =>
    rw [insertAscending]
    split
    · simp
    · split
      · simp_all
      · simp [ih]
        exact or_left_comm

theorem pairwise_insertAscending {x : Nat} {ys : List Nat} (h : ys.Pairwise (· < ·)) :
    (insertAscending x ys).Pairwise (· < ·) := by
  induction ys with
  | nil => simp [insertAscending]
  | cons y ys ih =>
    obtain ⟨hy, hys⟩ := List.pairwise_cons.1 h
    rw [insertAscending]
    split
    · rename_i hxy
      refine List.pairwise_cons.2 ⟨fun z hz => ?_, h⟩
      rcases List.mem_cons.1 hz with rfl | hz
      · exact hxy
      · exact Nat.lt_trans hxy (hy z hz)
    · split
      · exact h
      · refine List.pairwise_cons.2 ⟨fun z hz => ?_, ih hys⟩
        rcases mem_insertAscending.1 hz with rfl | hz
        · omega
        · exact hy z hz

theorem mem_mergeFrom {x z : Nat} {rest : List Nat → List Nat} {xs : List Nat}
    (hrest : ∀ ys, z ∈ rest ys ↔ z ∈ xs ∨ z ∈ ys) (ys : List Nat) :
    z ∈ mergeFrom x rest ys ↔ z = x ∨ z ∈ xs ∨ z ∈ ys := by
  induction ys with
  | nil => simp [mergeFrom, hrest]
  | cons y ys ih =>
    rw [mergeFrom]
    split
    · simp [hrest]
    · split
      · subst_vars
        simp [hrest]
        exact ⟨fun h => by rcases h with h | h | h <;> simp [h],
          fun h => by rcases h with h | h | h | h <;> simp [h]⟩
      · rw [List.mem_cons, ih, List.mem_cons]
        exact ⟨fun h => by rcases h with h | h | h | h <;> simp [h],
          fun h => by rcases h with h | h | h | h <;> simp [h]⟩

theorem mem_mergeAscending {z : Nat} {xs ys : List Nat} :
    z ∈ mergeAscending xs ys ↔ z ∈ xs ∨ z ∈ ys := by
  induction xs generalizing ys with
  | nil => simp [mergeAscending]
  | cons x xs ih => rw [mergeAscending, mem_mergeFrom (fun _ => ih), List.mem_cons, or_assoc]

theorem pairwise_mergeFrom {x : Nat} {xs : List Nat} (hx : ∀ z ∈ xs, x < z)
    (ih : ∀ ys : List Nat, ys.Pairwise (· < ·) → (mergeAscending xs ys).Pairwise (· < ·))
    {ys : List Nat} (h : ys.Pairwise (· < ·)) :
    (mergeFrom x (mergeAscending xs) ys).Pairwise (· < ·) := by
  induction ys with
  | nil =>
    refine List.pairwise_cons.2 ⟨fun z hz => ?_, ih [] List.Pairwise.nil⟩
    rcases mem_mergeAscending.1 hz with hz | hz
    · exact hx z hz
    · simp at hz
  | cons y ys ihys =>
    obtain ⟨hy, hys⟩ := List.pairwise_cons.1 h
    rw [mergeFrom]
    split
    · rename_i hxy
      refine List.pairwise_cons.2 ⟨fun z hz => ?_, ih _ h⟩
      rcases mem_mergeAscending.1 hz with hz | hz
      · exact hx z hz
      · rcases List.mem_cons.1 hz with rfl | hz
        · exact hxy
        · exact Nat.lt_trans hxy (hy z hz)
    · split
      · rename_i hxy
        subst hxy
        refine List.pairwise_cons.2 ⟨fun z hz => ?_, ih _ hys⟩
        rcases mem_mergeAscending.1 hz with hz | hz
        · exact hx z hz
        · exact hy z hz
      · refine List.pairwise_cons.2 ⟨fun z hz => ?_, ihys hys⟩
        rcases (mem_mergeFrom (fun _ => mem_mergeAscending) ys).1 hz with rfl | hz | hz
        · omega
        · have := hx z hz
          omega
        · exact hy z hz

theorem pairwise_mergeAscending {xs ys : List Nat} (hxs : xs.Pairwise (· < ·))
    (hys : ys.Pairwise (· < ·)) : (mergeAscending xs ys).Pairwise (· < ·) := by
  induction xs generalizing ys with
  | nil => exact hys
  | cons x xs ih =>
    obtain ⟨hx, hxs⟩ := List.pairwise_cons.1 hxs
    exact pairwise_mergeFrom hx (fun _ h => ih hxs h) hys

/-- A finite set of natural numbers: the strictly ascending list of its members. -/
structure IdSet where
  /-- The members, in ascending order. -/
  toList : List Nat
  /-- Each member is smaller than all that come after it. -/
  ascending : toList.Pairwise (· < ·)
  deriving DecidableEq

namespace IdSet

@[ext] theorem ext {s t : IdSet} (h : s.toList = t.toList) : s = t := by
  cases s
  cases t
  simp_all

instance : Membership Nat IdSet := ⟨fun s x => x ∈ s.toList⟩

theorem mem_def {x : Nat} {s : IdSet} : x ∈ s ↔ x ∈ s.toList := Iff.rfl

instance (x : Nat) (s : IdSet) : Decidable (x ∈ s) :=
  inferInstanceAs (Decidable (x ∈ s.toList))

/-- The set without members. -/
def empty : IdSet := ⟨[], List.Pairwise.nil⟩

instance : EmptyCollection IdSet := ⟨empty⟩

instance : Inhabited IdSet := ⟨empty⟩

@[simp] theorem toList_empty : (∅ : IdSet).toList = [] := rfl

@[simp] theorem not_mem_empty (x : Nat) : x ∉ (∅ : IdSet) := by
  simp [mem_def]

/-- Whether `x` is a member. -/
def contains (s : IdSet) (x : Nat) : Bool := s.toList.contains x

@[simp] theorem contains_iff {s : IdSet} {x : Nat} : s.contains x = true ↔ x ∈ s := by
  simp [contains, mem_def]

/-- The number of members. -/
def size (s : IdSet) : Nat := s.toList.length

/-- Whether there are no members. -/
def isEmpty (s : IdSet) : Bool := s.toList.isEmpty

/-- The set with `x` added. -/
def insert (s : IdSet) (x : Nat) : IdSet :=
  ⟨insertAscending x s.toList, pairwise_insertAscending s.ascending⟩

@[simp] theorem mem_insert {s : IdSet} {x z : Nat} : z ∈ s.insert x ↔ z = x ∨ z ∈ s :=
  mem_insertAscending

/-- The members of either set. -/
def union (s t : IdSet) : IdSet :=
  ⟨mergeAscending s.toList t.toList, pairwise_mergeAscending s.ascending t.ascending⟩

@[simp] theorem mem_union {s t : IdSet} {z : Nat} : z ∈ s.union t ↔ z ∈ s ∨ z ∈ t :=
  mem_mergeAscending

/-- The set of the numbers in a list. -/
def ofList (xs : List Nat) : IdSet := xs.foldl insert ∅

theorem mem_foldl_insert {xs : List Nat} {s : IdSet} {z : Nat} :
    z ∈ xs.foldl insert s ↔ z ∈ s ∨ z ∈ xs := by
  induction xs generalizing s with
  | nil => simp
  | cons x xs ih =>
    rw [List.foldl_cons, ih, mem_insert, List.mem_cons, or_comm (a := z = x), or_assoc]

@[simp] theorem mem_ofList {xs : List Nat} {z : Nat} : z ∈ ofList xs ↔ z ∈ xs := by
  simp [ofList, mem_foldl_insert]

/-- The set with the one member `x`. -/
def singleton (x : Nat) : IdSet := ⟨[x], List.pairwise_singleton _ x⟩

@[simp] theorem mem_singleton {x z : Nat} : z ∈ singleton x ↔ z = x := by
  simp [singleton, mem_def]

/-- The numbers from `first` up to, and without, `first + count`. -/
def interval (first count : Nat) : IdSet :=
  ⟨List.range' first count, List.pairwise_lt_range'⟩

@[simp] theorem mem_interval {first count z : Nat} :
    z ∈ interval first count ↔ first ≤ z ∧ z < first + count := by
  simp [interval, mem_def, List.mem_range'_1]

/-- A strictly ascending list is determined by its members. -/
theorem eq_of_pairwise_of_mem {xs ys : List Nat} (hxs : xs.Pairwise (· < ·))
    (hys : ys.Pairwise (· < ·)) (h : ∀ z, z ∈ xs ↔ z ∈ ys) : xs = ys := by
  induction xs generalizing ys with
  | nil =>
    cases ys with
    | nil => rfl
    | cons y ys => simpa using (h y).2 List.mem_cons_self
  | cons x xs ih =>
    cases ys with
    | nil => simpa using (h x).1 List.mem_cons_self
    | cons y ys =>
      obtain ⟨hx, hxs'⟩ := List.pairwise_cons.1 hxs
      obtain ⟨hy, hys'⟩ := List.pairwise_cons.1 hys
      have hxy : x = y := by
        rcases List.mem_cons.1 ((h x).1 List.mem_cons_self) with e | hxm
        · exact e
        · rcases List.mem_cons.1 ((h y).2 List.mem_cons_self) with e | hym
          · exact e.symm
          · have := hx y hym
            have := hy x hxm
            omega
      subst hxy
      refine congrArg (x :: ·) (ih hxs' hys' fun z => ⟨fun hz => ?_, fun hz => ?_⟩)
      · rcases List.mem_cons.1 ((h z).1 (List.mem_cons_of_mem _ hz)) with rfl | hz'
        · exact absurd (hx z hz) (Nat.lt_irrefl z)
        · exact hz'
      · rcases List.mem_cons.1 ((h z).2 (List.mem_cons_of_mem _ hz)) with rfl | hz'
        · exact absurd (hy z hz) (Nat.lt_irrefl z)
        · exact hz'

/-- **Sets are extensional**: those with the same members are equal. -/
theorem ext_mem {s t : IdSet} (h : ∀ z, z ∈ s ↔ z ∈ t) : s = t :=
  IdSet.ext (eq_of_pairwise_of_mem s.ascending t.ascending h)

/-- Whether adding `t` to `s` would bring in a new member. -/
def grows (s t : IdSet) : Bool := (s.union t).size != s.size

end IdSet

end SimpleLR
