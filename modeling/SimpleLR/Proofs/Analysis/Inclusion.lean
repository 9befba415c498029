import Mathlib.Algebra.Order.BigOperators.Group.Finset
import Mathlib.Data.List.Perm.Subperm
import SimpleLR.Analysis.Inclusion
import SimpleLR.Proofs.Analysis.Iteration

/-!
# Families of sets are least solutions of their inclusions

Enforcing inclusions makes the sets of a family grow, and it stops when all inclusions hold.  The
sets never get a member that a solution need not have: whatever predicate the inclusions preserve
holds of all members.  Between them these facts say that the family is the least solution.

## Main Statements

* `IdSet.size_le_of_subset`, `IdSet.eq_of_subset_of_size_le` — sizes and inclusion
* `inclusionUpdate_filter_isProper` — inclusions of a set in itself may be skipped
* `InclusionSystem` — inclusions that stay within a family, and a predicate that they preserve
* `InclusionSystem.sweep_spec` — what a family is after one sweep over the groups
-/

namespace SimpleLR

namespace IdSet

/-! ### Sizes -/

theorem nodup_toList (s : IdSet) : s.toList.Nodup := s.ascending.imp Nat.ne_of_lt

theorem size_le_of_subset {s t : IdSet} (h : ∀ x ∈ s, x ∈ t) : s.size ≤ t.size :=
  (List.subperm_of_subset s.nodup_toList h).length_le

theorem eq_of_subset_of_size_le {s t : IdSet} (h : ∀ x ∈ s, x ∈ t) (hs : t.size ≤ s.size) :
    s = t := by
  have hp : s.toList.Perm t.toList :=
    (List.subperm_of_subset s.nodup_toList h).perm_of_length_le hs
  exact ext_mem fun z => hp.mem_iff

theorem size_le_of_forall_lt {s : IdSet} {bound : Nat} (h : ∀ x ∈ s, x < bound) :
    s.size ≤ bound := by
  have hsub : s.toList ⊆ List.range bound := fun x hx => List.mem_range.2 (h x hx)
  have hle := (List.subperm_of_subset s.nodup_toList hsub).length_le
  rwa [List.length_range] at hle

/-- Adding what is missing changes the size just if something was missing. -/
theorem union_eq_self_of_size_eq {s t : IdSet} (h : (s.union t).size = s.size) :
    s.union t = s :=
  (eq_of_subset_of_size_le (fun _ hx => mem_union.2 (Or.inl hx)) (Nat.le_of_eq h)).symm

end IdSet

namespace Family

theorem setOf_replace {F : Family} {n : Nat} (s : IdSet) (h : n < F.sets.length) (m : Nat) :
    (F.replace n s).setOf m = if m = n then s else F.setOf m := by
  by_cases hm : m = n
  · rw [if_pos hm, hm, setOf_replace_self s h]
  · rw [if_neg hm, setOf_replace_of_ne s (Ne.symm hm)]

theorem replace_setOf_self (F : Family) (n : Nat) : F.replace n (F.setOf n) = F := by
  have hset : F.sets.set n (F.setOf n) = F.sets := by
    refine List.ext_getElem? fun i => ?_
    rw [List.getElem?_set]
    by_cases hi : n = i
    · subst hi
      rw [if_pos rfl]
      by_cases hn : n < F.sets.length
      · rw [if_pos hn, setOf, List.getElem?_eq_getElem hn, Option.getD_some]
      · rw [if_neg hn, List.getElem?_eq_none (Nat.le_of_not_lt hn)]
    · rw [if_neg hi]
  rw [replace, hset]

/-- Every set of the one family is included in that of the other. -/
def Le (F G : Family) : Prop := ∀ n, ∀ x ∈ F.setOf n, x ∈ G.setOf n

theorem Le.refl (F : Family) : F.Le F := fun _ _ hx => hx

theorem Le.trans {F G H : Family} (h : F.Le G) (h' : G.Le H) : F.Le H :=
  fun n x hx => h' n x (h n x hx)

/-- The number of members of the first `count` sets. -/
def amount (count : Nat) (F : Family) : Nat := ∑ n ∈ Finset.range count, (F.setOf n).size

theorem amount_le_of_le {count : Nat} {F G : Family} (h : F.Le G) :
    F.amount count ≤ G.amount count :=
  Finset.sum_le_sum fun n _ => IdSet.size_le_of_subset (h n)

theorem amount_lt_of_le {count : Nat} {F G : Family} (h : F.Le G) {n : Nat} (hn : n < count)
    (hlt : (F.setOf n).size < (G.setOf n).size) : F.amount count < G.amount count :=
  Finset.sum_lt_sum (fun n _ => IdSet.size_le_of_subset (h n)) ⟨n, Finset.mem_range.2 hn, hlt⟩

theorem amount_le_mul {count bound : Nat} {F : Family} (h : ∀ n, ∀ x ∈ F.setOf n, x < bound) :
    F.amount count ≤ count * bound := by
  calc F.amount count ≤ ∑ _n ∈ Finset.range count, bound :=
        Finset.sum_le_sum fun n _ => IdSet.size_le_of_forall_lt (h n)
    _ = count * bound := by
        rw [Finset.sum_const_nat fun _ _ => rfl, Finset.card_range]

end Family

namespace Inclusion

/-! ### Enforcing one inclusion -/

variable {i : Inclusion} {F : Family}

theorem length_enforce : (i.enforce F).2.sets.length = F.sets.length :=
  F.length_replace _ _

theorem mem_setOf_enforce (hi : i.target < F.sets.length) {n x : Nat} :
    x ∈ (i.enforce F).2.setOf n ↔
      x ∈ F.setOf n ∨ n = i.target ∧ x ∈ i.source.value F := by
  rw [enforce, Family.setOf_replace _ hi]
  by_cases hn : n = i.target
  · subst hn
    rw [if_pos rfl, IdSet.mem_union]
    simp
  · rw [if_neg hn]
    simp [hn]

theorem le_enforce (hi : i.target < F.sets.length) : F.Le (i.enforce F).2 :=
  fun _ _ hx => (mem_setOf_enforce hi).2 (Or.inl hx)

/-- An inclusion that reports no change has changed nothing, and held before. -/
theorem enforce_eq_self_of_fst_eq_false (h : (i.enforce F).1 = false) :
    (i.enforce F).2 = F ∧ i.Holds F := by
  have hsize : ((F.setOf i.target).union (i.source.value F)).size = (F.setOf i.target).size := by
    simpa [enforce] using h
  have hunion := IdSet.union_eq_self_of_size_eq hsize
  refine ⟨?_, ?_⟩
  · rw [enforce, hunion]
    exact F.replace_setOf_self i.target
  · intro x hx
    rw [← hunion]
    exact IdSet.mem_union.2 (Or.inr hx)

theorem size_lt_of_enforce (hi : i.target < F.sets.length) (h : (i.enforce F).1 = true) :
    (F.setOf i.target).size < ((i.enforce F).2.setOf i.target).size := by
  have hne : ((F.setOf i.target).union (i.source.value F)).size ≠ (F.setOf i.target).size := by
    simpa [enforce] using h
  have hle := IdSet.size_le_of_subset (le_enforce hi i.target)
  rw [enforce, Family.setOf_replace_self _ hi] at hle ⊢
  omega

/-- An inclusion that holds has nothing to add. -/
theorem enforce_of_holds (h : i.Holds F) : i.enforce F = (false, F) := by
  have hunion : (F.setOf i.target).union (i.source.value F) = F.setOf i.target := by
    apply IdSet.ext_mem
    intro x
    rw [IdSet.mem_union]
    exact or_iff_left_of_imp (h x)
  rw [enforce, hunion, F.replace_setOf_self]
  simp

/-! ### Self inclusions -/

/-- Whether an inclusion demands more than that a set includes itself. -/
def isProper (i : Inclusion) : Bool := decide (i.source ≠ .setOf i.target)

/-- A set includes itself in every family. -/
theorem holds_of_not_isProper (h : i.isProper = false) : i.Holds F := by
  have hself : i.source = .setOf i.target := by simpa [isProper] using h
  intro x hx
  rw [hself] at hx
  exact hx

end Inclusion

theorem enforceAll_filter_isProper (is : List Inclusion) (F : Family) :
    enforceAll (is.filter Inclusion.isProper) F = enforceAll is F := by
  induction is generalizing F with
  | nil => rfl
  | cons i is ih =>
    cases hi : i.isProper with
    | true => rw [List.filter_cons_of_pos hi, enforceAll, enforceAll, ih]
    | false =>
      have hskip := Inclusion.enforce_of_holds (Inclusion.holds_of_not_isProper (F := F) hi)
      rw [List.filter_cons_of_neg (by simp [hi]), ih, enforceAll, hskip]
      rfl

/-- **Self inclusions make no difference.**  An update may skip the productions that would make it
add the set of a nonterminal to itself: whatever inclusions there are, it changes the same sets and
reports the same. -/
theorem inclusionUpdate_filter_isProper (inclusions : Nat → List Inclusion) :
    inclusionUpdate (fun n => (inclusions n).filter Inclusion.isProper) =
      inclusionUpdate inclusions := by
  funext n F
  exact enforceAll_filter_isProper (inclusions n) F

/-- Inclusions for the nonterminals below `count`, and a predicate on the members of their sets that
the inclusions preserve. -/
structure InclusionSystem (count : Nat) (inclusions : Nat → List Inclusion)
    (P : Nat → Nat → Prop) (bound : Nat) : Prop where
  /-- The sets that grow are those of the family. -/
  target_lt : ∀ n, n < count → ∀ i ∈ inclusions n, i.target < count
  /-- Given sets satisfy the predicate. -/
  these : ∀ n, n < count → ∀ i ∈ inclusions n, ∀ s, i.source = .these s → ∀ x ∈ s, P i.target x
  /-- The predicate is passed on. -/
  passes : ∀ n, n < count → ∀ i ∈ inclusions n, ∀ m, i.source = .setOf m →
    ∀ x, P m x → P i.target x
  /-- There are finitely many possible members. -/
  lt_bound : ∀ n x, P n x → x < bound

namespace InclusionSystem

variable {count : Nat} {inclusions : Nat → List Inclusion} {P : Nat → Nat → Prop} {bound : Nat}
  (h : InclusionSystem count inclusions P bound)

/-- What holds all the time: the family lies between the one at the beginning and the predicate. -/
structure Between (count : Nat) (P : Nat → Nat → Prop) (seed F : Family) : Prop where
  length : F.sets.length = count
  le : seed.Le F
  sound : ∀ n, ∀ x ∈ F.setOf n, P n x

/-- All inclusions of the nonterminal hold. -/
def Holds (inclusions : Nat → List Inclusion) (n : Nat) (F : Family) : Prop :=
  ∀ i ∈ inclusions n, i.Holds F

include h

theorem between_enforce {n : Nat} (hn : n < count) {i : Inclusion} (hi : i ∈ inclusions n)
    {seed F : Family} (hF : Between count P seed F) : Between count P seed (i.enforce F).2 := by
  have htarget : i.target < F.sets.length := hF.length ▸ h.target_lt n hn i hi
  refine ⟨?_, hF.le.trans (Inclusion.le_enforce htarget), ?_⟩
  · rw [Inclusion.length_enforce, hF.length]
  · intro m x hx
    rcases (Inclusion.mem_setOf_enforce htarget).1 hx with hold | ⟨rfl, hnew⟩
    · exact hF.sound m x hold
    · rcases hs : i.source with s | k
      · rw [hs] at hnew
        exact h.these n hn i hi s hs x hnew
      · rw [hs] at hnew
        exact h.passes n hn i hi k hs x (hF.sound k x hnew)

/-- Enforcing inclusions in turn: the family grows, and the report says whether it did. -/
theorem enforceAll_spec {n : Nat} (hn : n < count) {is : List Inclusion}
    (his : ∀ i ∈ is, i ∈ inclusions n) {seed F : Family} (hF : Between count P seed F) :
    Between count P seed (enforceAll is F).2 ∧ F.Le (enforceAll is F).2 ∧
      ((enforceAll is F).1 = true → F.amount count < (enforceAll is F).2.amount count) ∧
      ((enforceAll is F).1 = false → (enforceAll is F).2 = F ∧ ∀ i ∈ is, i.Holds F) := by
  induction is generalizing F with
  | nil => exact ⟨hF, .refl F, by simp [enforceAll], by simp [enforceAll]⟩
  | cons i is ih =>
    obtain ⟨hi, his⟩ := List.forall_mem_cons.1 his
    have htarget := h.target_lt n hn i hi
    have hlen : i.target < F.sets.length := hF.length ▸ htarget
    have hstep := Inclusion.le_enforce hlen
    obtain ⟨hb, hle, htrue, hfalse⟩ := ih his (h.between_enforce hn hi hF)
    rw [enforceAll]
    refine ⟨hb, hstep.trans hle, ?_, ?_⟩
    · intro hr
      rcases Bool.or_eq_true _ _ ▸ hr with hr | hr
      · have hlt := Inclusion.size_lt_of_enforce hlen hr
        exact Nat.lt_of_lt_of_le (Family.amount_lt_of_le hstep htarget hlt)
          (Family.amount_le_of_le hle)
      · exact Nat.lt_of_le_of_lt (Family.amount_le_of_le hstep) (htrue hr)
    · intro hr
      obtain ⟨hr₁, hr₂⟩ := Bool.or_eq_false_iff.1 hr
      obtain ⟨heq, hholds⟩ := Inclusion.enforce_eq_self_of_fst_eq_false hr₁
      rw [heq] at hfalse hr₂ ⊢
      exact ⟨(hfalse hr₂).1, List.forall_mem_cons.2 ⟨hholds, (hfalse hr₂).2⟩⟩

theorem converges (seed : Family) :
    Analysis.Converges (inclusionUpdate inclusions) (· < count) (Between count P seed)
      (Family.amount count) (count * bound) (Holds inclusions) where
  inv _ _ hn hF := (h.enforceAll_spec hn (fun _ hi => hi) hF).1
  amount_le _ _ hn hF :=
    Family.amount_le_of_le (h.enforceAll_spec hn (fun _ hi => hi) hF).2.1
  amount_lt _ _ hn hF hr := (h.enforceAll_spec hn (fun _ hi => hi) hF).2.2.1 hr
  le_limit _ hF := Family.amount_le_mul fun n x hx => h.lt_bound n x (hF.sound n x hx)
  calm n F hn hF hr := by
    obtain ⟨heq, hholds⟩ := (h.enforceAll_spec hn (fun _ hi => hi) hF).2.2.2 hr
    rw [inclusionUpdate, heq]
    exact hholds
  calm_of_calm m n F hm _ hF hr hc := by
    obtain ⟨heq, -⟩ := (h.enforceAll_spec hm (fun _ hi => hi) hF).2.2.2 hr
    rw [inclusionUpdate, heq]
    exact hc

/-- Only the targets of the inclusions enforced can have changed. -/
theorem setOf_enforceAll_of_ne {n : Nat} (hn : n < count) {is : List Inclusion}
    (his : ∀ i ∈ is, i ∈ inclusions n) {seed F : Family} (hF : Between count P seed F) {m : Nat}
    (hm : ∀ i ∈ is, m ≠ i.target) : (enforceAll is F).2.setOf m = F.setOf m := by
  induction is generalizing F with
  | nil => rfl
  | cons i is ih =>
    obtain ⟨hi, his⟩ := List.forall_mem_cons.1 his
    obtain ⟨hmi, hm⟩ := List.forall_mem_cons.1 hm
    rw [enforceAll, ih his (h.between_enforce hn hi hF) hm]
    exact Family.setOf_replace_of_ne _ (Ne.symm hmi)

/-- A nonterminal is not disturbed by one whose inclusions have other targets than the sets that its
own inclusions read. -/
theorem undisturbed {n m : Nat} (hm : m < count)
    (hd : ∀ i ∈ inclusions n, ∀ j ∈ inclusions m, i.source ≠ .setOf j.target) (seed : Family) :
    Analysis.Undisturbed (inclusionUpdate inclusions) (Between count P seed) (Holds inclusions)
      n m := by
  intro F hF hc i hi x hx
  have hle := (h.enforceAll_spec hm (fun _ hj => hj) hF).2.1
  refine hle i.target x (hc i hi x ?_)
  rcases hs : i.source with s | k
  · rw [hs] at hx
    exact hx
  · rw [hs] at hx
    have hk : ∀ j ∈ inclusions m, k ≠ j.target := by
      rintro j hj rfl
      exact hd i hi j hj hs
    have hset := h.setOf_enforceAll_of_ne hm (fun _ hj => hj) hF hk
    change x ∈ (enforceAll (inclusions m) F).2.setOf k at hx
    rwa [hset] at hx

/-- No group is disturbed by those that come after it, if these do not add to sets that it reads. -/
theorem pairwise_undisturbed {groups : List (List Nat)}
    (hcover : ∀ n, n ∈ groups.flatten ↔ n < count)
    (hd : groups.Pairwise fun group later => ∀ n ∈ group, ∀ m ∈ later,
      ∀ i ∈ inclusions n, ∀ j ∈ inclusions m, i.source ≠ .setOf j.target) (seed : Family) :
    groups.Pairwise fun group later => ∀ n ∈ group, ∀ m ∈ later,
      Analysis.Undisturbed (inclusionUpdate inclusions) (Between count P seed) (Holds inclusions)
        n m := by
  refine hd.imp_of_mem fun {group later} _ hlater hgl n hn m hm => ?_
  have hm' := (hcover m).1 (List.mem_flatten.2 ⟨later, hlater, hm⟩)
  exact h.undisturbed hm' (hgl n hn m hm) seed

/-- **One sweep finds the least solution**: a family that includes the one at the beginning, has no
members but those it must have, and meets all inclusions. -/
theorem sweep_spec {groups : List (List Nat)} (hcover : ∀ n, n ∈ groups.flatten ↔ n < count)
    (hd : groups.Pairwise fun group later => ∀ n ∈ group, ∀ m ∈ later,
      ∀ i ∈ inclusions n, ∀ j ∈ inclusions m, i.source ≠ .setOf j.target)
    {rounds : Nat} (hrounds : count * bound < rounds) {seed : Family}
    (hlen : seed.sets.length = count) (hseed : ∀ n, ∀ x ∈ seed.setOf n, P n x) :
    Between count P seed (Analysis.sweep (inclusionUpdate inclusions) rounds groups seed).2 ∧
      ∀ n, n < count →
        Holds inclusions n (Analysis.sweep (inclusionUpdate inclusions) rounds groups seed).2 := by
  have hstart : Between count P seed seed := ⟨hlen, .refl seed, hseed⟩
  exact (h.converges seed).sweep_covering hcover (h.pairwise_undisturbed hcover hd seed) hrounds
    hstart

end InclusionSystem

end SimpleLR
