import SimpleLR.Analysis.Iteration
import SimpleLR.IdSet

/-!
# Families of sets that include each other

The sets of symbols attached to the nonterminals of a grammar are least solutions of inclusions:
the set of one nonterminal includes a given set, or the set of another nonterminal.  An `Inclusion`
is such a demand, and enforcing it makes the target grow by what is missing.

## Main Definitions

* `Family` — a set for each nonterminal
* `Inclusion`, `Inclusion.enforce` — a demand on a family, and the family that meets it
* `enforceAll`, `inclusionUpdate` — meet demands in turn, reporting whether anything grew
-/

namespace SimpleLR

/-- A set for each nonterminal, by number. -/
structure Family where
  /-- The sets in the order of the nonterminals. -/
  sets : List IdSet
  deriving DecidableEq

namespace Family

/-- The set of nonterminal `n`; empty if there is no such nonterminal. -/
def setOf (F : Family) (n : Nat) : IdSet := F.sets[n]?.getD ∅

/-- The family with the set of nonterminal `n` replaced. -/
def replace (F : Family) (n : Nat) (s : IdSet) : Family := ⟨F.sets.set n s⟩

/-- The family of `count` empty sets. -/
def emptySets (count : Nat) : Family := ⟨List.replicate count ∅⟩

@[simp] theorem length_replace (F : Family) (n : Nat) (s : IdSet) :
    (F.replace n s).sets.length = F.sets.length := by
  simp [replace]

theorem setOf_replace_self {F : Family} {n : Nat} (s : IdSet) (h : n < F.sets.length) :
    (F.replace n s).setOf n = s := by
  simp [replace, setOf, h]

theorem setOf_replace_of_ne {F : Family} {n m : Nat} (s : IdSet) (h : n ≠ m) :
    (F.replace n s).setOf m = F.setOf m := by
  simp [replace, setOf, List.getElem?_set_ne h]

theorem setOf_emptySets (count n : Nat) : (emptySets count).setOf n = ∅ := by
  rw [emptySets, setOf, List.getElem?_replicate]
  split <;> rfl

/-- The sets of a family, read one by one. -/
theorem sets_eq_map_setOf (F : Family) : F.sets = (List.range F.sets.length).map F.setOf := by
  refine List.ext_getElem (by simp) fun n hn _ => ?_
  simp [setOf, hn]

end Family

/-- The smaller side of an inclusion. -/
inductive Source where
  /-- A given set. -/
  | these (s : IdSet)
  /-- The set of a nonterminal. -/
  | setOf (n : Nat)
  deriving DecidableEq

/-- The set that a source stands for in a family. -/
def Source.value (F : Family) : Source → IdSet
  | these s => s
  | setOf n => F.setOf n

/-- The demand that the set of `target` includes `source`. -/
structure Inclusion where
  /-- The nonterminal whose set is to grow. -/
  target : Nat
  /-- What it is to include. -/
  source : Source
  deriving DecidableEq

namespace Inclusion

/-- Whether a family meets the demand. -/
def Holds (i : Inclusion) (F : Family) : Prop := ∀ x ∈ i.source.value F, x ∈ F.setOf i.target

/-- Let the target grow by what is missing, and report whether anything was. -/
def enforce (i : Inclusion) (F : Family) : Bool × Family :=
  let old := F.setOf i.target
  let new := old.union (i.source.value F)
  (new.size != old.size, F.replace i.target new)

end Inclusion

/-- Enforce inclusions in turn, and report whether anything grew. -/
def enforceAll : List Inclusion → Family → Bool × Family
  | [], F => (false, F)
  | i :: is, F =>
    let r := i.enforce F
    let rest := enforceAll is r.2
    (r.1 || rest.1, rest.2)

/-- The update that enforces the inclusions of the nonterminal it looks at. -/
def inclusionUpdate (inclusions : Nat → List Inclusion) : Analysis.Update Family :=
  fun n F => enforceAll (inclusions n) F

end SimpleLR
