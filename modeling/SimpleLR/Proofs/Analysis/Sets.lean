import Mathlib.Logic.Relation
import SimpleLR.Analysis
import SimpleLR.Proofs.Analysis.Inclusion
import SimpleLR.Proofs.Analysis.Property

/-!
# What the sets of a grammar satisfy

Left corners, first sets and follow sets come out of one sweep each, so each family is the least
solution of its inclusions.  For the left corners this is a closed description, by chains of
nonterminals that begin each other's right-hand sides.  For the first and follow sets it is stated
production by production here.

## Main Statements

* `Grammar.mem_left_iff` — left corners are chains of first symbols
* `Grammar.isNullable_lhs` — nullability is passed on by productions
* `Grammar.mem_first_lhs`, `Grammar.mem_follow_of_mem_first`, `Grammar.mem_follow_of_mem_follow` —
  the first and follow sets meet the demands of all productions
* `Grammar.isTerminal_of_mem_first`, `Grammar.isTerminal_of_mem_follow` — they have terminals only
-/

namespace SimpleLR

theorem mem_of_mem_throughNullable {nullable : Nat → Bool} {x : Nat} {xs : List Nat}
    (h : x ∈ throughNullable nullable xs) : x ∈ xs := by
  induction xs with
  | nil => simp [throughNullable] at h
  | cons y ys ih =>
    rw [throughNullable] at h
    split at h
    · rcases List.mem_cons.1 h with rfl | h
      · exact List.mem_cons_self
      · exact List.mem_cons_of_mem _ (ih h)
    · rw [List.mem_singleton.1 h]
      exact List.mem_cons_self

theorem Family.not_mem_emptySets {count n x : Nat} : x ∉ (Family.emptySets count).setOf n := by
  rw [setOf_emptySets]
  exact IdSet.not_mem_empty x

/-- Only sets that are in the family have members. -/
theorem Family.lt_length_of_mem_setOf {F : Family} {n x : Nat} (h : x ∈ F.setOf n) :
    n < F.sets.length := by
  by_contra hn
  rw [setOf, List.getElem?_eq_none (Nat.le_of_not_lt hn), Option.getD_none] at h
  exact IdSet.not_mem_empty x h

namespace Grammar

variable (g : Grammar)

/-! ### Left corners -/

/-- Some right-hand side of `n` begins with the nonterminal `m`. -/
def BeginsWith (n m : Nat) : Prop :=
  g.isNonterminal m = true ∧ ∃ p ∈ g.productionsOf n, ∃ rest, p.rhs = m :: rest

/-- `m` can come to stand leftmost when only the leftmost symbol is replaced, beginning with `n`. -/
def LeftCorner : Nat → Nat → Prop := Relation.ReflTransGen g.BeginsWith

theorem mem_leftInclusions {n : Nat} {i : Inclusion} :
    i ∈ g.leftInclusions n ↔ ∃ m, g.BeginsWith n m ∧ i = ⟨n, .setOf m⟩ := by
  rw [leftInclusions, List.mem_filterMap]
  constructor
  · rintro ⟨p, hp, hi⟩
    rcases hr : p.rhs with _ | ⟨m, rest⟩
    · simp [hr] at hi
    · rw [hr] at hi
      dsimp only at hi
      split at hi
      · rename_i hm
        exact ⟨m, ⟨hm, p, hp, rest, hr⟩, (Option.some.inj hi).symm⟩
      · simp at hi
  · rintro ⟨m, ⟨hm, p, hp, rest, hr⟩, rfl⟩
    exact ⟨p, hp, by simp [hr, hm]⟩

theorem LeftCorner.isNonterminal {n m : Nat} (h : g.LeftCorner n m)
    (hn : g.isNonterminal n = true) : g.isNonterminal m = true := by
  rcases Relation.ReflTransGen.cases_tail h with rfl | ⟨_, _, hm⟩
  · exact hn
  · exact hm.1

theorem leftSystem :
    InclusionSystem g.numNonterminals g.leftInclusions
      (fun n m => g.isNonterminal n = true ∧ g.LeftCorner n m) g.numSymbols where
  target_lt n hn i hi := by
    obtain ⟨m, -, rfl⟩ := g.mem_leftInclusions.1 hi
    exact hn
  these n _ i hi s hs := by
    obtain ⟨m, -, rfl⟩ := g.mem_leftInclusions.1 hi
    simp at hs
  passes n hn i hi k hk x hx := by
    obtain ⟨m, hm, rfl⟩ := g.mem_leftInclusions.1 hi
    obtain rfl : m = k := Source.setOf.inj hk
    exact ⟨g.isNonterminal_iff.2 hn, .head hm hx.2⟩
  lt_bound n x hx := by
    have hlt := g.isNonterminal_iff.1 (hx.2.isNonterminal g hx.1)
    exact Nat.lt_trans hlt g.numNonterminals_lt

theorem mem_leftSeed {n x : Nat} :
    x ∈ (Family.mk (g.nonterminals.map IdSet.singleton)).setOf n ↔
      g.isNonterminal n = true ∧ x = n := by
  rw [Family.setOf, List.getElem?_map, isNonterminal_iff]
  by_cases hn : n < g.numNonterminals
  · rw [nonterminals, List.getElem?_range hn, Option.map_some, Option.getD_some]
    simp [hn]
  · rw [nonterminals, List.getElem?_eq_none (by simpa using hn), Option.map_none,
      Option.getD_none]
    simp [hn]

theorem leftCorner_of_mem_leftSeed {n x : Nat}
    (h : x ∈ (Family.mk (g.nonterminals.map IdSet.singleton)).setOf n) :
    g.isNonterminal n = true ∧ g.LeftCorner n x := by
  obtain ⟨hn, rfl⟩ := g.mem_leftSeed.1 h
  exact ⟨hn, .refl⟩

/-- Left corners are never read from a set that a later group adds to. -/
theorem pairwise_leftInclusions :
    g.components.Pairwise fun group later => ∀ n ∈ group, ∀ m ∈ later,
      ∀ i ∈ g.leftInclusions n, ∀ j ∈ g.leftInclusions m, i.source ≠ .setOf j.target := by
  refine g.pairwise_groups.imp fun h n hn m hm i hi j hj hs => h n hn m hm ?_
  obtain ⟨k, ⟨hk, p, hp, rest, hr⟩, rfl⟩ := g.mem_leftInclusions.1 hi
  obtain ⟨l, -, rfl⟩ := g.mem_leftInclusions.1 hj
  obtain rfl : k = m := Source.setOf.inj hs
  exact g.mem_dependencies.2 ⟨hk, p, hp, hr ▸ List.mem_cons_self⟩

theorem left_spec :
    InclusionSystem.Between g.numNonterminals
        (fun n m => g.isNonterminal n = true ∧ g.LeftCorner n m)
        ⟨g.nonterminals.map IdSet.singleton⟩ g.analyse.left ∧
      ∀ n, n < g.numNonterminals →
        InclusionSystem.Holds g.leftInclusions n g.analyse.left := by
  apply g.leftSystem.sweep_spec (fun n => g.mem_flatten_groups) g.pairwise_leftInclusions
    (Nat.lt_succ_self _) (by simp [nonterminals])
  intro n x hx
  exact g.leftCorner_of_mem_leftSeed hx

/-- **Left corners are chains of first symbols.** -/
theorem mem_left_iff {n m : Nat} :
    m ∈ g.analyse.left.setOf n ↔ g.isNonterminal n = true ∧ g.LeftCorner n m := by
  obtain ⟨hbetween, hholds⟩ := g.left_spec
  constructor
  · exact hbetween.sound n m
  · rintro ⟨hn, h⟩
    induction h using Relation.ReflTransGen.head_induction_on with
    | refl => exact hbetween.le _ _ (g.mem_leftSeed.2 ⟨hn, rfl⟩)
    | @head n k hk _ ih =>
      exact hholds n (g.isNonterminal_iff.1 hn) _ (g.mem_leftInclusions.2 ⟨k, hk, rfl⟩) m
        (ih hk.1)

/-! ### Nullable nonterminals -/

theorem isNullable_eq (x : Nat) :
    g.analyse.isNullable x = Property.has (g.decisions .fails g.components).2 x := rfl

theorem status_eq_holds_iff {x : Nat} :
    Property.status g .fails (g.decisions .fails g.components).2 x = .holds ↔
      g.analyse.isNullable x = true := by
  rw [isNullable_eq, Property.has, beq_iff_eq]
  by_cases hn : g.isNonterminal x = true
  · exact Property.status_eq_iff hn (by simp)
  · refine iff_of_false ?_ fun h => hn (g.isNonterminal_of_decided h)
    simp [Property.status, hn]

/-- Nullability is passed on by productions. -/
theorem isNullable_lhs {p : Production} (hp : p ∈ g.productions)
    (h : ∀ x ∈ p.rhs, g.analyse.isNullable x = true) : g.analyse.isNullable p.lhs = true :=
  g.decisions_complete hp fun x hx => g.status_eq_holds_iff.2 (h x hx)

/-! ### First sets -/

/-- The terminals that the symbol `x` contributes where it stands first. -/
def firstOf (x : Nat) : IdSet := (g.firstSource x).value g.analyse.first

theorem mem_firstInclusions {nullable : Nat → Bool} {n : Nat} {i : Inclusion} :
    i ∈ g.firstInclusions nullable n ↔
      ∃ p ∈ g.productionsOf n, ∃ x ∈ throughNullable nullable p.rhs, i = ⟨n, g.firstSource x⟩ := by
  simp only [firstInclusions, List.mem_flatMap, List.mem_map, eq_comm]

theorem firstSource_eq_setOf {x m : Nat} (h : g.firstSource x = .setOf m) :
    x = m ∧ g.isNonterminal x = true := by
  rw [firstSource] at h
  split at h
  · rename_i hx
    exact ⟨Source.setOf.inj h, hx⟩
  · simp at h

theorem firstSource_eq_these {x : Nat} {s : IdSet} (h : g.firstSource x = .these s) :
    s = IdSet.singleton x ∧ g.isNonterminal x = false := by
  rw [firstSource] at h
  split at h
  · simp at h
  · rename_i hx
    exact ⟨(Source.these.inj h).symm, by simpa using hx⟩

/-- The symbols of a right-hand side are terminals or nonterminals. -/
theorem isTerminal_of_mem_rhs {p : Production} (hp : p ∈ g.productions) {x : Nat}
    (hx : x ∈ p.rhs) (hn : g.isNonterminal x = false) : g.isTerminal x = true :=
  g.isTerminal_of_lt (g.lt_numSymbols_of_mem_rhs hp hx) hn

theorem lt_numSymbols_of_isTerminal {x : Nat} (hx : g.isTerminal x = true) : x < g.numSymbols :=
  (g.isTerminal_iff.1 hx).2

theorem firstSystem (nullable : Nat → Bool) :
    InclusionSystem g.numNonterminals (g.firstInclusions nullable)
      (fun _ t => g.isTerminal t = true) g.numSymbols where
  target_lt n hn i hi := by
    obtain ⟨p, -, x, -, rfl⟩ := g.mem_firstInclusions.1 hi
    exact hn
  these n _ i hi s hs t ht := by
    obtain ⟨p, hp, x, hx, rfl⟩ := g.mem_firstInclusions.1 hi
    obtain ⟨rfl, hx'⟩ := g.firstSource_eq_these hs
    rw [IdSet.mem_singleton.1 ht]
    exact g.isTerminal_of_mem_rhs (g.mem_productionsOf.1 hp).1 (mem_of_mem_throughNullable hx) hx'
  passes _ _ _ _ _ _ _ ht := ht
  lt_bound _ _ ht := g.lt_numSymbols_of_isTerminal ht

/-- First sets are never read from a set that a later group adds to. -/
theorem pairwise_firstInclusions (nullable : Nat → Bool) :
    g.components.Pairwise fun group later => ∀ n ∈ group, ∀ m ∈ later,
      ∀ i ∈ g.firstInclusions nullable n, ∀ j ∈ g.firstInclusions nullable m,
        i.source ≠ .setOf j.target := by
  refine g.pairwise_groups.imp fun h n hn m hm i hi j hj hs => h n hn m hm ?_
  obtain ⟨p, hp, x, hx, rfl⟩ := g.mem_firstInclusions.1 hi
  obtain ⟨q, -, y, -, rfl⟩ := g.mem_firstInclusions.1 hj
  obtain ⟨rfl, hn⟩ := g.firstSource_eq_setOf hs
  exact g.mem_dependencies.2 ⟨hn, p, hp, mem_of_mem_throughNullable hx⟩

/-- The first sets are the least solution of their inclusions: they meet all of them, and whatever
the inclusions preserve holds of all members. -/
theorem first_spec {P : Nat → Nat → Prop} (h : InclusionSystem g.numNonterminals
      (g.firstInclusions g.analyse.isNullable) P g.numSymbols) :
    InclusionSystem.Between g.numNonterminals P (Family.emptySets g.numNonterminals)
        g.analyse.first ∧
      ∀ n, n < g.numNonterminals →
        InclusionSystem.Holds (g.firstInclusions g.analyse.isNullable) n g.analyse.first := by
  apply h.sweep_spec (fun n => g.mem_flatten_groups) (g.pairwise_firstInclusions _)
    (Nat.lt_succ_self _) (by simp [Family.emptySets])
  intro n t ht
  exact absurd ht Family.not_mem_emptySets

theorem isTerminal_of_mem_first {n t : Nat} (h : t ∈ g.analyse.first.setOf n) :
    g.isTerminal t = true :=
  (g.first_spec (g.firstSystem _)).1.sound n t h

theorem isNonterminal_of_mem_first {n t : Nat} (h : t ∈ g.analyse.first.setOf n) :
    g.isNonterminal n = true := by
  rw [isNonterminal_iff, ← (g.first_spec (g.firstSystem _)).1.length]
  exact Family.lt_length_of_mem_setOf h

/-- The first set of a nonterminal has what its right-hand sides contribute. -/
theorem mem_first_lhs {p : Production} (hp : p ∈ g.productions) {x t : Nat}
    (hx : x ∈ throughNullable g.analyse.isNullable p.rhs) (ht : t ∈ g.firstOf x) :
    t ∈ g.analyse.first.setOf p.lhs := by
  have hlhs := g.isNonterminal_iff.1 (g.isNonterminal_lhs hp)
  refine (g.first_spec (g.firstSystem _)).2 p.lhs hlhs ⟨p.lhs, g.firstSource x⟩ ?_ t ht
  exact g.mem_firstInclusions.2 ⟨p, g.mem_productionsOf.2 ⟨hp, rfl⟩, x, hx, rfl⟩

theorem firstOf_of_isNonterminal {x : Nat} (h : g.isNonterminal x = true) :
    g.firstOf x = g.analyse.first.setOf x := by
  rw [firstOf, firstSource, if_pos h]
  rfl

theorem firstOf_of_not_isNonterminal {x : Nat} (h : g.isNonterminal x = false) :
    g.firstOf x = IdSet.singleton x := by
  rw [firstOf, firstSource, if_neg (by simp [h])]
  rfl

/-! ### Follow sets -/

/-- The demands of a right-hand side, by the nonterminal that they are about. -/
theorem mem_followInclusionsIn {nullable : Nat → Bool} {first : Family} {n : Nat} {xs : List Nat}
    {i : Inclusion} :
    i ∈ g.followInclusionsIn nullable first n xs ↔
      ∃ before x rest, xs = before ++ x :: rest ∧ g.isNonterminal x = true ∧
        ((∃ y ∈ throughNullable nullable rest, i = ⟨x, .these ((g.firstSource y).value first)⟩) ∨
          (∀ y ∈ rest, nullable y = true) ∧ i = ⟨x, .setOf n⟩) := by
  induction xs with
  | nil => simp [followInclusionsIn]
  | cons x rest ih =>
    have hhere : (i ∈ if g.isNonterminal x = true then
          (throughNullable nullable rest).map
              (fun y => ⟨x, .these ((g.firstSource y).value first)⟩) ++
            (if rest.all nullable = true then [⟨x, .setOf n⟩] else [])
        else []) ↔ g.isNonterminal x = true ∧
        ((∃ y ∈ throughNullable nullable rest, i = ⟨x, .these ((g.firstSource y).value first)⟩) ∨
          (∀ y ∈ rest, nullable y = true) ∧ i = ⟨x, .setOf n⟩) := by
      have hbehind : i ∈ (throughNullable nullable rest).map
          (fun y => ⟨x, .these ((g.firstSource y).value first)⟩) ↔
          ∃ y ∈ throughNullable nullable rest,
            i = ⟨x, .these ((g.firstSource y).value first)⟩ := by
        rw [List.mem_map]
        exact exists_congr fun y => and_congr_right fun _ => eq_comm
      have hvanish : (i ∈ if rest.all nullable = true then [Inclusion.mk x (.setOf n)] else []) ↔
          (∀ y ∈ rest, nullable y = true) ∧ i = ⟨x, .setOf n⟩ := by
        rw [← List.all_eq_true]
        split <;> simp_all
      by_cases hx : g.isNonterminal x = true
      · rw [if_pos hx, List.mem_append, hbehind, hvanish]
        exact (and_iff_right hx).symm
      · rw [if_neg hx]
        simp [hx]
    rw [followInclusionsIn, List.mem_append, ih, hhere]
    constructor
    · rintro (⟨hx, h⟩ | ⟨before, y, rest', rfl, hy, h⟩)
      · exact ⟨[], x, rest, rfl, hx, h⟩
      · exact ⟨x :: before, y, rest', rfl, hy, h⟩
    · rintro ⟨before, y, rest', he, hy, h⟩
      rcases before with _ | ⟨z, before⟩
      · obtain ⟨rfl, rfl⟩ := List.cons.inj he
        exact Or.inl ⟨hy, h⟩
      · obtain ⟨rfl, rfl⟩ := List.cons.inj he
        exact Or.inr ⟨before, y, rest', rfl, hy, h⟩

theorem mem_followInclusions {nullable : Nat → Bool} {first : Family} {n : Nat} {i : Inclusion} :
    i ∈ g.followInclusions nullable first n ↔
      ∃ p ∈ g.productionsOf n, i ∈ g.followInclusionsIn nullable first n p.rhs := by
  rw [followInclusions, List.mem_flatMap]

theorem target_of_mem_followInclusions {nullable : Nat → Bool} {first : Family} {n : Nat}
    {i : Inclusion} (h : i ∈ g.followInclusions nullable first n) :
    i.target ∈ g.dependencies n := by
  obtain ⟨p, hp, hi⟩ := g.mem_followInclusions.1 h
  obtain ⟨before, x, rest, hr, hx, h⟩ := g.mem_followInclusionsIn.1 hi
  have ht : i.target = x := by
    rcases h with ⟨y, -, rfl⟩ | ⟨-, rfl⟩ <;> rfl
  rw [ht]
  refine g.mem_dependencies.2 ⟨hx, p, hp, ?_⟩
  rw [hr]
  exact List.mem_append_right _ List.mem_cons_self

theorem source_of_mem_followInclusions {nullable : Nat → Bool} {first : Family} {n m : Nat}
    {i : Inclusion} (h : i ∈ g.followInclusions nullable first n) (hs : i.source = .setOf m) :
    m = n := by
  obtain ⟨p, -, hi⟩ := g.mem_followInclusions.1 h
  obtain ⟨before, x, rest, -, -, ⟨y, -, rfl⟩ | ⟨-, rfl⟩⟩ := g.mem_followInclusionsIn.1 hi
  · simp at hs
  · exact (Source.setOf.inj hs).symm

theorem isTerminal_of_mem_firstOf {p : Production} (hp : p ∈ g.productions) {x t : Nat}
    (hx : x ∈ p.rhs) (ht : t ∈ g.firstOf x) : g.isTerminal t = true := by
  by_cases hn : g.isNonterminal x = true
  · rw [g.firstOf_of_isNonterminal hn] at ht
    exact g.isTerminal_of_mem_first ht
  · rw [g.firstOf_of_not_isNonterminal (by simpa using hn)] at ht
    rw [IdSet.mem_singleton.1 ht]
    exact g.isTerminal_of_mem_rhs hp hx (by simpa using hn)

theorem followSystem :
    InclusionSystem g.numNonterminals
      (g.followInclusions g.analyse.isNullable g.analyse.first)
      (fun _ t => g.isTerminal t = true) g.numSymbols where
  target_lt n _ i hi :=
    g.isNonterminal_iff.1 (g.mem_dependencies.1 (g.target_of_mem_followInclusions hi)).1
  these n _ i hi s hs t ht := by
    obtain ⟨p, hp, hi⟩ := g.mem_followInclusions.1 hi
    obtain ⟨before, x, rest, hr, -, ⟨y, hy, rfl⟩ | ⟨-, rfl⟩⟩ := g.mem_followInclusionsIn.1 hi
    · obtain rfl : (g.firstSource y).value g.analyse.first = s := Source.these.inj hs
      refine g.isTerminal_of_mem_firstOf (g.mem_productionsOf.1 hp).1 (x := y) ?_ ht
      rw [hr]
      exact List.mem_append_right _ (List.mem_cons_of_mem _ (mem_of_mem_throughNullable hy))
    · simp at hs
  passes _ _ _ _ _ _ _ ht := ht
  lt_bound _ _ ht := g.lt_numSymbols_of_isTerminal ht

theorem mem_followSeed {n t : Nat} :
    t ∈ g.followSeed.setOf n ↔ n = start ∧ t = g.endOfInput := by
  have hlen : start < (Family.emptySets g.numNonterminals).sets.length := by
    simpa [Family.emptySets, start] using g.numNonterminals_pos
  rw [followSeed, Family.setOf_replace _ hlen]
  by_cases hn : n = start
  · simp [hn]
  · rw [if_neg hn, Family.setOf_emptySets]
    simp [hn]

theorem of_mem_followSeed {P : Nat → Nat → Prop} (hseed : P start g.endOfInput) {n t : Nat}
    (ht : t ∈ g.followSeed.setOf n) : P n t := by
  obtain ⟨rfl, rfl⟩ := g.mem_followSeed.1 ht
  exact hseed

/-- Backwards, follow sets are never read from a set that a later group adds to. -/
theorem pairwise_followInclusions (nullable : Nat → Bool) (first : Family) :
    g.components.reverse.Pairwise fun group later => ∀ n ∈ group, ∀ m ∈ later,
      ∀ i ∈ g.followInclusions nullable first n, ∀ j ∈ g.followInclusions nullable first m,
        i.source ≠ .setOf j.target := by
  refine g.pairwise_reverse_groups.imp fun h n hn m hm i hi j hj hs => h n hn m hm ?_
  rw [← g.source_of_mem_followInclusions hi hs]
  exact g.target_of_mem_followInclusions hj

/-- The follow sets are the least solution of their inclusions in which the end of the input follows
the start symbol. -/
theorem follow_spec {P : Nat → Nat → Prop} (h : InclusionSystem g.numNonterminals
      (g.followInclusions g.analyse.isNullable g.analyse.first) P g.numSymbols)
    (hseed : P start g.endOfInput) :
    InclusionSystem.Between g.numNonterminals P g.followSeed g.analyse.follow ∧
      ∀ n, n < g.numNonterminals →
        InclusionSystem.Holds (g.followInclusions g.analyse.isNullable g.analyse.first) n
          g.analyse.follow := by
  apply h.sweep_spec (fun n => g.mem_flatten_reverse_groups) (g.pairwise_followInclusions _ _)
    (Nat.lt_succ_self _) (by simp [followSeed, Family.emptySets])
  intro n t ht
  exact g.of_mem_followSeed hseed ht

theorem isTerminal_of_mem_follow {n t : Nat} (h : t ∈ g.analyse.follow.setOf n) :
    g.isTerminal t = true :=
  (g.follow_spec g.followSystem g.isTerminal_endOfInput).1.sound n t h

theorem follow_holds {n : Nat} (hn : n < g.numNonterminals) :
    InclusionSystem.Holds (g.followInclusions g.analyse.isNullable g.analyse.first) n
      g.analyse.follow :=
  (g.follow_spec g.followSystem g.isTerminal_endOfInput).2 n hn

/-- The end of the input can follow the start symbol. -/
theorem endOfInput_mem_follow_start : g.endOfInput ∈ g.analyse.follow.setOf start :=
  (g.follow_spec g.followSystem g.isTerminal_endOfInput).1.le _ _ (g.mem_followSeed.2 ⟨rfl, rfl⟩)

/-- What comes to stand behind a nonterminal in a right-hand side follows it. -/
theorem mem_follow_of_mem_first {p : Production} (hp : p ∈ g.productions)
    {before rest : List Nat} {x y t : Nat} (hr : p.rhs = before ++ x :: rest)
    (hx : g.isNonterminal x = true) (hy : y ∈ throughNullable g.analyse.isNullable rest)
    (ht : t ∈ g.firstOf y) : t ∈ g.analyse.follow.setOf x := by
  have hlhs := g.isNonterminal_iff.1 (g.isNonterminal_lhs hp)
  refine g.follow_holds hlhs ⟨x, .these (g.firstOf y)⟩ ?_ t ht
  refine g.mem_followInclusions.2 ⟨p, g.mem_productionsOf.2 ⟨hp, rfl⟩, ?_⟩
  exact g.mem_followInclusionsIn.2 ⟨before, x, rest, hr, hx, Or.inl ⟨y, hy, rfl⟩⟩

/-- What follows the left-hand side follows a nonterminal behind which all can vanish. -/
theorem mem_follow_of_mem_follow {p : Production} (hp : p ∈ g.productions)
    {before rest : List Nat} {x t : Nat} (hr : p.rhs = before ++ x :: rest)
    (hx : g.isNonterminal x = true) (hrest : ∀ y ∈ rest, g.analyse.isNullable y = true)
    (ht : t ∈ g.analyse.follow.setOf p.lhs) : t ∈ g.analyse.follow.setOf x := by
  have hlhs := g.isNonterminal_iff.1 (g.isNonterminal_lhs hp)
  refine g.follow_holds hlhs ⟨x, .setOf p.lhs⟩ ?_ t ht
  refine g.mem_followInclusions.2 ⟨p, g.mem_productionsOf.2 ⟨hp, rfl⟩, ?_⟩
  exact g.mem_followInclusionsIn.2 ⟨before, x, rest, hr, hx, Or.inr ⟨hrest, rfl⟩⟩

end Grammar

end SimpleLR
