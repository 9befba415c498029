import Mathlib.Data.List.Chain
import SimpleLR.Grammar.Validation
import SimpleLR.Proofs.Analysis.Follow

/-!
# The sets of a grammar say what is derived

The left corners of a nonterminal are what chains of first symbols lead to.  They have nothing to do
with what the symbols derive: whatever stands behind the first symbol has no part in it.

A nullable symbol derives the empty string, a first set has only terminals that come first in
something derived from its nonterminal, and a follow set has only terminals that come right after
its nonterminal in something derived.  Each is what the productions pass on from right-hand sides to
left-hand sides, or the other way, so it holds of all members of the least solution.  In the other
direction, what a string can begin with and what can follow its nonterminals have been carried along
derivations, so first sets and follow sets are exact.

What is derived need not be reachable from the start symbol, and need not derive a word in turn.

## Main Definitions

* `Grammar.FirstSymbol` — a symbol stands first in a right-hand side
* `Grammar.FollowedBy` — a terminal comes right after a nonterminal in something derived

## Main Statements

* `Grammar.mem_left_iff_chain` — left corners are exact
* `Grammar.derives_nil_of_isNullable` — nullable symbols derive the empty string
* `Grammar.exists_derives_of_mem_first` — first sets have only what comes first
* `Grammar.mem_first_iff` — first sets are exact
* `Grammar.followedBy_of_mem_follow` — follow sets have only what comes after
* `Grammar.mem_follow_iff` — follow sets are exact
-/

namespace SimpleLR.Grammar

variable {g : Grammar}

/-! ### Left corners -/

/-- The symbol `x` stands first in a right-hand side of `n`. -/
def FirstSymbol (g : Grammar) (n x : Nat) : Prop := ∃ p ∈ g.productionsOf n, p.rhs.head? = some x

theorem FirstSymbol.isNonterminal {n x : Nat} (h : g.FirstSymbol n x) :
    g.isNonterminal n = true := by
  obtain ⟨p, hp, -⟩ := h
  obtain ⟨hmem, rfl⟩ := g.mem_productionsOf.1 hp
  exact g.isNonterminal_lhs hmem

theorem beginsWith_iff {n m : Nat} :
    g.BeginsWith n m ↔ g.isNonterminal m = true ∧ g.FirstSymbol n m := by
  simp only [BeginsWith, FirstSymbol, List.head?_eq_some_iff]

/-- A chain of first symbols to a nonterminal is one of nonterminals throughout: all but its last
symbol have a right-hand side. -/
theorem leftCorner_of_isChain {n m : Nat} {chain : List Nat}
    (h : (n :: chain).IsChain g.FirstSymbol) (hlast : (n :: chain).getLast? = some m)
    (hm : g.isNonterminal m = true) : g.LeftCorner n m := by
  induction chain generalizing n with
  | nil =>
    obtain rfl : n = m := by simpa using hlast
    exact .refl
  | cons k chain ih =>
    obtain ⟨hfirst, hchain⟩ := List.isChain_cons_cons.1 h
    have hcorner := ih hchain (by simpa using hlast)
    have hk : g.isNonterminal k = true := by
      rcases Relation.ReflTransGen.cases_head hcorner with rfl | ⟨_, hbegins, -⟩
      · exact hm
      · exact (beginsWith_iff.1 hbegins).2.isNonterminal
    exact .head (beginsWith_iff.2 ⟨hk, hfirst⟩) hcorner

theorem LeftCorner.exists_isChain {n m : Nat} (h : g.LeftCorner n m) :
    ∃ chain, (n :: chain).IsChain g.FirstSymbol ∧ (n :: chain).getLast? = some m := by
  obtain ⟨chain, hchain, hlast⟩ := List.exists_isChain_cons_of_relationReflTransGen h
  refine ⟨chain, hchain.imp fun _ _ hbegins => (beginsWith_iff.1 hbegins).2, ?_⟩
  rw [List.getLast?_eq_some_getLast (List.cons_ne_nil n chain), hlast]

/-- Left corners depend on the first symbols of right-hand sides only. -/
theorem left_congr {g' : Grammar} (hn : g'.numNonterminals = g.numNonterminals)
    (hfirst : ∀ n m, g.isNonterminal m = true → (g'.FirstSymbol n m ↔ g.FirstSymbol n m))
    (n : Nat) : g'.analyse.left.setOf n = g.analyse.left.setOf n := by
  have hnonterminal (x : Nat) : g'.isNonterminal x = g.isNonterminal x := by
    rw [isNonterminal, isNonterminal, hn]
  have hbegins : g'.BeginsWith = g.BeginsWith := by
    funext k m
    rw [eq_iff_iff, beginsWith_iff, beginsWith_iff, hnonterminal]
    exact and_congr_right (hfirst k m)
  refine IdSet.ext_mem fun m => ?_
  rw [mem_left_iff, mem_left_iff, hnonterminal, LeftCorner, LeftCorner, hbegins]

/-- **Left corners are exact**: those of a nonterminal are the nonterminals that a chain of first
symbols leads to.  Terminals are not among them, and what stands behind the first symbol of a
right-hand side adds nothing, even if all that stands before it is nullable. -/
theorem mem_left_iff_chain (g : Grammar) :
    (∀ n m, m ∈ g.analyse.left.setOf n ↔ g.isNonterminal n = true ∧ g.isNonterminal m = true ∧
        ∃ chain, (n :: chain).IsChain g.FirstSymbol ∧ (n :: chain).getLast? = some m) ∧
      (∀ n t, g.isTerminal t = true → t ∉ g.analyse.left.setOf n) ∧
      ∀ g' : Grammar, g'.numNonterminals = g.numNonterminals →
        (∀ n m, g.isNonterminal m = true → (g'.FirstSymbol n m ↔ g.FirstSymbol n m)) →
        ∀ n, g'.analyse.left.setOf n = g.analyse.left.setOf n := by
  refine ⟨fun n m => ?_, fun n t ht hmem => ?_, fun g' hn hfirst => left_congr hn hfirst⟩
  · rw [mem_left_iff]
    constructor
    · rintro ⟨hn, hcorner⟩
      exact ⟨hn, hcorner.isNonterminal g hn, hcorner.exists_isChain⟩
    · rintro ⟨hn, hm, chain, hchain, hlast⟩
      exact ⟨hn, leftCorner_of_isChain hchain hlast hm⟩
  · obtain ⟨hn, hcorner⟩ := g.mem_left_iff.1 hmem
    rw [g.isTerminal_eq_false (hcorner.isNonterminal g hn)] at ht
    cases ht

/-- The productions `S := A B`, `A :=` and `B := x`, in which `A` is nullable. -/
def vanishing : Grammar :=
  ofWellFormed [⟨"S", none⟩, ⟨"A", none⟩, ⟨"B", none⟩, ⟨"x", none⟩, ⟨"$end", none⟩] 3
    [[⟨[1, 2], none⟩], [⟨[], none⟩], [⟨[3], none⟩]]
    ⟨by decide, by decide, by decide, by decide, by decide, by decide⟩

/-- The same with `S := A`. -/
def vanishingCut : Grammar :=
  ofWellFormed [⟨"S", none⟩, ⟨"A", none⟩, ⟨"B", none⟩, ⟨"x", none⟩, ⟨"$end", none⟩] 3
    [[⟨[1], none⟩], [⟨[], none⟩], [⟨[3], none⟩]]
    ⟨by decide, by decide, by decide, by decide, by decide, by decide⟩

/-- In `S := A B` the nonterminal `B` comes behind a nullable one, and is no left corner of `S`. -/
theorem mem_left_iff_chain_vanishing :
    vanishing.analyse.isNullable 1 = true ∧ 1 ∈ vanishing.analyse.left.setOf 0 ∧
      2 ∉ vanishing.analyse.left.setOf 0 ∧
      vanishingCut.analyse.left.setOf 0 = vanishing.analyse.left.setOf 0 := by
  refine ⟨by decide +kernel, ?_, by decide +kernel, ?_⟩
  · refine ((mem_left_iff_chain vanishing).1 0 1).2 ⟨rfl, rfl, [1], ?_, rfl⟩
    exact List.isChain_pair.2 ⟨⟨0, 0, 0, [1, 2], none⟩, by decide, rfl⟩
  · refine (mem_left_iff_chain vanishing).2.2 vanishingCut rfl (fun n m _ => ?_) 0
    rcases n with _ | _ | _ | n <;>
      simp [FirstSymbol, productionsOf, vanishing, vanishingCut, ofWellFormed, numberRules,
        numberAlternatives]

/-! ### Nullable symbols -/

/-- If all symbols of a string derive the empty string, then the string does. -/
theorem derives_nil_of_forall {xs : List Nat} (h : ∀ x ∈ xs, g.Derives [x] []) :
    g.Derives xs [] := by
  induction xs with
  | nil => exact .refl []
  | cons x xs ih =>
    rw [List.forall_mem_cons] at h
    exact h.1.append (ih h.2)

theorem passedOn_derives_nil : Property.PassedOn g .fails fun x => g.Derives [x] [] := by
  intro p hp h
  refine (derives_of_mem hp).trans (derives_nil_of_forall ?_)
  intro x hx
  rcases h x hx with ⟨-, hnil⟩ | ⟨-, hterminal⟩
  · exact hnil
  · cases hterminal

/-- **Nullable symbols derive the empty string.** -/
theorem derives_nil_of_isNullable {x : Nat} (h : g.analyse.isNullable x = true) :
    g.Derives [x] [] :=
  g.decisions_sound passedOn_derives_nil h

/-! ### First sets -/

/-- A symbol behind nullable symbols comes to stand first. -/
theorem exists_derives_of_mem_throughNullable {x : Nat} {xs : List Nat}
    (h : x ∈ throughNullable g.analyse.isNullable xs) : ∃ rest, g.Derives xs (x :: rest) := by
  induction xs with
  | nil => simp [throughNullable] at h
  | cons y ys ih =>
    rw [throughNullable] at h
    split at h
    · next hnull =>
      rcases List.mem_cons.1 h with rfl | hmem
      · exact ⟨ys, .refl _⟩
      · obtain ⟨rest, hrest⟩ := ih hmem
        exact ⟨rest, (derives_nil_of_isNullable hnull).append hrest⟩
    · rw [List.mem_singleton.1 h]
      exact ⟨ys, .refl _⟩

/-- What comes first in something derived from the first symbol comes first. -/
theorem Derives.exists_cons {x t : Nat} {xs rest : List Nat} (h : g.Derives xs (x :: rest))
    (hx : ∃ rest', g.Derives [x] (t :: rest')) : ∃ rest', g.Derives xs (t :: rest') := by
  obtain ⟨rest', hx⟩ := hx
  exact ⟨rest' ++ rest, h.trans (hx.append (.refl rest))⟩

theorem firstDerivedSystem (g : Grammar) :
    InclusionSystem g.numNonterminals (g.firstInclusions g.analyse.isNullable)
      (fun n t => g.isTerminal t = true ∧ ∃ rest, g.Derives [n] (t :: rest)) g.numSymbols where
  target_lt := (g.firstSystem _).target_lt
  these n hn i hi s hs t ht := by
    refine ⟨(g.firstSystem _).these n hn i hi s hs t ht, ?_⟩
    obtain ⟨p, hp, x, hx, rfl⟩ := g.mem_firstInclusions.1 hi
    obtain ⟨rfl, -⟩ := g.firstSource_eq_these hs
    obtain ⟨hmem, rfl⟩ := g.mem_productionsOf.1 hp
    obtain ⟨rest, hrest⟩ := exists_derives_of_mem_throughNullable hx
    rw [IdSet.mem_singleton.1 ht]
    exact ⟨rest, (derives_of_mem hmem).trans hrest⟩
  passes n _ i hi m hs t ht := by
    refine ⟨ht.1, ?_⟩
    obtain ⟨p, hp, x, hx, rfl⟩ := g.mem_firstInclusions.1 hi
    obtain ⟨rfl, -⟩ := g.firstSource_eq_setOf hs
    obtain ⟨hmem, rfl⟩ := g.mem_productionsOf.1 hp
    obtain ⟨rest, hrest⟩ := exists_derives_of_mem_throughNullable hx
    exact ((derives_of_mem hmem).trans hrest).exists_cons ht.2
  lt_bound _ _ ht := g.lt_numSymbols_of_isTerminal ht.1

/-- **First sets have only what comes first** in something derived. -/
theorem exists_derives_of_mem_first {n t : Nat} (h : t ∈ g.analyse.first.setOf n) :
    ∃ rest, g.Derives [n] (t :: rest) :=
  ((g.first_spec g.firstDerivedSystem).1.sound n t h).2

theorem exists_derives_of_mem_firstOf {x t : Nat} (h : t ∈ g.firstOf x) :
    ∃ rest, g.Derives [x] (t :: rest) := by
  by_cases hx : g.isNonterminal x = true
  · rw [g.firstOf_of_isNonterminal hx] at h
    exact exists_derives_of_mem_first h
  · rw [g.firstOf_of_not_isNonterminal (by simpa using hx)] at h
    rw [IdSet.mem_singleton.1 h]
    exact ⟨[], .refl _⟩

/-- A terminal that comes first in something derived from a nonterminal is in its first set. -/
theorem mem_first_of_derivation {n t : Nat} {ps : List Production} {rest : List Nat}
    (h : g.Derivation [n] ps (t :: rest)) (hn : g.isNonterminal n = true)
    (ht : g.isTerminal t = true) : t ∈ g.analyse.first.setOf n := by
  -- nothing comes behind the nonterminal, so it has to begin with the terminal itself
  have hbegin : g.CanBegin t False [n] := CanBegin.of_derivation h (canBegin_cons ht rest)
  rcases hbegin with hmem | ⟨-, hafter⟩
  · rwa [g.firstOf_of_isNonterminal hn] at hmem
  · exact hafter.elim

/-- It takes a production to derive a string that begins with a terminal from a nonterminal. -/
theorem Derivation.ne_nil {n t : Nat} {ps : List Production} {rest : List Nat}
    (h : g.Derivation [n] ps (t :: rest)) (hn : g.isNonterminal n = true)
    (ht : g.isTerminal t = true) : ps ≠ [] := by
  cases h with
  | refl =>
    rw [g.isTerminal_eq_false hn] at ht
    cases ht
  | tail => simp

/-- **First sets are exact**: the first set of a nonterminal has the terminals that come first in
something derived from it by one production or more. -/
theorem mem_first_iff (g : Grammar) (n t : Nat) :
    t ∈ g.analyse.first.setOf n ↔ g.isTerminal t = true ∧ g.isNonterminal n = true ∧
      ∃ ps rest, ps ≠ [] ∧ g.Derivation [n] ps (t :: rest) := by
  constructor
  · intro h
    have hn := g.isNonterminal_of_mem_first h
    have ht := g.isTerminal_of_mem_first h
    obtain ⟨rest, ps, hd⟩ := exists_derives_of_mem_first h
    exact ⟨ht, hn, ps, rest, hd.ne_nil hn ht, hd⟩
  · rintro ⟨ht, hn, ps, rest, -, hd⟩
    exact mem_first_of_derivation hd hn ht

/-! ### Follow sets -/

/-- The terminal `t` comes right after the nonterminal `n` in something derived from a nonterminal,
or it is the end of the input and `n` comes last in something derived from the start symbol. -/
def FollowedBy (g : Grammar) (n t : Nat) : Prop :=
  (∃ m before after, g.isNonterminal m = true ∧ g.Derives [m] (before ++ n :: t :: after)) ∨
    t = g.endOfInput ∧ ∃ before, g.Derives [start] (before ++ [n])

/-- What can come to stand behind a nonterminal in a right-hand side follows it. -/
theorem followedBy_of_rhs {p : Production} (hp : p ∈ g.productions) {before rest tail : List Nat}
    {x t : Nat} (hr : p.rhs = before ++ x :: rest) (ht : g.Derives rest (t :: tail)) :
    g.FollowedBy x t := by
  refine Or.inl ⟨p.lhs, before, tail, g.isNonterminal_lhs hp, ?_⟩
  have hrhs := derives_of_mem hp
  rw [hr] at hrhs
  have hbehind := ht.context (before ++ [x]) []
  simp only [List.append_assoc, List.append_nil, List.singleton_append] at hbehind
  exact hrhs.trans hbehind

/-- What follows the left-hand side follows a nonterminal behind which all can vanish. -/
theorem FollowedBy.pass {p : Production} (hp : p ∈ g.productions) {before rest : List Nat}
    {x t : Nat} (hr : p.rhs = before ++ x :: rest) (hrest : g.Derives rest [])
    (h : g.FollowedBy p.lhs t) : g.FollowedBy x t := by
  have hlast : g.Derives [p.lhs] (before ++ [x]) := by
    have hrhs := derives_of_mem hp
    rw [hr] at hrhs
    have hvanish := hrest.context (before ++ [x]) []
    simp only [List.append_assoc, List.append_nil, List.singleton_append] at hvanish
    exact hrhs.trans hvanish
  rcases h with ⟨m, b, after, hm, hd⟩ | ⟨rfl, b, hd⟩
  · refine Or.inl ⟨m, b ++ before, after, hm, ?_⟩
    have hreplaced := hlast.context b (t :: after)
    simp only [List.append_assoc, List.singleton_append] at hreplaced ⊢
    exact hd.trans hreplaced
  · refine Or.inr ⟨rfl, b ++ before, ?_⟩
    have hreplaced := hlast.context b []
    simp only [List.append_nil] at hreplaced
    rw [List.append_assoc]
    exact hd.trans hreplaced

theorem followDerivedSystem (g : Grammar) :
    InclusionSystem g.numNonterminals (g.followInclusions g.analyse.isNullable g.analyse.first)
      (fun n t => g.isTerminal t = true ∧ g.isNonterminal n = true ∧ g.FollowedBy n t)
      g.numSymbols where
  target_lt := g.followSystem.target_lt
  these n hn i hi s hs t ht := by
    refine ⟨g.followSystem.these n hn i hi s hs t ht, ?_⟩
    obtain ⟨p, hp, hi⟩ := g.mem_followInclusions.1 hi
    obtain ⟨before, x, rest, hr, hx, ⟨y, hy, rfl⟩ | ⟨-, rfl⟩⟩ := g.mem_followInclusionsIn.1 hi
    · obtain rfl : (g.firstSource y).value g.analyse.first = s := Source.these.inj hs
      obtain ⟨tail, htail⟩ := exists_derives_of_mem_throughNullable hy
      obtain ⟨tail', htail'⟩ := htail.exists_cons (exists_derives_of_mem_firstOf ht)
      exact ⟨hx, followedBy_of_rhs (g.mem_productionsOf.1 hp).1 hr htail'⟩
    · cases hs
  passes n _ i hi m hs t ht := by
    obtain ⟨hterm, -, hfollowed⟩ := ht
    obtain ⟨p, hp, hi⟩ := g.mem_followInclusions.1 hi
    obtain ⟨before, x, rest, hr, hx, ⟨y, hy, rfl⟩ | ⟨hnull, rfl⟩⟩ :=
      g.mem_followInclusionsIn.1 hi
    · cases hs
    · obtain rfl : n = m := Source.setOf.inj hs
      obtain ⟨hmem, rfl⟩ := g.mem_productionsOf.1 hp
      have hvanish : g.Derives rest [] :=
        derives_nil_of_forall fun y hy => derives_nil_of_isNullable (hnull y hy)
      exact ⟨hterm, hx, hfollowed.pass hmem hr hvanish⟩
  lt_bound _ _ ht := g.lt_numSymbols_of_isTerminal ht.1

/-- **Follow sets have only what comes after** their nonterminals in something derived. -/
theorem followedBy_of_mem_follow {n t : Nat} (h : t ∈ g.analyse.follow.setOf n) :
    g.isTerminal t = true ∧ g.isNonterminal n = true ∧ g.FollowedBy n t := by
  refine (g.follow_spec g.followDerivedSystem ?_).1.sound n t h
  exact ⟨g.isTerminal_endOfInput, g.isNonterminal_start, Or.inr ⟨rfl, [], .refl _⟩⟩

/-- All that can begin what stands behind a nonterminal in something derived from a nonterminal is
in its follow set. -/
theorem mem_follow_of_derives {m n t : Nat} {before after : List Nat}
    (h : g.Derives [m] (before ++ n :: t :: after)) (hn : g.isNonterminal n = true)
    (ht : g.isTerminal t = true) : t ∈ g.analyse.follow.setOf n := by
  obtain ⟨ps, h⟩ := h
  -- a nonterminal by itself is followed by what its follow set has
  have hself : g.WellFollowed (fun t => t ∈ g.analyse.follow.setOf m) [m] :=
    ⟨fun _ _ hmem => hmem, trivial⟩
  have hall := wellFollowed_of_derivation h hself
  rw [wellFollowed_append] at hall
  exact hall.2.1 hn t (canBegin_cons ht after)

/-- **Follow sets are exact**: the follow set of a nonterminal has the terminals that come right
after it in something derived from a nonterminal, and the end of the input if it comes last in
something derived from the start symbol. -/
theorem mem_follow_iff (g : Grammar) (n t : Nat) :
    t ∈ g.analyse.follow.setOf n ↔ g.isTerminal t = true ∧ g.isNonterminal n = true ∧
      ((∃ m before after, g.isNonterminal m = true ∧
          g.Derives [m] (before ++ n :: t :: after)) ∨
        t = g.endOfInput ∧ ∃ before, g.Derives [start] (before ++ [n])) := by
  constructor
  · exact followedBy_of_mem_follow
  · rintro ⟨ht, hn, ⟨m, before, after, -, h⟩ | ⟨rfl, before, ps, h⟩⟩
    · exact mem_follow_of_derives h hn ht
    · exact mem_follow_of_derivation h hn (show g.CanBegin _ _ [] from rfl)

end SimpleLR.Grammar
