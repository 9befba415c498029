import SimpleLR.Analysis.Inclusion
import SimpleLR.Grammar.Dependency
import SimpleLR.Proofs.Digraph.Components

/-!
# Dependencies and their groups

The sets of dependencies and of dependents are given one by one, but one pass over the productions
finds all of them: whenever a production of `n` mentions a nonterminal `x`, there is one member more
in the set of what `n` depends on and one in the set of what depends on `x`.  Both tables hold the
same edges, read in the two directions.

What the order of the components of a graph means for the groups of nonterminals is that together
they are all nonterminals, and that no nonterminal depends on one of a later group.

## Main Definitions

* `Links`, `Grammar.links` — both tables, and how they are filled

## Main Statements

* `Grammar.links_eq` — they hold the dependencies and the dependents of every nonterminal
* `Grammar.mem_flatten_groups`, `Grammar.pairwise_groups` — the groups and their order
-/

namespace SimpleLR

/-- What each nonterminal depends on, and what depends on it, as far as it is known. -/
structure Links where
  /-- What each nonterminal depends on. -/
  onto : Family
  /-- What depends on each nonterminal. -/
  back : Family

namespace Grammar

variable (g : Grammar)

/-! ### One pass over the productions -/

/-- Nothing is known. -/
def noLinks : Links :=
  ⟨Family.emptySets g.numNonterminals, Family.emptySets g.numNonterminals⟩

/-- Take note that a production of `n` mentions the symbol `x`. -/
def noteSymbol (n : Nat) (t : Links) (x : Nat) : Links :=
  if g.isNonterminal x then
    ⟨t.onto.replace n ((t.onto.setOf n).insert x), t.back.replace x ((t.back.setOf x).insert n)⟩
  else t

/-- Take note of all symbols in the productions of `n`. -/
def noteProductions (t : Links) (n : Nat) : Links :=
  ((g.productionsOf n).flatMap (·.rhs)).foldl (g.noteSymbol n) t

/-- Both tables, filled by one pass over the productions. -/
def links : Links := g.nonterminals.foldl g.noteProductions g.noLinks

/-- The symbols that the productions of `n` mention, each paired with `n`. -/
def mentionsOf (n : Nat) : List (Nat × Nat) :=
  ((g.productionsOf n).flatMap (·.rhs)).map fun x => (n, x)

/-- Both tables hold the mentions of nonterminals in a list, each in one direction. -/
structure Notes (t : Links) (mentions : List (Nat × Nat)) : Prop where
  length_onto : t.onto.sets.length = g.numNonterminals
  length_back : t.back.sets.length = g.numNonterminals
  mem_onto : ∀ n m, m ∈ t.onto.setOf n ↔ g.isNonterminal m = true ∧ (n, m) ∈ mentions
  mem_back : ∀ n m, m ∈ t.back.setOf n ↔ g.isNonterminal n = true ∧ (m, n) ∈ mentions

variable {g} {t : Links} {mentions : List (Nat × Nat)} {n : Nat}

theorem notes_noLinks : g.Notes g.noLinks [] where
  length_onto := List.length_replicate
  length_back := List.length_replicate
  mem_onto := by simp [noLinks, Family.setOf_emptySets]
  mem_back := by simp [noLinks, Family.setOf_emptySets]

/-- A family in which one set has got a member. -/
theorem mem_setOf_replace_insert {F : Family} {m x y : Nat} (hn : n < F.sets.length) :
    y ∈ (F.replace n ((F.setOf n).insert x)).setOf m ↔ m = n ∧ y = x ∨ y ∈ F.setOf m := by
  by_cases hm : m = n
  · subst hm
    rw [Family.setOf_replace_self _ hn, IdSet.mem_insert]
    simp
  · rw [Family.setOf_replace_of_ne _ (Ne.symm hm)]
    simp [hm]

/-- One symbol more is noted in both directions if it is a nonterminal, and in none otherwise. -/
theorem Notes.noteSymbol (h : g.Notes t mentions) (hn : g.isNonterminal n = true) (x : Nat) :
    g.Notes (g.noteSymbol n t x) (mentions ++ [(n, x)]) := by
  rw [Grammar.noteSymbol]
  by_cases hx : g.isNonterminal x = true
  · rw [if_pos hx]
    have honto : n < t.onto.sets.length := h.length_onto ▸ g.isNonterminal_iff.1 hn
    have hback : x < t.back.sets.length := h.length_back ▸ g.isNonterminal_iff.1 hx
    refine ⟨(Family.length_replace _ _ _).trans h.length_onto,
      (Family.length_replace _ _ _).trans h.length_back, fun k m => ?_, fun k m => ?_⟩
    · rw [mem_setOf_replace_insert honto, h.mem_onto, List.mem_append, List.mem_singleton]
      grind
    · rw [mem_setOf_replace_insert hback, h.mem_back, List.mem_append, List.mem_singleton]
      grind
  · rw [if_neg hx]
    refine ⟨h.length_onto, h.length_back, fun k m => ?_, fun k m => ?_⟩
    · rw [h.mem_onto, List.mem_append, List.mem_singleton]
      grind
    · rw [h.mem_back, List.mem_append, List.mem_singleton]
      grind

theorem Notes.foldl_noteSymbol (h : g.Notes t mentions) (hn : g.isNonterminal n = true)
    (xs : List Nat) :
    g.Notes (xs.foldl (g.noteSymbol n) t) (mentions ++ xs.map fun x => (n, x)) := by
  induction xs generalizing t mentions with
  | nil => simpa using h
  | cons x xs ih =>
    have hrest := ih (h.noteSymbol hn x)
    rwa [List.append_assoc, List.singleton_append] at hrest

theorem Notes.foldl_noteProductions (h : g.Notes t mentions) {ns : List Nat}
    (hns : ∀ n ∈ ns, g.isNonterminal n = true) :
    g.Notes (ns.foldl g.noteProductions t) (mentions ++ ns.flatMap g.mentionsOf) := by
  induction ns generalizing t mentions with
  | nil => simpa using h
  | cons n ns ih =>
    obtain ⟨hn, hns⟩ := List.forall_mem_cons.1 hns
    have hhere : g.Notes (g.noteProductions t n) (mentions ++ g.mentionsOf n) :=
      h.foldl_noteSymbol hn _
    have hrest := ih hhere hns
    rwa [List.append_assoc, ← List.flatMap_cons] at hrest

variable (g)

theorem notes_links : g.Notes g.links (g.nonterminals.flatMap g.mentionsOf) :=
  notes_noLinks.foldl_noteProductions fun _ hn => g.isNonterminal_iff.2 (List.mem_range.1 hn)

theorem mem_mentions_iff {n m : Nat} :
    (n, m) ∈ g.nonterminals.flatMap g.mentionsOf ↔
      g.isNonterminal n = true ∧ ∃ p ∈ g.productionsOf n, m ∈ p.rhs := by
  simp [mentionsOf, nonterminals, isNonterminal]

/-- Only nonterminals have productions. -/
theorem isNonterminal_of_mem_productionsOf {n : Nat} {p : Production}
    (hp : p ∈ g.productionsOf n) : g.isNonterminal n = true := by
  obtain ⟨hmem, rfl⟩ := g.mem_productionsOf.1 hp
  exact g.isNonterminal_lhs hmem

/-- **One pass over the productions finds all dependencies**, in both directions: the tables have a
set for each nonterminal, which holds what it mentions in the one table, and what mentions it in the
other. -/
theorem links_eq : g.links.onto.sets = g.nonterminals.map g.dependencies ∧
    g.links.back.sets = g.nonterminals.map g.dependents := by
  have hnotes := g.notes_links
  have honto : g.links.onto.setOf = g.dependencies := by
    funext n
    apply IdSet.ext_mem
    intro m
    rw [hnotes.mem_onto, mem_mentions_iff, mem_dependencies]
    refine and_congr_right fun _ => and_iff_right_of_imp ?_
    rintro ⟨p, hp, -⟩
    exact g.isNonterminal_of_mem_productionsOf hp
  have hback : g.links.back.setOf = g.dependents := by
    funext n
    apply IdSet.ext_mem
    intro m
    rw [hnotes.mem_back, mem_mentions_iff, mem_dependents]
    exact and_left_comm
  rw [g.links.onto.sets_eq_map_setOf, g.links.back.sets_eq_map_setOf, hnotes.length_onto,
    hnotes.length_back, honto, hback]
  exact ⟨rfl, rfl⟩

/-! ### Groups -/

theorem mem_flatten_groups {n : Nat} : n ∈ g.components.flatten ↔ n < g.numNonterminals :=
  g.dependencyGraph.mem_flatten_components

theorem mem_flatten_reverse_groups {n : Nat} :
    n ∈ g.components.reverse.flatten ↔ n < g.numNonterminals := by
  rw [(List.reverse_perm g.components).flatten.mem_iff]
  exact g.mem_flatten_groups

/-- No nonterminal depends on one of a later group. -/
theorem pairwise_groups :
    g.components.Pairwise fun group later => ∀ n ∈ group, ∀ m ∈ later, m ∉ g.dependencies n :=
  g.dependencyGraph.pairwise_components

/-- Backwards, no nonterminal depends on one of an earlier group. -/
theorem pairwise_reverse_groups :
    g.components.reverse.Pairwise fun group later =>
      ∀ n ∈ group, ∀ m ∈ later, n ∉ g.dependencies m :=
  List.pairwise_reverse.2 (g.pairwise_groups.imp fun h n hn m hm => h m hm n hn)

end Grammar

end SimpleLR
