import SimpleLR.Proofs.Grammar.Dependency
import SimpleLR.Proofs.Parse.Unambiguity
import SimpleLR.Proofs.Table.Usage

/-!
# Which productions are in use

A nonterminal that cannot be reached from the start symbol is never about to be recognised, so no
state has an item of its productions, although its follow set and its left corners are computed like
all others.  Nothing can bring such a production into a slot.

Conversely, if a nonterminal can be reached and all nonterminals are productive, then each of its
productions is the last step of some right derivation.  The string up to the end of the right-hand
side leads to a state with a reduce for it, and what comes behind is in the lookahead.  Such a
reduce may still lose its slots in contests; where there are none it keeps them.

## Main Statements

* `Grammar.reaches_iff_leftContext` — the nonterminals that can be reached are those with a left
  context
* `Grammar.exists_walk?_eq` — every state is reached along some string
* `Grammar.exists_reduce_candidate_of_reaches` — productions that can be reached are candidates
* `Grammar.used_of_reaches` — which productions are in use
-/

namespace SimpleLR

namespace Grammar

open Automaton

variable {g : Grammar}

/-! ### Nonterminals that can be reached -/

theorem LeftContext.reaches {n : Nat} {context : List Nat} (h : g.LeftContext n context) :
    g.dependencyGraph.Reaches Grammar.start n := by
  induction h with
  | start => exact .refl
  | @step p d before after n _ hp hr hn ih =>
    have hmentioned : n ∈ g.dependencies p.lhs :=
      g.mem_dependencies.2 ⟨hn, p, g.mem_productionsOf.2 ⟨hp, rfl⟩, by simp [hr]⟩
    exact .tail ih hmentioned

/-- **The nonterminals that can be reached** from the start symbol are those that may come next
after some string. -/
theorem reaches_iff_leftContext {n : Nat} :
    g.dependencyGraph.Reaches start n ↔ ∃ context, g.LeftContext n context := by
  constructor
  · intro h
    induction h with
    | refl => exact ⟨[], .start⟩
    | @tail m n _ hn ih =>
      obtain ⟨context, hcontext⟩ := ih
      obtain ⟨hnonterminal, p, hp, hmem⟩ := g.mem_dependencies.1 hn
      obtain ⟨hproduction, rfl⟩ := g.mem_productionsOf.1 hp
      obtain ⟨before, after, hr⟩ := List.append_of_mem hmem
      exact ⟨context ++ before, .step hcontext hproduction hr hnonterminal⟩
  · rintro ⟨context, hcontext⟩
    exact hcontext.reaches

/-! ### Productions that can be reached -/

/-- **Every state is reached along some string**, because it is the next state of one with a lower
number. -/
theorem exists_walk?_eq {s : Nat} {state : State} (hs : g.automaton.state? s = some state) :
    ∃ string, g.automaton.walk? initial string = some s := by
  induction s using Nat.strong_induction_on generalizing state with
  | _ s ih =>
    by_cases hne : s = initial
    · exact ⟨[], by rw [hne, walk?_nil]⟩
    · obtain ⟨s', state', x, hlower, hs', hnext⟩ := exists_next?_eq hs hne
      obtain ⟨string, hwalk⟩ := ih s' hlower hs'
      refine ⟨string ++ [x], ?_⟩
      rw [walk?_append, hwalk, Option.bind_some, walk?_cons, hnext, Option.bind_some, walk?_nil]

/-- No state reduces by a production that cannot be reached. -/
theorem reaches_of_reduceProduction? {s r : Nat} {p : Production}
    (h : g.automaton.reduceProduction? s r = some p) : g.dependencyGraph.Reaches start p.lhs := by
  obtain ⟨state, hs⟩ := exists_state?_of_reduceProduction? h
  obtain ⟨string, hwalk⟩ := exists_walk?_eq hs
  obtain ⟨state', hs', hfits⟩ := walk?_fits hwalk
  obtain ⟨-, context, -, hcontext⟩ := (reduceProduction?_iff hs' hfits).1 ⟨r, h⟩
  exact hcontext.reaches

/-- **Productions that can be reached are candidates** for some slot, if all nonterminals are
productive. -/
theorem exists_reduce_candidate_of_reaches (hg : g.Productive) (mode : Mode) {p : Production}
    (hp : p ∈ g.productions) (hreaches : g.dependencyGraph.Reaches start p.lhs) :
    ∃ s t r, g.automaton.reduceProduction? s r = some p ∧
      Action.reduce r ∈ g.automaton.candidates (g.automaton.lookahead mode) s t := by
  obtain ⟨context, hcontext⟩ := reaches_iff_leftContext.1 hreaches
  obtain ⟨ps, word, hword, hderivation⟩ := hcontext.exists_rightDerivation hg
  obtain ⟨t, rest, ht⟩ := g.exists_facing_eq word
  obtain ⟨s, -, r, -, -, -, hr, hmem⟩ :=
    hderivation.exists_reduce_candidate mode hp hword ht
  exact ⟨s, t, r, hr, hmem⟩

end Grammar

namespace Tables

open Automaton Grammar

variable {g : Grammar} {T : Tables g} {mode : Mode} {p : Production}

theorem ReducesBy.reaches (hT : T.automaton = g.automaton) (h : T.ReducesBy p) :
    g.dependencyGraph.Reaches start p.lhs := by
  obtain ⟨s, t, r, -, hp⟩ := h
  rw [hT] at hp
  exact reaches_of_reduceProduction? hp

/-- Where no slot has two candidates, every production that can be reached has a slot. -/
theorem Faithful.reducesBy (hT : T.Faithful mode)
    (hfree : g.automaton.ConflictFree (g.automaton.lookahead mode)) (hg : g.Productive)
    (hp : p ∈ g.productions) (hreaches : g.dependencyGraph.Reaches start p.lhs) :
    T.ReducesBy p := by
  obtain ⟨s, t, r, hr, hmem⟩ := exists_reduce_candidate_of_reaches hg mode hp hreaches
  refine ⟨s, t, r, hT.slot?_eq hfree (isTerminal_of_mem_candidates hmem) hmem, ?_⟩
  rw [hT.automaton]
  exact hr

end Tables

namespace Grammar

open Automaton

/-- **Which productions are in use.**  Let contests be decided by precedence.  Productions of
nonterminals that cannot be reached from the start symbol are not in use.  If all nonterminals can
be reached and are productive, and no slot has two candidates, then all productions are in use. -/
theorem used_of_reaches (g : Grammar) (mode : Mode) (conflicts : List Conflict) :
    ∃ T conflicts', g.automaton.tables? mode g.automaton.byPrecedence conflicts =
        some (T, conflicts') ∧
      (∀ p ∈ g.productions, ¬ g.dependencyGraph.Reaches start p.lhs →
        T.isUsed p = false ∧ p ∈ T.unused) ∧
      ((∀ n, g.isNonterminal n = true →
          g.dependencyGraph.Reaches start n ∧ g.isProductive g.analyse n = true) →
        g.automaton.ConflictFree (g.automaton.lookahead mode) →
        (∀ p ∈ g.productions, T.isUsed p = true) ∧ T.numUnused = 0 ∧ T.unused = []) := by
  obtain ⟨T, conflicts', htables, hT⟩ :=
    exists_settled_tables_of_confines (g := g) mode (confines_byPrecedence mode) conflicts
  have hused : ∀ x, x ∈ T.used ↔ ∃ p, T.ReducesBy p ∧ p.seq = x :=
    fun x => hT.mem_used_iff (markRows?_of_tables? htables)
  refine ⟨T, conflicts', htables, fun p hp hnot => ?_, fun hall hfree => ?_⟩
  · have hunused : ¬ T.ReducesBy p := fun h => hnot (h.reaches hT.automaton)
    refine ⟨?_, (Tables.mem_unused_iff hT.automaton hused).2 ⟨hp, hunused⟩⟩
    rw [Bool.eq_false_iff, Ne, Tables.isUsed_iff hT.automaton hused hp]
    exact hunused
  · have hfaithful : T.Faithful mode := ⟨hT.automaton, hT.slot⟩
    have hreduces : ∀ p ∈ g.productions, T.ReducesBy p := by
      intro p hp
      exact hfaithful.reducesBy hfree (fun n hn => (hall n hn).2) hp
        (hall p.lhs (g.isNonterminal_lhs hp)).1
    have hnone : T.unused = [] := by
      rw [List.eq_nil_iff_forall_not_mem]
      intro p hp
      obtain ⟨hmem, hnot⟩ := (Tables.mem_unused_iff hT.automaton hused).1 hp
      exact hnot (hreduces p hmem)
    refine ⟨fun p hp => (Tables.isUsed_iff hT.automaton hused hp).2 (hreduces p hp), ?_, hnone⟩
    rw [Tables.numUnused_eq hT.automaton hused, hnone, List.length_nil]

/-- Two nonterminals that know nothing of each other, by the productions `S := x` and `U := y`. -/
def detached : Grammar :=
  ofWellFormed [⟨"S", none⟩, ⟨"U", none⟩, ⟨"x", none⟩, ⟨"y", none⟩, ⟨"$end", none⟩] 2
    [[⟨[2], none⟩], [⟨[3], none⟩]]
    ⟨by decide, by decide, by decide, by decide, by decide, by decide⟩

/-- The production of `U` is not in use, and in the tables for a repetition both productions are. -/
theorem used_of_reaches_detached :
    (∃ T conflicts, detached.automaton.tables? .lr0 detached.automaton.byPrecedence [] =
        some (T, conflicts) ∧ ∃ p ∈ T.unused, p.lhs = 1) ∧
      (∀ n, repetition.isNonterminal n = true → repetition.dependencyGraph.Reaches start n ∧
        repetition.isProductive repetition.analyse n = true) ∧
      repetition.automaton.ConflictFree (repetition.automaton.lookahead .slr) ∧
      ∃ T conflicts, repetition.automaton.tables? .slr repetition.automaton.byPrecedence [] =
        some (T, conflicts) ∧ T.numUnused = 0 := by
  obtain ⟨T, conflicts, htables, hunused, -⟩ := used_of_reaches detached .lr0 []
  have hleaf : detached.dependencyGraph.succ start = [] := by decide +kernel
  have hreach : ∀ n, detached.dependencyGraph.Reaches start n → n = start := by
    intro n h
    induction h with
    | refl => rfl
    | tail _ hn ih =>
      rw [ih, hleaf] at hn
      cases hn
  have hmem : (⟨1, 0, 1, [3], none⟩ : Production) ∈ detached.productions := by decide
  have hall : ∀ n, repetition.isNonterminal n = true →
      repetition.dependencyGraph.Reaches start n ∧
        repetition.isProductive repetition.analyse n = true := by
    intro n hn
    obtain rfl : n = start := Nat.lt_one_iff.1 (repetition.isNonterminal_iff.1 hn)
    exact ⟨.refl, by decide +kernel⟩
  have hfree : repetition.automaton.ConflictFree (repetition.automaton.lookahead .slr) := by
    decide +kernel
  obtain ⟨T', conflicts', htables', -, hused⟩ := used_of_reaches repetition .slr []
  refine ⟨⟨T, conflicts, htables, _, (hunused _ hmem ?_).2, rfl⟩, hall, hfree, T', conflicts',
    htables', (hused hall hfree).2.1⟩
  intro h
  cases hreach 1 h

end Grammar

end SimpleLR
