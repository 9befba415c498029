import SimpleLR.Proofs.Parse.Invariant
import SimpleLR.Proofs.Parse.Termination

/-!
# What has been consumed begins something derived

A parser that decides contests may reduce although the next symbol does not allow it, and with the
coarser lookahead it does so as a matter of course.  But it consumes a symbol only when the
automaton can follow it.  If all nonterminals are productive, then what is on the stack begins
something that is derived from the start symbol, at any time; and the stack derives what has been
consumed.  So the parser never consumes a symbol that could not come at this place, however much it
has reduced before.

## Main Statements

* `Grammar.OnPath.exists_kernelItem_form` — the string on the stack can be followed, also when a
  left-hand side is pending
* `Tables.Explains.exists_derives` — what explains the consumed symbols begins something derived
* `Grammar.exists_derives_consumed` — what has been consumed begins something derived
-/

namespace SimpleLR

namespace Grammar

variable {g : Grammar}

/-- The string on the stack can be followed, with the left-hand side that is pending behind it. -/
theorem OnPath.exists_kernelItem_form {c : Configuration Nat Nat} (h : g.OnPath c) :
    ∃ i, g.KernelItem c.form i := by
  unfold Configuration.form
  cases hp : c.pending with
  | none =>
    rw [Option.toList_none, List.append_nil]
    exact exists_walk?_iff.1 ⟨c.state, h.traces.walk?⟩
  | some lhs => exact (h.pending lhs hp).exists_kernelItem_concat

/-- If none is listed as unproductive then all nonterminals are productive. -/
theorem productive_of_unproductive_eq_nil (h : g.unproductive g.analyse = []) : g.Productive := by
  intro n hn
  have hlist : n ∈ g.nonterminals := List.mem_range.2 (g.isNonterminal_iff.1 hn)
  simpa using List.filter_eq_nil_iff.1 h n hlist

end Grammar

open Automaton Grammar

/-- **What explains the consumed symbols begins something derived**: the stack derives them, and it
can be completed by a word. -/
theorem Tables.Explains.exists_derives {g : Grammar} (hg : g.Productive)
    {input consumed : List Nat} {performed : List Production} {c : Configuration Nat Nat}
    (h : Tables.Explains g input consumed performed c) :
    ∃ z, g.IsWord z ∧ g.Derives [start] (consumed ++ z) := by
  obtain ⟨i, hi⟩ := h.onPath.exists_kernelItem_form
  obtain ⟨ps, z, hz, hstack⟩ := hi.exists_rightDerivation hg
  have hconsumed : g.Derives (c.form ++ z) (consumed ++ z) :=
    ⟨_, h.derivation.context [] z⟩
  exact ⟨z, hz, Derives.trans ⟨ps, hstack.derivation⟩ hconsumed⟩

namespace Grammar

/-- **What has been consumed begins something derived.**  Let no nonterminal be unproductive, and
let contests be decided by precedence.  Then the tables are defined, and after any number of steps
on any input what has been consumed of it, with the end of the input repeated behind it, can be
completed by a word to something that the start symbol derives. -/
theorem exists_derives_consumed (g : Grammar) (mode : Mode)
    (hproductive : g.unproductive g.analyse = []) (conflicts : List Conflict) :
    ∃ T conflicts',
      g.automaton.tables? mode g.automaton.byPrecedence conflicts = some (T, conflicts') ∧
      ∀ (input : List Nat) (n : Nat), ∃ c k,
        (Configuration.start T.parseTable input).after? T.parseTable n = some c ∧
        (Configuration.start T.parseTable input).consumed T.parseTable n ++ c.ahead =
          input ++ List.replicate k g.endOfInput ∧
        ∃ z, g.IsWord z ∧ g.Derives [start]
          ((Configuration.start T.parseTable input).consumed T.parseTable n ++ z) := by
  obtain ⟨T, conflicts', htables, hT⟩ :=
    exists_faithful_tables mode (confines_byPrecedence (g := g) mode) conflicts
  refine ⟨T, conflicts', htables, fun input n => ?_⟩
  obtain ⟨c, hn, -⟩ := hT.exists_after? (onPath_start T input) n
  have hexplains := (Tables.explains_start T input).after?_consumed hT hn
  rw [List.nil_append] at hexplains
  obtain ⟨k, hk⟩ := hexplains.input
  exact ⟨c, k, hn, hk, hexplains.exists_derives (productive_of_unproductive_eq_nil hproductive)⟩

/-- On an input that is no word at all the parser for a repetition consumes `x x`, which begins
something derived. -/
theorem exists_derives_consumed_repetition :
    repetition.unproductive repetition.analyse = [] ∧
    ∃ T conflicts', repetition.automaton.tables? .slr repetition.automaton.byPrecedence [] =
        some (T, conflicts') ∧
      (Configuration.start T.parseTable [1, 1, 7]).consumed T.parseTable 9 = [1, 1] ∧
      ∃ z, repetition.IsWord z ∧ repetition.Derives [start] ([1, 1] ++ z) := by
  have hproductive : repetition.unproductive repetition.analyse = [] := by
    decide +kernel
  obtain ⟨T, conflicts', htables, hT⟩ :=
    exists_derives_consumed repetition .slr hproductive []
  obtain ⟨c, k, -, -, hderives⟩ := hT [1, 1, 7] 9
  have hconsumed : (repetition.automaton.tables? .slr repetition.automaton.byPrecedence []).map
      (fun r => (Configuration.start r.1.parseTable [1, 1, 7]).consumed r.1.parseTable 9) =
        some [1, 1] := by
    decide +kernel
  rw [htables, Option.map_some, Option.some.injEq] at hconsumed
  rw [hconsumed] at hderives
  exact ⟨hproductive, T, conflicts', htables, hconsumed, hderives⟩

end Grammar

end SimpleLR
