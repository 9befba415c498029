import SimpleLR.Analysis.Sets

/-!
# The analysis of a grammar

All that the construction of parse tables needs to know about the nonterminals of a grammar, found
in one go: which of them derive the empty word, which derive a word of terminals at all, and their
left corners, first sets and follow sets.

## Main Definitions

* `GrammarFacts` — the results
* `Grammar.analyse` — the analyses in the order in which they build on each other
-/

namespace SimpleLR

/-- How a group of nonterminals was settled. -/
structure Settled where
  /-- The group. -/
  group : List Nat
  /-- The number of rounds it took. -/
  rounds : Nat
  deriving DecidableEq, Repr

/-- What is known about the nonterminals of a grammar. -/
structure GrammarFacts where
  /-- The groups of nonterminals that depend on each other, dependencies first. -/
  components : List (List Nat)
  /-- Which nonterminals derive the empty word. -/
  nullable : Property.Decisions
  /-- Which nonterminals derive a word of terminals. -/
  productive : Property.Decisions
  /-- The left corners. -/
  left : Family
  /-- The first sets. -/
  first : Family
  /-- The follow sets. -/
  follow : Family
  /-- How each analysis settled each group, in the order of the work. -/
  settled : List Settled

namespace GrammarFacts

/-- Whether the symbol `x` derives the empty word.  Terminals do not. -/
def isNullable (a : GrammarFacts) (x : Nat) : Bool := Property.has a.nullable x

end GrammarFacts

namespace Grammar

/-- Analyse a grammar. -/
def analyse (g : Grammar) : GrammarFacts :=
  let components := g.components
  let upwards := Analysis.Order.bottomUp.arrange components
  let downwards := Analysis.Order.topDown.arrange components
  let nullable := g.decisions .fails upwards
  let productive := g.decisions .holds upwards
  let left := g.leftCorners upwards
  let first := g.firstSets (Property.has nullable.2) upwards
  let follow := g.followSets (Property.has nullable.2) first.2 downwards
  { components := components
    nullable := nullable.2
    productive := productive.2
    left := left.2
    first := first.2
    follow := follow.2
    settled :=
      (upwards.zip nullable.1 ++ upwards.zip productive.1 ++ upwards.zip left.1 ++
        upwards.zip first.1 ++ downwards.zip follow.1).map fun r => ⟨r.1, r.2⟩ }

/-- Whether the symbol `x` derives a word of terminals.  Terminals do. -/
def isProductive (g : Grammar) (a : GrammarFacts) (x : Nat) : Bool :=
  g.isTerminal x || Property.has a.productive x

/-- The nonterminals that derive no word of terminals, in ascending order. -/
def unproductive (g : Grammar) (a : GrammarFacts) : List Nat :=
  g.nonterminals.filter fun n => !g.isProductive a n

end Grammar

end SimpleLR
