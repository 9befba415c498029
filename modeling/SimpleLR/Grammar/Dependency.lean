import SimpleLR.Digraph.Components
import SimpleLR.Grammar.Basic

/-!
# Dependencies between nonterminals

A nonterminal depends on those that its productions mention.  The strongly connected components of
this relation are the groups within which facts about nonterminals have to be found together; they
are listed with what a group depends on in front of it.

## Main Definitions

* `Grammar.dependencies`, `Grammar.dependents` — what a nonterminal mentions, and what mentions it
* `Grammar.dependencyGraph`, `Grammar.components` — the graph and its components
-/

namespace SimpleLR.Grammar

variable (g : Grammar)

/-- Whether some production of `n` mentions `x`. -/
def mentions (n x : Nat) : Bool := (g.productionsOf n).any fun p => p.rhs.contains x

/-- The nonterminals that the productions of `n` mention. -/
def dependencies (n : Nat) : IdSet :=
  IdSet.ofList (((g.productionsOf n).flatMap (·.rhs)).filter g.isNonterminal)

/-- The nonterminals whose productions mention `n`; none unless `n` is a nonterminal. -/
def dependents (n : Nat) : IdSet :=
  IdSet.ofList (g.nonterminals.filter fun m => g.isNonterminal n && g.mentions m n)

theorem mem_dependencies {n m : Nat} :
    m ∈ g.dependencies n ↔ g.isNonterminal m = true ∧ ∃ p ∈ g.productionsOf n, m ∈ p.rhs := by
  simp [dependencies, and_comm]

theorem mem_dependents {n m : Nat} :
    m ∈ g.dependents n ↔ g.isNonterminal m = true ∧ g.isNonterminal n = true ∧
      ∃ p ∈ g.productionsOf m, n ∈ p.rhs := by
  simp [dependents, nonterminals, mentions, isNonterminal]

/-- The graph with an edge from each nonterminal to those it depends on. -/
def dependencyGraph : Digraph where
  size := g.numNonterminals
  succ n := (g.dependencies n).toList
  size_le := by
    have hlt := g.numNonterminals_lt
    have hle : g.symbols.length ≤ 65535 := g.length_symbols_le
    exact Nat.le_trans (Nat.le_trans (Nat.le_of_lt hlt) hle) (by decide)
  succ_lt := by
    intro n _ m hm
    exact g.isNonterminal_iff.1 (g.mem_dependencies.1 hm).1

/-- The groups of nonterminals that depend on each other, what a group depends on first. -/
def components : List (List Nat) := g.dependencyGraph.components

end SimpleLR.Grammar
