import SimpleLR.IdSet
import SimpleLR.Symbol

/-!
# Context-free grammars

The symbols of a grammar are numbered from zero: first the nonterminals, of which number zero is
the start symbol, then the terminals, of which the last is the end of the input.  Every nonterminal
has at least one production, and no production mentions a symbol that does not exist.  These facts,
and the numbering of the productions, are part of the type.

## Main Definitions

* `Production` — a rule of the grammar with its place in it
* `Grammar` — symbols and productions that fit together
* `Grammar.productionsOf`, `Grammar.productions`, `Grammar.production?` — the productions of one
  nonterminal, all of them, and one by its number
* `Grammar.precedenceOf` — the precedence that a production has in a conflict
-/

namespace SimpleLR

/-- A right-hand side on offer for a nonterminal. -/
structure Alternative where
  /-- The symbols that the nonterminal is replaced by. -/
  rhs : List Nat
  /-- A precedence given to this alternative itself. -/
  precedence : Option Precedence := none
  deriving DecidableEq, Repr

/-- A production of a grammar. -/
structure Production where
  /-- The nonterminal that is replaced. -/
  lhs : Nat
  /-- The place among the productions of the same nonterminal. -/
  index : Nat
  /-- The place among all productions of the grammar. -/
  seq : Nat
  /-- The symbols that the nonterminal is replaced by. -/
  rhs : List Nat
  /-- A precedence given to this production itself. -/
  precedence : Option Precedence
  deriving DecidableEq, Repr

/-- The greatest number of symbols that a grammar may have. -/
def maxSymbols : Nat := 65535

/-- A context-free grammar with numbered symbols and productions. -/
structure Grammar where
  /-- The symbol table: nonterminals, then terminals. -/
  symbols : List Symbol
  /-- How many of the symbols are nonterminals. -/
  numNonterminals : Nat
  /-- The productions of each nonterminal. -/
  rules : List (List Production)
  /-- There is a start symbol. -/
  numNonterminals_pos : 0 < numNonterminals
  /-- There is an end of the input. -/
  numNonterminals_lt : numNonterminals < symbols.length
  /-- There are not too many symbols. -/
  length_symbols_le : symbols.length ≤ maxSymbols
  /-- Every nonterminal has its list of productions. -/
  length_rules : rules.length = numNonterminals
  /-- Every nonterminal has a production. -/
  rules_ne_nil : ∀ ps ∈ rules, ps ≠ []
  /-- Productions mention symbols of the grammar only. -/
  rhs_lt : ∀ ps ∈ rules, ∀ p ∈ ps, ∀ x ∈ p.rhs, x < symbols.length
  /-- A production knows its left-hand side and its place there. -/
  rules_place : ∀ (n : Nat) (ps : List Production), rules[n]? = some ps →
    ∀ (j : Nat) (p : Production), ps[j]? = some p → p.lhs = n ∧ p.index = j
  /-- The productions are numbered in order and without a gap. -/
  rules_seq : rules.flatten.map (·.seq) = List.range rules.flatten.length

namespace Grammar

variable (g : Grammar)

/-- The number of symbols. -/
def numSymbols : Nat := g.symbols.length

/-- The number of terminals, the end of the input included. -/
def numTerminals : Nat := g.symbols.length - g.numNonterminals

/-- Whether `x` is a nonterminal of the grammar. -/
def isNonterminal (x : Nat) : Bool := decide (x < g.numNonterminals)

/-- Whether `x` is a terminal of the grammar. -/
def isTerminal (x : Nat) : Bool :=
  decide (g.numNonterminals ≤ x) && decide (x < g.symbols.length)

/-- The start symbol. -/
def start : Nat := 0

/-- The terminal that stands for the end of the input. -/
def endOfInput : Nat := g.symbols.length - 1

/-- The nonterminals in ascending order. -/
def nonterminals : List Nat := List.range g.numNonterminals

/-- The terminals. -/
def terminals : IdSet := IdSet.interval g.numNonterminals g.numTerminals

/-- The symbol with a given number. -/
def symbol? (x : Nat) : Option Symbol := g.symbols[x]?

/-- The number of the first symbol with a given name. -/
def lookup? (name : String) : Option Nat := g.symbols.findIdx? (·.name == name)

/-- All productions, in the order of their numbers. -/
def productions : List Production := g.rules.flatten

/-- The number of productions. -/
def numProductions : Nat := g.productions.length

/-- The productions of a nonterminal in order; none for any other symbol. -/
def productionsOf (n : Nat) : List Production := g.rules[n]?.getD []

/-- The production with a given number. -/
def production? (seq : Nat) : Option Production := g.productions[seq]?

/-- The precedence of the symbol `x`, if there is such a symbol and it has one. -/
def symbolPrecedence (x : Nat) : Option Precedence := (g.symbol? x).bind (·.precedence)

/-- The precedence of a production in a conflict: its own, or else that of its last terminal. -/
def precedenceOf (p : Production) : Option Precedence :=
  p.precedence.or ((p.rhs.reverse.find? g.isTerminal).bind g.symbolPrecedence)

theorem isNonterminal_iff {x : Nat} :
    g.isNonterminal x = true ↔ x < g.numNonterminals := by
  simp [isNonterminal]

theorem isTerminal_iff {x : Nat} :
    g.isTerminal x = true ↔ g.numNonterminals ≤ x ∧ x < g.numSymbols := by
  simp [isTerminal, numSymbols]

theorem mem_terminals {x : Nat} : x ∈ g.terminals ↔ g.isTerminal x = true := by
  have := g.numNonterminals_lt
  rw [terminals, IdSet.mem_interval, isTerminal_iff, numTerminals, numSymbols]
  omega

theorem isTerminal_endOfInput : g.isTerminal g.endOfInput = true := by
  have := g.numNonterminals_lt
  rw [isTerminal_iff, endOfInput, numSymbols]
  omega

theorem isNonterminal_start : g.isNonterminal start = true :=
  g.isNonterminal_iff.2 g.numNonterminals_pos

/-- Where all names are different, every symbol is found by its name. -/
theorem lookup?_of_nodup (h : (g.symbols.map (·.name)).Nodup) {x : Nat} {s : Symbol}
    (hx : g.symbol? x = some s) : g.lookup? s.name = some x := by
  obtain ⟨hlt, rfl⟩ := List.getElem?_eq_some_iff.1 hx
  rw [lookup?, List.findIdx?_eq_some_iff_getElem]
  refine ⟨hlt, beq_self_eq_true _, fun j hj e => ?_⟩
  have e : (g.symbols.map (·.name))[j]? = (g.symbols.map (·.name))[x]? := by
    simpa [hlt, Nat.lt_trans hj hlt] using e
  have hj' : j < (g.symbols.map (·.name)).length := by simpa using Nat.lt_trans hj hlt
  exact Nat.ne_of_lt hj ((List.getElem?_inj hj' h).1 e)

theorem mem_productionsOf {n : Nat} {p : Production} :
    p ∈ g.productionsOf n ↔ p ∈ g.productions ∧ p.lhs = n := by
  constructor
  · intro h
    rcases hn : g.rules[n]? with _ | ps
    · simp [productionsOf, hn] at h
    · rw [productionsOf, hn, Option.getD_some] at h
      obtain ⟨j, hj⟩ := List.mem_iff_getElem?.1 h
      exact ⟨List.mem_flatten.2 ⟨ps, List.mem_of_getElem? hn, h⟩, (g.rules_place n ps hn j p hj).1⟩
  · rintro ⟨h, rfl⟩
    obtain ⟨ps, hps, hp⟩ := List.mem_flatten.1 h
    obtain ⟨m, hm⟩ := List.mem_iff_getElem?.1 hps
    obtain ⟨j, hj⟩ := List.mem_iff_getElem?.1 hp
    rw [productionsOf, (g.rules_place m ps hm j p hj).1, hm]
    exact hp

/-- The left-hand sides are nonterminals. -/
theorem isNonterminal_lhs {p : Production} (hp : p ∈ g.productions) :
    g.isNonterminal p.lhs = true := by
  obtain ⟨ps, hps, hp⟩ := List.mem_flatten.1 hp
  obtain ⟨n, hn⟩ := List.mem_iff_getElem?.1 hps
  obtain ⟨j, hj⟩ := List.mem_iff_getElem?.1 hp
  rw [isNonterminal_iff, (g.rules_place n ps hn j p hj).1, ← g.length_rules]
  exact (List.getElem?_eq_some_iff.1 hn).1

/-- A production knows its number. -/
theorem seq_of_production? {seq : Nat} {p : Production} (h : g.production? seq = some p) :
    p.seq = seq := by
  have hlt : seq < g.rules.flatten.length := (List.getElem?_eq_some_iff.1 h).1
  have hseq : (g.rules.flatten.map (·.seq))[seq]? = some p.seq := by
    rw [List.getElem?_map]
    exact congrArg (Option.map _) h
  rw [g.rules_seq, List.getElem?_range hlt] at hseq
  exact (Option.some.inj hseq).symm

/-- A production is found by its number. -/
theorem production?_seq {p : Production} (hp : p ∈ g.productions) :
    g.production? p.seq = some p := by
  obtain ⟨seq, h⟩ := List.mem_iff_getElem?.1 hp
  rw [g.seq_of_production? h]
  exact h

/-- A symbol is not both a terminal and a nonterminal. -/
theorem isTerminal_eq_false {x : Nat} (h : g.isNonterminal x = true) : g.isTerminal x = false := by
  have := g.isNonterminal_iff.1 h
  rw [Bool.eq_false_iff, Ne, isTerminal_iff]
  omega

theorem isNonterminal_eq_false {x : Nat} (h : g.isTerminal x = true) :
    g.isNonterminal x = false := by
  have := (g.isTerminal_iff.1 h).1
  rw [Bool.eq_false_iff, Ne, isNonterminal_iff]
  omega

/-- A symbol of the grammar is a terminal or a nonterminal. -/
theorem isTerminal_of_lt {x : Nat} (h : x < g.numSymbols) (hn : g.isNonterminal x = false) :
    g.isTerminal x = true := by
  rw [Bool.eq_false_iff, Ne, isNonterminal_iff] at hn
  rw [isTerminal_iff]
  omega

/-- The right-hand sides stay within the grammar. -/
theorem lt_numSymbols_of_mem_rhs {p : Production} (hp : p ∈ g.productions) {x : Nat}
    (hx : x ∈ p.rhs) : x < g.numSymbols := by
  obtain ⟨ps, hps, hp⟩ := List.mem_flatten.1 hp
  exact g.rhs_lt ps hps p hp x hx

end Grammar

end SimpleLR
