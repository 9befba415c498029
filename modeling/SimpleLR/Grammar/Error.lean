/-!
# What can be wrong with a grammar

The reasons for which symbols and alternatives do not make up a grammar, and those for which a
declaration of a grammar draft is refused.  Each reason has one wording, `GrammarError.message`.
-/

namespace SimpleLR

/-- A reason why a grammar, or a declaration of it, is refused. -/
inductive GrammarError where
  /-- There is no symbol at all. -/
  | noSymbols
  /-- There is no nonterminal. -/
  | noNonterminals
  /-- There is no terminal. -/
  | noTerminals
  /-- There are more symbols than can be numbered. -/
  | tooManySymbols (count limit : Nat)
  /-- Alternatives are given for more nonterminals than there are. -/
  | extraProductions (expected found : Nat)
  /-- The named nonterminal has no alternative. -/
  | missingProductions (name : String)
  /-- An alternative of the named nonterminal mentions a symbol that does not exist. -/
  | symbolOutOfRange (lhs : String) (index symbol : Nat)
  /-- The name is already in use or reserved. -/
  | duplicateSymbol (name : String)
  /-- The named nonterminal already has this alternative. -/
  | duplicateRule (lhs : String)
  /-- No nonterminal with this number has been declared. -/
  | undeclaredNonterminal (number : Nat)
  /-- No terminal with this number has been declared. -/
  | undeclaredTerminal (number : Nat)
  deriving DecidableEq, Repr

namespace GrammarError

/-- The wording of an error. -/
def message : GrammarError → String
  | noSymbols => "the grammar has no symbols"
  | noNonterminals => "the grammar has no nonterminal symbols"
  | noTerminals => "the grammar has no terminal symbols"
  | tooManySymbols count limit =>
    s!"too many symbols: {count} (at most {limit} are supported)"
  | extraProductions expected found =>
    s!"productions are given for {found} nonterminals, but only {expected} are declared"
  | missingProductions name => "the nonterminal `" ++ name ++ "' has no production rules"
  | symbolOutOfRange lhs index symbol =>
    s!"production #{index} of `" ++ lhs ++ s!"' refers to the out-of-range symbol {symbol}"
  | duplicateSymbol name => "the symbol `" ++ name ++ "' has already been declared"
  | duplicateRule lhs => "duplicate production rule for `" ++ lhs ++ "'"
  | undeclaredNonterminal number =>
    s!"the nonterminal #{number} was not declared in this grammar definition"
  | undeclaredTerminal number =>
    s!"the terminal #{number} was not declared in this grammar definition"

end GrammarError

end SimpleLR
