import SimpleLR.Table.Build

/-!
# Parse tables

A parser only needs to look up what to do: on a terminal an action, on a nonterminal a next state.
A `ParseTable` is any way to answer these questions; it need not come from a grammar.  A look-up can
be undefined, if it is about a state or a reduce that does not exist.

## Main Definitions

* `ParseTable` — the questions that a parser asks
* `Tables.parseTable` — the answers of the tables of a grammar
* `ExplicitTable`, `ExplicitTable.parseTable` — answers given one by one
-/

namespace SimpleLR

/-- What a parser is told to do on a terminal. -/
inductive ParseAction (σ α : Type) where
  /-- Consume the terminal and go to the given state. -/
  | shift (next : σ)
  /-- The input is complete. -/
  | accept
  /-- Take off `length` symbols and put `lhs` in their place. -/
  | reduce (lhs : α) (length : Nat)
  /-- The terminal cannot come here. -/
  | reject
  deriving DecidableEq, Repr

/-- What a parser looks up, with states `σ` and symbols `α`. -/
structure ParseTable (σ α : Type) where
  /-- The state to begin in. -/
  initial : σ
  /-- The terminal that is read behind the end of the input. -/
  endOfInput : α
  /-- Whether a symbol is a nonterminal. -/
  isNonterminal : α → Bool
  /-- What to do in a state on a terminal. -/
  action? : σ → α → Option (ParseAction σ α)
  /-- The next state on a nonterminal, if there is one. -/
  goto? : σ → α → Option (Option σ)

namespace Tables

variable {g : Grammar} (T : Tables g)

/-- What to do in state `s` on the symbol `x`.  Nothing but a terminal of the grammar can be
shifted or looked ahead to. -/
def parseAction? (s x : Nat) : Option (ParseAction Nat Nat) :=
  if g.isTerminal x then
    (T.slot? s x).bind fun action =>
      match action with
      | .reject => some .reject
      | .shift next => some (.shift next)
      | .accept => some .accept
      | .reduce r =>
        (T.automaton.reduceProduction? s r).map fun p => .reduce p.lhs p.rhs.length
  else some .reject

/-- The tables of a grammar as a parse table. -/
def parseTable : ParseTable Nat Nat where
  initial := Automaton.initial
  endOfInput := g.endOfInput
  isNonterminal := g.isNonterminal
  action? := T.parseAction?
  goto? := T.automaton.goto?

end Tables

/-- A parse table written out entry by entry. -/
structure ExplicitTable where
  /-- The state to begin in. -/
  initial : Nat
  /-- The terminal that is read behind the end of the input. -/
  endOfInput : Nat
  /-- The nonterminals. -/
  nonterminals : List Nat
  /-- The actions by state and terminal. -/
  actions : List ((Nat × Nat) × ParseAction Nat Nat)
  /-- The next states by state and nonterminal. -/
  gotos : List ((Nat × Nat) × Nat)

namespace ExplicitTable

/-- The last entry for a key. -/
def lastFor? {β : Type} (entries : List ((Nat × Nat) × β)) (s x : Nat) : Option β :=
  (entries.reverse.find? fun e => e.1 == (s, x)).map (·.2)

/-- The table as a parse table, in which the last entry for a pair counts and a terminal without an
entry is rejected. -/
def parseTable (t : ExplicitTable) : ParseTable Nat Nat where
  initial := t.initial
  endOfInput := t.endOfInput
  isNonterminal x := t.nonterminals.contains x
  action? s x := some ((lastFor? t.actions s x).getD .reject)
  goto? s x := some (lastFor? t.gotos s x)

end ExplicitTable

end SimpleLR
