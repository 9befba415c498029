import SimpleLR.Automaton.Closure

/-!
# The canonical collection of states

The states of the automaton are the kernels that can be reached from the first augmenting item by
moving over symbols.  They are numbered in the order in which they are met: state by state, and from
each state symbol by symbol.

## Main Definitions

* `State` — a state with its items, transitions and reduces
* `Core` — a kernel that has been met, with the symbol it was first met on
* `link`, `expand`, `exploreFrom` — from a kernel to its transitions, to its state, to all states
* `Automaton`, `Grammar.automaton` — the automaton of a grammar
* `Automaton.goto?`, `Automaton.reduceProduction?` — look up transitions and reduces

## Design Notes

All transitions into a state are on the same symbol, the *entry* of the state.  Transitions are
therefore stored as lists of states only.

A kernel is a set of items, so no more than `2 ^ n` kernels can be met if there are `n` items.  That
number bounds the exploration.
-/

namespace SimpleLR

/-- A state of the automaton. -/
structure State where
  /-- The items that the state was reached by. -/
  kernel : IdSet
  /-- The items of the empty productions that may begin in this state. -/
  empties : List Nat
  /-- The next states on terminals. -/
  shifts : List Nat
  /-- The next states on nonterminals. -/
  gotos : List Nat
  /-- The places in `items` of those that can be reduced. -/
  reduces : List Nat
  /-- The symbol of all transitions into this state; `none` for the initial state. -/
  entry : Option Nat
  deriving DecidableEq

namespace State

/-- The items of the state: the kernel, then the empty productions. -/
def items (s : State) : List Nat := s.kernel.toList ++ s.empties

end State

/-- A kernel that has been met. -/
structure Core where
  /-- The kernel. -/
  kernel : IdSet
  /-- The symbol on which it was first met. -/
  entry : Option Nat
  deriving DecidableEq

namespace Automaton

/-- Give each successor kernel the number of its state, where kernels not met before are added to
those met.  The result is the kernels met after it, and the transitions. -/
def link (cores : List Core) : List (Nat × IdSet) → List Core × List (Nat × Nat)
  | [] => (cores, [])
  | (x, kernel) :: rest =>
    match cores.findIdx? fun c => c.kernel == kernel with
    | some s =>
      let r := link cores rest
      (r.1, (x, s) :: r.2)
    | none =>
      let r := link (cores ++ [⟨kernel, some x⟩]) rest
      (r.1, (x, cores.length) :: r.2)

/-- The places in a list of items of those that can be reduced. -/
def reducePlaces (table : ItemTable) (ids : List Nat) : List Nat :=
  (List.range ids.length).filter fun k =>
    (ids[k]?.bind table.item?).any (·.canReduce)

/-- The state of a kernel, and the kernels met after linking its successors. -/
def expand (g : Grammar) (left : Family) (table : ItemTable) (cores : List Core) (core : Core) :
    List Core × State :=
  let r := link cores (successors g left table core.kernel)
  let empties := emptyItems g left table core.kernel
  (r.1,
    { kernel := core.kernel
      empties := empties
      shifts := (r.2.filter fun t => g.isTerminal t.1).map (·.2)
      gotos := (r.2.filter fun t => !g.isTerminal t.1).map (·.2)
      reduces := reducePlaces table (core.kernel.toList ++ empties)
      entry := core.entry })

/-- The states from number `s` on, where `cores` have been met. -/
def exploreFrom (g : Grammar) (left : Family) (table : ItemTable) :
    Nat → Nat → List Core → List State
  | 0, _, _ => []
  | bound + 1, s, cores =>
    match cores[s]? with
    | none => []
    | some core =>
      let r := expand g left table cores core
      r.2 :: exploreFrom g left table bound (s + 1) r.1

/-- The initial state. -/
def initial : Nat := 0

/-- The kernel of the initial state. -/
def initialCore : Core := ⟨IdSet.singleton Grammar.startItem, none⟩

end Automaton

/-- The automaton of a grammar. -/
structure Automaton (g : Grammar) where
  /-- What is known about the nonterminals. -/
  facts : GrammarFacts
  /-- The items of the grammar. -/
  table : ItemTable
  /-- The states, in the order of their numbers. -/
  states : List State

/-- The automaton of a grammar. -/
def Grammar.automaton (g : Grammar) : Automaton g :=
  let facts := g.analyse
  let table := g.itemTable
  { facts := facts
    table := table
    states :=
      Automaton.exploreFrom g facts.left table (Nat.pow 2 table.size) Automaton.initial
        [Automaton.initialCore] }

namespace Automaton

variable {g : Grammar} (a : Automaton g)

/-- The number of states. -/
def numStates : Nat := a.states.length

/-- The state with a given number. -/
def state? (s : Nat) : Option State := a.states[s]?

/-- The symbol of all transitions into a state. -/
def entryOf (s : Nat) : Option Nat := (a.state? s).bind (·.entry)

/-- The next state on the nonterminal `x`, if there is one; undefined if there is no state `s`. -/
def goto? (s x : Nat) : Option (Option Nat) :=
  (a.state? s).map fun state => state.gotos.find? fun next => a.entryOf next == some x

/-- The item of the reduce with number `r` of a state. -/
def reduceItem? (s r : Nat) : Option Item := do
  let state ← a.state? s
  let place ← state.reduces[r]?
  let id ← state.items[place]?
  a.table.item? id

/-- The production of the reduce with number `r` of a state. -/
def reduceProduction? (s r : Nat) : Option Production :=
  (a.reduceItem? s r).bind (·.production)

/-- Whether the state has the item in which the input is accepted. -/
def acceptsIn (state : State) : Bool :=
  state.items.any fun i => (a.table.item? i).any (·.canAccept)

end Automaton

end SimpleLR
