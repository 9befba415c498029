import SimpleLR.Table.Build
import SimpleLR.Table.Precedence

/-!
# Reports on the generation of tables

What there is to tell about a grammar and its tables, in the order in which it comes up: the size of
the grammar, the rounds of its analyses, nonterminals without a finite word, the size of the
automaton, the conflicts, the productions that are never used, and the size of the tables.

## Main Definitions

* `Level`, `Event` — how important an event is, and what it says
* `Grammar.events`, `Automaton.events`, `Tables.events` — what each stage has to tell
* `Tables.report` — everything from the first stage to the last
-/

namespace SimpleLR

/-- How important an event is. -/
inductive Level where
  /-- Something may be wrong. -/
  | warn
  /-- A summary of a stage. -/
  | debug
  /-- A detail of a stage. -/
  | trace
  deriving DecidableEq, Repr

namespace Level

/-- The name of a level. -/
def name : Level → String
  | warn => "warn"
  | debug => "debug"
  | trace => "trace"

/-- A level as a number, the most important first. -/
def rank : Level → Nat
  | warn => 0
  | debug => 1
  | trace => 2

/-- Whether events of level `l` are wanted by someone who asks for the level `limit`. -/
def within (limit l : Level) : Bool := decide (l.rank ≤ limit.rank)

end Level

/-- Something to tell. -/
structure Event where
  /-- How important it is. -/
  level : Level
  /-- What it says. -/
  text : String
  deriving DecidableEq, Repr

namespace Event

/-- How a group of nonterminals was settled. -/
def ofSettled (s : Settled) : Event :=
  ⟨.trace, "component [" ++ String.intercalate ", " (s.group.map Text.symbolLabel) ++
    s!"] converged after {s.rounds} passes"⟩

/-- A nonterminal without a finite word. -/
def ofUnproductive (g : Grammar) (n : Nat) : Event :=
  ⟨.warn, "the nonterminal `" ++ g.nameOf n ++ "' derives no finite terminal string"⟩

/-- A conflict. -/
def ofConflict (g : Grammar) (c : Conflict) : Event :=
  ⟨.warn, c.kind.name ++ " conflict in " ++ Text.stateLabel c.state ++ " on `" ++
    g.nameOf c.terminal ++ "': kept " ++ c.kept.label ++ ", discarded " ++ c.discarded.label⟩

/-- A production that is never used. -/
def ofUnused (g : Grammar) (p : Production) : Event :=
  ⟨.warn, "the production `" ++ g.productionText p ++ "' is never reduced"⟩

end Event

/-- What there is to tell about a grammar and its analyses. -/
def Grammar.events (g : Grammar) (facts : GrammarFacts) : List Event :=
  [⟨.debug, s!"{g.numSymbols} symbols, {g.numProductions} productions, " ++
    s!"{facts.components.length} components"⟩] ++
  facts.settled.map Event.ofSettled ++
  (g.unproductive facts).map (Event.ofUnproductive g)

/-- What there is to tell about an automaton. -/
def Automaton.events {g : Grammar} (a : Automaton g) : List Event :=
  [⟨.debug, s!"{a.table.size} items, {a.numStates} states"⟩]

namespace Tables

variable {g : Grammar} (T : Tables g)

/-- What there is to tell about tables and the conflicts recorded while they were made. -/
def events (conflicts : List Conflict) : List Event :=
  conflicts.map (Event.ofConflict g) ++
  T.unused.map (Event.ofUnused g) ++
  [⟨.debug, s!"{T.numStates} states, {T.numUnused} unused productions"⟩]

/-- All events from the grammar to its tables, up to a level. -/
def report (limit : Level) (conflicts : List Conflict) : List Event :=
  (g.events T.automaton.facts ++ T.automaton.events ++ T.events conflicts).filter fun e =>
    limit.within e.level

end Tables

end SimpleLR
