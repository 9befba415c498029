import SimpleLR.Automaton.Collection

/-!
# Lookahead of the reduces

A state may reduce by a production only on certain next terminals.  In the simplest mode these are
all terminals, in the other one they are the terminals that can follow the left-hand side.

## Main Definitions

* `Mode` — the two ways to choose the lookahead
* `Lookahead`, `Automaton.lookahead` — the terminals for each reduce of each state
-/

namespace SimpleLR

/-- How the lookahead of a reduce is chosen. -/
inductive Mode where
  /-- A reduce applies on the follow set of its left-hand side. -/
  | slr
  /-- Every reduce applies on every terminal. -/
  | lr0
  deriving DecidableEq, Repr

/-- The terminals on which the reduces of an automaton apply. -/
inductive Lookahead where
  /-- All reduces apply on the same terminals. -/
  | everywhere (terminals : IdSet)
  /-- A set for each reduce of each state. -/
  | perReduce (sets : List (List IdSet))
  deriving DecidableEq

namespace Lookahead

/-- The mode in which the lookahead was chosen. -/
def mode : Lookahead → Mode
  | everywhere _ => .lr0
  | perReduce _ => .slr

/-- The terminals on which reduce `r` of state `s` applies. -/
def terminals? : Lookahead → Nat → Nat → Option IdSet
  | everywhere ts, _, _ => some ts
  | perReduce sets, s, r => sets[s]?.bind (·[r]?)

end Lookahead

namespace Automaton

variable {g : Grammar} (a : Automaton g)

/-- The follow set of the left-hand side of reduce `r` of state `s`. -/
def followOfReduce (s r : Nat) : IdSet :=
  match a.reduceProduction? s r with
  | some p => a.facts.follow.setOf p.lhs
  | none => ∅

/-- The lookahead of all reduces. -/
def lookahead : Mode → Lookahead
  | .lr0 => .everywhere g.terminals
  | .slr =>
    .perReduce <| a.states.mapIdx fun s state =>
      (List.range state.reduces.length).map (a.followOfReduce s)

end Automaton

end SimpleLR
