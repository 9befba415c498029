import SimpleLR.Automaton.Collection
import SimpleLR.Table.Action

/-!
# Resolving contests by precedence

Between a shift and a reduce the precedences of the terminal and of the production decide, if both
have one: the higher priority wins, and between equal priorities the associativity of the terminal
says whether to reduce, to shift, or to reject the input.  If a precedence is missing the shift
stays.  Accepting the input is never given up.  Between two reduces the production that comes first
in the grammar wins.  Whatever is not decided by precedence is recorded as a conflict.

## Main Definitions

* `Preference`, `compare?` — what two precedences say
* `Conflict` — a contest that was not decided by precedence
* `Automaton.byPrecedence` — the resolver
-/

namespace SimpleLR

/-- What precedences say about a shift and a reduce. -/
inductive Preference where
  /-- Shift. -/
  | shift
  /-- Reduce. -/
  | reduce
  /-- Neither: reject the input. -/
  | neither
  deriving DecidableEq, Repr

/-- Compare the precedence of a terminal with that of a production, if there are both. -/
def compare? : Option Precedence → Option Precedence → Option Preference
  | some t, some p =>
    if p.priority < t.priority then some .shift
    else if t.priority < p.priority then some .reduce
    else
      match t.assoc with
      | .left => some .reduce
      | .right => some .shift
      | .nonassoc => some .neither
  | _, _ => none

/-- The two kinds of conflict. -/
inductive ConflictKind where
  /-- A shift or an accept against a reduce. -/
  | shiftReduce
  /-- A reduce against a reduce. -/
  | reduceReduce
  deriving DecidableEq, Repr

/-- The name of a kind of conflict in reports. -/
def ConflictKind.name : ConflictKind → String
  | shiftReduce => "ShiftReduce"
  | reduceReduce => "ReduceReduce"

/-- A contest that was not decided by precedence. -/
structure Conflict where
  /-- The state of the slot. -/
  state : Nat
  /-- The terminal of the slot. -/
  terminal : Nat
  /-- The kind of conflict. -/
  kind : ConflictKind
  /-- What the slot holds after it. -/
  kept : Action
  /-- What was given up. -/
  discarded : Action
  deriving DecidableEq, Repr

namespace Automaton

variable {g : Grammar} (a : Automaton g)

/-- Decide between what is in the slot and a reduce, where the slot holds no reduce. -/
def resolveShiftReduce (c : Contest) (conflicts : List Conflict) :
    Option (Action × List Conflict) :=
  let undecided : Action × List Conflict :=
    (c.occupant,
      conflicts ++ [⟨c.state, c.terminal, .shiftReduce, c.occupant, .reduce c.reduce⟩])
  match c.occupant with
  | .accept => some undecided
  | _ =>
    (a.reduceProduction? c.state c.reduce).map fun p =>
      match compare? (g.symbolPrecedence c.terminal) (g.precedenceOf p) with
      | some .shift => (c.occupant, conflicts)
      | some .reduce => (.reduce c.reduce, conflicts)
      | some .neither => (.reject, conflicts)
      | none => undecided

/-- The action to keep and the action to give up when a reduce competes with a reduce: the
production that comes first in the grammar stays. -/
def earlierReduce? (c : Contest) : Option (Action × Action) :=
  match c.occupant with
  | .reduce present => do
    let old ← a.reduceProduction? c.state present
    let new ← a.reduceProduction? c.state c.reduce
    if new.seq < old.seq then some (.reduce c.reduce, c.occupant)
    else some (c.occupant, .reduce c.reduce)
  | _ => some (.reduce c.reduce, c.occupant)

/-- Decide between two reduces. -/
def resolveReduceReduce (c : Contest) (conflicts : List Conflict) :
    Option (Action × List Conflict) :=
  (a.earlierReduce? c).map fun r =>
    (r.1, conflicts ++ [⟨c.state, c.terminal, .reduceReduce, r.1, r.2⟩])

/-- The resolver that decides by precedence and records the conflicts that it cannot decide so. -/
def byPrecedence : Resolver (List Conflict) where
  shiftReduce := a.resolveShiftReduce
  reduceReduce := a.resolveReduceReduce

end Automaton

end SimpleLR
