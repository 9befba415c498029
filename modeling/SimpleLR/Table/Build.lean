import SimpleLR.Automaton.Lookahead
import SimpleLR.Table.Action

/-!
# Action tables

The action table has a row for each state and in it a slot for each terminal.  A row is filled in
three steps: the accept action on the end of the input, the shifts, and then the reduces in turn,
each on the terminals of its lookahead.  A reduce that finds its slot empty takes it; otherwise
there is a contest.

## Main Definitions

* `Row` — the slots of a state
* `Automaton.fillRow?`, `Automaton.fillRows?` — the rows under a resolver
* `Tables`, `Automaton.tables?` — the finished tables

## Design Notes

A resolver may enter any action, so also a reduce that the state does not have.  The tables record
which productions are in use, and are undefined if such a reduce stays in a slot.
-/

namespace SimpleLR

/-- The slots of a state, one for each terminal. -/
abbrev Row := Array Action

/-- The action tables of a grammar. -/
structure Tables (g : Grammar) where
  /-- The automaton that the tables are for. -/
  automaton : Automaton g
  /-- The terminals on which reduces apply. -/
  lookahead : Lookahead
  /-- The rows, in the order of the states. -/
  rows : List Row
  /-- The numbers of the productions by which some slot reduced when the tables were finished. -/
  used : IdSet

namespace Grammar

variable (g : Grammar)

/-- The place of a terminal in a row. -/
def column (t : Nat) : Nat := t - g.numNonterminals

/-- A row with nothing in it. -/
def emptyRow : Row := Array.replicate g.numTerminals .reject

/-- A row with an action entered for the terminal `t`. -/
def enter (row : Row) (t : Nat) (action : Action) : Row :=
  row.setIfInBounds (g.column t) action

end Grammar

namespace Automaton

variable {g : Grammar} (a : Automaton g) {σ : Type}

/-- The row of a state with its accept action, if it has one. -/
def acceptRow (state : State) : Row :=
  if a.acceptsIn state then g.enter g.emptyRow g.endOfInput .accept else g.emptyRow

/-- Enter the shift into the state `next`. -/
def enterShift (row : Row) (next : Nat) : Row :=
  match a.entryOf next with
  | some t => g.enter row t (.shift next)
  | none => row

/-- The row of a state before any reduce is entered. -/
def shiftRow (state : State) : Row := state.shifts.foldl a.enterShift (a.acceptRow state)

/-- Enter reduce `r` of state `s` for the terminal `t`, letting the resolver decide if the slot is
occupied. -/
def offer? (g : Grammar) (R : Resolver σ) (s r : Nat) (w : Row × σ) (t : Nat) : Option (Row × σ) :=
  match w.1[g.column t]? with
  | none => none
  | some .reject => some (g.enter w.1 t (.reduce r), w.2)
  | some occupant =>
    (R.decide? ⟨s, t, occupant, r⟩ w.2).map fun d => (g.enter w.1 t d.1, d.2)

/-- Enter reduce `r` of state `s` for all terminals of its lookahead. -/
def offerAll? (g : Grammar) (look : Lookahead) (R : Resolver σ) (s : Nat) (w : Row × σ) (r : Nat) :
    Option (Row × σ) :=
  (look.terminals? s r).bind fun ts => ts.toList.foldlM (offer? g R s r) w

/-- The row of the state with number `s`. -/
def fillRow? (look : Lookahead) (R : Resolver σ) (s : Nat) (state : State) (st : σ) :
    Option (Row × σ) :=
  (List.range state.reduces.length).foldlM (offerAll? g look R s) (a.shiftRow state, st)

/-- The rows of the given states, of which the first has number `s`. -/
def fillRows? (look : Lookahead) (R : Resolver σ) : Nat → List State → σ → Option (List Row × σ)
  | _, [], st => some ([], st)
  | s, state :: states, st => do
    let r ← a.fillRow? look R s state st
    let rest ← fillRows? look R (s + 1) states r.2
    return (r.1 :: rest.1, rest.2)

/-- Add the production of a slot of state `s` to those in use. -/
def markSlot? (s : Nat) (used : IdSet) : Action → Option IdSet
  | .reduce r => (a.reduceProduction? s r).map fun p => used.insert p.seq
  | _ => some used

/-- Add the productions of the slots of the given rows, of which the first belongs to state `s`, to
those in use. -/
def markRows? : Nat → List Row → IdSet → Option IdSet
  | _, [], used => some used
  | s, row :: rows, used =>
    (row.toList.foldlM (a.markSlot? s) used).bind fun used => markRows? (s + 1) rows used

/-- The tables in the given mode, where the resolver decides contests, and the state of the
resolver after it. -/
def tables? (mode : Mode) (R : Resolver σ) (st : σ) : Option (Tables g × σ) := do
  let look := a.lookahead mode
  let filled ← a.fillRows? look R initial a.states st
  let used ← a.markRows? initial filled.1 ∅
  return (⟨a, look, filled.1, used⟩, filled.2)

end Automaton

namespace Tables

variable {g : Grammar} (T : Tables g)

/-- The mode in which the tables were made. -/
def mode : Mode := T.lookahead.mode

/-- The number of states. -/
def numStates : Nat := T.rows.length

/-- The row of a state. -/
def row? (s : Nat) : Option Row := T.rows[s]?

/-- The action in state `s` on the terminal `t`; undefined if there is no such slot. -/
def slot? (s t : Nat) : Option Action :=
  if g.isTerminal t then (T.row? s).bind fun row => row[g.column t]? else none

/-- The tables with another action in a slot; undefined if there is no such slot. -/
def put? (s t : Nat) (action : Action) : Option (Tables g) :=
  if g.isTerminal t then
    (T.row? s).map fun row => { T with rows := T.rows.set s (g.enter row t action) }
  else none

/-- Let a policy decide between what is in a slot and a reduce. -/
def contend? {σ : Type} (decide? : Contest → σ → Option (Action × σ)) (s t r : Nat) (st : σ) :
    Option (Tables g × σ) := do
  let occupant ← T.slot? s t
  let d ← decide? ⟨s, t, occupant, r⟩ st
  let T' ← T.put? s t d.1
  return (T', d.2)

/-- Whether some slot reduced by the production when the tables were finished. -/
def isUsed (p : Production) : Bool := T.used.contains p.seq

/-- The productions by which no slot reduces, in the order of their numbers. -/
def unused : List Production := g.productions.filter fun p => !T.isUsed p

/-- The number of productions by which no slot reduces. -/
def numUnused : Nat := g.numProductions - T.used.size

end Tables

end SimpleLR
