import SimpleLR.Text

/-!
# Actions, contests and resolvers

A slot of the action table says what to do in a state on a terminal.  When a reduce is entered into
a slot that is already occupied, there is a *contest*, and a *resolver* decides what the slot holds
after it.

## Main Definitions

* `Action` — the content of a slot
* `Contest` — an occupied slot and a reduce that competes for it
* `Resolver` — a policy for contests, with a state of its own

## Design Notes

A resolver is told about the contest only.  It can know about the other slots nevertheless, because
the contests that it has decided before, which it may keep in its state, determine what they hold.
-/

namespace SimpleLR

/-- The content of a slot of the action table. -/
inductive Action where
  /-- There is nothing to do: the input is rejected. -/
  | reject
  /-- Consume the terminal and go to the given state. -/
  | shift (next : Nat)
  /-- The input has been recognised. -/
  | accept
  /-- Reduce by the given reduce of the state. -/
  | reduce (r : Nat)
  deriving DecidableEq, Repr, Inhabited

/-- An action in reports about conflicts. -/
def Action.label : Action → String
  | reject => "None"
  | shift next => "Shift(" ++ Text.stateLabel next ++ ")"
  | accept => "Accept"
  | reduce r => s!"Reduce({r})"

/-- A reduce that competes for an occupied slot. -/
structure Contest where
  /-- The state of the slot. -/
  state : Nat
  /-- The terminal of the slot. -/
  terminal : Nat
  /-- What the slot holds. -/
  occupant : Action
  /-- The reduce of the state that competes for the slot. -/
  reduce : Nat
  deriving DecidableEq, Repr

/-- A policy for contests.  It says what the slot holds afterwards, and nothing if it cannot decide
because the contest is about a reduce that does not exist. -/
structure Resolver (σ : Type) where
  /-- Decide between a shift or an accept and a reduce. -/
  shiftReduce : Contest → σ → Option (Action × σ)
  /-- Decide between two reduces. -/
  reduceReduce : Contest → σ → Option (Action × σ)

/-- Decide a contest according to what the slot holds. -/
def Resolver.decide? {σ : Type} (R : Resolver σ) (c : Contest) (st : σ) : Option (Action × σ) :=
  match c.occupant with
  | .reduce _ => R.reduceReduce c st
  | _ => R.shiftReduce c st

end SimpleLR
