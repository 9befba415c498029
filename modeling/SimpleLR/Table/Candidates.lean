import SimpleLR.Table.Build

/-!
# Candidates for a slot

What would go into a slot of the action table if there were no contests: the accept action, the
shifts on the terminal, and the reduces with the terminal in their lookahead.  Tables in which no
slot has two candidates are made without a resolver having a say.

## Main Definitions

* `Automaton.candidates` — the candidates for a slot
* `Automaton.ConflictFree` — no slot has two candidates
* `Automaton.Confines` — resolvers that choose one of the two sides of a contest, or neither
-/

namespace SimpleLR

namespace Automaton

variable {g : Grammar} (a : Automaton g) (look : Lookahead)

/-- The shifts of a state on the terminal `t`. -/
def shiftsOn (state : State) (t : Nat) : List Nat :=
  state.shifts.filter fun next => a.entryOf next == some t

/-- The reduces of a state, with number `s`, that have the terminal `t` in their lookahead. -/
def reducesOn (look : Lookahead) (s : Nat) (state : State) (t : Nat) : List Nat :=
  (List.range state.reduces.length).filter fun r =>
    (look.terminals? s r).any fun ts => ts.contains t

/-- The candidates for the slot of state `s` and terminal `t`. -/
def candidates (s t : Nat) : List Action :=
  match a.state? s with
  | none => []
  | some state =>
    (if a.acceptsIn state && t == g.endOfInput then [.accept] else []) ++
      (a.shiftsOn state t).map .shift ++ (reducesOn look s state t).map .reduce

/-- No slot has two candidates. -/
def ConflictFree : Prop := ∀ s t, (a.candidates look s t).length ≤ 1

end Automaton

/-- The outcome of a contest is one of its two sides, or nothing. -/
def Contest.Allows (c : Contest) (action : Action) : Prop :=
  action = c.occupant ∨ action = .reduce c.reduce ∨ action = .reject

namespace Automaton

variable {g : Grammar} (a : Automaton g) (look : Lookahead) {σ : Type}

/-- A contest between two different candidates for its slot. -/
def IsContest (c : Contest) : Prop :=
  c.occupant ∈ a.candidates look c.state c.terminal ∧
    .reduce c.reduce ∈ a.candidates look c.state c.terminal ∧ c.occupant ≠ .reduce c.reduce

/-- A resolver that decides every contest for one of its two sides, or for neither. -/
def Confines (R : Resolver σ) : Prop :=
  ∀ (c : Contest) (st : σ), a.IsContest look c →
    ∃ action st', R.decide? c st = some (action, st') ∧ c.Allows action

end Automaton

end SimpleLR
