import SimpleLR.Automaton.Collection

/-!
# Paths through the automaton

The transitions of a state are stored without their symbols, which are the entries of the next
states.  Following a string of symbols means to look for a next state with the right entry, symbol
by symbol.

## Main Definitions

* `Automaton.next?` — the next state on a symbol
* `Automaton.walk?` — the state reached along a string of symbols
-/

namespace SimpleLR.Automaton

variable {g : Grammar} (a : Automaton g)

/-- The next state on the symbol `x`, terminal or not. -/
def next? (s x : Nat) : Option Nat :=
  (a.state? s).bind fun state =>
    (state.shifts ++ state.gotos).find? fun next => a.entryOf next == some x

/-- The state reached from `s` along a string of symbols. -/
def walk? (a : Automaton g) : Nat → List Nat → Option Nat
  | s, [] => some s
  | s, x :: xs => (a.next? s x).bind fun next => walk? a next xs

@[simp] theorem walk?_nil (s : Nat) : a.walk? s [] = some s := rfl

theorem walk?_cons (s x : Nat) (xs : List Nat) :
    a.walk? s (x :: xs) = (a.next? s x).bind fun next => a.walk? next xs := rfl

theorem walk?_append (s : Nat) (xs ys : List Nat) :
    a.walk? s (xs ++ ys) = (a.walk? s xs).bind fun next => a.walk? next ys := by
  induction xs generalizing s with
  | nil => rfl
  | cons x xs ih =>
    rw [List.cons_append, walk?_cons, walk?_cons, Option.bind_assoc]
    exact congrArg _ (funext fun next => ih next)

end SimpleLR.Automaton
