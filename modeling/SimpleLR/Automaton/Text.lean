import SimpleLR.Automaton.Collection

/-!
# Printed states

A state is printed with its items and, for each transition, the symbol and the next state.
-/

namespace SimpleLR.Automaton

variable {g : Grammar} (a : Automaton g)

/-- The items of a state as text. -/
def itemTexts (state : State) : List String :=
  state.items.filterMap fun i => (a.table.item? i).map (Item.text g)

/-- The transitions into the given states as text. -/
def transitionLines (arrow : Nat → String) (next : List Nat) : List String :=
  next.filterMap fun s => (a.entryOf s).map fun x => "- " ++ g.nameOf x ++ " => " ++ arrow s

/-- The state with number `s` as text. -/
def stateText (s : Nat) (state : State) : String :=
  Text.unlines <|
    ["#### State " ++ Text.stateLabel s, "## items:"] ++
    (a.itemTexts state).map ("- " ++ ·) ++
    a.transitionLines Text.stateLabel (state.shifts ++ state.gotos)

end SimpleLR.Automaton
