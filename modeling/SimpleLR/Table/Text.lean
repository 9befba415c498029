import SimpleLR.Automaton.Text
import SimpleLR.Table.Build

/-!
# Printed tables

The tables are printed state by state: the actions by terminal, then the next states by
nonterminal.  The text is undefined if a slot has a reduce that its state does not have.
-/

namespace SimpleLR.Tables

variable {g : Grammar} (T : Tables g)

/-- What is printed for an action of state `s`; nothing for an empty slot. -/
def actionText? (s : Nat) : Action → Option (Option String)
  | .reject => some none
  | .shift next => some (some ("shift(" ++ Text.stateLabel next ++ ")"))
  | .accept => some (some "accept")
  | .reduce r =>
    (T.automaton.reduceProduction? s r).map fun p => some ("reduce(" ++ g.productionText p ++ ")")

/-- The line for a slot of state `s`, if there is one. -/
def slotLines? (s : Nat) (slot : Symbol × Action) : Option (List String) :=
  (T.actionText? s slot.2).map fun text =>
    text.toList.map fun word => "- " ++ slot.1.name ++ " => " ++ word

/-- The lines for a state. -/
def stateLines? (s : Nat) (row : Row) : Option (List String) := do
  let terminals := g.symbols.drop g.numNonterminals
  let slots ← (terminals.zip row.toList).mapM (T.slotLines? s)
  let state ← T.automaton.state? s
  return ("#### State " ++ Text.stateLabel s) :: slots.flatten ++
    T.automaton.transitionLines (fun next => "goto(" ++ Text.stateLabel next ++ ")") state.gotos

/-- The tables as text. -/
def text? : Option String := do
  let blocks ← (T.rows.mapIdx fun s row => T.stateLines? s row).mapM id
  return String.intercalate "\n" (blocks.map Text.unlines)

end SimpleLR.Tables
