/-!
# Symbols and precedences

A grammar numbers its symbols and refers to them by number; a symbol itself is a name and, for a
terminal that takes part in expressions, a precedence.  The precedence of a terminal and that of a
production decide between shifting the one and reducing by the other.
-/

namespace SimpleLR

/-- What to do between two operators of equal priority. -/
inductive Assoc where
  /-- The earlier operator takes the operand: reduce. -/
  | left
  /-- The later operator takes the operand: shift. -/
  | right
  /-- Neither does: the input is rejected. -/
  | nonassoc
  deriving DecidableEq, Repr

namespace Assoc

/-- The name of an associativity in printed grammars. -/
def name : Assoc → String
  | left => "left"
  | right => "right"
  | nonassoc => "nonassoc"

end Assoc

/-- How strongly an operator binds. -/
structure Precedence where
  /-- The operator with the higher priority takes the operand. -/
  priority : Nat
  /-- Decides between equal priorities. -/
  assoc : Assoc
  deriving DecidableEq, Repr

/-- An entry of the symbol table of a grammar. -/
structure Symbol where
  /-- The name, which need not be unique. -/
  name : String
  /-- The precedence, if there is one. -/
  precedence : Option Precedence := none
  deriving DecidableEq, Repr

end SimpleLR
