import SimpleLR.Table.Build
import SimpleLR.Table.Precedence
import SimpleLR.Table.Script

/-!
# Configuring and generating tables

`Config` holds what can be chosen about the tables of a grammar, and generates them.
-/

namespace SimpleLR

/-- What can be chosen about the tables. -/
structure Config where
  /-- How the lookahead of a reduce is chosen. -/
  mode : Mode := .slr
  deriving DecidableEq, Repr

namespace Config

/-- Let every reduce apply on every terminal. -/
def useLr0 (c : Config) : Config := { c with mode := .lr0 }

/-- Let a reduce apply on the follow set of its left-hand side. -/
def useSlr (c : Config) : Config := { c with mode := .slr }

/-- The tables for an automaton, with contests decided by precedence, and the conflicts. -/
def generate? (c : Config) {g : Grammar} (a : Automaton g) :
    Option (Tables g × List Conflict) :=
  a.tables? c.mode a.byPrecedence []

/-- The tables for an automaton, with contests decided by a script, and what was decided. -/
def generateByScript? (c : Config) {g : Grammar} (a : Automaton g) (script : List Directive) :
    Option (Tables g × Session) :=
  a.tables? c.mode (a.byScript script) {}

end Config

end SimpleLR
