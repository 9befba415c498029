import SimpleLR.Grammar.Basic
import SimpleLR.Text

/-!
# Printed grammars

A production is printed as `E := E + T`, with `ε` for an empty right-hand side.  A grammar is
printed as three sections: terminals, nonterminals and rules.
-/

namespace SimpleLR

/-- A precedence behind the symbol or rule that has it; nothing if there is none. -/
def precedenceSuffix : Option Precedence → String
  | none => ""
  | some p => s!" (priority={p.priority}, assoc={p.assoc.name})"

namespace Grammar

variable (g : Grammar)

/-- The name of the symbol `x`; empty if there is no such symbol. -/
def nameOf (x : Nat) : String := ((g.symbol? x).map (·.name)).getD ""

/-- A production such as `E := E + T`. -/
def productionText (p : Production) : String :=
  g.nameOf p.lhs ++ " :=" ++
    (if p.rhs.isEmpty then " ε" else Text.spaced (p.rhs.map g.nameOf))

/-- The lines for the terminals, with their precedences. -/
def terminalLines : List String :=
  (g.symbols.drop g.numNonterminals).map fun s => s.name ++ precedenceSuffix s.precedence

/-- The lines for the nonterminals, the start symbol marked. -/
def nonterminalLines : List String :=
  (g.symbols.take g.numNonterminals).mapIdx fun n s =>
    if n = start then s.name ++ " (start)" else s.name

/-- The lines for the productions, with the precedences given to them. -/
def ruleLines : List String :=
  g.productions.map fun p => g.productionText p ++ precedenceSuffix p.precedence

/-- The whole grammar as text. -/
def text : String :=
  Text.unlines <|
    ["## terminals:"] ++ g.terminalLines ++
    ["", "## nonterminals:"] ++ g.nonterminalLines ++
    ["", "## rules:"] ++ g.ruleLines

end Grammar

end SimpleLR
