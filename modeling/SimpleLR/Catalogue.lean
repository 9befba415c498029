import SimpleLR.Draft

/-!
# A catalogue of small grammars

Eight grammars that each show one thing: left recursion, precedences, conflicts that need more than
one symbol of context, an end of the input that is spelled out, a nonterminal that is never reached.

## Main Definitions

* `Catalogue.all` — the grammars by name, in the order of the catalogue
* `Catalogue.find?` — one grammar by its name
-/

namespace SimpleLR.Catalogue

open Draft

/-- A terminal in a right-hand side. -/
local instance : Coe TerminalRef Elem := ⟨Elem.terminal⟩

/-- A nonterminal in a right-hand side. -/
local instance : Coe NonterminalRef Elem := ⟨Elem.nonterminal⟩

/-- Sums of identifiers: `E → E + T | T`, `T → id`. -/
def arithmetic : DraftM Unit := do
  let plus ← terminal "PLUS" none
  let ident ← terminal "ID" none
  let e ← nonterminal "E"
  let t ← nonterminal "T"
  rule e [e, plus, t] none
  rule e [t] none
  rule t [ident] none

/-- Expressions whose ambiguity precedences resolve.  The unary minus binds tighter than any
binary operator but the caret. -/
def arithmeticPrecedence : DraftM Unit := do
  let lparen ← terminal "LPAREN" none
  let rparen ← terminal "RPAREN" none
  let plus ← terminal "PLUS" (some ⟨0, .left⟩)
  let minus ← terminal "MINUS" (some ⟨0, .left⟩)
  let star ← terminal "STAR" (some ⟨1, .left⟩)
  let slash ← terminal "SLASH" (some ⟨1, .left⟩)
  let caret ← terminal "CARET" (some ⟨3, .right⟩)
  let num ← terminal "NUM" none
  let expr ← nonterminal "EXPR"
  rule expr [expr, plus, expr] none
  rule expr [expr, minus, expr] none
  rule expr [expr, star, expr] none
  rule expr [expr, slash, expr] none
  rule expr [expr, caret, expr] none
  rule expr [minus, expr] (some ⟨2, .right⟩)
  rule expr [lparen, expr, rparen] none
  rule expr [num] none

/-- Equations between sums, where an identifier alone is a statement as well: one symbol of
lookahead is enough, but the follow sets are too coarse. -/
def equation : DraftM Unit := do
  let equal ← terminal "EQUAL" none
  let plus ← terminal "PLUS" none
  let ident ← terminal "ID" none
  let num ← terminal "NUM" none
  let a ← nonterminal "A"
  let e ← nonterminal "E"
  let t ← nonterminal "T"
  chooseStart a
  rule a [e, equal, e] none
  rule a [ident] none
  rule e [e, plus, t] none
  rule e [t] none
  rule t [num] none
  rule t [ident] none

/-- Sums and products with brackets, free of conflicts. -/
def layered : DraftM Unit := do
  let lparen ← terminal "LPAREN" none
  let rparen ← terminal "RPAREN" none
  let plus ← terminal "PLUS" none
  let minus ← terminal "MINUS" none
  let star ← terminal "STAR" none
  let slash ← terminal "SLASH" none
  let num ← terminal "NUM" none
  let expr ← nonterminal "EXPR"
  let factor ← nonterminal "FACTOR"
  let term ← nonterminal "TERM"
  chooseStart expr
  rule expr [expr, plus, factor] none
  rule expr [expr, minus, factor] none
  rule expr [factor] none
  rule factor [factor, star, term] none
  rule factor [factor, slash, term] none
  rule factor [term] none
  rule term [num] none
  rule term [lparen, expr, rparen] none

/-- Parameter and result lists, for which merged states lose the context that decides. -/
def signature : DraftM Unit := do
  let comma ← terminal "COMMA" none
  let colon ← terminal "COLON" none
  let ident ← terminal "ID" none
  let definition ← nonterminal "DEF"
  let params ← nonterminal "PARAM_SPEC"
  let result ← nonterminal "RETURN_SPEC"
  let type ← nonterminal "TYPE"
  let name ← nonterminal "NAME"
  let names ← nonterminal "NAME_LIST"
  rule definition [params, result, comma] none
  rule params [type] none
  rule params [names, colon, type] none
  rule result [type] none
  rule result [name, colon, type] none
  rule type [ident] none
  rule name [ident] none
  rule names [name] none
  rule names [name, comma, names] none

/-- Sums with brackets: `E → E + T | T`, `T → ( E ) | n`. -/
def brackets : DraftM Unit := do
  let plus ← terminal "PLUS" none
  let lparen ← terminal "LPAREN" none
  let rparen ← terminal "RPAREN" none
  let num ← terminal "NUM" none
  let e ← nonterminal "E"
  let t ← nonterminal "T"
  rule e [e, plus, t] none
  rule e [t] none
  rule t [lparen, e, rparen] none
  rule t [num] none

/-- A list that may be empty, with the end of the input spelled out in the start rule. -/
def optionalTail : DraftM Unit := do
  let item ← terminal "a" none
  let s ← nonterminal "S"
  let a ← nonterminal "A"
  rule s [a, TerminalRef.endOfInput] none
  rule a [item, a] none
  rule a [] none

/-- A nonterminal that the start symbol never reaches. -/
def unreachable : DraftM Unit := do
  let a ← terminal "a" none
  let b ← terminal "b" none
  let s ← nonterminal "S"
  let u ← nonterminal "U"
  rule s [a] none
  rule u [b] none

/-- The catalogue. -/
def all : List (String × DraftM Unit) :=
  [("arithmetic", arithmetic), ("arithmetic_prec", arithmeticPrecedence),
    ("g_simple1", equation), ("g_simple2", layered), ("g2", signature), ("g4", brackets),
    ("optional_tail", optionalTail), ("unreachable", unreachable)]

/-- The names in the catalogue, in order. -/
def names : List String := all.map (·.1)

/-- The grammar with a given name. -/
def find? (name : String) : Option (DraftM Unit) := (all.find? (·.1 == name)).map (·.2)

end SimpleLR.Catalogue
