import SimpleLR.Parse.Run

/-!
# Printed configurations and verdicts

How states and symbols are named depends on the table, so the printers take a `Labels`.
-/

namespace SimpleLR

variable {σ α : Type}

/-- How to name states and symbols. -/
structure Labels (σ α : Type) where
  /-- The name of a state. -/
  state : σ → String
  /-- The name of a symbol. -/
  symbol : α → String

namespace Labels

/-- The names used with the tables of a grammar. -/
def numbered : Labels Nat Nat := ⟨Text.stateLabel, Text.symbolLabel⟩

/-- Plain numbers. -/
def plain : Labels Nat Nat := ⟨fun s => toString s, fun x => toString x⟩

/-- The name of a symbol that may be missing. -/
def optionalSymbol (l : Labels σ α) : Option α → String
  | none => "None"
  | some x => "Some(" ++ l.symbol x ++ ")"

/-- A symbol on the stack. -/
def frame (l : Labels σ α) (f : Frame σ α) : String :=
  "Frame \x7b state: " ++ l.state f.state ++ ", symbol: " ++ l.symbol f.symbol ++ " \x7d"

/-- The whole of a configuration but the input, the stack from the bottom up. -/
def configuration (l : Labels σ α) (c : Configuration σ α) : String :=
  "Parser \x7b stack: [" ++ String.intercalate ", " (c.stack.reverse.map l.frame) ++
    "], state: " ++ l.state c.state ++
    ", accepted: " ++ (if c.accepted then "true" else "false") ++
    ", lookahead: " ++ l.optionalSymbol c.lookahead ++
    ", reduced: " ++ l.optionalSymbol c.pending ++ ", .. \x7d"

/-- The wording of a rejection. -/
def rejection (l : Labels σ α) (state : σ) (symbol : Option α) : String :=
  "unexpected symbol " ++ l.optionalSymbol symbol ++ " in state " ++ l.state state

end Labels

end SimpleLR
