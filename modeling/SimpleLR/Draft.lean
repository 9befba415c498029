import SimpleLR.Grammar.Validation

/-!
# Drafting a grammar by declarations

A grammar can be drafted step by step: declare terminals and nonterminals, add rules over what has
been declared, and choose a start symbol.  A declaration that does not fit is refused and leaves the
draft as it was.  The finished draft becomes a grammar in which the start symbol comes first, then
the other nonterminals and the terminals in the order of their declaration, and the end of the
input last.

## Main Definitions

* `TerminalRef`, `NonterminalRef`, `Elem` — what the declarations hand out and rules are made of
* `Draft`, `DraftM` — a draft, and programs that extend one or fail
* `Draft.terminal`, `Draft.nonterminal`, `Draft.rule`, `Draft.chooseStart` — the declarations
* `Draft.finish`, `Grammar.define` — the grammar of a draft
* `Call`, `Draft.attempt`, `Draft.attemptAll` — declarations as data, made one after the other
  whatever becomes of them
* `Call.insist`, `Call.persist` — the programs that make declarations up to the first refusal, and
  that go on after refusals

## Design Notes

References are plain numbers: one that was handed out by another draft may or may not be declared
in this one, so every declaration checks the references it is given.

A program that fails leaves a draft behind, and whoever catches the error goes on with that draft.
So it is for the declarations to check everything before they change anything.
-/

namespace SimpleLR

/-- A terminal of a draft.  Number zero is the end of the input, the declared terminals are counted
from one. -/
structure TerminalRef where
  /-- The number of the terminal. -/
  number : Nat
  deriving DecidableEq, Repr

/-- A nonterminal of a draft, counted from zero in the order of declaration. -/
structure NonterminalRef where
  /-- The number of the nonterminal. -/
  number : Nat
  deriving DecidableEq, Repr

/-- A symbol in the right-hand side of a drafted rule. -/
inductive Elem where
  /-- A terminal, or the end of the input. -/
  | terminal (t : TerminalRef)
  /-- A nonterminal. -/
  | nonterminal (n : NonterminalRef)
  deriving DecidableEq, Repr

/-- A rule of a draft. -/
structure DraftRule where
  /-- The nonterminal that is replaced. -/
  lhs : NonterminalRef
  /-- What it is replaced by. -/
  rhs : List Elem
  /-- A precedence given to the rule itself. -/
  precedence : Option Precedence
  deriving DecidableEq, Repr

/-- What has been declared so far. -/
structure Draft where
  /-- The terminals in the order of declaration. -/
  terminals : List Symbol := []
  /-- The names of the nonterminals in the order of declaration. -/
  nonterminals : List String := []
  /-- The rules in the order in which they were added. -/
  rules : List DraftRule := []
  /-- The start symbol, if one was chosen. -/
  start : Option NonterminalRef := none
  deriving DecidableEq, Repr

/-- Programs that extend a draft, or are refused.  What has become of the draft can be seen in both
cases. -/
abbrev DraftM := ExceptT GrammarError (StateM Draft)

/-- What a program comes to on a draft, and the draft that it leaves behind. -/
def Draft.carryOut {α : Type} (d : Draft) (program : DraftM α) : Except GrammarError α × Draft :=
  program.run.run d

namespace Draft

variable {α β : Type} (d : Draft)

@[simp] theorem carryOut_pure (a : α) : d.carryOut (pure a) = (.ok a, d) := rfl

@[simp] theorem carryOut_get : d.carryOut get = (.ok d, d) := rfl

theorem carryOut_bind (program : DraftM α) (next : α → DraftM β) :
    d.carryOut (program >>= next) =
      match d.carryOut program with
      | (.ok a, d') => d'.carryOut (next a)
      | (.error e, d') => (.error e, d') := by
  simp only [carryOut, ExceptT.run_bind, StateT.run_bind]
  rcases program.run.run d with ⟨e | a, d'⟩ <;> rfl

theorem carryOut_map (f : α → β) (program : DraftM α) :
    d.carryOut (f <$> program) = ((d.carryOut program).1.map f, (d.carryOut program).2) := by
  rw [map_eq_pure_bind, carryOut_bind]
  rcases d.carryOut program with ⟨e | a, d'⟩ <;> rfl

theorem carryOut_observing (program : DraftM α) :
    d.carryOut (observing program) = (.ok (d.carryOut program).1, (d.carryOut program).2) := by
  simp only [observing, carryOut, ExceptT.run_tryCatch, ExceptT.run_bind, StateT.run_bind]
  rcases program.run.run d with ⟨e | a, d'⟩ <;> rfl

end Draft

/-- The end of the input, which every draft has without declaring it. -/
def TerminalRef.endOfInput : TerminalRef := ⟨0⟩

/-- The name of the end of the input; no declared symbol can have it. -/
def endOfInputName : String := "$end"

namespace Draft

/-! ### Checks -/

/-- Whether a name is in use or reserved. -/
def isTaken (d : Draft) (name : String) : Bool :=
  name == endOfInputName || d.terminals.any (·.name == name) || d.nonterminals.contains name

/-- Whether the nonterminal has been declared. -/
def declaresNonterminal (d : Draft) (n : NonterminalRef) : Bool :=
  decide (n.number < d.nonterminals.length)

/-- Whether the terminal has been declared or is the end of the input. -/
def declaresTerminal (d : Draft) (t : TerminalRef) : Bool :=
  decide (t.number ≤ d.terminals.length)

/-- The error for a name that is in use or reserved. -/
def nameFault? (d : Draft) (name : String) : Option GrammarError :=
  if d.isTaken name then some (.duplicateSymbol name) else none

/-- The error for a nonterminal that has not been declared. -/
def nonterminalFault? (d : Draft) (n : NonterminalRef) : Option GrammarError :=
  if d.declaresNonterminal n then none else some (.undeclaredNonterminal n.number)

/-- The error for a symbol that has not been declared. -/
def elemFault? (d : Draft) : Elem → Option GrammarError
  | .nonterminal n => d.nonterminalFault? n
  | .terminal t => if d.declaresTerminal t then none else some (.undeclaredTerminal t.number)

/-- The name of a nonterminal of the draft. -/
def nonterminalName (d : Draft) (n : NonterminalRef) : String :=
  d.nonterminals[n.number]?.getD ""

/-- The error for a rule that has the two sides of another one. -/
def repetitionFault? (d : Draft) (lhs : NonterminalRef) (rhs : List Elem) : Option GrammarError :=
  if d.rules.any fun r => r.lhs == lhs && r.rhs == rhs then
    some (.duplicateRule (d.nonterminalName lhs))
  else none

/-- Refuse to go on if there is a fault. -/
def require (fault? : Draft → Option GrammarError) : DraftM Unit := do
  match fault? (← get) with
  | some e => throw e
  | none => pure ()

theorem carryOut_require (d : Draft) (fault? : Draft → Option GrammarError) :
    d.carryOut (require fault?) =
      match fault? d with
      | some e => (.error e, d)
      | none => (.ok (), d) := by
  simp only [require, carryOut_bind, carryOut_get]
  cases fault? d <;> rfl

/-! ### Declarations -/

/-- Declare a terminal. -/
def terminal (name : String) (precedence : Option Precedence) : DraftM TerminalRef := do
  require (·.nameFault? name)
  let t : TerminalRef := ⟨(← get).terminals.length + 1⟩
  modify fun d => { d with terminals := d.terminals ++ [⟨name, precedence⟩] }
  return t

/-- Declare a nonterminal. -/
def nonterminal (name : String) : DraftM NonterminalRef := do
  require (·.nameFault? name)
  let n : NonterminalRef := ⟨(← get).nonterminals.length⟩
  modify fun d => { d with nonterminals := d.nonterminals ++ [name] }
  return n

/-- Add a rule.  Its left-hand side is checked first, then the symbols of its right-hand side in
turn, and last whether there is such a rule already. -/
def rule (lhs : NonterminalRef) (rhs : List Elem) (precedence : Option Precedence) :
    DraftM Unit := do
  require (·.nonterminalFault? lhs)
  forM rhs fun x => require (·.elemFault? x)
  require (·.repetitionFault? lhs rhs)
  modify fun d => { d with rules := d.rules ++ [⟨lhs, rhs, precedence⟩] }

/-- Choose the start symbol, in place of any earlier choice. -/
def chooseStart (n : NonterminalRef) : DraftM Unit := do
  require (·.nonterminalFault? n)
  modify fun d => { d with start := some n }

/-- What a name stands for in a draft. -/
def lookup? (d : Draft) (name : String) : Option Elem :=
  if name = endOfInputName then some (.terminal .endOfInput)
  else
    match d.nonterminals.findIdx? (· == name) with
    | some i => some (.nonterminal ⟨i⟩)
    | none => (d.terminals.findIdx? (·.name == name)).map fun i => .terminal ⟨i + 1⟩

/-! ### The finished grammar -/

/-- The start symbol: the one chosen, or else the first nonterminal. -/
def startSymbol? (d : Draft) : Option NonterminalRef :=
  match d.start, d.nonterminals with
  | some n, _ => some n
  | none, _ :: _ => some ⟨0⟩
  | none, [] => none

/-- The number of nonterminal `n` in the grammar, if `start` is the start symbol: the nonterminals
declared in front of `start` make room for it. -/
def nonterminalId (start n : NonterminalRef) : Nat :=
  if n = start then 0 else if n.number < start.number then n.number + 1 else n.number

/-- The number of a symbol in the grammar, if `start` is the start symbol. -/
def elemId (d : Draft) (start : NonterminalRef) : Elem → Nat
  | .nonterminal n => nonterminalId start n
  | .terminal t =>
    if t.number = 0 then d.nonterminals.length + d.terminals.length
    else d.nonterminals.length + (t.number - 1)

/-- The symbol table of the grammar, if `start` is the start symbol. -/
def symbolTable (d : Draft) (start : NonterminalRef) : List Symbol :=
  (d.nonterminalName start :: d.nonterminals.eraseIdx start.number).map (⟨·, none⟩) ++
    d.terminals ++ [⟨endOfInputName, none⟩]

/-- The alternatives of the nonterminal with number `i` in the grammar. -/
def alternatives (d : Draft) (start : NonterminalRef) (i : Nat) : List Alternative :=
  (d.rules.filter fun r => nonterminalId start r.lhs == i).map fun r =>
    ⟨r.rhs.map (d.elemId start), r.precedence⟩

/-- The grammar that has been drafted. -/
def finish (d : Draft) : Except GrammarError Grammar :=
  match d.startSymbol? with
  | none => .error .noNonterminals
  | some start =>
    Grammar.ofAlternatives (d.symbolTable start) d.nonterminals.length
      ((List.range d.nonterminals.length).map (d.alternatives start))

end Draft

/-- The grammar that a program drafts, or the first error. -/
def Grammar.define (program : DraftM Unit) : Except GrammarError Grammar :=
  match ({} : Draft).carryOut program with
  | (.error e, _) => .error e
  | (.ok _, d) => d.finish

/-! ### Declarations as data -/

/-- A declaration. -/
inductive Call where
  /-- Declare a terminal. -/
  | terminal (name : String) (precedence : Option Precedence)
  /-- Declare a nonterminal. -/
  | nonterminal (name : String)
  /-- Ask for the end of the input. -/
  | endOfInput
  /-- Add a rule. -/
  | rule (lhs : NonterminalRef) (rhs : List Elem) (precedence : Option Precedence)
  /-- Choose the start symbol. -/
  | chooseStart (n : NonterminalRef)
  deriving DecidableEq, Repr

/-- What a declaration hands out. -/
inductive Reply where
  /-- A terminal. -/
  | terminal (t : TerminalRef)
  /-- A nonterminal. -/
  | nonterminal (n : NonterminalRef)
  /-- Nothing but success. -/
  | done
  deriving DecidableEq, Repr

/-- Make a declaration. -/
def Call.perform : Call → DraftM Reply
  | .terminal name precedence => Reply.terminal <$> Draft.terminal name precedence
  | .nonterminal name => Reply.nonterminal <$> Draft.nonterminal name
  | .endOfInput => pure (.terminal .endOfInput)
  | .rule lhs rhs precedence => (fun _ => Reply.done) <$> Draft.rule lhs rhs precedence
  | .chooseStart n => (fun _ => Reply.done) <$> Draft.chooseStart n

/-- Make declarations in turn, up to the first that is refused. -/
def Call.insist (cs : List Call) : DraftM (List Reply) := cs.mapM Call.perform

/-- Make declarations in turn, going on after those that are refused, and collect what comes of
each. -/
def Call.persist (cs : List Call) : DraftM (List (Except GrammarError Reply)) :=
  cs.mapM fun c => observing c.perform

namespace Draft

/-- What comes of a declaration, and the draft that it leaves behind. -/
def attempt (d : Draft) (c : Call) : Except GrammarError Reply × Draft := d.carryOut c.perform

/-- Make declarations in turn, going on after those that are refused with the draft that they leave
behind. -/
def attemptAll (d : Draft) : List Call → List (Except GrammarError Reply) × Draft
  | [] => ([], d)
  | c :: cs =>
    let r := d.attempt c
    let rest := r.2.attemptAll cs
    (r.1 :: rest.1, rest.2)

end Draft

end SimpleLR
