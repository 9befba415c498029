import SimpleLR.Parse.Table

/-!
# Configurations of a parser

A parser holds a stack of symbols, each with the state in which it was put there, and the state that
it is in.  It reads the input symbol by symbol, and the end of the input as often as it likes behind
it.  A symbol that has been read waits until it is consumed.  A reduce takes the symbols of a
production off the stack; putting the left-hand side in their place is a step of its own, so in
between the left-hand side is *pending*.  The input may have nonterminals in it, which are put on
the stack as if they had just been reduced.

## Main Definitions

* `Frame`, `Configuration` — the stack and the configuration
* `Outcome` — what a step did
* `Configuration.step?` — one step; undefined if a look-up in the table is
-/

namespace SimpleLR

variable {σ α : Type}

/-- A symbol on the stack, with the state in which it was put there. -/
structure Frame (σ α : Type) where
  /-- The state in which the symbol was put on the stack. -/
  state : σ
  /-- The symbol. -/
  symbol : α
  deriving DecidableEq, Repr

/-- What a step of the parser did. -/
inductive Outcome where
  /-- The input has been recognised. -/
  | accept
  /-- The input has been rejected. -/
  | error
  /-- A terminal was consumed. -/
  | shift
  /-- A nonterminal was put on the stack. -/
  | goto
  /-- The symbols of a production were taken off the stack. -/
  | reduce
  deriving DecidableEq, Repr

/-- Whether nothing can happen after this outcome. -/
def Outcome.isFinal : Outcome → Bool
  | accept | error => true
  | shift | goto | reduce => false

/-- A configuration of the parser. -/
structure Configuration (σ α : Type) where
  /-- The stack, the top first. -/
  stack : List (Frame σ α)
  /-- The state that the parser is in. -/
  state : σ
  /-- Whether the input has been recognised. -/
  accepted : Bool
  /-- The symbol that has been read and not yet consumed. -/
  lookahead : Option α
  /-- The left-hand side that has to be put on the stack after a reduce. -/
  pending : Option α
  /-- The part of the input that has not been read. -/
  input : List α
  deriving DecidableEq, Repr

namespace Configuration

/-- The configuration in which nothing has been done. -/
def start (t : ParseTable σ α) (input : List α) : Configuration σ α :=
  ⟨[], t.initial, false, none, none, input⟩

/-- Put a symbol on the stack and go to the state `next`. -/
def push (c : Configuration σ α) (x : α) (next : σ) : Configuration σ α :=
  { c with stack := ⟨c.state, x⟩ :: c.stack, state := next }

/-- Take symbols off the stack and return to the state in which the lowest of them was put there;
undefined if there are not as many. -/
def pop? (c : Configuration σ α) : Nat → Option (Configuration σ α)
  | 0 => some c
  | n + 1 => c.stack[n]?.map fun f => { c with stack := c.stack.drop (n + 1), state := f.state }

/-- The symbol to be consumed next, and the configuration in which it has been read. -/
def read (t : ParseTable σ α) (c : Configuration σ α) : α × Configuration σ α :=
  match c.lookahead with
  | some x => (x, c)
  | none =>
    match c.input with
    | x :: rest => (x, { c with lookahead := some x, input := rest })
    | [] => (t.endOfInput, { c with lookahead := some t.endOfInput })

/-- Put the nonterminal `x` on the stack if there is a next state for it; `settled` says what
becomes of the configuration then. -/
def goto? (t : ParseTable σ α) (c : Configuration σ α) (x : α)
    (settled : Configuration σ α → Configuration σ α) : Option (Outcome × Configuration σ α) :=
  (t.goto? c.state x).map fun next? =>
    match next? with
    | some next => (.goto, settled (c.push x next))
    | none => (.error, c)

/-- Do what the table says about the terminal `x`, which has been read. -/
def act (c : Configuration σ α) (x : α) : ParseAction σ α → Outcome × Configuration σ α
  | .accept => (.accept, { c with accepted := true })
  | .shift next => (.shift, { c.push x next with lookahead := none })
  | .reduce lhs length =>
    match c.pop? length with
    | some c' => (.reduce, { c' with pending := some lhs })
    | none => (.error, c)
  | .reject => (.error, c)

/-- Consume the symbol `x`, which has been read. -/
def consume? (t : ParseTable σ α) (c : Configuration σ α) (x : α) :
    Option (Outcome × Configuration σ α) :=
  if t.isNonterminal x then c.goto? t x fun c' => { c' with lookahead := none }
  else (t.action? c.state x).map (c.act x)

/-- One step of the parser. -/
def step? (t : ParseTable σ α) (c : Configuration σ α) : Option (Outcome × Configuration σ α) :=
  if c.accepted then some (.accept, c)
  else
    match c.pending with
    | some lhs => c.goto? t lhs fun c' => { c' with pending := none }
    | none => (c.read t).2.consume? t (c.read t).1

end Configuration

end SimpleLR
