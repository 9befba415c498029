import SimpleLR.Parse.Configuration

/-!
# Runs of a parser

A parser is run step by step until the input is accepted or rejected.  Some tables make it go on for
ever, so a run is given a number of steps.

## Main Definitions

* `Configuration.after?` — the configuration after a number of steps
* `Configuration.trace?`, `Configuration.watch?` — the steps up to an end, and beyond it
* `Configuration.run` — the verdict on the input
-/

namespace SimpleLR

variable {σ α : Type}

/-- The verdict on an input. -/
inductive Verdict (σ α : Type) where
  /-- The input is accepted. -/
  | accepted
  /-- The input is rejected in a state because of a symbol. -/
  | rejected (state : σ) (symbol : Option α)
  deriving DecidableEq, Repr

/-- The result of running a parser for a number of steps. -/
inductive RunResult (σ α : Type) where
  /-- There is a verdict. -/
  | finished (verdict : Verdict σ α) (last : Configuration σ α)
  /-- There is no verdict yet. -/
  | unfinished (last : Configuration σ α)
  /-- A look-up in the table was undefined. -/
  | undefined

namespace Configuration

/-- The configuration after `n` steps. -/
def after? (t : ParseTable σ α) : Nat → Configuration σ α → Option (Configuration σ α)
  | 0, c => some c
  | n + 1, c => (c.step? t).bind fun r => after? t n r.2

@[simp] theorem after?_zero (t : ParseTable σ α) (c : Configuration σ α) :
    c.after? t 0 = some c := rfl

theorem after?_succ (t : ParseTable σ α) (n : Nat) (c : Configuration σ α) :
    c.after? t (n + 1) = (c.step? t).bind fun r => r.2.after? t n := rfl

theorem after?_add (t : ParseTable σ α) (m n : Nat) (c : Configuration σ α) :
    c.after? t (m + n) = (c.after? t m).bind fun c' => c'.after? t n := by
  induction m generalizing c with
  | zero => simp
  | succ m ih =>
    rw [Nat.succ_add, after?_succ, after?_succ, Option.bind_assoc]
    exact congrArg _ (funext fun r => ih r.2)

/-- The next `n` steps. -/
def steps? (t : ParseTable σ α) :
    Nat → Configuration σ α → Option (List (Outcome × Configuration σ α))
  | 0, _ => some []
  | n + 1, c => (c.step? t).bind fun r => (steps? t n r.2).map (r :: ·)

/-- The steps up to the first with a final outcome, `n` at most. -/
def trace? (t : ParseTable σ α) :
    Nat → Configuration σ α → Option (List (Outcome × Configuration σ α))
  | 0, _ => some []
  | n + 1, c =>
    (c.step? t).bind fun r =>
      if r.1.isFinal then some [r] else (trace? t n r.2).map (r :: ·)

/-- The last configuration of a list of steps that begins in `c`. -/
def lastOf (c : Configuration σ α) (steps : List (Outcome × Configuration σ α)) :
    Configuration σ α :=
  (steps.getLast?.map (·.2)).getD c

/-- The final outcome that a list of steps reaches, if it does. -/
def finalOutcome? (steps : List (Outcome × Configuration σ α)) : Option Outcome :=
  (steps.find? fun r => r.1.isFinal).map (·.1)

/-- The steps up to the first with a final outcome and `extra` more, `n` at most. -/
def watch? (t : ParseTable σ α) (n extra : Nat) (c : Configuration σ α) :
    Option (List (Outcome × Configuration σ α)) := do
  let steps ← c.trace? t n
  if (finalOutcome? steps).isSome then
    let more ← (c.lastOf steps).steps? t (min extra (n - steps.length))
    return steps ++ more
  else return steps

/-- The verdict after a step with a final outcome. -/
def verdict (o : Outcome) (c : Configuration σ α) : Verdict σ α :=
  if o = .accept then .accepted else .rejected c.state (c.pending.or c.lookahead)

/-- Step until the input is accepted or rejected, `n` times at most. -/
def run (t : ParseTable σ α) : Nat → Configuration σ α → RunResult σ α
  | 0, c => .unfinished c
  | n + 1, c =>
    match c.step? t with
    | none => .undefined
    | some (o, c') => if o.isFinal then .finished (verdict o c') c' else run t n c'

end Configuration

end SimpleLR
