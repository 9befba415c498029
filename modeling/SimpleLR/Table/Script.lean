import SimpleLR.Table.Precedence

/-!
# Resolving contests by a script

A script is a list of directives.  The contests are decided by the directives in turn, starting over
when the list is used up, and a record of all decisions is kept.

## Main Definitions

* `Directive` — how to decide one contest
* `Session` — the decisions so far, and the conflicts recorded
* `Automaton.byScript` — the resolver that follows a script
-/

namespace SimpleLR

/-- How to decide a contest. -/
inductive Directive where
  /-- By precedence. -/
  | delegate
  /-- Leave the slot as it is. -/
  | keep
  /-- Enter the reduce that competes for the slot. -/
  | incoming
  /-- Enter the given action. -/
  | put (action : Action)
  deriving DecidableEq, Repr

/-- A decision of a resolver. -/
structure Ruling where
  /-- Whether two reduces competed, or something else and a reduce. -/
  kind : ConflictKind
  /-- The contest. -/
  contest : Contest
  /-- What the slot held after it. -/
  outcome : Action
  deriving DecidableEq, Repr

/-- What a scripted resolver keeps. -/
structure Session where
  /-- The decisions, in the order in which they were made. -/
  rulings : List Ruling := []
  /-- The conflicts that deciding by precedence has recorded. -/
  conflicts : List Conflict := []
  deriving DecidableEq, Repr

namespace Automaton

variable {g : Grammar} (a : Automaton g)

/-- Decide a contest of the given kind by one directive. -/
def obey (kind : ConflictKind) (c : Contest) (conflicts : List Conflict) :
    Directive → Option (Action × List Conflict)
  | .delegate =>
    match kind with
    | .shiftReduce => a.resolveShiftReduce c conflicts
    | .reduceReduce => a.resolveReduceReduce c conflicts
  | .keep => some (c.occupant, conflicts)
  | .incoming => some (.reduce c.reduce, conflicts)
  | .put action => some (action, conflicts)

/-- Decide a contest by the directive whose turn it is. -/
def obeyScript (script : List Directive) (kind : ConflictKind) (c : Contest) (s : Session) :
    Option (Action × Session) := do
  let directive ← script[s.rulings.length % script.length]?
  let r ← a.obey kind c s.conflicts directive
  return (r.1, ⟨s.rulings ++ [⟨kind, c, r.1⟩], r.2⟩)

/-- The resolver that follows a script. -/
def byScript (script : List Directive) : Resolver Session where
  shiftReduce := a.obeyScript script .shiftReduce
  reduceReduce := a.obeyScript script .reduceReduce

end Automaton

end SimpleLR
