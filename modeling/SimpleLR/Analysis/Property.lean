import SimpleLR.Analysis.Iteration
import SimpleLR.Grammar.Dependency

/-!
# Properties that a nonterminal has through one of its productions

Some properties of symbols are settled by right-hand sides: a nonterminal has the property if all
symbols of one of its right-hand sides have it.  Deriving the empty word is such a property, which
no terminal has; deriving some word of terminals is another, which every terminal has.  What the
terminals contribute is the only difference, so both are found by one analysis.

## Main Definitions

* `Decision` — undecided, or decided one way or the other
* `Property.judge`, `Property.verdict` — what right-hand sides say about a nonterminal
* `Property.update` — the update for one nonterminal
* `Grammar.decisions` — the decisions after all groups have settled

## Design Notes

A nonterminal that cannot have the property any more is marked as well, which saves looking at it
again.  It is marked only if each of its right-hand sides is blocked by a symbol that is already
known not to have the property.
-/

namespace SimpleLR

/-- What is known about a symbol. -/
inductive Decision where
  /-- Nothing yet. -/
  | undecided
  /-- It has the property. -/
  | holds
  /-- It does not have the property. -/
  | fails
  deriving DecidableEq, Repr, Inhabited

namespace Property

/-- The decisions about the nonterminals, by number. -/
abbrev Decisions := List Decision

/-- Whether the decisions say that the symbol `x` is a nonterminal with the property. -/
def has (ds : Decisions) (x : Nat) : Bool := ds[x]? == some .holds

/-- What is known about the symbol `x`, where `onTerminals` is what holds for all terminals. -/
def status (g : Grammar) (onTerminals : Decision) (ds : Decisions) (x : Nat) : Decision :=
  if g.isNonterminal x then ds[x]?.getD .undecided else onTerminals

/-- What is known about a right-hand side: the decision on its first symbol that is not known to
have the property. -/
def judge (statusOf : Nat → Decision) : List Nat → Decision
  | [] => .holds
  | x :: xs =>
    match statusOf x with
    | .holds => judge statusOf xs
    | d => d

/-- What is known about a nonterminal by its right-hand sides. -/
def verdict (statusOf : Nat → Decision) (productions : List Production) : Decision :=
  let judged := productions.map fun p => judge statusOf p.rhs
  if judged.contains .holds then .holds
  else if judged.all (· == .fails) then .fails
  else .undecided

/-- The update for one nonterminal.  Only a new nonterminal with the property counts as a change. -/
def update (g : Grammar) (onTerminals : Decision) : Analysis.Update Decisions := fun n ds =>
  match ds[n]? with
  | some .undecided =>
    let d := verdict (status g onTerminals ds) (g.productionsOf n)
    (d == .holds, ds.set n d)
  | _ => (false, ds)

end Property

namespace Grammar

/-- The decisions about all nonterminals, with the rounds for each group. -/
def decisions (g : Grammar) (onTerminals : Decision) (groups : List (List Nat)) :
    List Nat × Property.Decisions :=
  Analysis.sweep (Property.update g onTerminals) (g.numNonterminals + 1) groups
    (List.replicate g.numNonterminals .undecided)

end Grammar

end SimpleLR
