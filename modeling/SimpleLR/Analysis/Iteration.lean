/-!
# Iteration over groups of nonterminals

Facts about nonterminals that depend on each other are found by repetition.  An `Update` looks at
one nonterminal, extends the facts if it can, and reports whether it did.  A group of nonterminals
is visited in rounds until a round changes nothing, and the groups are visited one after the other:
in dependency order if facts come from what a nonterminal mentions, in the opposite order if they
come from what mentions it.

## Main Definitions

* `Update`, `round`, `settle`, `sweep` — one nonterminal, one round, one group, all groups
* `Order` — the two orders in which groups are visited
* `visitOrder` — the order in which nonterminals are visited by an update that reports a given
  number of changes for each

## Design Notes

A round that changes something adds a fact, and there are finitely many facts.  `settle` takes a
bound on the number of rounds, which its callers compute from the number of possible facts.
-/

namespace SimpleLR.Analysis

/-- Look at one nonterminal: whether the facts were extended, and the facts after it. -/
abbrev Update (φ : Type) := Nat → φ → Bool × φ

variable {φ : Type}

/-- Visit the given nonterminals once. -/
def round (update : Update φ) : List Nat → φ → Bool × φ
  | [], facts => (false, facts)
  | n :: ns, facts =>
    let r := update n facts
    let rest := round update ns r.2
    (r.1 || rest.1, rest.2)

/-- Visit a group in rounds until a round changes nothing, `bound` rounds at most.  The result is
the number of rounds and the facts after them. -/
def settle (update : Update φ) (group : List Nat) : Nat → φ → Nat × φ
  | 0, facts => (0, facts)
  | bound + 1, facts =>
    let r := round update group facts
    if r.1 then
      let rest := settle update group bound r.2
      (rest.1 + 1, rest.2)
    else (1, r.2)

/-- Settle the groups one after the other.  The result has the number of rounds for each group. -/
def sweep (update : Update φ) (bound : Nat) : List (List Nat) → φ → List Nat × φ
  | [], facts => ([], facts)
  | group :: groups, facts =>
    let r := settle update group bound facts
    let rest := sweep update bound groups r.2
    (r.1 :: rest.1, rest.2)

/-- The order in which groups are visited. -/
inductive Order where
  /-- What a group depends on comes before it. -/
  | bottomUp
  /-- What a group depends on comes after it. -/
  | topDown
  deriving DecidableEq, Repr

/-- The groups in the order in which they are visited, given in dependency order. -/
def Order.arrange : Order → List (List Nat) → List (List Nat)
  | bottomUp, groups => groups
  | topDown, groups => groups.reverse

/-! ### Observing the order -/

/-- How often changes are still to be reported for a nonterminal, and the visits so far, the
latest first. -/
structure Visits where
  /-- The changes still to be reported. -/
  budget : List (Nat × Nat)
  /-- The nonterminals visited, the latest first. -/
  visited : List Nat

/-- Take one change out of the budget of `n`; `none` if nothing is left of it. -/
def spend? (n : Nat) : List (Nat × Nat) → Option (List (Nat × Nat))
  | [] => none
  | (m, k) :: rest =>
    if m = n then
      match k with
      | 0 => none
      | k + 1 => some ((m, k) :: rest)
    else (spend? n rest).map ((m, k) :: ·)

/-- Record the visit, and report a change as long as the budget lasts. -/
def Visits.update : Update Visits := fun n v =>
  match spend? n v.budget with
  | none => (false, { v with visited := n :: v.visited })
  | some budget => (true, ⟨budget, n :: v.visited⟩)

/-- The nonterminals in the order of their visits, if the update reports as many changes for each
of them as its last entry in the budget says. -/
def visitOrder (order : Order) (groups : List (List Nat)) (budget : List (Nat × Nat)) : List Nat :=
  let bound := budget.foldr (fun entry n => entry.2 + n) 1
  (sweep Visits.update bound (order.arrange groups) ⟨budget.reverse, []⟩).2.visited.reverse

end SimpleLR.Analysis
