import SimpleLR.Analysis.Inclusion
import SimpleLR.Analysis.Property

/-!
# Left corners, first sets and follow sets

Three families of symbol sets, each the least solution of inclusions read off the productions.

* The *left corners* of a nonterminal are the nonterminals that can come to stand leftmost when
  only the leftmost symbol is replaced: the nonterminal itself, and the left corners of the first
  symbol of each of its right-hand sides.
* The *first set* has the terminals that can begin what is derived from the nonterminal.
* The *follow set* has the terminals that can come right after the nonterminal in what is derived,
  with the end of the input after the start symbol.

## Main Definitions

* `throughNullable` — the symbols of a right-hand side that can come to stand first
* `leftInclusions`, `firstInclusions`, `followInclusions` — the inclusions for one nonterminal
* `Grammar.leftCorners`, `Grammar.firstSets`, `Grammar.followSets` — the families, with the rounds
  for each group

## Design Notes

First sets and left corners move from a nonterminal to those that mention it, follow sets move the
other way.  So the groups are visited in dependency order for the former and in the opposite order
for the latter.

A recursive production may ask a set to include itself.  Such inclusions are not singled out: they
are met by every family, so it makes no difference whether they are enforced or skipped.
-/

namespace SimpleLR

/-- The symbols up to the first one that is not nullable, that one included. -/
def throughNullable (nullable : Nat → Bool) : List Nat → List Nat
  | [] => []
  | x :: xs => if nullable x then x :: throughNullable nullable xs else [x]

namespace Grammar

variable (g : Grammar)

/-- A bound on the rounds in which sets of symbols can still grow. -/
def growthBound : Nat := g.numNonterminals * g.numSymbols + 1

/-! ### Left corners -/

/-- The left corners of `n` include those of the first symbol of each right-hand side. -/
def leftInclusions (n : Nat) : List Inclusion :=
  (g.productionsOf n).filterMap fun p =>
    match p.rhs with
    | [] => none
    | m :: _ => if g.isNonterminal m then some ⟨n, .setOf m⟩ else none

/-- The left corners of all nonterminals. -/
def leftCorners (groups : List (List Nat)) : List Nat × Family :=
  Analysis.sweep (inclusionUpdate g.leftInclusions) g.growthBound groups
    ⟨g.nonterminals.map IdSet.singleton⟩

/-! ### First sets -/

/-- What the symbol `x` contributes where it stands first: itself, or its first set. -/
def firstSource (x : Nat) : Source :=
  if g.isNonterminal x then .setOf x else .these (IdSet.singleton x)

/-- The first set of `n` includes what the symbols contribute that can come to stand first. -/
def firstInclusions (nullable : Nat → Bool) (n : Nat) : List Inclusion :=
  (g.productionsOf n).flatMap fun p =>
    (throughNullable nullable p.rhs).map fun x => ⟨n, g.firstSource x⟩

/-- The first sets of all nonterminals. -/
def firstSets (nullable : Nat → Bool) (groups : List (List Nat)) : List Nat × Family :=
  Analysis.sweep (inclusionUpdate (g.firstInclusions nullable)) g.growthBound groups
    (Family.emptySets g.numNonterminals)

/-! ### Follow sets -/

/-- What a right-hand side of `n` demands of the follow sets of the nonterminals in it: the first
set of what comes after them, and the follow set of `n` if all of that can vanish. -/
def followInclusionsIn (nullable : Nat → Bool) (first : Family) (n : Nat) :
    List Nat → List Inclusion
  | [] => []
  | x :: rest =>
    (if g.isNonterminal x then
      (throughNullable nullable rest).map
          (fun y => ⟨x, .these ((g.firstSource y).value first)⟩) ++
        (if rest.all nullable then [⟨x, .setOf n⟩] else [])
    else []) ++ followInclusionsIn nullable first n rest

/-- What the productions of `n` demand of the follow sets. -/
def followInclusions (nullable : Nat → Bool) (first : Family) (n : Nat) : List Inclusion :=
  (g.productionsOf n).flatMap fun p => g.followInclusionsIn nullable first n p.rhs

/-- The family in which only the start symbol is followed, by the end of the input. -/
def followSeed : Family :=
  (Family.emptySets g.numNonterminals).replace start (IdSet.singleton g.endOfInput)

/-- The follow sets of all nonterminals. -/
def followSets (nullable : Nat → Bool) (first : Family) (groups : List (List Nat)) :
    List Nat × Family :=
  Analysis.sweep (inclusionUpdate (g.followInclusions nullable first)) g.growthBound groups
    g.followSeed

end Grammar

end SimpleLR
