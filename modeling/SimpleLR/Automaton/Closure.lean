import SimpleLR.Analysis
import SimpleLR.Item

/-!
# Closure and moves of a set of items

A state of the automaton is given by its *kernel*, a set of items.  Where the dot stands before a
nonterminal, the productions of that nonterminal may begin as well, and those of all its left
corners.  These productions are not turned into items with the dot in front; only two things about
them matter: over which symbol the dot moves into which item, and which of them are empty.

## Main Definitions

* `closure` — the nonterminals that may begin at the dot of some item of a kernel
* `moves` — the symbols that can be moved over, each with the item behind it
* `successors` — the moves collected by symbol: the kernels of the next states
* `emptyItems` — the items of the empty productions in the closure
-/

namespace SimpleLR.Automaton

variable (g : Grammar) (left : Family) (items : ItemTable)

/-- The moves from the items of a kernel. -/
def kernelMoves (kernel : IdSet) : List (Nat × Nat) :=
  kernel.toList.filterMap fun i => (items.item? i).bind (·.next?)

/-- The nonterminals that may begin at the dot of some item of a kernel. -/
def closure (kernel : IdSet) : IdSet :=
  (kernelMoves items kernel).foldl
    (fun s m => if g.isNonterminal m.1 then s.union (left.setOf m.1) else s) ∅

/-- The productions that may begin at the dot of some item of a kernel. -/
def closureProductions (kernel : IdSet) : List Production :=
  (closure g left items kernel).toList.flatMap g.productionsOf

/-- The move over the first symbol of a production. -/
def firstMove? (p : Production) : Option (Nat × Nat) :=
  match p.rhs with
  | [] => none
  | x :: _ => some (x, items.startOf p)

/-- The moves from a kernel and its closure, those of the kernel first. -/
def moves (kernel : IdSet) : List (Nat × Nat) :=
  kernelMoves items kernel ++
    (closureProductions g left items kernel).filterMap (firstMove? items)

/-- The items of the empty productions in the closure of a kernel. -/
def emptyItems (kernel : IdSet) : List Nat :=
  ((closureProductions g left items kernel).filter (·.rhs.isEmpty)).map items.startOf

/-- The items that moves over the symbol `x` lead to. -/
def targetsOn (ms : List (Nat × Nat)) (x : Nat) : IdSet :=
  IdSet.ofList ((ms.filter fun m => m.1 == x).map (·.2))

/-- Moves collected by symbol, the symbols in the order in which they are first met. -/
def collect (ms : List (Nat × Nat)) : List (Nat × IdSet) :=
  (ms.map (·.1)).eraseDups.map fun x => (x, targetsOn ms x)

/-- The symbols that can be moved over from a kernel, each with the kernel behind it. -/
def successors (kernel : IdSet) : List (Nat × IdSet) := collect (moves g left items kernel)

end SimpleLR.Automaton
