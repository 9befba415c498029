/-!
# Finite directed graphs

A `Digraph` has the nodes `0, …, size - 1` and, for each node, the list of its successors in the
order in which they are to be explored.  Successors may repeat and a node may succeed itself, but
an edge never leaves the graph.  The nodes are counted in machine words.

## Main Definitions

* `Digraph` — nodes and successor lists
* `Digraph.Reaches` — paths from one node to another
* `Digraph.ofEdges?` — the graph of a list of edges, if none of them leaves it
-/

namespace SimpleLR

/-- The largest machine word. -/
def maxWord : Nat := UInt64.size - 1

/-- A directed graph on the nodes below `size`. -/
structure Digraph where
  /-- The number of nodes. -/
  size : Nat
  /-- The successors of a node, in the order in which they are explored. -/
  succ : Nat → List Nat
  /-- The number of nodes is a machine word. -/
  size_le : size ≤ maxWord
  /-- No edge leaves the graph. -/
  succ_lt : ∀ x, x < size → ∀ y ∈ succ x, y < size

namespace Digraph

/-- There is a path from `x` to another node. -/
inductive Reaches (g : Digraph) (x : Nat) : Nat → Prop where
  /-- Every node reaches itself. -/
  | refl : Reaches g x x
  /-- One more edge. -/
  | tail {y z : Nat} (h : Reaches g x y) (hz : z ∈ g.succ y) : Reaches g x z

theorem Reaches.trans {g : Digraph} {x y z : Nat} (h : g.Reaches x y) (h' : g.Reaches y z) :
    g.Reaches x z := by
  induction h' with
  | refl => exact h
  | tail _ hz ih => exact .tail ih hz

/-- A path never leaves the graph. -/
theorem Reaches.lt_size {g : Digraph} {x y : Nat} (h : g.Reaches x y) (hx : x < g.size) :
    y < g.size := by
  induction h with
  | refl => exact hx
  | tail _ hz ih => exact g.succ_lt _ ih _ hz

/-- The targets of the edges that start at `x`, in the order of the list. -/
def targets (edges : List (Nat × Nat)) (x : Nat) : List Nat :=
  (edges.filter fun e => e.1 == x).map (·.2)

theorem mem_targets {edges : List (Nat × Nat)} {x y : Nat} :
    y ∈ targets edges x ↔ (x, y) ∈ edges := by
  simp [targets]

/-- Whether no edge from one of the first `size` nodes ends outside of them. -/
def Closed (size : Nat) (edges : List (Nat × Nat)) : Prop :=
  ∀ e ∈ edges, e.1 < size → e.2 < size

instance (size : Nat) (edges : List (Nat × Nat)) : Decidable (Closed size edges) :=
  inferInstanceAs (Decidable (∀ e ∈ edges, e.1 < size → e.2 < size))

/-- The graph with the given edges.  An edge that starts outside of the graph is never explored
and is ignored; an edge that leaves the graph makes it undefined. -/
def ofEdges? (size : Nat) (edges : List (Nat × Nat)) : Option Digraph :=
  if h : size ≤ maxWord ∧ Closed size edges then
    some ⟨size, targets edges, h.1, fun x hx y hy => h.2 (x, y) (mem_targets.1 hy) hx⟩
  else none

end Digraph

end SimpleLR
