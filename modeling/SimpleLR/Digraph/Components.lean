import SimpleLR.IdSet
import SimpleLR.Digraph.Basic

/-!
# Strongly connected components

`Digraph.components` lists the strongly connected components of a graph so that what a component
leads to comes before it: if an edge goes from one component into another, the component at its end
is listed first.

## Main Definitions

* `Search` — the labels of a depth-first search, its open nodes and the components it has closed
* `Search.push`, `Search.lower`, `Search.close` — the ways in which a search changes
* `Digraph.visit` — search from a node, closing every component that is met completely
* `Digraph.components` — search from each node in turn

## Design Notes

One label per node says all that a search has to know about it.  The label is zero until the node is
met.  The nodes met but not yet assigned to a component are kept on a stack, and a node that is put
there is labelled with its place on the stack, counted from one at the bottom.  From then on its
label is lowered to those of its successors, which may themselves have been lowered before.  A node
whose label survives this is the first node of a component, and that component is what the stack
holds from it upwards.  The nodes of a closed component get the largest label there is, which lowers
no other.

A node is searched at most once while it is open, so the nesting of searches never exceeds the
number of nodes.  That number is the structural argument of the search.
-/

namespace SimpleLR

/-- The state of the search for components. -/
structure Search where
  /-- The label of each node. -/
  labels : List Nat
  /-- The nodes met but not assigned to a component, the latest first. -/
  stack : List Nat
  /-- The components found, the latest first. -/
  closed : List (List Nat)

namespace Search

/-- The label of the nodes that have been assigned to a component. -/
def finished : Nat := maxWord

/-- Nothing has been met of the given number of nodes. -/
def start (size : Nat) : Search := ⟨List.replicate size 0, [], []⟩

/-- The label of `x`. -/
def label (s : Search) (x : Nat) : Nat := s.labels[x]?.getD 0

/-- Label `x` with `n`. -/
def mark (s : Search) (x n : Nat) : Search := { s with labels := s.labels.set x n }

/-- Put `x` on the stack and label it with its place there. -/
def push (s : Search) (x : Nat) : Search :=
  { s.mark x (s.stack.length + 1) with stack := x :: s.stack }

/-- Lower the label of `x` to that of `y`. -/
def lower (s : Search) (x y : Nat) : Search := s.mark x (min (s.label x) (s.label y))

/-- Take nodes off a stack until `x` has been taken, label each of them as finished, and turn them
and those taken before into a component. -/
def unwind (x : Nat) (closed : List (List Nat)) (labels taken : List Nat) : List Nat → Search
  | [] => ⟨labels, [], (IdSet.ofList taken).toList :: closed⟩
  | z :: stack =>
    if z = x then
      ⟨labels.set z finished, stack, (IdSet.ofList (taken ++ [z])).toList :: closed⟩
    else unwind x closed (labels.set z finished) (taken ++ [z]) stack

/-- Turn all that the stack holds from `x` upwards into a component. -/
def close (s : Search) (x : Nat) : Search := unwind x s.closed s.labels [] s.stack

@[simp] theorem stack_mark (s : Search) (x n : Nat) : (s.mark x n).stack = s.stack := rfl

@[simp] theorem closed_mark (s : Search) (x n : Nat) : (s.mark x n).closed = s.closed := rfl

@[simp] theorem length_labels_mark (s : Search) (x n : Nat) :
    (s.mark x n).labels.length = s.labels.length :=
  List.length_set

theorem label_mark_self {s : Search} {x : Nat} (n : Nat) (h : x < s.labels.length) :
    (s.mark x n).label x = n := by
  simp [label, mark, h]

theorem label_mark_of_ne {s : Search} {x y : Nat} (n : Nat) (h : y ≠ x) :
    (s.mark x n).label y = s.label y := by
  rw [label, mark, List.getElem?_set_ne h.symm, label]

@[simp] theorem stack_push (s : Search) (x : Nat) : (s.push x).stack = x :: s.stack := rfl

@[simp] theorem closed_push (s : Search) (x : Nat) : (s.push x).closed = s.closed := rfl

@[simp] theorem length_labels_push (s : Search) (x : Nat) :
    (s.push x).labels.length = s.labels.length :=
  List.length_set

theorem label_push_self {s : Search} {x : Nat} (h : x < s.labels.length) :
    (s.push x).label x = s.stack.length + 1 :=
  label_mark_self _ h

theorem label_push_of_ne {s : Search} {x y : Nat} (h : y ≠ x) : (s.push x).label y = s.label y :=
  label_mark_of_ne _ h

@[simp] theorem stack_lower (s : Search) (x y : Nat) : (s.lower x y).stack = s.stack := rfl

@[simp] theorem closed_lower (s : Search) (x y : Nat) : (s.lower x y).closed = s.closed := rfl

theorem label_lower_self {s : Search} {x : Nat} (y : Nat) (h : x < s.labels.length) :
    (s.lower x y).label x = min (s.label x) (s.label y) :=
  label_mark_self _ h

theorem label_lower_of_ne {s : Search} {x y z : Nat} (h : z ≠ x) :
    (s.lower x y).label z = s.label z :=
  label_mark_of_ne _ h

end Search

namespace Digraph

/-- Explore the successors of `x` in turn: search from those not met before with `search`, and lower
the label of `x` to theirs. -/
def explore (search : Nat → Search → Search) (x : Nat) : List Nat → Search → Search
  | [], s => s
  | y :: ys, s => explore search x ys ((if s.label y = 0 then search y s else s).lower x y)

/-- Search from the node `x`, which has not been met before: put it on the stack, explore its
successors, and close a component if the label of `x` is still its place on the stack. -/
def visit (g : Digraph) : Nat → Nat → Search → Search
  | 0, _, s => s
  | fuel + 1, x, s =>
    let depth := s.stack.length + 1
    let s := explore (g.visit fuel) x (g.succ x) (s.push x)
    if s.label x = depth then s.close x else s

/-- Search from each of the given nodes that has not been met before. -/
def visitAll (g : Digraph) : List Nat → Search → Search
  | [], s => s
  | x :: xs, s => g.visitAll xs (if s.label x = 0 then g.visit g.size x s else s)

/-- The strongly connected components, each in ascending order and each after those that its edges
lead into. -/
def components (g : Digraph) : List (List Nat) :=
  (g.visitAll (List.range g.size) (.start g.size)).closed.reverse

end Digraph

end SimpleLR
