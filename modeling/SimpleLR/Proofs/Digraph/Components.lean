import Mathlib.Data.List.Nodup
import Mathlib.Data.List.Perm.Subperm
import Mathlib.Data.List.TakeWhile
import SimpleLR.Digraph.Components

/-!
# The components are disjoint, complete and in dependency order

A search from a node leaves two kinds of nodes behind: those it has assigned to a component, and
those it has left on the stack.  The successors of both are accounted for, which is what `Met` says
about one node: it is closed, or it is open at a depth that is not below the label of the node
searched from.  That is all that is needed to see that a component can be closed: if the label of
its first node is still its depth, then no edge leads out of it into the rest of the stack.

The labels are lowered by labels that may themselves have been lowered before.  This does no harm,
because a label never exceeds the depth of its node: what is at most the label of a node is at most
its depth.

## Main Definitions

* `Search.depth` — the place of a node on the stack
* `Search.Proper` — every node met is in one place, and its label says in which
* `Digraph.Explored`, `Digraph.Visited` — what has been done when some successors of a node have
  been explored, and when a node has been searched from

## Main Statements

* `Digraph.visit_sound` — a search accounts for all that it has opened
* `Digraph.mem_flatten_components`, `Digraph.nodup_flatten_components` — every node is in one
  component
* `Digraph.pairwise_components` — an edge never leads into a later component
-/

namespace SimpleLR

namespace Search

/-! ### Depth -/

/-- The place of `x` on the stack, counted from one at the bottom; zero if it is not there. -/
def depth (s : Search) (x : Nat) : Nat := (s.stack.dropWhile (· != x)).length

theorem depth_le_length (s : Search) (x : Nat) : s.depth x ≤ s.stack.length :=
  (List.dropWhile_suffix _).length_le

theorem depth_push_self (s : Search) (x : Nat) : (s.push x).depth x = s.stack.length + 1 := by
  rw [depth, stack_push, List.dropWhile_cons_of_neg (by simp), List.length_cons]

/-- What is put on top of a node does not change its depth. -/
theorem depth_append {s s' : Search} {new : List Nat} {x : Nat}
    (hs : s'.stack = new ++ s.stack) (hx : x ∉ new) : s'.depth x = s.depth x := by
  have hnew : ∀ y ∈ new, (y != x) = true := by
    intro y hy
    have : y ≠ x := fun e => hx (e ▸ hy)
    simpa using this
  rw [depth, depth, hs, List.dropWhile_append_of_pos hnew]

/-- What is on top of the old stack is deeper than all of it. -/
theorem length_lt_depth {s s' : Search} {new : List Nat} {x : Nat}
    (hs : s'.stack = new ++ s.stack) (hn : new.Nodup) (hx : x ∈ new) :
    s.stack.length < s'.depth x := by
  obtain ⟨a, b, rfl⟩ := List.append_of_mem hx
  have ha : ∀ y ∈ a, (y != x) = true := by
    intro y hy
    have : y ≠ x := by
      rintro rfl
      exact (List.disjoint_of_nodup_append hn) hy List.mem_cons_self
    simpa using this
  rw [depth, hs, List.append_assoc, List.dropWhile_append_of_pos ha, List.cons_append,
    List.dropWhile_cons_of_neg (by simp), List.length_cons, List.length_append]
  omega

/-! ### Closing -/

/-- The labels after some nodes have been finished in turn. -/
def finish (labels nodes : List Nat) : List Nat :=
  nodes.foldl (fun labels z => labels.set z finished) labels

theorem length_finish (labels nodes : List Nat) : (finish labels nodes).length = labels.length := by
  induction nodes generalizing labels with
  | nil => rfl
  | cons z nodes ih => exact (ih _).trans List.length_set

theorem getElem?_finish_of_notMem {labels nodes : List Nat} {y : Nat} (hy : y ∉ nodes) :
    (finish labels nodes)[y]? = labels[y]? := by
  induction nodes generalizing labels with
  | nil => rfl
  | cons z nodes ih =>
    obtain ⟨hz, hy⟩ := List.ne_and_not_mem_of_not_mem_cons hy
    exact (ih hy).trans (List.getElem?_set_ne (Ne.symm hz))

theorem getElem?_finish_of_mem {labels nodes : List Nat} {y : Nat} (hy : y ∈ nodes)
    (hlt : y < labels.length) : (finish labels nodes)[y]? = some finished := by
  induction nodes generalizing labels with
  | nil => simp at hy
  | cons z nodes ih =>
    have hlt' : y < (labels.set z finished).length := by rwa [List.length_set]
    by_cases hmem : y ∈ nodes
    · exact ih hmem hlt'
    · -- `y` is finished here and left alone from now on
      obtain rfl : y = z := (List.mem_cons.1 hy).resolve_right hmem
      exact (getElem?_finish_of_notMem hmem).trans (List.getElem?_set_self hlt)

/-- Unwinding takes off the stack what lies above `x`, and `x`. -/
theorem unwind_eq {x : Nat} {closed : List (List Nat)} {labels taken above below : List Nat}
    (hx : x ∉ above) :
    unwind x closed labels taken (above ++ x :: below) = ⟨finish labels (above ++ [x]), below,
      (IdSet.ofList (taken ++ (above ++ [x]))).toList :: closed⟩ := by
  induction above generalizing labels taken with
  | nil => exact if_pos rfl
  | cons z above ih =>
    obtain ⟨hz, hx⟩ := List.ne_and_not_mem_of_not_mem_cons hx
    rw [List.cons_append, unwind, if_neg (Ne.symm hz), ih hx, List.append_assoc]
    rfl

/-! ### What a search has accounted for -/

/-- Every node met is in one place, and its label says in which. -/
structure Proper (g : Digraph) (s : Search) : Prop where
  /-- No node is in two components, or in a component and on the stack. -/
  nodup : (s.closed.flatten ++ s.stack).Nodup
  /-- Only nodes of the graph are met. -/
  lt : ∀ x ∈ s.closed.flatten ++ s.stack, x < g.size
  /-- Every node has a label. -/
  length_labels : s.labels.length = g.size
  /-- What has not been met is labelled with zero. -/
  unmet : ∀ x, x ∉ s.closed.flatten → x ∉ s.stack → s.label x = 0
  /-- The label of an open node is at most its depth. -/
  opened : ∀ x ∈ s.stack, 0 < s.label x ∧ s.label x ≤ s.depth x
  /-- The nodes of a component are finished. -/
  closed : ∀ x ∈ s.closed.flatten, s.label x = finished

/-- The node is closed, or it is open with a depth of at least `low`. -/
def Met (s : Search) (low x : Nat) : Prop :=
  x ∈ s.closed.flatten ∨ x ∈ s.stack ∧ low ≤ s.depth x

/-- The search has gone on from `s` to `s'`: nothing that was open or closed has moved. -/
structure Extends (s s' : Search) (new : List Nat) : Prop where
  stack : s'.stack = new ++ s.stack
  closed : ∃ done, s'.closed = done ++ s.closed

theorem Extends.refl (s : Search) : Extends s s [] := ⟨rfl, [], rfl⟩

theorem Extends.trans {s₁ s₂ s₃ : Search} {new new' : List Nat} (h : Extends s₁ s₂ new)
    (h' : Extends s₂ s₃ new') : Extends s₁ s₃ (new' ++ new) := by
  obtain ⟨done, hd⟩ := h.closed
  obtain ⟨done', hd'⟩ := h'.closed
  refine ⟨?_, done' ++ done, ?_⟩
  · rw [h'.stack, h.stack, List.append_assoc]
  · rw [hd', hd, List.append_assoc]

theorem Extends.push (s : Search) (x : Nat) : Extends s (s.push x) [x] := ⟨rfl, [], rfl⟩

theorem Extends.mem_closed {s s' : Search} {new : List Nat} (h : Extends s s' new) {x : Nat}
    (hx : x ∈ s.closed.flatten) : x ∈ s'.closed.flatten := by
  obtain ⟨done, hd⟩ := h.closed
  rw [hd, List.flatten_append]
  exact List.mem_append_right _ hx

theorem Extends.mem_stack {s s' : Search} {new : List Nat} (h : Extends s s' new) {x : Nat}
    (hx : x ∈ s.stack) : x ∈ s'.stack := by
  rw [h.stack]
  exact List.mem_append_right _ hx

section Proper

variable {g : Digraph} {s s' : Search} {new : List Nat} {x y : Nat}

theorem Proper.lt_of_mem_stack (h : s.Proper g) (hx : x ∈ s.stack) : x < g.size :=
  h.lt x (List.mem_append_right _ hx)

theorem Proper.lt_length_labels (h : s.Proper g) (hx : x ∈ s.stack) : x < s.labels.length :=
  h.length_labels ▸ h.lt_of_mem_stack hx

theorem Proper.nodup_stack (h : s.Proper g) : s.stack.Nodup :=
  (List.nodup_append.1 h.nodup).2.1

/-- No more nodes are open than there are. -/
theorem Proper.length_stack_le (h : s.Proper g) : s.stack.length ≤ g.size := by
  have hsub : s.stack ⊆ List.range g.size :=
    fun y hy => List.mem_range.2 (h.lt_of_mem_stack hy)
  simpa using (List.subperm_of_subset h.nodup_stack hsub).length_le

/-- A node has been met just if its label is not zero. -/
theorem Proper.label_eq_zero_iff (h : s.Proper g) :
    s.label x = 0 ↔ x ∉ s.closed.flatten ∧ x ∉ s.stack := by
  constructor
  · intro hx
    refine ⟨fun hc => ?_, fun ho => ?_⟩
    · have : finished = 0 := (h.closed x hc).symm.trans hx
      exact absurd this (by decide)
    · exact absurd hx (Nat.ne_of_gt (h.opened x ho).1)
  · exact fun hx => h.unmet x hx.1 hx.2

theorem Proper.mem_of_label_ne_zero (h : s.Proper g) (hx : s.label x ≠ 0) :
    x ∈ s.closed.flatten ∨ x ∈ s.stack := by
  by_contra hnot
  exact hx (h.label_eq_zero_iff.2 (not_or.1 hnot))

/-- The label of a finished node is at least that of any open one. -/
theorem Proper.label_le_finished (h : s.Proper g) (hx : x ∈ s.stack) : s.label x ≤ finished :=
  calc s.label x ≤ s.depth x := (h.opened x hx).2
    _ ≤ s.stack.length := s.depth_le_length x
    _ ≤ g.size := h.length_stack_le
    _ ≤ finished := g.size_le

/-- What was open before is not among what has been opened since. -/
theorem Extends.notMem_new (h : Extends s s' new) (hp : s'.Proper g) (hx : x ∈ s.stack) :
    x ∉ new := by
  have hnd : (new ++ s.stack).Nodup := h.stack ▸ hp.nodup_stack
  exact fun hm => (List.disjoint_of_nodup_append hnd) hm hx

/-- The depth of an open node never changes. -/
theorem Extends.depth_eq (h : Extends s s' new) (hp : s'.Proper g) (hx : x ∈ s.stack) :
    s'.depth x = s.depth x :=
  depth_append h.stack (h.notMem_new hp hx)

/-- What has been opened since is deeper than all that was open before. -/
theorem Extends.length_lt_depth (h : Extends s s' new) (hp : s'.Proper g) (hx : x ∈ new) :
    s.stack.length < s'.depth x := by
  have hnd : (new ++ s.stack).Nodup := h.stack ▸ hp.nodup_stack
  exact Search.length_lt_depth h.stack (List.nodup_append.1 hnd).1 hx

/-- A node that is accounted for stays so. -/
theorem Met.mono {low low' : Nat} (h : s.Met low x) (hp : s'.Proper g) (he : Extends s s' new)
    (hl : low' ≤ low) : s'.Met low' x := by
  rcases h with hx | ⟨hx, hlow⟩
  · exact Or.inl (he.mem_closed hx)
  · refine Or.inr ⟨he.mem_stack hx, ?_⟩
    rw [he.depth_eq hp hx]
    exact Nat.le_trans hl hlow

/-- A node that has not been met may be put on the stack. -/
theorem Proper.push (h : s.Proper g) (hx : x < g.size) (hzero : s.label x = 0) :
    (s.push x).Proper g := by
  obtain ⟨hxc, hxs⟩ := h.label_eq_zero_iff.1 hzero
  have hlabel : (s.push x).label x = s.stack.length + 1 :=
    label_push_self (h.length_labels.symm ▸ hx)
  refine ⟨?_, ?_, ?_, ?_, ?_, ?_⟩
  · rw [stack_push, closed_push, List.nodup_middle]
    refine List.nodup_cons.2 ⟨?_, h.nodup⟩
    rw [List.mem_append]
    exact fun hm => hm.elim hxc hxs
  · intro y hy
    rcases List.mem_cons.1 (List.perm_middle.mem_iff.1 hy) with rfl | hy
    · exact hx
    · exact h.lt y hy
  · rw [length_labels_push, h.length_labels]
  · intro y hyc hys
    obtain ⟨hyx, hys⟩ := List.ne_and_not_mem_of_not_mem_cons hys
    rw [label_push_of_ne hyx]
    exact h.unmet y hyc hys
  · refine List.forall_mem_cons.2 ⟨?_, fun y hy => ?_⟩
    · rw [hlabel, depth_push_self]
      exact ⟨Nat.succ_pos _, Nat.le_refl _⟩
    · have hyx : y ≠ x := fun e => hxs (e ▸ hy)
      rw [label_push_of_ne hyx, depth_append (Extends.push s x).stack (by simpa using hyx)]
      exact h.opened y hy
  · intro y hy
    have hyx : y ≠ x := fun e => hxc (e ▸ hy)
    rw [label_push_of_ne hyx]
    exact h.closed y hy

/-- There is room for one more node that has not been met. -/
theorem Proper.length_stack_lt (h : s.Proper g) (hx : x < g.size) (hzero : s.label x = 0) :
    s.stack.length < g.size :=
  (h.push hx hzero).length_stack_le

/-- The label of an open node may be lowered to that of any node met. -/
theorem Proper.lower (h : s.Proper g) (hx : x ∈ s.stack) (hy : s.label y ≠ 0) :
    (s.lower x y).Proper g := by
  refine ⟨h.nodup, h.lt, (length_labels_mark _ _ _).trans h.length_labels, ?_, ?_, ?_⟩
  · intro z hzc hzs
    have hzx : z ≠ x := by
      rintro rfl
      exact hzs hx
    rw [label_lower_of_ne hzx]
    exact h.unmet z hzc hzs
  · intro z hz
    obtain ⟨hpos, hle⟩ := h.opened z hz
    change 0 < (s.lower x y).label z ∧ (s.lower x y).label z ≤ s.depth z
    by_cases hzx : z = x
    · subst hzx
      rw [label_lower_self y (h.lt_length_labels hz)]
      omega
    · rw [label_lower_of_ne hzx]
      exact ⟨hpos, hle⟩
  · intro z hz
    have hzx : z ≠ x := by
      rintro rfl
      exact (List.disjoint_of_nodup_append h.nodup) hz hx
    rw [label_lower_of_ne hzx]
    exact h.closed z hz

/-- A label that has been lowered to that of a node met accounts for that node. -/
theorem Proper.met_lower (h : s.Proper g) (hx : x ∈ s.stack) (hy : s.label y ≠ 0) :
    (s.lower x y).Met ((s.lower x y).label x) y := by
  rcases h.mem_of_label_ne_zero hy with hy | hy
  · exact Or.inl hy
  · refine Or.inr ⟨hy, ?_⟩
    calc (s.lower x y).label x = min (s.label x) (s.label y) :=
          label_lower_self y (h.lt_length_labels hx)
      _ ≤ s.label y := Nat.min_le_right _ _
      _ ≤ s.depth y := (h.opened y hy).2

/-! ### Closing what has been opened -/

section Close

variable (hp : s'.Proper g) (he : Extends s s' (new ++ [x]))

include hp he

/-- Closing takes off the stack what has been opened since `x` was put there, and `x`. -/
theorem Proper.close_eq : s'.close x = ⟨finish s'.labels (new ++ [x]), s.stack,
    (IdSet.ofList (new ++ [x])).toList :: s'.closed⟩ := by
  have hx : x ∉ new := by
    have hnd : ((new ++ [x]) ++ s.stack).Nodup := he.stack ▸ hp.nodup_stack
    intro hm
    exact (List.disjoint_of_nodup_append (List.nodup_append.1 hnd).1) hm List.mem_cons_self
  rw [close, he.stack, List.append_assoc, List.singleton_append, unwind_eq hx, List.nil_append]

theorem Proper.label_close_of_mem (hy : y ∈ new ++ [x]) : (s'.close x).label y = finished := by
  have hmem : y ∈ s'.stack := by
    rw [he.stack]
    exact List.mem_append_left _ hy
  rw [hp.close_eq he, label, getElem?_finish_of_mem hy (hp.lt_length_labels hmem),
    Option.getD_some]

theorem Proper.label_close_of_notMem (hy : y ∉ new ++ [x]) :
    (s'.close x).label y = s'.label y := by
  rw [hp.close_eq he, label, getElem?_finish_of_notMem hy, label]

/-- Closing moves nodes from the stack into a component. -/
theorem Proper.perm_close :
    ((s'.close x).closed.flatten ++ (s'.close x).stack).Perm (s'.closed.flatten ++ s'.stack) := by
  have hnodup : (new ++ [x]).Nodup := (List.nodup_append.1 (he.stack ▸ hp.nodup_stack)).1
  have hgroup : (IdSet.ofList (new ++ [x])).toList.Perm (new ++ [x]) :=
    (List.perm_ext_iff_of_nodup ((IdSet.ofList (new ++ [x])).ascending.imp Nat.ne_of_lt)
      hnodup).2 fun _ => IdSet.mem_ofList
  rw [hp.close_eq he, he.stack, List.flatten_cons, ← List.append_assoc]
  exact ((hgroup.append_right _).trans List.perm_append_comm).append_right _

theorem Proper.close : (s'.close x).Proper g := by
  have heq := hp.close_eq he
  have hstack : (s'.close x).stack = s.stack := by rw [heq]
  have hclosed : ∀ y, y ∈ (s'.close x).closed.flatten ↔
      y ∈ new ++ [x] ∨ y ∈ s'.closed.flatten := by
    intro y
    rw [heq, List.flatten_cons, List.mem_append]
    exact or_congr_left IdSet.mem_ofList
  refine ⟨?_, ?_, ?_, ?_, ?_, ?_⟩
  · exact (hp.perm_close he).nodup_iff.2 hp.nodup
  · exact fun y hy => hp.lt y ((hp.perm_close he).mem_iff.1 hy)
  · rw [heq]
    exact (length_finish _ _).trans hp.length_labels
  · intro y hyc hys
    rw [hclosed, not_or] at hyc
    rw [hstack] at hys
    rw [hp.label_close_of_notMem he hyc.1]
    refine hp.unmet y hyc.2 ?_
    rw [he.stack, List.mem_append]
    exact fun hm => hm.elim hyc.1 hys
  · intro y hy
    rw [hstack] at hy
    have hdepth : (s'.close x).depth y = s'.depth y := by
      rw [he.depth_eq hp hy, depth, hstack, depth]
    rw [hp.label_close_of_notMem he (he.notMem_new hp hy), hdepth]
    exact hp.opened y (he.mem_stack hy)
  · intro y hy
    by_cases hmem : y ∈ new ++ [x]
    · exact hp.label_close_of_mem he hmem
    · rw [hp.label_close_of_notMem he hmem]
      exact hp.closed y (((hclosed y).1 hy).resolve_left hmem)

end Close

end Proper

/-- Components, the latest first, in which edges only lead to the same or to earlier ones. -/
def Ordered (g : Digraph) : List (List Nat) → Prop
  | [] => True
  | group :: rest => (∀ x ∈ group, ∀ y ∈ g.succ x, y ∈ group ∨ y ∈ rest.flatten) ∧ Ordered g rest

end Search

namespace Digraph

open Search

variable (g : Digraph)

/-- The search has gone on from `s` to `s'` and left `new` on the stack, and the label of `x`
accounts for the successors of what it has left there. -/
structure Advanced (x : Nat) (s s' : Search) (new : List Nat) : Prop where
  proper : s'.Proper g
  ordered : Ordered g s'.closed
  extend : Extends s s' new
  met : ∀ z ∈ new, ∀ y ∈ g.succ z, s'.Met (s'.label x) y

/-- The outcome of exploring some successors of `x`: of the labels of the nodes that were open, only
that of `x` has changed, and it has been lowered. -/
structure Explored (x : Nat) (s s' : Search) (new : List Nat) : Prop
    extends Advanced g x s s' new where
  label_eq : ∀ z ∈ s.stack, z ≠ x → s'.label z = s.label z
  label_le : s'.label x ≤ s.label x

/-- The outcome of searching from `x`: no label of a node that was open has changed, `x` has been
met, and nothing has been left on the stack unless `x` leads to what was there before. -/
structure Visited (x : Nat) (s s' : Search) (new : List Nat) : Prop
    extends Advanced g x s s' new where
  label_eq : ∀ z ∈ s.stack, s'.label z = s.label z
  label_ne_zero : s'.label x ≠ 0
  back : new ≠ [] → s'.label x ≤ s.stack.length

/-- A way to search that does what it should from every node not met before, as long as at least
`room` nodes are open. -/
def Sound (search : Nat → Search → Search) (room : Nat) : Prop :=
  ∀ x s, x < g.size → s.Proper g → Ordered g s.closed → s.label x = 0 → room ≤ s.stack.length →
    ∃ new, g.Visited x s (search x s) new

variable {g} {x y : Nat} {s s' : Search}

/-! ### Exploring -/

theorem Explored.refl (hp : s.Proper g) (ho : Ordered g s.closed) : g.Explored x s s [] where
  proper := hp
  ordered := ho
  extend := .refl s
  met := by simp
  label_eq := fun _ _ _ => rfl
  label_le := Nat.le_refl _

theorem Explored.trans {s₁ s₂ s₃ : Search} {new new' : List Nat} (h : g.Explored x s₁ s₂ new)
    (h' : g.Explored x s₂ s₃ new') : g.Explored x s₁ s₃ (new' ++ new) where
  proper := h'.proper
  ordered := h'.ordered
  extend := h.extend.trans h'.extend
  met := by
    intro z hz y hy
    rcases List.mem_append.1 hz with hz | hz
    · exact h'.met z hz y hy
    · exact (h.met z hz y hy).mono h'.proper h'.extend h'.label_le
  label_eq := fun z hz hzx =>
    (h'.label_eq z (h.extend.mem_stack hz) hzx).trans (h.label_eq z hz hzx)
  label_le := Nat.le_trans h'.label_le h.label_le

/-- A node that has been met before needs no search. -/
theorem Visited.of_label_ne_zero (hp : s.Proper g) (ho : Ordered g s.closed)
    (hx : s.label x ≠ 0) : g.Visited x s s [] where
  proper := hp
  ordered := ho
  extend := .refl s
  met := by simp
  label_eq := fun _ _ => rfl
  label_ne_zero := hx
  back := fun h => absurd rfl h

theorem Sound.exists_visited {search : Nat → Search → Search} {room : Nat}
    (h : g.Sound search room) (hx : x < g.size) (hp : s.Proper g) (ho : Ordered g s.closed)
    (hroom : room ≤ s.stack.length) :
    ∃ new, g.Visited x s (if s.label x = 0 then search x s else s) new := by
  by_cases hzero : s.label x = 0
  · rw [if_pos hzero]
    exact h x s hx hp ho hzero hroom
  · rw [if_neg hzero]
    exact ⟨[], .of_label_ne_zero hp ho hzero⟩

/-- Lowering the label of `x` to that of `y` accounts for all that the search from `y` has left on
the stack. -/
theorem Visited.explored_lower {new : List Nat} (h : g.Visited y s s' new) (hx : x ∈ s.stack) :
    g.Explored x s (s'.lower x y) new := by
  have hx' : x ∈ s'.stack := h.extend.mem_stack hx
  have hlabel : (s'.lower x y).label x = min (s'.label x) (s'.label y) :=
    label_lower_self y (h.proper.lt_length_labels hx')
  have hproper : (s'.lower x y).Proper g := h.proper.lower hx' h.label_ne_zero
  refine ⟨⟨hproper, h.ordered, ⟨h.extend.stack, h.extend.closed⟩, ?_⟩, ?_, ?_⟩
  · intro z hz w hw
    have hmet : (s'.lower x y).Met (s'.label y) w := h.met z hz w hw
    refine hmet.mono hproper (.refl _) ?_
    rw [hlabel]
    exact Nat.min_le_right _ _
  · intro z hz hzx
    rw [label_lower_of_ne hzx]
    exact h.label_eq z hz
  · rw [hlabel, h.label_eq x hx]
    exact Nat.min_le_left _ _

/-- **Exploring accounts for all successors**, if searching from one node does what it should. -/
theorem explore_spec {search : Nat → Search → Search} {room : Nat} (hsearch : g.Sound search room)
    {ys : List Nat} (hys : ∀ y ∈ ys, y < g.size) (hp : s.Proper g) (ho : Ordered g s.closed)
    (hx : x ∈ s.stack) (hroom : room ≤ s.stack.length) :
    ∃ new, g.Explored x s (explore search x ys s) new ∧
      ∀ y ∈ ys, (explore search x ys s).Met ((explore search x ys s).label x) y := by
  induction ys generalizing s with
  | nil => exact ⟨[], .refl hp ho, by simp⟩
  | cons y ys ih =>
    obtain ⟨hy, hys⟩ := List.forall_mem_cons.1 hys
    rw [explore]
    -- the search from `y` first, and then the rest from where it leaves off
    obtain ⟨new₁, hv⟩ := hsearch.exists_visited hy hp ho hroom
    generalize (if s.label y = 0 then search y s else s) = s₁ at hv
    have hx₁ : x ∈ s₁.stack := hv.extend.mem_stack hx
    have he₁ := hv.explored_lower hx
    have hlen : (s₁.lower x y).stack.length = new₁.length + s.stack.length := by
      rw [he₁.extend.stack, List.length_append]
    obtain ⟨new₂, he₂, hall⟩ := ih hys he₁.proper he₁.ordered hx₁ (by omega)
    refine ⟨new₂ ++ new₁, he₁.trans he₂, List.forall_mem_cons.2 ⟨?_, hall⟩⟩
    exact (hv.proper.met_lower hx₁ hv.label_ne_zero).mono he₂.proper he₂.extend he₂.label_le

/-! ### Searching -/

/-- Once its successors have been explored, the label of a node accounts for all that has been put
on the stack from it on. -/
theorem Explored.met_push {new : List Nat} (h : g.Explored x (s.push x) s' new)
    (hx : ∀ y ∈ g.succ x, s'.Met (s'.label x) y) :
    ∀ z ∈ new ++ [x], ∀ y ∈ g.succ z, s'.Met (s'.label x) y := by
  intro z hz y hy
  rcases List.mem_append.1 hz with hz | hz
  · exact h.met z hz y hy
  · rw [List.mem_singleton.1 hz] at hy
    exact hx y hy

theorem Explored.label_eq_of_push {new : List Nat} (h : g.Explored x (s.push x) s' new)
    (hxs : x ∉ s.stack) {z : Nat} (hz : z ∈ s.stack) : s'.label z = s.label z := by
  have hzx : z ≠ x := fun e => hxs (e ▸ hz)
  rw [h.label_eq z (List.mem_cons_of_mem _ hz) hzx, label_push_of_ne hzx]

/-- A label that is no longer the depth of its node has become a smaller one. -/
theorem Explored.label_le_of_ne {new : List Nat} (h : g.Explored x (s.push x) s' new)
    (hx : x < s.labels.length) (hne : s'.label x ≠ s.stack.length + 1) :
    s'.label x ≤ s.stack.length := by
  have hle := h.label_le
  rw [label_push_self hx] at hle
  omega

/-- The component of `x` may be closed when its label is still its depth. -/
theorem Explored.visited_close {new : List Nat} (h : g.Explored x (s.push x) s' new)
    (hxs : x ∉ s.stack) (hx : ∀ y ∈ g.succ x, s'.Met (s'.label x) y)
    (hlabel : s'.label x = s.stack.length + 1) : g.Visited x s (s'.close x) [] := by
  have hp := h.proper
  have he : Extends s s' (new ++ [x]) := (Extends.push s x).trans h.extend
  have heq := hp.close_eq he
  -- an edge from the component into the rest of the stack would have lowered the label of `x`
  have hinside : ∀ z ∈ new ++ [x], ∀ y ∈ g.succ z, y ∈ new ++ [x] ∨ y ∈ s'.closed.flatten := by
    intro z hz y hy
    rcases h.met_push hx z hz y hy with hy | ⟨hy, hd⟩
    · exact Or.inr hy
    · refine Or.inl ?_
      by_contra hnot
      have := s.depth_le_length y
      rw [depth_append he.stack hnot] at hd
      omega
  refine ⟨⟨hp.close he, ?_, ⟨?_, ?_⟩, by simp⟩, ?_, ?_, by simp⟩
  · rw [heq]
    refine ⟨fun z hz y hy => ?_, h.ordered⟩
    exact (hinside z (IdSet.mem_ofList.1 hz) y hy).imp_left IdSet.mem_ofList.2
  · rw [heq, List.nil_append]
  · obtain ⟨done, hdone⟩ := he.closed
    exact ⟨(IdSet.ofList (new ++ [x])).toList :: done, by rw [heq, hdone]; rfl⟩
  · intro z hz
    rw [hp.label_close_of_notMem he (he.notMem_new hp hz)]
    exact h.label_eq_of_push hxs hz
  · rw [hp.label_close_of_mem he (List.mem_append_right _ List.mem_cons_self)]
    decide

/-- A node whose label has been lowered stays open with all that was met from it. -/
theorem Explored.visited {new : List Nat} (h : g.Explored x (s.push x) s' new)
    (hxs : x ∉ s.stack) (hx : ∀ y ∈ g.succ x, s'.Met (s'.label x) y)
    (hlabel : s'.label x ≤ s.stack.length) : g.Visited x s s' (new ++ [x]) where
  proper := h.proper
  ordered := h.ordered
  extend := (Extends.push s x).trans h.extend
  met := h.met_push hx
  label_eq := fun _ hz => h.label_eq_of_push hxs hz
  label_ne_zero :=
    Nat.ne_of_gt (h.proper.opened x (h.extend.mem_stack List.mem_cons_self)).1
  back := fun _ => hlabel

/-- **Searching does what it should** as long as the graph has no more nodes than there is fuel and
open nodes. -/
theorem visit_sound (fuel : Nat) : g.Sound (g.visit fuel) (g.size - fuel) := by
  induction fuel with
  | zero =>
    intro x s hx hp _ hzero hroom
    have hlt := hp.length_stack_lt hx hzero
    omega
  | succ fuel ih =>
    intro x s hx hp ho hzero hroom
    have hxs : x ∉ s.stack := (hp.label_eq_zero_iff.1 hzero).2
    obtain ⟨new, he, hall⟩ := explore_spec ih (g.succ_lt x hx) (hp.push hx hzero) ho
      List.mem_cons_self (by rw [stack_push, List.length_cons]; omega)
    rw [visit]
    generalize explore (g.visit fuel) x (g.succ x) (s.push x) = s' at he hall
    by_cases hlabel : s'.label x = s.stack.length + 1
    · rw [if_pos hlabel]
      exact ⟨[], he.visited_close hxs hall hlabel⟩
    · rw [if_neg hlabel]
      have hle := he.label_le_of_ne (hp.length_labels.symm ▸ hx) hlabel
      exact ⟨new ++ [x], he.visited hxs hall hle⟩

-- Node 2 leads to node 1, whose label has been lowered to that of node 0 by then.
example : (ofEdges? 3 [(0, 1), (1, 0), (1, 2), (2, 1)]).map
    (fun g => (explore (g.visit g.size) 0 (g.succ 0) ((Search.start g.size).push 0)).labels) =
    some [1, 1, 1] := by
  decide

/-! ### All components -/

/-- Between two searches nothing is open. -/
structure Idle (g : Digraph) (s : Search) : Prop where
  stack : s.stack = []
  proper : s.Proper g
  ordered : Ordered g s.closed

theorem idle_start : g.Idle (.start g.size) where
  stack := rfl
  proper := by
    refine ⟨by simp [start], by simp [start], by simp [start], ?_, by simp [start], by simp [start]⟩
    intro x _ _
    by_cases hx : x < g.size <;> simp [label, start, hx]
  ordered := trivial

/-- A search from a node that has not been met closes it, and all that it has opened. -/
theorem Idle.of_visited {new : List Nat} (h : g.Idle s) (hv : g.Visited x s s' new) :
    g.Idle s' ∧ x ∈ s'.closed.flatten ∧ ∀ y ∈ s.closed.flatten, y ∈ s'.closed.flatten := by
  -- nothing lies below the first node, so nothing is left on the stack
  have hnew : new = [] := by
    by_contra hne
    have hback := hv.back hne
    rw [h.stack, List.length_nil] at hback
    exact hv.label_ne_zero (Nat.le_zero.1 hback)
  subst hnew
  have hstack : s'.stack = [] := by
    rw [hv.extend.stack, h.stack, List.append_nil]
  refine ⟨⟨hstack, hv.proper, hv.ordered⟩, ?_, fun y hy => hv.extend.mem_closed hy⟩
  exact (hv.proper.mem_of_label_ne_zero hv.label_ne_zero).resolve_right (by simp [hstack])

theorem Idle.exists_visited (h : g.Idle s) (hx : x < g.size) :
    ∃ new, g.Visited x s (if s.label x = 0 then g.visit g.size x s else s) new :=
  (visit_sound g.size).exists_visited hx h.proper h.ordered (by omega)

theorem Idle.visitAll {xs : List Nat} (h : g.Idle s) (hxs : ∀ x ∈ xs, x < g.size) :
    g.Idle (g.visitAll xs s) ∧ (∀ x ∈ xs, x ∈ (g.visitAll xs s).closed.flatten) ∧
      ∀ y ∈ s.closed.flatten, y ∈ (g.visitAll xs s).closed.flatten := by
  induction xs generalizing s with
  | nil => exact ⟨h, by simp, fun y hy => hy⟩
  | cons x xs ih =>
    obtain ⟨hx, hxs⟩ := List.forall_mem_cons.1 hxs
    rw [Digraph.visitAll]
    obtain ⟨new, hv⟩ := h.exists_visited hx
    obtain ⟨hi₁, hx₁, hold₁⟩ := h.of_visited hv
    obtain ⟨hi, hall, hold⟩ := ih hi₁ hxs
    exact ⟨hi, List.forall_mem_cons.2 ⟨hold x hx₁, hall⟩, fun y hy => hold y (hold₁ y hy)⟩

theorem idle_components (g : Digraph) : g.Idle (g.visitAll (List.range g.size) (.start g.size)) :=
  (idle_start.visitAll fun _ hx => List.mem_range.1 hx).1

/-- **The components cover the graph.** -/
theorem mem_flatten_components {x : Nat} : x ∈ g.components.flatten ↔ x < g.size := by
  have hrev : x ∈ g.components.flatten ↔
      x ∈ (g.visitAll (List.range g.size) (.start g.size)).closed.flatten := by
    simp [components]
  rw [hrev]
  constructor
  · intro hx
    exact g.idle_components.proper.lt x (List.mem_append_left _ hx)
  · intro hx
    exact (idle_start.visitAll fun _ hx => List.mem_range.1 hx).2.1 x (List.mem_range.2 hx)

/-- **No node is in two components.** -/
theorem nodup_flatten_components (g : Digraph) : g.components.flatten.Nodup := by
  have h := (List.nodup_append.1 g.idle_components.proper.nodup).1
  exact ((List.reverse_perm _).flatten.nodup_iff).2 h

/-- An edge never leads out of components that are in order. -/
theorem mem_flatten_of_ordered {groups : List (List Nat)} (h : Ordered g groups) {x y : Nat}
    (hx : x ∈ groups.flatten) (hy : y ∈ g.succ x) : y ∈ groups.flatten := by
  induction groups with
  | nil => simp at hx
  | cons group rest ih =>
    rw [List.flatten_cons, List.mem_append] at hx ⊢
    rcases hx with hx | hx
    · exact h.1 x hx y hy
    · exact Or.inr (ih h.2 hx)

theorem pairwise_of_ordered {groups : List (List Nat)} (h : Ordered g groups)
    (hn : groups.flatten.Nodup) :
    groups.Pairwise fun later earlier => ∀ y ∈ later, ∀ x ∈ earlier, y ∉ g.succ x := by
  induction groups with
  | nil => exact .nil
  | cons group rest ih =>
    rw [List.flatten_cons] at hn
    refine List.pairwise_cons.2 ⟨?_, ih h.2 (List.nodup_append.1 hn).2.1⟩
    intro earlier he y hy x hx hs
    have hm : x ∈ rest.flatten := List.mem_flatten.2 ⟨earlier, he, hx⟩
    exact (List.disjoint_of_nodup_append hn) hy (mem_flatten_of_ordered h.2 hm hs)

/-- **The components are in dependency order**: no edge leads from a component into one that is
listed after it. -/
theorem pairwise_components (g : Digraph) :
    g.components.Pairwise fun earlier later => ∀ x ∈ earlier, ∀ y ∈ later, y ∉ g.succ x := by
  have hn := (List.nodup_append.1 g.idle_components.proper.nodup).1
  have h := pairwise_of_ordered g.idle_components.ordered hn
  rw [components, List.pairwise_reverse]
  exact h.imp fun hab x hx y hy => hab y hy x hx

end Digraph

end SimpleLR
