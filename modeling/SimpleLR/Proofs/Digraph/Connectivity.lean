import SimpleLR.Proofs.Digraph.Components

/-!
# The components are strongly connected

That nodes which reach each other are in one component follows from the order of the components: an
edge never leads into a later one, so a path does not either.  The converse rests on two invariants
of the search.  **Every open node leads to the node being explored**: a search from a successor
keeps this, because what it leaves on the stack leads back to a node that was open before.  And
**every label is justified**: an open node leads to the open node whose depth is its label.  A label
that has been lowered to another one inherits the node that justifies that one, so it does not
matter that labels are lowered to labels that have been lowered before.

When the node being explored turns out to be the first of a component, all that lies above it on the
stack leads to it, and all of it was met from it.  Otherwise its label is the depth of a node below
it, which is why it may be left on the stack.

## Main Definitions

* `Digraph.Component` — nodes that reach each other, in ascending order
* `Digraph.Justified` — what the components and the labels of a search stand for
* `Digraph.Anchored` — what is known about the open nodes while the successors of a node are
  explored
* `Digraph.Returned` — what is known about them after a search from a node

## Main Statements

* `Digraph.visit_returns` — a search closes components only
* `Digraph.Reaches.place_le` — a path never leads into a later component
* `Digraph.components_stronglyConnected` — the components are the classes of nodes that reach each
  other, each before those that lead to it
-/

namespace SimpleLR.Digraph

open Search

variable (g : Digraph)

/-- Some nodes that reach each other, in ascending order. -/
structure Component (group : List Nat) : Prop where
  ne_nil : group ≠ []
  ascending : group.Pairwise (· < ·)
  reaches : ∀ x ∈ group, ∀ y ∈ group, g.Reaches x y

/-- What a search has found is there. -/
structure Justified (s : Search) : Prop where
  components : ∀ group ∈ s.closed, g.Component group
  /-- The label of an open node is the depth of one that it leads to. -/
  labels : ∀ z ∈ s.stack, ∃ w ∈ s.stack, s.depth w = s.label z ∧ g.Reaches z w

/-- A search from `x` may begin: `x` has not been met, and every open node leads to it. -/
structure Enters (x : Nat) (s : Search) : Prop where
  lt : x < g.size
  proper : s.Proper g
  ordered : Ordered g s.closed
  label : s.label x = 0
  justified : g.Justified s
  toward : ∀ w ∈ s.stack, g.Reaches w x

/-- What holds while the successors of `x` are explored, where `below` was open before `x`. -/
structure Anchored (x : Nat) (below : List Nat) (s : Search) : Prop where
  justified : g.Justified s
  /-- Every open node leads to `x`. -/
  toward : ∀ z ∈ s.stack, g.Reaches z x
  /-- What has been opened since can be reached from `x`. -/
  onward : ∀ z ∈ s.stack, z ∈ below ∨ g.Reaches x z

/-- What a search from `x` leaves behind. -/
structure Returned (x : Nat) (s s' : Search) : Prop where
  justified : g.Justified s'
  /-- What has been opened can be reached from `x` and leads to what was open before. -/
  opened : ∀ z ∈ s'.stack, z ∈ s.stack ∨ g.Reaches x z ∧ ∃ w ∈ s.stack, g.Reaches z w

/-- A way to search that leaves behind what it should, as long as at least `room` nodes are open. -/
def Returns (search : Nat → Search → Search) (room : Nat) : Prop :=
  ∀ x s, g.Enters x s → room ≤ s.stack.length → g.Returned x s (search x s)

variable {g} {x y : Nat} {s s' : Search} {below new : List Nat}

/-! ### Labels -/

/-- A node that is put on the stack justifies its own label. -/
theorem Justified.push (h : g.Justified s) (hp : (s.push x).Proper g) : g.Justified (s.push x) := by
  have hx : x ∈ (s.push x).stack := List.mem_cons_self
  refine ⟨h.components, List.forall_mem_cons.2 ⟨⟨x, hx, ?_, .refl⟩, ?_⟩⟩
  · rw [depth_push_self, label_push_self (length_labels_push s x ▸ hp.lt_length_labels hx)]
  · intro z hz
    have hext := Extends.push s x
    have hzx : z ≠ x := fun e => hext.notMem_new hp hz (List.mem_singleton.2 e)
    obtain ⟨w, hw, hd, hzw⟩ := h.labels z hz
    refine ⟨w, List.mem_cons_of_mem _ hw, ?_, hzw⟩
    rw [hext.depth_eq hp hw, label_push_of_ne hzx, hd]

/-- A label that is lowered to that of a successor takes over what justifies that one. -/
theorem Justified.lower (h : g.Justified s) (hp : s.Proper g) (hx : x ∈ s.stack)
    (hy : s.label y ≠ 0) (hxy : g.Reaches x y) : g.Justified (s.lower x y) := by
  refine ⟨h.components, fun z hz => ?_⟩
  change ∃ w ∈ s.stack, s.depth w = (s.lower x y).label z ∧ g.Reaches z w
  by_cases hzx : z = x
  · subst hzx
    rw [label_lower_self y (hp.lt_length_labels hx)]
    rcases Nat.le_total (s.label z) (s.label y) with hle | hle
    · rw [Nat.min_eq_left hle]
      exact h.labels z hx
    · rw [Nat.min_eq_right hle]
      rcases hp.mem_of_label_ne_zero hy with hyc | hyo
      · -- a finished node lowers no label
        have hsame : s.label y = s.label z := by
          rw [hp.closed y hyc] at hle ⊢
          exact Nat.le_antisymm hle (hp.label_le_finished hx)
        rw [hsame]
        exact h.labels z hx
      · obtain ⟨w, hw, hd, hyw⟩ := h.labels y hyo
        exact ⟨w, hw, hd, hxy.trans hyw⟩
  · rw [label_lower_of_ne hzx]
    exact h.labels z hz

/-- A node no deeper than the old stack was open before. -/
theorem mem_stack_of_depth_le (hp : s'.Proper g) (he : Extends s s' new) {w : Nat}
    (hw : w ∈ s'.stack) (hd : s'.depth w ≤ s.stack.length) : w ∈ s.stack := by
  rw [he.stack] at hw
  exact (List.mem_append.1 hw).resolve_left fun hm =>
    absurd (he.length_lt_depth hp hm) (Nat.not_lt.2 hd)

/-- Below a component that is closed, labels stay justified. -/
theorem Justified.close (h : g.Justified s') (hp : s'.Proper g)
    (he : Extends s s' (new ++ [x])) (hgroup : g.Component (IdSet.ofList (new ++ [x])).toList) :
    g.Justified (s'.close x) := by
  have heq := hp.close_eq he
  have hclose : (s'.close x).stack = s.stack := by rw [heq]
  refine ⟨?_, fun z hz => ?_⟩
  · rw [heq]
    exact List.forall_mem_cons.2 ⟨hgroup, h.components⟩
  · rw [hclose] at hz ⊢
    obtain ⟨w, hw, hd, hzw⟩ := h.labels z (he.mem_stack hz)
    have hws : w ∈ s.stack := by
      refine mem_stack_of_depth_le hp he hw ?_
      calc s'.depth w = s'.label z := hd
        _ ≤ s'.depth z := (hp.opened z (he.mem_stack hz)).2
        _ = s.depth z := he.depth_eq hp hz
        _ ≤ s.stack.length := s.depth_le_length z
    refine ⟨w, hws, ?_, hzw⟩
    rw [hp.label_close_of_notMem he (he.notMem_new hp hz), ← hd, he.depth_eq hp hws, depth,
      hclose, depth]

/-! ### Exploring -/

/-- The node that a search starts from is open. -/
theorem Enters.anchored (h : g.Enters x s) : g.Anchored x s.stack (s.push x) where
  justified := h.justified.push (h.proper.push h.lt h.label)
  toward := List.forall_mem_cons.2 ⟨.refl, h.toward⟩
  onward := List.forall_mem_cons.2 ⟨Or.inr .refl, fun _ hz => Or.inl hz⟩

/-- A search from a node that all open nodes lead to leaves behind what it should. -/
theorem Returns.returned {search : Nat → Search → Search} {room : Nat}
    (h : g.Returns search room) (hj : g.Justified s) (hy : y < g.size) (hp : s.Proper g)
    (ho : Ordered g s.closed) (hto : ∀ w ∈ s.stack, g.Reaches w y)
    (hroom : room ≤ s.stack.length) :
    g.Returned y s (if s.label y = 0 then search y s else s) := by
  by_cases hzero : s.label y = 0
  · rw [if_pos hzero]
    exact h y s ⟨hy, hp, ho, hzero, hj, hto⟩ hroom
  · rw [if_neg hzero]
    exact ⟨hj, fun z hz => Or.inl hz⟩

/-- Exploring goes on after a search from a successor. -/
theorem Anchored.resume (h : g.Anchored x below s) (hx : x ∈ s.stack) (hxy : g.Reaches x y)
    (hv : g.Visited y s s' new) (hr : g.Returned y s s') : g.Anchored x below (s'.lower x y) where
  justified := hr.justified.lower hv.proper (hv.extend.mem_stack hx) hv.label_ne_zero hxy
  toward := by
    intro z hz
    rcases hr.opened z hz with hz | ⟨-, w, hw, hzw⟩
    · exact h.toward z hz
    · exact hzw.trans (h.toward w hw)
  onward := by
    intro z hz
    rcases hr.opened z hz with hz | ⟨hyz, -⟩
    · exact h.onward z hz
    · exact Or.inr (hxy.trans hyz)

/-- **Exploring keeps every open node leading to the node explored.** -/
theorem Anchored.explore {search : Nat → Search → Search} {room : Nat}
    (hsearch : g.Sound search room) (hreturns : g.Returns search room) {ys : List Nat}
    (h : g.Anchored x below s) (hys : ∀ y ∈ ys, y < g.size ∧ y ∈ g.succ x) (hp : s.Proper g)
    (ho : Ordered g s.closed) (hx : x ∈ s.stack) (hroom : room ≤ s.stack.length) :
    g.Anchored x below (explore search x ys s) := by
  induction ys generalizing s with
  | nil => exact h
  | cons y ys ih =>
    obtain ⟨⟨hy, hsucc⟩, hys⟩ := List.forall_mem_cons.1 hys
    have hxy : g.Reaches x y := .tail .refl hsucc
    rw [Digraph.explore]
    obtain ⟨new, hv⟩ := hsearch.exists_visited hy hp ho hroom
    have hr := hreturns.returned h.justified hy hp ho (fun w hw => (h.toward w hw).trans hxy) hroom
    generalize (if s.label y = 0 then search y s else s) = s₁ at hv hr
    have he := hv.explored_lower hx
    have hlen : (s₁.lower x y).stack.length = new.length + s.stack.length := by
      rw [he.extend.stack, List.length_append]
    exact ih (h.resume hx hxy hv hr) hys he.proper he.ordered (hv.extend.mem_stack hx) (by omega)

/-! ### Searching -/

/-- A node whose label has been lowered stays open with all that was met from it. -/
theorem Anchored.returned (h : g.Anchored x s.stack s') (hp : s'.Proper g)
    (he : Extends s s' new) (hx : x ∈ s'.stack) (hlabel : s'.label x ≤ s.stack.length) :
    g.Returned x s s' := by
  -- its label is the depth of a node that was open before
  obtain ⟨w, hw, hd, hxw⟩ := h.justified.labels x hx
  have hws : w ∈ s.stack := mem_stack_of_depth_le hp he hw (hd ▸ hlabel)
  refine ⟨h.justified, fun z hz => ?_⟩
  exact (h.onward z hz).imp_right fun hxz => ⟨hxz, w, hws, (h.toward z hz).trans hxw⟩

/-- What lies above a node that leads no further back than to itself is a component with it. -/
theorem Anchored.component (h : g.Anchored x s.stack s') (hp : s'.Proper g)
    (he : Extends s s' new) (hx : x ∈ new) : g.Component (IdSet.ofList new).toList := by
  refine ⟨List.ne_nil_of_mem (IdSet.mem_ofList.2 hx), (IdSet.ofList new).ascending, ?_⟩
  intro y hy z hz
  replace hy : y ∈ new := IdSet.mem_ofList.1 hy
  replace hz : z ∈ new := IdSet.mem_ofList.1 hz
  have hopen : ∀ {w : Nat}, w ∈ new → w ∈ s'.stack := by
    intro w hw
    rw [he.stack]
    exact List.mem_append_left _ hw
  have hxz : g.Reaches x z :=
    (h.onward z (hopen hz)).resolve_left fun hm => he.notMem_new hp hm hz
  exact (h.toward y (hopen hy)).trans hxz

/-- **A search closes components only**, and leaves on the stack only what leads back. -/
theorem visit_returns (fuel : Nat) : g.Returns (g.visit fuel) (g.size - fuel) := by
  induction fuel with
  | zero =>
    intro x s h hroom
    have hlt := h.proper.length_stack_lt h.lt h.label
    omega
  | succ fuel ih =>
    intro x s h hroom
    have hroom' : g.size - fuel ≤ (s.push x).stack.length := by
      rw [stack_push, List.length_cons]
      omega
    have hp := h.proper.push h.lt h.label
    obtain ⟨new, he, -⟩ := explore_spec (visit_sound fuel) (g.succ_lt x h.lt) hp h.ordered
      List.mem_cons_self hroom'
    have hanchored := h.anchored.explore (visit_sound fuel) ih
      (fun y hy => ⟨g.succ_lt x h.lt y hy, hy⟩) hp h.ordered List.mem_cons_self hroom'
    have hext := (Extends.push s x).trans he.extend
    rw [visit]
    generalize Digraph.explore (g.visit fuel) x (g.succ x) (s.push x) = s' at he hanchored hext
    by_cases hlabel : s'.label x = s.stack.length + 1
    · rw [if_pos hlabel]
      have hgroup := hanchored.component he.proper hext
        (List.mem_append_right _ List.mem_cons_self)
      refine ⟨hanchored.justified.close he.proper hext hgroup, fun z hz => Or.inl ?_⟩
      rwa [he.proper.close_eq hext] at hz
    · rw [if_neg hlabel]
      have hle := he.label_le_of_ne (h.proper.length_labels.symm ▸ h.lt) hlabel
      exact hanchored.returned he.proper hext (he.extend.mem_stack List.mem_cons_self) hle

/-! ### All components -/

theorem justified_visitAll {xs : List Nat} (h : g.Idle s) (hxs : ∀ x ∈ xs, x < g.size)
    (hj : g.Justified s) : g.Justified (g.visitAll xs s) := by
  induction xs generalizing s with
  | nil => exact hj
  | cons x xs ih =>
    obtain ⟨hx, hxs⟩ := List.forall_mem_cons.1 hxs
    rw [visitAll]
    obtain ⟨new, hv⟩ := h.exists_visited hx
    -- nothing is open between two searches, so any node may be searched from
    have hr := (visit_returns g.size).returned hj hx h.proper h.ordered (by simp [h.stack])
      (by omega)
    exact ih (h.of_visited hv).1 hxs hr.justified

theorem component_of_mem {group : List Nat} (h : group ∈ g.components) : g.Component group := by
  have hstart : g.Justified (.start g.size) := ⟨by simp [start], by simp [start]⟩
  exact (justified_visitAll idle_start (fun _ hx => List.mem_range.1 hx) hstart).components group
    (List.mem_reverse.1 h)

/-! ### Places in the list of components -/

/-- A node has one place in the list of components. -/
theorem place_unique {i j x : Nat} {group group' : List Nat} (hi : g.components[i]? = some group)
    (hj : g.components[j]? = some group') (hx : x ∈ group) (hx' : x ∈ group') : i = j := by
  have hdisjoint := (List.nodup_flatten.1 g.nodup_flatten_components).2
  obtain ⟨hil, rfl⟩ := List.getElem?_eq_some_iff.1 hi
  obtain ⟨hjl, rfl⟩ := List.getElem?_eq_some_iff.1 hj
  rw [List.pairwise_iff_getElem] at hdisjoint
  rcases Nat.lt_trichotomy i j with hlt | heq | hlt
  · exact absurd hx' (hdisjoint i j hil hjl hlt hx)
  · exact heq
  · exact absurd hx (hdisjoint j i hjl hil hlt hx')

/-- An edge never leads into a later component. -/
theorem place_le_of_succ {i j x y : Nat} {group group' : List Nat}
    (hi : g.components[i]? = some group) (hj : g.components[j]? = some group') (hx : x ∈ group)
    (hy : y ∈ group') (hxy : y ∈ g.succ x) : j ≤ i := by
  obtain ⟨hil, rfl⟩ := List.getElem?_eq_some_iff.1 hi
  obtain ⟨hjl, rfl⟩ := List.getElem?_eq_some_iff.1 hj
  by_contra hlt
  exact List.pairwise_iff_getElem.1 g.pairwise_components i j hil hjl (by omega) x hx y hy hxy

theorem exists_place {x : Nat} (hx : x < g.size) :
    ∃ (i : Nat) (group : List Nat), g.components[i]? = some group ∧ x ∈ group := by
  obtain ⟨group, hg, hx⟩ := List.mem_flatten.1 (mem_flatten_components.2 hx)
  obtain ⟨i, hi⟩ := List.mem_iff_getElem?.1 hg
  exact ⟨i, group, hi, hx⟩

/-- **A path never leads into a later component.** -/
theorem Reaches.place_le {i j x y : Nat} {group group' : List Nat} (h : g.Reaches x y)
    (hi : g.components[i]? = some group) (hj : g.components[j]? = some group') (hx : x ∈ group)
    (hy : y ∈ group') : j ≤ i := by
  induction h generalizing j group' with
  | refl => exact Nat.le_of_eq (place_unique hj hi hy hx)
  | @tail y z h hz ih =>
    have hxs : x < g.size :=
      mem_flatten_components.1 (List.mem_flatten.2 ⟨group, List.mem_of_getElem? hi, hx⟩)
    obtain ⟨k, between, hk, hmem⟩ := g.exists_place (h.lt_size hxs)
    exact Nat.le_trans (place_le_of_succ hk hj hmem hy hz) (ih hk hmem)

/-- Nodes that reach each other are in one component. -/
theorem exists_component_of_reaches {x y : Nat} (hx : x < g.size) (hy : y < g.size)
    (hxy : g.Reaches x y) (hyx : g.Reaches y x) :
    ∃ group ∈ g.components, x ∈ group ∧ y ∈ group := by
  obtain ⟨i, group, hi, hxi⟩ := exists_place hx
  obtain ⟨j, group', hj, hyj⟩ := exists_place hy
  have hij : i = j :=
    Nat.le_antisymm (hyx.place_le hj hi hyj hxi) (hxy.place_le hi hj hxi hyj)
  subst hij
  obtain rfl : group = group' := Option.some.inj (hi.symm.trans hj)
  exact ⟨group, List.mem_of_getElem? hi, hxi, hyj⟩

/-- **The components are the classes of nodes that reach each other**, dependencies first.  Every
node is in one of them and only once, none is empty, each is in ascending order, two nodes share one
exactly if each can be reached from the other, and an edge between different ones leads into the
earlier one. -/
theorem components_stronglyConnected (g : Digraph) :
    g.components.flatten.Perm (List.range g.size) ∧
      (∀ group ∈ g.components, group ≠ [] ∧ group.Pairwise (· < ·)) ∧
      (∀ x y, x < g.size → y < g.size →
        ((∃ group ∈ g.components, x ∈ group ∧ y ∈ group) ↔ g.Reaches x y ∧ g.Reaches y x)) ∧
      ∀ (i j : Nat) (group group' : List Nat), g.components[i]? = some group →
        g.components[j]? = some group' →
        ∀ x ∈ group, ∀ y ∈ group', y ∈ g.succ x → i ≠ j → j < i := by
  refine ⟨?_, ?_, ?_, ?_⟩
  · apply (List.perm_ext_iff_of_nodup g.nodup_flatten_components List.nodup_range).2
    intro x
    rw [mem_flatten_components, List.mem_range]
  · intro group hg
    exact ⟨(component_of_mem hg).ne_nil, (component_of_mem hg).ascending⟩
  · intro x y hx hy
    constructor
    · rintro ⟨group, hg, hxg, hyg⟩
      have hreaches := (component_of_mem hg).reaches
      exact ⟨hreaches x hxg y hyg, hreaches y hyg x hxg⟩
    · rintro ⟨hxy, hyx⟩
      exact exists_component_of_reaches hx hy hxy hyx
  · intro i j group group' hi hj x hx y hy hxy hne
    exact Nat.lt_of_le_of_ne (place_le_of_succ hi hj hx hy hxy) hne.symm

-- Nodes 0, 2 and 3 lead to each other, and node 1 leads to them and to node 4.
example : (ofEdges? 5 [(0, 2), (2, 3), (3, 2), (2, 2), (3, 0), (1, 3), (1, 4)]).map components =
    some [[0, 2, 3], [4], [1]] := by
  decide

end SimpleLR.Digraph
