import Mathlib.Algebra.GroupWithZero.Nat
import SimpleLR.Item

/-!
# The numbering of items

The items of a production are numbered one after the other, behind those of the productions before
it.  So the number of the first one and the place of the dot give the number of an item, and the
number gives back the production and the place.

## Main Statements

* `Grammar.item?_of_itemId?` — the item at a place has the production and the place
* `Grammar.item?_cases` — every item but the first two is the item at some place
* `Grammar.itemId?_inj` — different places have different items
* `Grammar.itemId?_succ` — moving the dot is adding one
* `Grammar.itemRows_eq` — one pass over the rules gives these numbers, with the first items of each
  nonterminal in a row of their own
* `Grammar.locate?_eq_some_iff` — numbers and places are inverse to each other
* `Grammar.itemTable_numbers` — the numbering as a whole
-/

namespace SimpleLR

namespace Grammar

/-- The places of the dot in one production. -/
def dotsOf (p : Production) : List (Option Production × Nat) := p.positions.map fun k => (some p, k)

/-- The places of a production begin where its first item is. -/
theorem getElem?_startsFrom {ps : List Production} {j : Nat} {p : Production}
    (hj : ps[j]? = some p) (base : Nat) :
    ∃ offset, (startsFrom base ps)[j]? = some (base + offset) ∧
      ∀ (k d : Nat), p.positions[k]? = some d →
        (ps.flatMap dotsOf)[offset + k]? = some (some p, d) := by
  induction ps generalizing j base with
  | nil => simp at hj
  | cons q ps ih =>
    cases j with
    | zero =>
      obtain rfl : q = p := by simpa using hj
      refine ⟨0, by simp [startsFrom], fun k d hk => ?_⟩
      have hlt : k < (dotsOf q).length := by
        rw [dotsOf, List.length_map]
        exact (List.getElem?_eq_some_iff.1 hk).1
      rw [List.flatMap_cons, Nat.zero_add, List.getElem?_append_left hlt, dotsOf,
        List.getElem?_map, hk, Option.map_some]
    | succ j =>
      obtain ⟨offset, hs, hd⟩ := ih (by simpa using hj) (base + q.positions.length)
      refine ⟨q.positions.length + offset, ?_, fun k d hk => ?_⟩
      · rw [startsFrom, List.getElem?_cons_succ, hs, Nat.add_assoc]
      · have hle : (dotsOf q).length ≤ q.positions.length + offset + k := by
          rw [dotsOf, List.length_map]
          omega
        rw [List.flatMap_cons, List.getElem?_append_right hle, dotsOf, List.length_map,
          Nat.add_assoc, Nat.add_sub_cancel_left]
        exact hd k d hk

/-- Every place belongs to a production, behind the first place of it. -/
theorem exists_of_getElem?_flatMap {ps : List Production} {i : Nat}
    {x : Option Production × Nat} (hi : (ps.flatMap dotsOf)[i]? = some x) (base : Nat) :
    ∃ (j : Nat) (p : Production) (k d offset : Nat), ps[j]? = some p ∧ p.positions[k]? = some d ∧
      (startsFrom base ps)[j]? = some (base + offset) ∧ i = offset + k ∧ x = (some p, d) := by
  induction ps generalizing i base with
  | nil => simp at hi
  | cons q ps ih =>
    rw [List.flatMap_cons] at hi
    have hlen : (dotsOf q).length = q.positions.length := by rw [dotsOf, List.length_map]
    by_cases hlt : i < (dotsOf q).length
    · rw [List.getElem?_append_left hlt, dotsOf, List.getElem?_map] at hi
      obtain ⟨d, hd, rfl⟩ := Option.map_eq_some_iff.1 hi
      exact ⟨0, q, i, d, 0, rfl, hd, by simp [startsFrom], by omega, rfl⟩
    · rw [List.getElem?_append_right (Nat.le_of_not_lt hlt)] at hi
      obtain ⟨j, p, k, d, offset, hj, hd, hs, hik, rfl⟩ := ih hi (base + q.positions.length)
      refine ⟨j + 1, p, k, d, q.positions.length + offset, hj, hd, ?_, by omega, rfl⟩
      rw [startsFrom, List.getElem?_cons_succ, hs, Nat.add_assoc]

/-- The places with their numbers from the first item on. -/
theorem getElem?_positions (p : Production) (k : Nat) :
    p.positions[k]? =
      if p.rhs.isEmpty then if k = 0 then some 0 else none
      else if k < p.rhs.length then some (k + 1) else none := by
  rw [Production.positions]
  split
  · cases k <;> simp
  · split
    · rename_i hk
      rw [List.getElem?_range' hk, Nat.one_mul, Nat.add_comm]
    · rename_i hk
      exact List.getElem?_eq_none (by simpa using hk)

variable {g : Grammar}

theorem item?_eq (i : Nat) :
    g.itemTable.item? i = g.dots[i]?.map fun d => ⟨i, d.1, d.2⟩ := by
  rw [ItemTable.item?, itemTable, List.getElem?_mapIdx]

theorem dots_eq : g.dots = (none, 0) :: (none, 1) :: g.productions.flatMap dotsOf := rfl

/-- An item knows its number. -/
theorem id_of_item? {i : Nat} {item : Item} (h : g.itemTable.item? i = some item) :
    item.id = i := by
  rw [item?_eq] at h
  obtain ⟨dot, -, rfl⟩ := Option.map_eq_some_iff.1 h
  rfl

theorem lt_size_of_item? {i : Nat} {item : Item} (h : g.itemTable.item? i = some item) :
    i < g.itemTable.size :=
  (List.getElem?_eq_some_iff.1 h).1

theorem exists_item? {i : Nat} (h : i < g.itemTable.size) :
    ∃ item, g.itemTable.item? i = some item :=
  ⟨g.itemTable.items[i], List.getElem?_eq_getElem h⟩

theorem item?_start : g.itemTable.item? startItem = some ⟨startItem, none, 0⟩ := by
  rw [item?_eq, dots_eq]
  rfl

theorem item?_accept : g.itemTable.item? acceptItem = some ⟨acceptItem, none, 1⟩ := by
  rw [item?_eq, dots_eq]
  rfl

/-- The number of an item is that of the first item of its production, and the number of places
before it. -/
theorem itemId?_eq_some_iff {p : Production} {position i : Nat} :
    g.itemTable.itemId? p position = some i ↔
      ∃ k, p.positions[k]? = some position ∧ i = g.itemTable.startOf p + k := by
  rw [ItemTable.itemId?]
  simp only [getElem?_positions]
  by_cases he : p.rhs.isEmpty = true
  · rw [if_pos he]
    simp only [if_pos he]
    constructor
    · intro h
      split at h
      · exact ⟨0, by simp_all, by simpa using h.symm⟩
      · simp at h
    · rintro ⟨k, hk, rfl⟩
      split at hk
      · simp_all
      · simp at hk
  · rw [if_neg he]
    simp only [if_neg he]
    constructor
    · intro h
      split at h
      · rename_i hp
        obtain rfl : g.itemTable.startOf p + position - 1 = i := by simpa using h
        refine ⟨position - 1, ?_, by omega⟩
        rw [if_pos (by omega)]
        exact congrArg some (by omega)
      · simp at h
    · rintro ⟨k, hk, rfl⟩
      split at hk
      · obtain rfl : k + 1 = position := by simpa using hk
        rw [if_pos (by omega)]
        exact congrArg some (by omega)
      · simp at hk

/-- **The item at a place** has that production and that place. -/
theorem item?_of_itemId? {p : Production} (hp : p ∈ g.productions) {position i : Nat}
    (h : g.itemTable.itemId? p position = some i) :
    g.itemTable.item? i = some ⟨i, some p, position⟩ := by
  obtain ⟨k, hk, rfl⟩ := itemId?_eq_some_iff.1 h
  obtain ⟨offset, hs, hd⟩ := getElem?_startsFrom (g.production?_seq hp) 2
  have hstart : g.itemTable.startOf p = offset + 2 := by
    rw [ItemTable.startOf, itemTable, hs, Option.getD_some, Nat.add_comm]
  have hdot : g.dots[g.itemTable.startOf p + k]? = some (some p, position) := by
    rw [dots_eq, hstart, Nat.add_right_comm, List.getElem?_cons_succ, List.getElem?_cons_succ]
    exact hd k position hk
  rw [item?_eq, hdot, Option.map_some]

/-- Every item is one of the first two, or the item at some place. -/
theorem item?_cases {i : Nat} {item : Item} (h : g.itemTable.item? i = some item) :
    i = startItem ∧ item = ⟨startItem, none, 0⟩ ∨ i = acceptItem ∧ item = ⟨acceptItem, none, 1⟩ ∨
      ∃ p ∈ g.productions, ∃ position, g.itemTable.itemId? p position = some i ∧
        item = ⟨i, some p, position⟩ := by
  rw [item?_eq, dots_eq] at h
  obtain ⟨x, hx, rfl⟩ := Option.map_eq_some_iff.1 h
  rcases i with _ | _ | i
  · obtain rfl : (none, 0) = x := by simpa using hx
    exact Or.inl ⟨rfl, rfl⟩
  · obtain rfl : (none, 1) = x := by simpa using hx
    exact Or.inr (Or.inl ⟨rfl, rfl⟩)
  · rw [List.getElem?_cons_succ, List.getElem?_cons_succ] at hx
    obtain ⟨j, p, k, d, offset, hj, hd, hs, rfl, rfl⟩ := exists_of_getElem?_flatMap hx 2
    have hp : p ∈ g.productions := List.mem_of_getElem? hj
    have hseq : p.seq = j := g.seq_of_production? hj
    refine Or.inr (Or.inr ⟨p, hp, d, itemId?_eq_some_iff.2 ⟨k, hd, ?_⟩, rfl⟩)
    rw [ItemTable.startOf, itemTable, hseq, hs, Option.getD_some]
    omega

/-- An item of a production has the number of its place. -/
theorem mem_productions_of_item? {i k : Nat} {p : Production}
    (h : g.itemTable.item? i = some ⟨i, some p, k⟩) :
    p ∈ g.productions ∧ g.itemTable.itemId? p k = some i := by
  rcases item?_cases h with ⟨-, h⟩ | ⟨-, h⟩ | ⟨q, hq, l, hid, h⟩
  · simp at h
  · simp at h
  · simp only [Item.mk.injEq, Option.some.injEq, true_and] at h
    obtain ⟨rfl, rfl⟩ := h
    exact ⟨hq, hid⟩

/-- **Different places have different items.** -/
theorem itemId?_inj {p q : Production} (hp : p ∈ g.productions) (hq : q ∈ g.productions)
    {k l i : Nat} (h : g.itemTable.itemId? p k = some i) (h' : g.itemTable.itemId? q l = some i) :
    p = q ∧ k = l := by
  have he := (item?_of_itemId? hp h).symm.trans (item?_of_itemId? hq h')
  simpa using he

theorem itemId?_ne_augmenting {p : Production} (hp : p ∈ g.productions) {k i : Nat}
    (h : g.itemTable.itemId? p k = some i) : i ≠ startItem ∧ i ≠ acceptItem := by
  have hi := item?_of_itemId? hp h
  constructor
  · rintro rfl
    simp [item?_start] at hi
  · rintro rfl
    simp [item?_accept] at hi

/-! ### Moving the dot -/

theorem itemId?_isSome_iff {p : Production} {k : Nat} :
    (g.itemTable.itemId? p k).isSome = true ↔
      p.rhs = [] ∧ k = 0 ∨ 1 ≤ k ∧ k ≤ p.rhs.length := by
  rw [ItemTable.itemId?]
  rcases hr : p.rhs with _ | ⟨x, xs⟩
  · by_cases hk : k = 0 <;> simp [hk]
  · simp

/-- The first item of a production that is not empty is behind its first symbol. -/
theorem itemId?_one {p : Production} {x : Nat} {xs : List Nat} (h : p.rhs = x :: xs) :
    g.itemTable.itemId? p 1 = some (g.itemTable.startOf p) := by
  simp [ItemTable.itemId?, h]

/-- The only item of an empty production. -/
theorem itemId?_zero {p : Production} (h : p.rhs = []) :
    g.itemTable.itemId? p 0 = some (g.itemTable.startOf p) := by
  simp [ItemTable.itemId?, h]

/-- **Moving the dot is adding one.** -/
theorem itemId?_succ {p : Production} {k i : Nat} (h : g.itemTable.itemId? p k = some i)
    (hk : k < p.rhs.length) : g.itemTable.itemId? p (k + 1) = some (i + 1) := by
  have hne : p.rhs.isEmpty = false := by
    rw [List.isEmpty_eq_false_iff, ← List.length_pos_iff]
    omega
  rw [ItemTable.itemId?, hne] at h ⊢
  simp only [Bool.false_eq_true, if_false] at h ⊢
  split at h
  · rw [if_pos (by omega)]
    have := Option.some.inj h
    exact congrArg some (by omega)
  · simp at h

theorem nextItem?_eq {i : Nat} {item : Item} (h : g.itemTable.item? i = some item) :
    item.nextItem? = if item.canMove then some (i + 1) else none := by
  rw [Item.nextItem?, Item.next?, Item.canMove, id_of_item? h]
  cases item.nextSymbol? <;> rfl

/-- **Moving the dot stays in the production**: behind an item that can move stands the item with
the dot one place further. -/
theorem exists_item?_succ {i : Nat} {item : Item} (h : g.itemTable.item? i = some item)
    (hmove : item.canMove = true) :
    ∃ next, g.itemTable.item? (i + 1) = some next ∧ next.production = item.production ∧
      next.position = item.position + 1 := by
  rcases item?_cases h with ⟨rfl, rfl⟩ | ⟨rfl, rfl⟩ | ⟨p, hp, k, hk, rfl⟩
  · exact ⟨_, item?_accept, rfl, rfl⟩
  · simp [Item.canMove, Item.nextSymbol?] at hmove
  · have hlt : k < p.rhs.length := by simpa [Item.canMove, Item.nextSymbol?] using hmove
    exact ⟨_, item?_of_itemId? hp (itemId?_succ hk hlt), rfl, rfl⟩

/-! ### One pass over the productions

The numbers can be given out in one pass over the rules: append the items of a production one by
one, each with the number of items before it, and keep the number of the first one in a table that
has a row for each nonterminal. -/

/-- The items at the given places of the dot, numbered from zero. -/
def numbered (dots : List (Option Production × Nat)) : List Item :=
  dots.mapIdx fun i d => ⟨i, d.1, d.2⟩

/-- Append the items of a production. -/
def appendItems (items : List Item) (p : Production) : List Item :=
  p.positions.foldl (fun items k => items ++ [⟨items.length, some p, k⟩]) items

/-- Append the items of some productions, and list the first item of each. -/
def appendRow : List Item → List Production → List Item × List Nat
  | items, [] => (items, [])
  | items, p :: ps =>
    let rest := appendRow (appendItems items p) ps
    (rest.1, items.length :: rest.2)

/-- Append the items of the productions of some nonterminals, and list the first items of each. -/
def appendRows : List Item → List (List Production) → List Item × List (List Nat)
  | items, [] => (items, [])
  | items, ps :: rules =>
    let row := appendRow items ps
    let rest := appendRows row.1 rules
    (rest.1, row.2 :: rest.2)

/-- All items, and for each nonterminal the first item of each of its productions. -/
def itemRows (g : Grammar) : List Item × List (List Nat) :=
  appendRows [⟨startItem, none, 0⟩, ⟨acceptItem, none, 1⟩] g.rules

theorem foldl_append_numbered (p : Production) (ks : List Nat)
    (dots : List (Option Production × Nat)) :
    ks.foldl (fun items k => items ++ [⟨items.length, some p, k⟩]) (numbered dots) =
      numbered (dots ++ ks.map fun k => (some p, k)) := by
  induction ks generalizing dots with
  | nil => simp
  | cons k ks ih =>
    have hone : numbered dots ++ [⟨(numbered dots).length, some p, k⟩] =
        numbered (dots ++ [(some p, k)]) := by
      simp [numbered]
    rw [List.foldl_cons, hone, ih, List.append_assoc]
    rfl

theorem appendItems_numbered (dots : List (Option Production × Nat)) (p : Production) :
    appendItems (numbered dots) p = numbered (dots ++ dotsOf p) :=
  foldl_append_numbered p p.positions dots

theorem appendRow_numbered (dots : List (Option Production × Nat)) (ps : List Production) :
    appendRow (numbered dots) ps =
      (numbered (dots ++ ps.flatMap dotsOf), startsFrom dots.length ps) := by
  induction ps generalizing dots with
  | nil => simp [appendRow, startsFrom]
  | cons p ps ih =>
    have hlength : (dots ++ dotsOf p).length = dots.length + p.positions.length := by
      rw [List.length_append, dotsOf, List.length_map]
    rw [appendRow, appendItems_numbered, ih, startsFrom, List.flatMap_cons, hlength,
      List.append_assoc]
    simp [numbered]

theorem startsFrom_append (base : Nat) (ps qs : List Production) :
    startsFrom base (ps ++ qs) =
      startsFrom base ps ++ startsFrom (base + (ps.flatMap dotsOf).length) qs := by
  induction ps generalizing base with
  | nil => simp [startsFrom]
  | cons p ps ih =>
    rw [List.cons_append, startsFrom, ih, startsFrom, List.cons_append, List.flatMap_cons,
      List.length_append, dotsOf, List.length_map, Nat.add_assoc]

theorem length_startsFrom (base : Nat) (ps : List Production) :
    (startsFrom base ps).length = ps.length := by
  induction ps generalizing base with
  | nil => rfl
  | cons p ps ih => rw [startsFrom, List.length_cons, ih, List.length_cons]

theorem appendRows_cons (dots : List (Option Production × Nat)) (ps : List Production)
    (rules : List (List Production)) :
    appendRows (numbered dots) (ps :: rules) =
      ((appendRows (numbered (dots ++ ps.flatMap dotsOf)) rules).1,
        startsFrom dots.length ps ::
          (appendRows (numbered (dots ++ ps.flatMap dotsOf)) rules).2) := by
  rw [appendRows, appendRow_numbered]

theorem fst_appendRows (dots : List (Option Production × Nat)) (rules : List (List Production)) :
    (appendRows (numbered dots) rules).1 = numbered (dots ++ rules.flatten.flatMap dotsOf) := by
  induction rules generalizing dots with
  | nil => simp [appendRows]
  | cons ps rules ih =>
    rw [appendRows_cons, ih, List.append_assoc, ← List.flatMap_append, List.flatten_cons]

/-- A row of the table is a part of the list of all first items. -/
theorem getElem?_appendRows {rules : List (List Production)} {n j : Nat} {ps : List Production}
    {p : Production} (hn : rules[n]? = some ps) (hj : ps[j]? = some p)
    (dots : List (Option Production × Nat)) :
    ∃ (i : Nat) (row : List Nat), rules.flatten[i]? = some p ∧
      (appendRows (numbered dots) rules).2[n]? = some row ∧
      row[j]? = (startsFrom dots.length rules.flatten)[i]? := by
  induction rules generalizing n dots with
  | nil => simp at hn
  | cons qs rules ih =>
    rw [appendRows_cons, List.flatten_cons, startsFrom_append]
    cases n with
    | zero =>
      obtain rfl : qs = ps := by simpa using hn
      have hlt : j < qs.length := (List.getElem?_eq_some_iff.1 hj).1
      refine ⟨j, startsFrom dots.length qs, ?_, rfl, ?_⟩
      · rw [List.getElem?_append_left hlt, hj]
      · rw [List.getElem?_append_left (by rwa [length_startsFrom])]
    | succ n =>
      -- the rows behind the first one begin with what the first one has added
      obtain ⟨i, row, hp, hrow, hstart⟩ := ih (by simpa using hn) (dots ++ qs.flatMap dotsOf)
      rw [List.length_append] at hstart
      refine ⟨qs.length + i, row, ?_, hrow, ?_⟩
      · rw [List.getElem?_append_right (Nat.le_add_right _ _), Nat.add_sub_cancel_left, hp]
      · rw [List.getElem?_append_right (by rw [length_startsFrom]; exact Nat.le_add_right _ _),
          length_startsFrom, Nat.add_sub_cancel_left, hstart]

/-- **One pass numbers the items**, and the first item of a production stands in the row of its
nonterminal, at the place of the production there. -/
theorem itemRows_eq (g : Grammar) : g.itemRows.1 = g.itemTable.items ∧
    ∀ p ∈ g.productions, ∃ row, g.itemRows.2[p.lhs]? = some row ∧
      row[p.index]? = some (g.itemTable.startOf p) := by
  refine ⟨fst_appendRows [(none, 0), (none, 1)] g.rules, fun p hp => ?_⟩
  obtain ⟨ps, hps, hmem⟩ := List.mem_flatten.1 hp
  obtain ⟨n, hn⟩ := List.mem_iff_getElem?.1 hps
  obtain ⟨j, hj⟩ := List.mem_iff_getElem?.1 hmem
  obtain ⟨rfl, rfl⟩ := g.rules_place n ps hn j p hj
  obtain ⟨i, row, hi, hrow, hstart⟩ := getElem?_appendRows hn hj [(none, 0), (none, 1)]
  obtain ⟨offset, hs, -⟩ := getElem?_startsFrom hi 2
  have hfirst : g.itemTable.startOf p = 2 + offset := by
    rw [ItemTable.startOf, itemTable, g.seq_of_production? hi]
    exact congrArg (·.getD 0) hs
  rw [hfirst]
  exact ⟨row, hrow, hstart.trans hs⟩

/-! ### The numbering as a whole -/

theorem length_positions (p : Production) : p.positions.length = max 1 p.rhs.length := by
  rw [Production.positions]
  rcases p.rhs with _ | ⟨x, xs⟩
  · rfl
  · simp

/-- There is an item for each place of the dot, and there are two more. -/
theorem size_itemTable (g : Grammar) :
    g.itemTable.size = 2 + (g.productions.map fun p => max 1 p.rhs.length).sum := by
  have hdots : g.itemTable.size = g.dots.length := List.length_mapIdx
  have hlength : (fun p => (dotsOf p).length) = fun p : Production => max 1 p.rhs.length := by
    funext p
    rw [dotsOf, List.length_map, length_positions]
  rw [hdots, dots_eq, List.length_cons, List.length_cons, List.length_flatMap, hlength]
  omega

/-- **Numbers and places are inverse to each other.** -/
theorem locate?_eq_some_iff {i k : Nat} {p : Production} :
    g.itemTable.locate? i = some (p, k) ↔
      p ∈ g.productions ∧ g.itemTable.itemId? p k = some i := by
  rw [ItemTable.locate?]
  constructor
  · intro h
    obtain ⟨item, hitem, h⟩ := Option.bind_eq_some_iff.1 h
    obtain ⟨q, hq, he⟩ := Option.map_eq_some_iff.1 h
    obtain ⟨rfl, rfl⟩ := Prod.mk.inj he
    obtain rfl := id_of_item? hitem
    exact mem_productions_of_item? (hq ▸ hitem)
  · rintro ⟨hp, h⟩
    rw [item?_of_itemId? hp h]
    rfl

/-- The items of productions are all items but the first two. -/
theorem isSome_locate?_iff {i : Nat} :
    (g.itemTable.locate? i).isSome = true ↔ 2 ≤ i ∧ i < g.itemTable.size := by
  constructor
  · intro h
    obtain ⟨⟨p, k⟩, h⟩ := Option.isSome_iff_exists.1 h
    obtain ⟨hp, hid⟩ := locate?_eq_some_iff.1 h
    obtain ⟨hstart, haccept⟩ := itemId?_ne_augmenting hp hid
    rw [startItem] at hstart
    rw [acceptItem] at haccept
    exact ⟨by omega, lt_size_of_item? (item?_of_itemId? hp hid)⟩
  · rintro ⟨hle, hlt⟩
    obtain ⟨item, hitem⟩ := exists_item? hlt
    rcases item?_cases hitem with ⟨rfl, -⟩ | ⟨rfl, -⟩ | ⟨p, hp, k, hid, -⟩
    · exact absurd hle (by decide)
    · exact absurd hle (by decide)
    · rw [locate?_eq_some_iff.2 ⟨hp, hid⟩]
      rfl

end Grammar

/-- What it means that a table numbers the items of a grammar. -/
structure ItemTable.Numbers (t : ItemTable) (g : Grammar) : Prop where
  /-- The numbers are those below the size, and an item knows its number. -/
  item? : ∀ i < t.size, ∃ item, t.item? i = some item ∧ item.id = i
  /-- The numbers fit thirty-two bits, unless there are too many of them. -/
  fits : t.size < UInt32.size → ∀ i < t.size, (UInt32.ofNat i).toNat = i
  /-- There are two augmenting items, and one for each place of the dot behind a symbol or in an
  empty right-hand side. -/
  size_eq : t.size = 2 + (g.productions.map fun p => max 1 p.rhs.length).sum
  /-- Numbers lead to places and places to numbers, there and back. -/
  locate?_eq_some_iff : ∀ i p k,
    t.locate? i = some (p, k) ↔ p ∈ g.productions ∧ t.itemId? p k = some i
  /-- The numbers that lead to places are those from two on. -/
  isSome_locate?_iff : ∀ i, (t.locate? i).isSome = true ↔ 2 ≤ i ∧ i < t.size
  /-- The places that have a number are those behind a symbol, and the one in an empty right-hand
  side. -/
  isSome_itemId?_iff : ∀ p ∈ g.productions, ∀ k, (t.itemId? p k).isSome = true ↔
    p.rhs = [] ∧ k = 0 ∨ 1 ≤ k ∧ k ≤ p.rhs.length
  /-- Moving the dot is adding one to the number. -/
  nextItem?_eq : ∀ i item, t.item? i = some item →
    item.nextItem? = if item.canMove then some (i + 1) else none
  /-- That leads to an item of the same production, with the dot one place further. -/
  item?_succ : ∀ i item, t.item? i = some item → item.canMove = true → i + 1 < t.size ∧
    ∃ next, t.item? (i + 1) = some next ∧ next.production = item.production ∧
      next.position = item.position + 1
  /-- Without a production, it leads from the first to the second augmenting item. -/
  augmenting : ∀ i item, t.item? i = some item → item.canMove = true →
    item.production = none → i = Grammar.startItem ∧ i + 1 = Grammar.acceptItem

namespace Grammar

/-- **The numbering of items is a bijection that moves with the dot.** -/
theorem itemTable_numbers (g : Grammar) : g.itemTable.Numbers g where
  item? i hi := by
    obtain ⟨item, hitem⟩ := exists_item? hi
    exact ⟨item, hitem, id_of_item? hitem⟩
  fits hsize i hi := UInt32.toNat_ofNat_of_lt' (Nat.lt_trans hi hsize)
  size_eq := g.size_itemTable
  locate?_eq_some_iff _ _ _ := locate?_eq_some_iff
  isSome_locate?_iff _ := isSome_locate?_iff
  isSome_itemId?_iff _ _ _ := itemId?_isSome_iff
  nextItem?_eq _ _ := nextItem?_eq
  item?_succ _ _ h hmove := by
    obtain ⟨next, hnext, hsame⟩ := exists_item?_succ h hmove
    exact ⟨lt_size_of_item? hnext, next, hnext, hsame⟩
  augmenting i item h hmove hnone := by
    rcases item?_cases h with ⟨rfl, -⟩ | ⟨-, rfl⟩ | ⟨p, -, k, -, rfl⟩
    · exact ⟨rfl, rfl⟩
    · simp [Item.canMove, Item.nextSymbol?] at hmove
    · cases hnone

end Grammar

end SimpleLR
