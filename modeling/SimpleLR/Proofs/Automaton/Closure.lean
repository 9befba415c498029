import Mathlib.Data.List.Nodup
import SimpleLR.Automaton.Closure
import SimpleLR.Proofs.Analysis.Sets
import SimpleLR.Proofs.Item

/-!
# Closure and moves, by membership

The closure of a kernel and its moves as sets: which nonterminals may begin, which items can be
moved to over which symbol, and which empty productions there are.  All items that are moved to over
a symbol have that symbol before the dot, so a kernel that is moved to determines the symbol.

## Main Statements

* `Grammar.mem_closure_iff`, `Grammar.mem_moves_iff`, `Grammar.mem_emptyItems_iff` — membership
* `Grammar.mem_successors_iff`, `Grammar.nodup_successors` — one successor for each symbol
* `Grammar.previous?_of_mem_moves` — the symbol moved over stands before the dot
-/

namespace SimpleLR

theorem nodup_eraseDups (xs : List Nat) : xs.eraseDups.Nodup := by
  induction hn : xs.length using Nat.strong_induction_on generalizing xs with
  | _ n ih =>
    cases xs with
    | nil => simp
    | cons x xs =>
      rw [List.eraseDups_cons, List.nodup_cons]
      refine ⟨by simp [List.mem_eraseDups], ih _ ?_ _ rfl⟩
      subst hn
      exact Nat.lt_succ_of_le (List.length_filter_le _ _)

/-- The symbol before the dot. -/
def Item.previous? (i : Item) : Option Nat :=
  match i.production with
  | some p => if i.position = 0 then none else p.rhs[i.position - 1]?
  | none => if i.position = 1 then some Grammar.start else none

namespace Grammar

variable (g : Grammar)

/-- The nonterminals that may begin at the dot of some item of a kernel. -/
abbrev closure (kernel : IdSet) : IdSet :=
  Automaton.closure g g.analyse.left g.itemTable kernel

/-- The moves from a kernel and its closure. -/
abbrev moves (kernel : IdSet) : List (Nat × Nat) :=
  Automaton.moves g g.analyse.left g.itemTable kernel

/-- The kernels behind a kernel, by symbol. -/
abbrev successors (kernel : IdSet) : List (Nat × IdSet) :=
  Automaton.successors g g.analyse.left g.itemTable kernel

/-- The items of the empty productions in the closure of a kernel. -/
abbrev emptyItems (kernel : IdSet) : List Nat :=
  Automaton.emptyItems g g.analyse.left g.itemTable kernel

variable {g}

/-! ### Membership -/

/-- Some item of the kernel has the symbol `x` after the dot. -/
def Expects (g : Grammar) (kernel : IdSet) (x : Nat) : Prop :=
  ∃ i ∈ kernel, ∃ item, g.itemTable.item? i = some item ∧ item.nextSymbol? = some x

theorem mem_kernelMoves_iff {kernel : IdSet} {x j : Nat} :
    (x, j) ∈ Automaton.kernelMoves g.itemTable kernel ↔
      ∃ i ∈ kernel, ∃ item, g.itemTable.item? i = some item ∧ item.next? = some (x, j) := by
  simp only [Automaton.kernelMoves, List.mem_filterMap, Option.bind_eq_some_iff, IdSet.mem_def]

theorem mem_foldl_union {α : Type} {ms : List α} {f : α → Bool} {s : α → IdSet} {acc : IdSet}
    {n : Nat} :
    n ∈ ms.foldl (fun acc m => if f m then acc.union (s m) else acc) acc ↔
      n ∈ acc ∨ ∃ m ∈ ms, f m = true ∧ n ∈ s m := by
  induction ms generalizing acc with
  | nil => simp
  | cons m ms ih =>
    rw [List.foldl_cons, ih]
    by_cases hm : f m = true
    · simp [hm, or_assoc]
    · simp [hm]

theorem mem_closure_iff {kernel : IdSet} {n : Nat} :
    n ∈ g.closure kernel ↔
      ∃ m, g.Expects kernel m ∧ g.isNonterminal m = true ∧ g.LeftCorner m n := by
  rw [closure, Automaton.closure, mem_foldl_union]
  constructor
  · rintro (h | ⟨⟨m, j⟩, hm, hn, hl⟩)
    · simp at h
    · obtain ⟨i, hi, item, hitem, hnext⟩ := mem_kernelMoves_iff.1 hm
      obtain ⟨x, hx, he⟩ := Option.map_eq_some_iff.1 hnext
      obtain rfl : x = m := (Prod.mk.inj he).1
      exact ⟨x, ⟨i, hi, item, hitem, hx⟩, hn, (g.mem_left_iff.1 hl).2⟩
  · rintro ⟨m, ⟨i, hi, item, hitem, hx⟩, hn, hl⟩
    refine Or.inr ⟨(m, item.id + 1), ?_, hn, g.mem_left_iff.2 ⟨hn, hl⟩⟩
    exact mem_kernelMoves_iff.2 ⟨i, hi, item, hitem, by rw [Item.next?, hx]; rfl⟩

theorem mem_closureProductions_iff {kernel : IdSet} {p : Production} :
    p ∈ Automaton.closureProductions g g.analyse.left g.itemTable kernel ↔
      p ∈ g.productions ∧ p.lhs ∈ g.closure kernel := by
  rw [Automaton.closureProductions, List.mem_flatMap]
  constructor
  · rintro ⟨n, hn, hp⟩
    obtain ⟨hmem, rfl⟩ := g.mem_productionsOf.1 hp
    exact ⟨hmem, hn⟩
  · rintro ⟨hp, hn⟩
    exact ⟨p.lhs, hn, g.mem_productionsOf.2 ⟨hp, rfl⟩⟩

/-- A move goes on in a production, or begins one, or is the first move of all. -/
theorem mem_moves_iff {kernel : IdSet} {x j : Nat} :
    (x, j) ∈ g.moves kernel ↔
      (startItem ∈ kernel ∧ x = start ∧ j = acceptItem) ∨
      (∃ p ∈ g.productions, ∃ k i, i ∈ kernel ∧ g.itemTable.itemId? p k = some i ∧
        p.rhs[k]? = some x ∧ g.itemTable.itemId? p (k + 1) = some j) ∨
      ∃ p ∈ g.productions, p.lhs ∈ g.closure kernel ∧ (∃ rest, p.rhs = x :: rest) ∧
        g.itemTable.itemId? p 1 = some j := by
  rw [moves, Automaton.moves, List.mem_append, mem_kernelMoves_iff, ← or_assoc]
  refine or_congr ?_ ?_
  · constructor
    · rintro ⟨i, hi, item, hitem, hnext⟩
      obtain ⟨y, hy, he⟩ := Option.map_eq_some_iff.1 hnext
      obtain ⟨rfl, rfl⟩ := Prod.mk.inj he
      rcases item?_cases hitem with ⟨rfl, rfl⟩ | ⟨rfl, rfl⟩ | ⟨p, hp, k, hk, rfl⟩
      · exact Or.inl ⟨hi, (Option.some.inj hy).symm, rfl⟩
      · simp [Item.nextSymbol?] at hy
      · have hlt : k < p.rhs.length := (List.getElem?_eq_some_iff.1 hy).1
        exact Or.inr ⟨p, hp, k, i, hi, hk, hy, itemId?_succ hk hlt⟩
    · rintro (⟨hi, rfl, rfl⟩ | ⟨p, hp, k, i, hi, hk, hx, hj⟩)
      · exact ⟨startItem, hi, _, item?_start, rfl⟩
      · refine ⟨i, hi, _, item?_of_itemId? hp hk, ?_⟩
        have hlt : k < p.rhs.length := (List.getElem?_eq_some_iff.1 hx).1
        have hji : i + 1 = j := Option.some.inj ((itemId?_succ hk hlt).symm.trans hj)
        rw [Item.next?, Item.nextSymbol?]
        simp [hx, hji]
  · rw [List.mem_filterMap]
    constructor
    · rintro ⟨p, hp, hm⟩
      obtain ⟨hp, hn⟩ := mem_closureProductions_iff.1 hp
      rcases hr : p.rhs with _ | ⟨y, rest⟩
      · simp [Automaton.firstMove?, hr] at hm
      · obtain ⟨rfl, rfl⟩ : y = x ∧ g.itemTable.startOf p = j := by
          simpa [Automaton.firstMove?, hr] using hm
        exact ⟨p, hp, hn, ⟨rest, hr⟩, itemId?_one hr⟩
    · rintro ⟨p, hp, hn, ⟨rest, hr⟩, hj⟩
      refine ⟨p, mem_closureProductions_iff.2 ⟨hp, hn⟩, ?_⟩
      have hji : g.itemTable.startOf p = j := Option.some.inj ((itemId?_one hr).symm.trans hj)
      simp [Automaton.firstMove?, hr, hji]

theorem mem_emptyItems_iff {kernel : IdSet} {j : Nat} :
    j ∈ g.emptyItems kernel ↔
      ∃ p ∈ g.productions, p.lhs ∈ g.closure kernel ∧ p.rhs = [] ∧
        g.itemTable.itemId? p 0 = some j := by
  simp only [emptyItems, Automaton.emptyItems, List.mem_map, List.mem_filter,
    mem_closureProductions_iff, List.isEmpty_iff]
  constructor
  · rintro ⟨p, ⟨⟨hp, hn⟩, hr⟩, rfl⟩
    exact ⟨p, hp, hn, hr, itemId?_zero hr⟩
  · rintro ⟨p, hp, hn, hr, hj⟩
    exact ⟨p, ⟨⟨hp, hn⟩, hr⟩, Option.some.inj ((itemId?_zero hr).symm.trans hj)⟩

/-! ### Each once -/

theorem nodup_productions (g : Grammar) : g.productions.Nodup := by
  refine List.Nodup.of_map (·.seq) ?_
  rw [productions, g.rules_seq]
  exact List.nodup_range

theorem nodup_closureProductions (kernel : IdSet) :
    (Automaton.closureProductions g g.analyse.left g.itemTable kernel).Nodup := by
  refine List.nodup_flatMap.2 ⟨fun n _ => ?_, ?_⟩
  · rcases hn : g.rules[n]? with _ | ps
    · simp [productionsOf, hn]
    · rw [productionsOf, hn, Option.getD_some]
      exact (List.sublist_flatten_of_mem (List.mem_of_getElem? hn)).nodup g.nodup_productions
  · refine (IdSet.nodup_toList _).imp fun {n m} hne p hp hq => hne ?_
    rw [← (g.mem_productionsOf.1 hp).2, (g.mem_productionsOf.1 hq).2]

/-- The item of each empty production in the closure occurs once. -/
theorem nodup_emptyItems (kernel : IdSet) : (g.emptyItems kernel).Nodup := by
  refine List.Nodup.map_on ?_ ((nodup_closureProductions kernel).filter _)
  intro p hp q hq he
  obtain ⟨hp, hpe⟩ := List.mem_filter.1 hp
  obtain ⟨hq, hqe⟩ := List.mem_filter.1 hq
  have hid := itemId?_zero (g := g) (List.isEmpty_iff.1 hqe)
  rw [← he] at hid
  exact (itemId?_inj (mem_closureProductions_iff.1 hp).1 (mem_closureProductions_iff.1 hq).1
    (itemId?_zero (List.isEmpty_iff.1 hpe)) hid).1

/-! ### Successors -/

theorem mem_targetsOn_iff {ms : List (Nat × Nat)} {x j : Nat} :
    j ∈ Automaton.targetsOn ms x ↔ (x, j) ∈ ms := by
  simp [Automaton.targetsOn]

theorem mem_successors_iff {kernel kernel' : IdSet} {x : Nat} :
    (x, kernel') ∈ g.successors kernel ↔
      (∃ j, (x, j) ∈ g.moves kernel) ∧ kernel' = Automaton.targetsOn (g.moves kernel) x := by
  rw [successors, Automaton.successors, Automaton.collect, List.mem_map]
  constructor
  · rintro ⟨y, hy, he⟩
    obtain ⟨rfl, rfl⟩ := Prod.mk.inj he
    obtain ⟨m, hm, rfl⟩ := List.mem_map.1 (List.mem_eraseDups.1 hy)
    exact ⟨⟨m.2, hm⟩, rfl⟩
  · rintro ⟨⟨j, hj⟩, rfl⟩
    exact ⟨x, List.mem_eraseDups.2 (List.mem_map.2 ⟨(x, j), hj, rfl⟩), rfl⟩

/-- There is one successor for each symbol. -/
theorem nodup_successors (kernel : IdSet) : ((g.successors kernel).map (·.1)).Nodup := by
  rw [successors, Automaton.successors, Automaton.collect, List.map_map]
  exact (List.map_id _).symm ▸ nodup_eraseDups _

/-! ### The symbol before the dot -/

/-- The symbol that is moved over stands before the dot afterwards. -/
theorem previous?_of_mem_moves {kernel : IdSet} {x j : Nat} (h : (x, j) ∈ g.moves kernel) :
    ∃ item, g.itemTable.item? j = some item ∧ item.previous? = some x := by
  rcases mem_moves_iff.1 h with ⟨-, rfl, rfl⟩ | ⟨p, hp, k, i, -, -, hx, hj⟩ |
    ⟨p, hp, -, ⟨rest, hr⟩, hj⟩
  · exact ⟨_, item?_accept, rfl⟩
  · exact ⟨_, item?_of_itemId? hp hj, by simpa [Item.previous?] using hx⟩
  · exact ⟨_, item?_of_itemId? hp hj, by simp [Item.previous?, hr]⟩

theorem lt_size_of_mem_moves {kernel : IdSet} {x j : Nat} (h : (x, j) ∈ g.moves kernel) :
    j < g.itemTable.size := by
  obtain ⟨item, hitem, -⟩ := previous?_of_mem_moves h
  exact lt_size_of_item? hitem

/-- A kernel that is moved to determines the symbol that is moved over. -/
theorem eq_of_mem_successors {kernel kernel' target : IdSet} {x y : Nat}
    (h : (x, target) ∈ g.successors kernel) (h' : (y, target) ∈ g.successors kernel') : x = y := by
  obtain ⟨⟨j, hj⟩, rfl⟩ := mem_successors_iff.1 h
  obtain ⟨-, he⟩ := mem_successors_iff.1 h'
  have hj' : (y, j) ∈ g.moves kernel' := by
    rw [← mem_targetsOn_iff, ← he, mem_targetsOn_iff]
    exact hj
  obtain ⟨item, hitem, hx⟩ := previous?_of_mem_moves hj
  obtain ⟨item', hitem', hy⟩ := previous?_of_mem_moves hj'
  rw [hitem] at hitem'
  obtain rfl := Option.some.inj hitem'
  exact Option.some.inj (hx.symm.trans hy)

/-- The first augmenting item is never moved to. -/
theorem startItem_notMem_of_mem_successors {kernel target : IdSet} {x : Nat}
    (h : (x, target) ∈ g.successors kernel) : startItem ∉ target := by
  obtain ⟨-, rfl⟩ := mem_successors_iff.1 h
  intro hm
  obtain ⟨item, hitem, hx⟩ := previous?_of_mem_moves (mem_targetsOn_iff.1 hm)
  rw [item?_start] at hitem
  obtain rfl := Option.some.inj hitem
  simp [Item.previous?] at hx

end Grammar

end SimpleLR
