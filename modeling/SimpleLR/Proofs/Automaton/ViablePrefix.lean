import SimpleLR.Grammar.Derivation
import SimpleLR.Proofs.Automaton.Collection

/-!
# Strings that the automaton can follow

The automaton follows a string just if the string ends in the middle of a production that may be
under way: what precedes the production there is a left context of its left-hand side.  The state
that is reached then has exactly the items of these productions.  The automaton itself knows nothing
of left contexts.  It moves over first symbols directly and looks up in precomputed sets which
productions may begin, so the proof goes symbol by symbol along the string: if a kernel has the
right items, then its closure has the nonterminals with the right left context, and the kernels
behind it have the right items again.

## Main Definitions

* `Grammar.KernelItem` — the items that are under way after a string
* `Grammar.EmptyItem` — the items of the empty productions that may begin after it

## Main Statements

* `Grammar.mem_closure_iff_leftContext`, `Grammar.mem_moves_iff_kernelItem` — one symbol
* `Grammar.walk?_cases` — a whole string
* `Grammar.walk?_initial_iff` — the characterisation
-/

namespace SimpleLR.Grammar

open Automaton

variable (g : Grammar)

/-- The item `i` is under way after the string: it is the first augmenting item and nothing has been
read, or the second one and the start symbol has been read, or it has the dot behind a part of its
right-hand side that the string ends in, and the rest of the string is a left context of its
left-hand side. -/
def KernelItem (string : List Nat) (i : Nat) : Prop :=
  i = startItem ∧ string = [] ∨ i = acceptItem ∧ string = [start] ∨
    ∃ p ∈ g.productions, ∃ before after context, p.rhs = before ++ after ∧ before ≠ [] ∧
      string = context ++ before ∧ g.LeftContext p.lhs context ∧
      g.itemTable.itemId? p before.length = some i

/-- The item `i` belongs to an empty production of a nonterminal that the string is a left context
of. -/
def EmptyItem (string : List Nat) (i : Nat) : Prop :=
  ∃ p ∈ g.productions, p.rhs = [] ∧ g.LeftContext p.lhs string ∧
    g.itemTable.itemId? p 0 = some i

variable {g}

/-! ### Left contexts -/

theorem LeftContext.isNonterminal {n : Nat} {context : List Nat} (h : g.LeftContext n context) :
    g.isNonterminal n = true := by
  cases h with
  | start => exact g.isNonterminal_start
  | step _ _ _ hn => exact hn

/-- Left corners have the same left contexts. -/
theorem LeftContext.leftCorner {n m : Nat} {context : List Nat} (h : g.LeftContext n context)
    (hl : g.LeftCorner n m) : g.LeftContext m context := by
  induction hl with
  | refl => exact h
  | tail _ hm ih =>
    obtain ⟨hm, p, hp, rest, hr⟩ := hm
    obtain ⟨hmem, rfl⟩ := g.mem_productionsOf.1 hp
    have hstep := LeftContext.step ih hmem (show p.rhs = [] ++ _ :: rest from hr) hm
    rwa [List.append_nil] at hstep

theorem itemId?_of_append {p : Production} {before after : List Nat}
    (hr : p.rhs = before ++ after) (hb : before ≠ []) :
    ∃ i, g.itemTable.itemId? p before.length = some i := by
  refine Option.isSome_iff_exists.1 (itemId?_isSome_iff.2 (Or.inr ⟨?_, ?_⟩))
  · exact List.length_pos_iff.2 hb
  · rw [hr, List.length_append]
    omega

/-- Wherever a nonterminal may begin some item is under way. -/
theorem LeftContext.exists_kernelItem {n : Nat} {context : List Nat}
    (h : g.LeftContext n context) : ∃ i, g.KernelItem context i := by
  induction h with
  | start => exact ⟨startItem, Or.inl ⟨rfl, rfl⟩⟩
  | @step p d before after n hd hp hr hn ih =>
    by_cases hb : before = []
    · rw [hb, List.append_nil]
      exact ih
    · obtain ⟨i, hi⟩ := itemId?_of_append (g := g) hr hb
      exact ⟨i, Or.inr (Or.inr ⟨p, hp, before, n :: after, d, hr, hb, rfl, hd, hi⟩)⟩

/-- A nonterminal that may begin can be moved over. -/
theorem LeftContext.exists_kernelItem_concat {n : Nat} {context : List Nat}
    (h : g.LeftContext n context) : ∃ i, g.KernelItem (context ++ [n]) i := by
  cases h with
  | start => exact ⟨acceptItem, Or.inr (Or.inl ⟨rfl, rfl⟩)⟩
  | @step p d before after _ hd hp hr hn =>
    have hr' : p.rhs = (before ++ [n]) ++ after := by
      rw [hr, List.append_assoc, List.singleton_append]
    obtain ⟨i, hi⟩ := itemId?_of_append (g := g) hr' (by simp)
    exact ⟨i, Or.inr (Or.inr ⟨p, hp, before ++ [n], after, d, hr', by simp,
      by rw [List.append_assoc], hd, hi⟩)⟩

/-! ### Which kernel items there are -/

theorem kernelItem_startItem_iff {string : List Nat} :
    g.KernelItem string startItem ↔ string = [] := by
  constructor
  · rintro (⟨-, h⟩ | ⟨h, -⟩ | ⟨p, hp, _, _, _, -, -, -, -, hi⟩)
    · exact h
    · simp [startItem, acceptItem] at h
    · exact absurd rfl (itemId?_ne_augmenting hp hi).1
  · exact fun h => Or.inl ⟨rfl, h⟩

theorem kernelItem_acceptItem_iff {string : List Nat} :
    g.KernelItem string acceptItem ↔ string = [start] := by
  constructor
  · rintro (⟨h, -⟩ | ⟨-, h⟩ | ⟨p, hp, _, _, _, -, -, -, -, hi⟩)
    · simp [startItem, acceptItem] at h
    · exact h
    · exact absurd rfl (itemId?_ne_augmenting hp hi).2
  · exact fun h => Or.inr (Or.inl ⟨rfl, h⟩)

theorem kernelItem_itemId?_iff {p : Production} (hp : p ∈ g.productions) {k i : Nat}
    (hi : g.itemTable.itemId? p k = some i) {string : List Nat} :
    g.KernelItem string i ↔
      ∃ before after context, p.rhs = before ++ after ∧ before ≠ [] ∧ before.length = k ∧
        string = context ++ before ∧ g.LeftContext p.lhs context := by
  constructor
  · rintro (⟨rfl, -⟩ | ⟨rfl, -⟩ | ⟨q, hq, before, after, context, hr, hb, hs, hc, hj⟩)
    · exact absurd rfl (itemId?_ne_augmenting hp hi).1
    · exact absurd rfl (itemId?_ne_augmenting hp hi).2
    · obtain ⟨rfl, rfl⟩ := itemId?_inj hp hq hi hj
      exact ⟨before, after, context, hr, hb, rfl, hs, hc⟩
  · rintro ⟨before, after, context, hr, hb, rfl, hs, hc⟩
    exact Or.inr (Or.inr ⟨p, hp, before, after, context, hr, hb, hs, hc, hi⟩)

/-- After a string and a symbol the dots of the items under way are behind the symbol: the start
symbol, or a symbol of a right-hand side whose beginning the string ends in. -/
theorem KernelItem.concat_cases {string : List Nat} {x i : Nat}
    (h : g.KernelItem (string ++ [x]) i) :
    string = [] ∧ x = start ∧ i = acceptItem ∨
      ∃ p ∈ g.productions, ∃ before after context, p.rhs = before ++ x :: after ∧
        string = context ++ before ∧ g.LeftContext p.lhs context ∧
        g.itemTable.itemId? p (before.length + 1) = some i := by
  rcases h with ⟨-, h⟩ | ⟨hi, h⟩ | ⟨p, hp, longer, after, context, hr, hb, hs, hc, hi⟩
  · simp at h
  · obtain ⟨hnil, hx⟩ := List.append_inj' (show string ++ [x] = [] ++ [start] from h) rfl
    exact Or.inl ⟨hnil, by simpa using hx, hi⟩
  · obtain ⟨before, y, rfl⟩ : ∃ before y, longer = before ++ [y] :=
      ⟨longer.dropLast, longer.getLast hb, (List.dropLast_append_getLast hb).symm⟩
    rw [← List.append_assoc] at hs
    obtain ⟨hstring, hy⟩ := List.append_inj' hs rfl
    obtain rfl : x = y := by simpa using hy
    rw [List.append_assoc, List.singleton_append] at hr
    rw [List.length_append] at hi
    exact Or.inr ⟨p, hp, before, after, context, hr, hstring, hc, hi⟩

/-! ### One symbol -/

/-- The kernel has the items that are under way after the string. -/
def Fits (g : Grammar) (string : List Nat) (kernel : IdSet) : Prop :=
  ∀ i, i ∈ kernel ↔ g.KernelItem string i

/-- What the dot stands before is the first symbol behind it. -/
theorem exists_cons_of_getElem? {rhs before after : List Nat} {x : Nat}
    (hr : rhs = before ++ after) (hx : rhs[before.length]? = some x) :
    ∃ rest, after = x :: rest := by
  rw [hr, List.getElem?_append_right (Nat.le_refl _), Nat.sub_self] at hx
  rcases after with _ | ⟨y, rest⟩
  · simp at hx
  · obtain rfl : y = x := by simpa using hx
    exact ⟨rest, rfl⟩

theorem leftContext_of_expects {string : List Nat} {kernel : IdSet} (hk : g.Fits string kernel)
    {m : Nat} (hm : g.Expects kernel m) (hn : g.isNonterminal m = true) :
    g.LeftContext m string := by
  obtain ⟨i, hi, item, hitem, hnext⟩ := hm
  have hkernel := (hk i).1 hi
  rcases item?_cases hitem with ⟨rfl, rfl⟩ | ⟨rfl, rfl⟩ | ⟨p, hp, k, hid, rfl⟩
  · rw [kernelItem_startItem_iff.1 hkernel]
    obtain rfl : start = m := Option.some.inj hnext
    exact .start
  · simp [Item.nextSymbol?] at hnext
  · obtain ⟨before, after, context, hr, -, rfl, rfl, hc⟩ :=
      (kernelItem_itemId?_iff hp hid).1 hkernel
    obtain ⟨after, rfl⟩ := exists_cons_of_getElem? hr hnext
    exact .step hc hp hr hn

theorem LeftContext.mem_closure {n : Nat} {string : List Nat} (h : g.LeftContext n string)
    {kernel : IdSet} (hk : g.Fits string kernel) : n ∈ g.closure kernel := by
  induction h with
  | start =>
    refine mem_closure_iff.2 ⟨Grammar.start, ?_, g.isNonterminal_start, .refl⟩
    exact ⟨startItem, (hk startItem).2 (kernelItem_startItem_iff.2 rfl), _, item?_start, rfl⟩
  | @step p d before after n hd hp hr hn ih =>
    by_cases hb : before = []
    · -- the production begins here as well, so its left-hand side is in the closure already
      subst hb
      rw [List.append_nil] at hk
      obtain ⟨m, hm, hmn, hl⟩ := mem_closure_iff.1 (ih hk)
      refine mem_closure_iff.2 ⟨m, hm, hmn, .tail hl ?_⟩
      exact ⟨hn, p, g.mem_productionsOf.2 ⟨hp, rfl⟩, after, hr⟩
    · obtain ⟨i, hi⟩ := itemId?_of_append (g := g) hr hb
      refine mem_closure_iff.2 ⟨n, ?_, hn, .refl⟩
      refine ⟨i, (hk i).2 ?_, _, item?_of_itemId? hp hi, ?_⟩
      · exact (kernelItem_itemId?_iff hp hi).2
          ⟨before, n :: after, d, hr, hb, rfl, rfl, hd⟩
      · simp [Item.nextSymbol?, hr]

/-- The closure of a kernel that fits a string has the nonterminals that the string is a left
context of. -/
theorem mem_closure_iff_leftContext {string : List Nat} {kernel : IdSet}
    (hk : g.Fits string kernel) {n : Nat} :
    n ∈ g.closure kernel ↔ g.LeftContext n string := by
  constructor
  · intro h
    obtain ⟨m, hm, hmn, hl⟩ := mem_closure_iff.1 h
    exact (leftContext_of_expects hk hm hmn).leftCorner hl
  · exact fun h => h.mem_closure hk

theorem kernelItem_concat_of_mem_moves {string : List Nat} {kernel : IdSet}
    (hk : g.Fits string kernel) {x j : Nat} (h : (x, j) ∈ g.moves kernel) :
    g.KernelItem (string ++ [x]) j := by
  rcases mem_moves_iff.1 h with ⟨hi, rfl, rfl⟩ | ⟨p, hp, k, i, hi, hid, hx, hj⟩ |
    ⟨p, hp, hn, ⟨rest, hr⟩, hj⟩
  · rw [kernelItem_startItem_iff.1 ((hk startItem).1 hi)]
    exact kernelItem_acceptItem_iff.2 rfl
  · obtain ⟨before, after, context, hr, -, rfl, rfl, hc⟩ :=
      (kernelItem_itemId?_iff hp hid).1 ((hk i).1 hi)
    obtain ⟨after, rfl⟩ := exists_cons_of_getElem? hr hx
    refine (kernelItem_itemId?_iff hp hj).2 ⟨before ++ [x], after, context, ?_, by simp,
      by simp, by rw [List.append_assoc], hc⟩
    rw [hr, List.append_assoc, List.singleton_append]
  · have hc := (mem_closure_iff_leftContext hk).1 hn
    exact (kernelItem_itemId?_iff hp hj).2 ⟨[x], rest, string, hr, by simp, rfl, rfl, hc⟩

/-- **The moves over a symbol** from a kernel that fits a string lead to the items that are under
way after the string and the symbol. -/
theorem mem_moves_iff_kernelItem {string : List Nat} {kernel : IdSet}
    (hk : g.Fits string kernel) {x j : Nat} :
    (x, j) ∈ g.moves kernel ↔ g.KernelItem (string ++ [x]) j := by
  refine ⟨kernelItem_concat_of_mem_moves hk, fun h => ?_⟩
  rcases h.concat_cases with ⟨rfl, rfl, rfl⟩ | ⟨p, hp, before, after, context, hr, rfl, hc, hj⟩
  · exact mem_moves_iff.2 (Or.inl ⟨(hk _).2 (kernelItem_startItem_iff.2 rfl), rfl, rfl⟩)
  · by_cases hb : before = []
    · -- the production begins here, so the item is reached from the closure
      subst hb
      rw [List.append_nil] at hk
      exact mem_moves_iff.2 (Or.inr (Or.inr ⟨p, hp, hc.mem_closure hk, ⟨after, hr⟩, hj⟩))
    · obtain ⟨i, hi⟩ := itemId?_of_append (g := g) hr hb
      refine mem_moves_iff.2 (Or.inr (Or.inl ⟨p, hp, before.length, i, (hk i).2 ?_, hi, ?_, hj⟩))
      · exact (kernelItem_itemId?_iff hp hi).2
          ⟨before, x :: after, context, hr, hb, rfl, rfl, hc⟩
      · simp [hr]

/-! ### A whole string -/

/-- Where some item is under way after a string and a symbol, some item is under way after the
string. -/
theorem exists_kernelItem_of_concat {string : List Nat} {x i : Nat}
    (h : g.KernelItem (string ++ [x]) i) : ∃ j, g.KernelItem string j := by
  rcases h.concat_cases with ⟨rfl, -, -⟩ | ⟨p, hp, before, after, context, hr, rfl, hc, -⟩
  · exact ⟨startItem, kernelItem_startItem_iff.2 rfl⟩
  · by_cases hb : before = []
    · rw [hb, List.append_nil]
      exact hc.exists_kernelItem
    · obtain ⟨j, hj⟩ := itemId?_of_append (g := g) hr hb
      exact ⟨j, Or.inr (Or.inr ⟨p, hp, before, x :: after, context, hr, hb, rfl, hc, hj⟩)⟩

/-- If some item is under way after a string, then some item is under way after each of its
beginnings. -/
theorem exists_kernelItem_of_append {u v : List Nat} (h : ∃ i, g.KernelItem (u ++ v) i) :
    ∃ i, g.KernelItem u i := by
  induction v using List.reverseRecOn with
  | nil => rwa [List.append_nil] at h
  | append_singleton v x ih =>
    obtain ⟨i, hi⟩ := h
    rw [← List.append_assoc] at hi
    exact ih (exists_kernelItem_of_concat hi)

/-- Some item is under way after a right-hand side behind a left context. -/
theorem LeftContext.exists_kernelItem_rhs {p : Production} (hp : p ∈ g.productions)
    {context : List Nat} (h : g.LeftContext p.lhs context) :
    ∃ i, g.KernelItem (context ++ p.rhs) i := by
  by_cases hr : p.rhs = []
  · rw [hr, List.append_nil]
    exact h.exists_kernelItem
  · have hall : p.rhs = p.rhs ++ [] := (List.append_nil _).symm
    obtain ⟨i, hi⟩ := itemId?_of_append (g := g) hall hr
    exact ⟨i, (kernelItem_itemId?_iff hp hi).2 ⟨p.rhs, [], context, hall, hr, rfl, rfl, h⟩⟩

/-- The last symbol of a string that can be followed is the start symbol or comes from a right-hand
side. -/
theorem KernelItem.last {string : List Nat} {x i : Nat} (h : g.KernelItem (string ++ [x]) i) :
    x = start ∨ ∃ p ∈ g.productions, x ∈ p.rhs := by
  rcases h.concat_cases with ⟨-, rfl, -⟩ | ⟨p, hp, before, after, context, hr, -, -, -⟩
  · exact Or.inl rfl
  · exact Or.inr ⟨p, hp, by simp [hr]⟩

theorem KernelItem.lt_numSymbols {string : List Nat} {x i : Nat}
    (h : g.KernelItem (string ++ [x]) i) : x < g.numSymbols := by
  rcases h.last with rfl | ⟨p, hp, hx⟩
  · exact Nat.lt_trans g.numNonterminals_pos g.numNonterminals_lt
  · exact g.lt_numSymbols_of_mem_rhs hp hx

theorem fits_initial {state : State} (h : g.automaton.state? initial = some state) :
    g.Fits [] state.kernel := by
  obtain ⟨state', hs, hk⟩ := g.state?_initial
  obtain rfl : state' = state := Option.some.inj (hs.symm.trans h)
  intro i
  rw [hk, IdSet.mem_singleton]
  constructor
  · rintro rfl
    exact kernelItem_startItem_iff.2 rfl
  · rintro (⟨rfl, -⟩ | ⟨-, h⟩ | ⟨p, -, before, _, _, -, hb, hs, -⟩)
    · rfl
    · simp at h
    · exact absurd (List.append_eq_nil_iff.1 hs.symm).2 hb

/-- A state that fits a string is left over the symbols behind which some item is under way, to a
state that fits the longer string. -/
theorem next?_fits {string : List Nat} {s : Nat} {state : State}
    (hs : g.automaton.state? s = some state) (hk : g.Fits string state.kernel) {x i : Nat}
    (hi : g.KernelItem (string ++ [x]) i) :
    ∃ next state', g.automaton.next? s x = some next ∧ g.automaton.state? next = some state' ∧
      g.Fits (string ++ [x]) state'.kernel := by
  obtain ⟨next, state', hnext, hs', hkernel⟩ :=
    next?_spec hs ((mem_moves_iff_kernelItem hk).2 hi)
  refine ⟨next, state', hnext, hs', fun j => ?_⟩
  rw [hkernel, mem_targetsOn_iff]
  exact mem_moves_iff_kernelItem hk

/-- **Along a whole string** the automaton gets to a state that fits the string, if some item is
under way after it, and otherwise it gets nowhere. -/
theorem walk?_cases (g : Grammar) (string : List Nat) :
    (∃ s state, g.automaton.walk? initial string = some s ∧ g.automaton.state? s = some state ∧
      g.Fits string state.kernel ∧ ∃ i, g.KernelItem string i) ∨
    g.automaton.walk? initial string = none ∧ ∀ i, ¬ g.KernelItem string i := by
  induction string using List.reverseRecOn with
  | nil =>
    obtain ⟨state, hs, -⟩ := g.state?_initial
    exact Or.inl ⟨initial, state, rfl, hs, fits_initial hs, startItem,
      kernelItem_startItem_iff.2 rfl⟩
  | append_singleton string x ih =>
    rw [walk?_append]
    rcases ih with ⟨s, state, hw, hs, hk, -⟩ | ⟨hw, hnone⟩
    · rw [hw, Option.bind_some, walk?_cons]
      by_cases hx : ∃ i, g.KernelItem (string ++ [x]) i
      · obtain ⟨i, hi⟩ := hx
        obtain ⟨next, state', hnext, hs', hk'⟩ := next?_fits hs hk hi
        exact Or.inl ⟨next, state', by rw [hnext, Option.bind_some, walk?_nil], hs', hk', i, hi⟩
      · refine Or.inr ⟨?_, not_exists.1 hx⟩
        rcases hnext : g.automaton.next? s x with _ | next
        · rfl
        · obtain ⟨j, hj⟩ := exists_move_of_next? hs hnext
          exact absurd ⟨j, (mem_moves_iff_kernelItem hk).1 hj⟩ hx
    · rw [hw, Option.bind_none]
      refine Or.inr ⟨rfl, fun i hi => ?_⟩
      obtain ⟨j, hj⟩ := exists_kernelItem_of_concat hi
      exact hnone j hj

theorem walk?_fits {string : List Nat} {s : Nat}
    (h : g.automaton.walk? initial string = some s) :
    ∃ state, g.automaton.state? s = some state ∧ g.Fits string state.kernel := by
  rcases g.walk?_cases string with ⟨s', state, hw, hs, hk, -⟩ | ⟨hw, -⟩
  · obtain rfl : s' = s := Option.some.inj (hw.symm.trans h)
    exact ⟨state, hs, hk⟩
  · rw [hw] at h
    cases h

theorem exists_walk?_iff {string : List Nat} :
    (∃ s, g.automaton.walk? initial string = some s) ↔ ∃ i, g.KernelItem string i := by
  rcases g.walk?_cases string with ⟨s, state, hw, -, -, hi⟩ | ⟨hw, hnone⟩
  · exact iff_of_true ⟨s, hw⟩ hi
  · refine iff_of_false ?_ (not_exists.2 hnone)
    rw [hw]
    rintro ⟨s, hs⟩
    cases hs

/-- The empty productions that may begin are those of the nonterminals with the right left
context. -/
theorem mem_emptyItems_iff_emptyItem {string : List Nat} {kernel : IdSet}
    (hk : g.Fits string kernel) {i : Nat} : i ∈ g.emptyItems kernel ↔ g.EmptyItem string i := by
  rw [mem_emptyItems_iff]
  simp only [mem_closure_iff_leftContext hk]
  constructor
  · rintro ⟨p, hp, hc, hr, hi⟩
    exact ⟨p, hp, hr, hc, hi⟩
  · rintro ⟨p, hp, hr, hc, hi⟩
    exact ⟨p, hp, hc, hr, hi⟩

theorem not_emptyItem_of_kernelItem {string string' : List Nat} {i : Nat}
    (h : g.KernelItem string i) : ¬ g.EmptyItem string' i := by
  rintro ⟨p, hp, hr, -, hi⟩
  obtain ⟨before, after, _, hr', hb, -⟩ := (kernelItem_itemId?_iff hp hi).1 h
  rw [hr] at hr'
  exact hb (List.append_eq_nil_iff.1 hr'.symm).1

/-- No item is twice in a state. -/
theorem nodup_items {string : List Nat} {s : Nat} {state : State}
    (hs : g.automaton.state? s = some state) (hk : g.Fits string state.kernel) :
    state.items.Nodup := by
  rw [State.items, empties_eq hs, List.nodup_append']
  refine ⟨state.kernel.nodup_toList, nodup_emptyItems _, ?_⟩
  intro i hi hempty
  exact not_emptyItem_of_kernelItem ((hk i).1 hi) ((mem_emptyItems_iff_emptyItem hk).1 hempty)

/-- **What the automaton follows, and where it gets to**: the strings that end in the middle of a
production, behind a left context of its left-hand side, and besides them the empty string and the
start symbol alone.  The state that it gets to has in its kernel the items that are under way after
the string, and besides them the items of the empty productions that may begin there, each once. -/
theorem walk?_initial_iff (g : Grammar) (string : List Nat) :
    ((g.automaton.walk? initial string).isSome = true ↔
      string = [] ∨ string = [start] ∨
        ∃ p ∈ g.productions, ∃ before after context, p.rhs = before ++ after ∧ before ≠ [] ∧
          string = context ++ before ∧ g.LeftContext p.lhs context) ∧
    ∀ s, g.automaton.walk? initial string = some s →
      ∃ state, g.automaton.state? s = some state ∧
        (∀ i, i ∈ state.kernel ↔ g.KernelItem string i) ∧
        state.items = state.kernel.toList ++ state.empties ∧ state.items.Nodup ∧
        ∀ i, i ∈ state.empties ↔ g.EmptyItem string i := by
  constructor
  · rw [Option.isSome_iff_exists, exists_walk?_iff]
    constructor
    · rintro ⟨i, ⟨-, h⟩ | ⟨-, h⟩ | ⟨p, hp, before, after, context, hr, hb, hs, hc, -⟩⟩
      · exact Or.inl h
      · exact Or.inr (Or.inl h)
      · exact Or.inr (Or.inr ⟨p, hp, before, after, context, hr, hb, hs, hc⟩)
    · rintro (h | h | ⟨p, hp, before, after, context, hr, hb, hs, hc⟩)
      · exact ⟨startItem, kernelItem_startItem_iff.2 h⟩
      · exact ⟨acceptItem, kernelItem_acceptItem_iff.2 h⟩
      · obtain ⟨i, hi⟩ := itemId?_of_append (g := g) hr hb
        exact ⟨i, Or.inr (Or.inr ⟨p, hp, before, after, context, hr, hb, hs, hc, hi⟩)⟩
  · intro s h
    obtain ⟨state, hs, hk⟩ := walk?_fits h
    refine ⟨state, hs, hk, rfl, nodup_items hs hk, fun i => ?_⟩
    rw [empties_eq hs]
    exact mem_emptyItems_iff_emptyItem hk

end SimpleLR.Grammar
