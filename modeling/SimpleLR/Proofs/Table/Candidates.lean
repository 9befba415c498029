import SimpleLR.Grammar.Validation
import SimpleLR.Proofs.Automaton.ViablePrefix
import SimpleLR.Table.Precedence

/-!
# What the candidates for a slot are

The candidates are read off the items of a state, so in a state that fits a string they can be told
from the string.  The input is accepted behind the start symbol, a terminal is shifted if some item
is under way behind it, and a reduce is on offer for every production that the string ends in,
behind a left context of the left-hand side.

## Main Definitions

* `Grammar.lookaheadOf` — the terminals on which a nonterminal is reduced to

## Main Statements

* `Grammar.reduceProduction?_iff` — the reduces of a state that fits a string
* `Grammar.accept_mem_candidates`, `Grammar.shift_mem_candidates`, `Grammar.reduce_mem_candidates` —
  the three kinds of candidates
* `Grammar.conflictFree_iff` — whether some slot has two candidates can be decided
* `Grammar.confines_byPrecedence` — deciding by precedence is deciding for one of the two sides
-/

namespace SimpleLR.Grammar

open Automaton

variable {g : Grammar}

/-! ### Reduces of a state -/

theorem mem_reducePlaces {table : ItemTable} {ids : List Nat} {place : Nat} :
    place ∈ reducePlaces table ids ↔
      ∃ i item, ids[place]? = some i ∧ table.item? i = some item ∧ item.canReduce = true := by
  rw [reducePlaces, List.mem_filter, List.mem_range]
  constructor
  · rintro ⟨hlt, h⟩
    rw [List.getElem?_eq_getElem hlt, Option.bind_some] at h
    obtain ⟨item, hitem, hr⟩ := (Option.any_eq_true ..).1 h
    exact ⟨ids[place], item, List.getElem?_eq_getElem hlt, hitem, hr⟩
  · rintro ⟨i, item, hi, hitem, hr⟩
    refine ⟨(List.getElem?_eq_some_iff.1 hi).1, ?_⟩
    rw [hi, Option.bind_some, hitem]
    exact hr

theorem canReduce_iff {item : Item} {i : Nat} (h : g.itemTable.item? i = some item) :
    item.canReduce = true ↔ ∃ p ∈ g.productions, item = ⟨i, some p, p.rhs.length⟩ := by
  rcases item?_cases h with ⟨rfl, rfl⟩ | ⟨rfl, rfl⟩ | ⟨p, hp, k, -, rfl⟩
  · simp [Item.canReduce]
  · simp [Item.canReduce]
  · constructor
    · intro hk
      obtain rfl : k = p.rhs.length := by simpa [Item.canReduce] using hk
      exact ⟨p, hp, rfl⟩
    · rintro ⟨q, -, hq⟩
      simp only [Item.mk.injEq, Option.some.injEq, true_and] at hq
      obtain ⟨rfl, rfl⟩ := hq
      simp [Item.canReduce]

/-- The reduces of a state are the items with the dot at the end of a production. -/
theorem reduceProduction?_eq_some_iff {s r : Nat} {state : State} {p : Production}
    (hs : g.automaton.state? s = some state) :
    g.automaton.reduceProduction? s r = some p ↔
      ∃ place i, state.reduces[r]? = some place ∧ state.items[place]? = some i ∧
        g.itemTable.item? i = some ⟨i, some p, p.rhs.length⟩ := by
  have htable : g.automaton.table = g.itemTable := rfl
  simp only [reduceProduction?, reduceItem?, hs, htable, Option.bind_eq_bind, Option.bind_some,
    Option.bind_eq_some_iff]
  constructor
  · rintro ⟨item, ⟨place, hplace, i, hi, hitem⟩, hp⟩
    have hmem : place ∈ reducePlaces g.itemTable state.items :=
      reduces_eq hs ▸ List.mem_of_getElem? hplace
    obtain ⟨j, item', hj, hitem', hr⟩ := mem_reducePlaces.1 hmem
    obtain rfl : i = j := Option.some.inj (hi.symm.trans hj)
    obtain rfl : item = item' := Option.some.inj (hitem.symm.trans hitem')
    obtain ⟨q, -, rfl⟩ := (canReduce_iff hitem).1 hr
    obtain rfl : q = p := by simpa using hp
    exact ⟨place, i, hplace, hi, hitem⟩
  · rintro ⟨place, i, hplace, hi, hitem⟩
    exact ⟨_, ⟨place, hplace, i, hi, hitem⟩, rfl⟩

/-- There are as many reduces as their list says. -/
theorem exists_reduceProduction? {s r : Nat} {state : State}
    (hs : g.automaton.state? s = some state) (hr : r < state.reduces.length) :
    ∃ p ∈ g.productions, g.automaton.reduceProduction? s r = some p := by
  have hplace := List.getElem?_eq_getElem hr
  have hmem : state.reduces[r] ∈ reducePlaces g.itemTable state.items :=
    reduces_eq hs ▸ List.getElem_mem hr
  obtain ⟨i, item, hi, hitem, hcan⟩ := mem_reducePlaces.1 hmem
  obtain ⟨p, hp, rfl⟩ := (canReduce_iff hitem).1 hcan
  exact ⟨p, hp, (reduceProduction?_eq_some_iff hs).2 ⟨_, i, hplace, hi, hitem⟩⟩

theorem lt_of_reduceProduction? {s r : Nat} {state : State} {p : Production}
    (hs : g.automaton.state? s = some state)
    (h : g.automaton.reduceProduction? s r = some p) : r < state.reduces.length := by
  obtain ⟨place, i, hplace, -, -⟩ := (reduceProduction?_eq_some_iff hs).1 h
  exact (List.getElem?_eq_some_iff.1 hplace).1

theorem exists_reduce_iff {s : Nat} {state : State} {p : Production}
    (hs : g.automaton.state? s = some state) :
    (∃ r, g.automaton.reduceProduction? s r = some p) ↔
      p ∈ g.productions ∧ ∃ i ∈ state.items, g.itemTable.itemId? p p.rhs.length = some i := by
  simp only [reduceProduction?_eq_some_iff hs]
  constructor
  · rintro ⟨r, place, i, -, hi, hitem⟩
    obtain ⟨hp, hid⟩ := mem_productions_of_item? hitem
    exact ⟨hp, i, List.mem_of_getElem? hi, hid⟩
  · rintro ⟨hp, i, hi, hid⟩
    obtain ⟨place, hplace⟩ := List.mem_iff_getElem?.1 hi
    have hitem := item?_of_itemId? hp hid
    have hmem : place ∈ state.reduces := by
      rw [reduces_eq hs]
      exact mem_reducePlaces.2 ⟨i, _, hplace, hitem, (canReduce_iff hitem).2 ⟨p, hp, rfl⟩⟩
    obtain ⟨r, hr⟩ := List.mem_iff_getElem?.1 hmem
    exact ⟨r, place, i, hr, hplace, hitem⟩

/-- **The reduces of a state that fits a string** are by the productions that the string ends in,
behind a left context of the left-hand side. -/
theorem reduceProduction?_iff {string : List Nat} {s : Nat} {state : State}
    (hs : g.automaton.state? s = some state) (hk : g.Fits string state.kernel) {p : Production} :
    (∃ r, g.automaton.reduceProduction? s r = some p) ↔
      p ∈ g.productions ∧ ∃ context, string = context ++ p.rhs ∧ g.LeftContext p.lhs context := by
  rw [exists_reduce_iff hs]
  refine and_congr_right fun hp => ?_
  constructor
  · rintro ⟨i, hi, hid⟩
    rw [State.items, List.mem_append, empties_eq hs] at hi
    rcases hi with hi | hi
    · obtain ⟨before, after, context, hr, -, hlen, hstring, hc⟩ :=
        (kernelItem_itemId?_iff hp hid).1 ((hk i).1 hi)
      have hafter : after = [] := by
        rw [hr, List.length_append] at hlen
        exact List.length_eq_zero_iff.1 (by omega)
      rw [hafter, List.append_nil] at hr
      exact ⟨context, by rw [hstring, hr], hc⟩
    · obtain ⟨q, hq, hr, hc, hid'⟩ := (mem_emptyItems_iff_emptyItem hk).1 hi
      obtain ⟨rfl, -⟩ := itemId?_inj hp hq hid hid'
      exact ⟨string, by rw [hr, List.append_nil], hc⟩
  · rintro ⟨context, hstring, hc⟩
    -- an empty production is not in the kernel, all others are
    by_cases hr : p.rhs = []
    · rw [hr, List.append_nil] at hstring
      refine ⟨g.itemTable.startOf p, ?_, by rw [hr]; exact itemId?_zero hr⟩
      rw [State.items, List.mem_append, empties_eq hs]
      refine Or.inr ((mem_emptyItems_iff_emptyItem hk).2 ⟨p, hp, hr, ?_, itemId?_zero hr⟩)
      rwa [hstring]
    · have hall : p.rhs = p.rhs ++ [] := (List.append_nil _).symm
      obtain ⟨i, hi⟩ := itemId?_of_append (g := g) hall hr
      refine ⟨i, List.mem_append_left _ ((hk i).2 ?_), hi⟩
      exact (kernelItem_itemId?_iff hp hi).2 ⟨p.rhs, [], context, hall, hr, rfl, hstring, hc⟩

/-! ### Lookahead -/

/-- The terminals on which a nonterminal is reduced to. -/
def lookaheadOf (g : Grammar) : Mode → Nat → IdSet
  | .slr, n => g.analyse.follow.setOf n
  | .lr0, _ => g.terminals

theorem isTerminal_of_mem_lookaheadOf {mode : Mode} {n t : Nat} (h : t ∈ g.lookaheadOf mode n) :
    g.isTerminal t = true := by
  cases mode with
  | slr => exact g.isTerminal_of_mem_follow h
  | lr0 => exact g.mem_terminals.1 h

theorem mem_lookaheadOf_of_mem_follow (mode : Mode) {n t : Nat}
    (h : t ∈ g.analyse.follow.setOf n) : t ∈ g.lookaheadOf mode n := by
  cases mode with
  | slr => exact h
  | lr0 => exact g.mem_terminals.2 (g.isTerminal_of_mem_follow h)

/-- The lookahead of a reduce depends on nothing but its left-hand side. -/
theorem terminals?_lookahead (mode : Mode) {s r : Nat} {state : State} {p : Production}
    (hs : g.automaton.state? s = some state)
    (hp : g.automaton.reduceProduction? s r = some p) :
    (g.automaton.lookahead mode).terminals? s r = some (g.lookaheadOf mode p.lhs) := by
  cases mode with
  | lr0 => rfl
  | slr =>
    have hrow : (g.automaton.states.mapIdx fun s state =>
        (List.range state.reduces.length).map (g.automaton.followOfReduce s))[s]? =
          some ((List.range state.reduces.length).map (g.automaton.followOfReduce s)) := by
      rw [List.getElem?_mapIdx]
      exact congrArg (Option.map _) hs
    have hfollow : g.automaton.followOfReduce s r = g.analyse.follow.setOf p.lhs := by
      rw [followOfReduce, hp]
      rfl
    show (g.automaton.states.mapIdx _)[s]?.bind (·[r]?) = _
    rw [hrow, Option.bind_some, List.getElem?_map,
      List.getElem?_range (lt_of_reduceProduction? hs hp), Option.map_some, hfollow]
    rfl

/-! ### The three kinds of candidates -/

variable {s : Nat} {state : State}

theorem acceptsIn_iff (hs : g.automaton.state? s = some state) :
    g.automaton.acceptsIn state = true ↔ acceptItem ∈ state.kernel := by
  have htable : g.automaton.table = g.itemTable := rfl
  rw [acceptsIn, List.any_eq_true, htable]
  constructor
  · rintro ⟨i, hi, haccept⟩
    obtain ⟨item, hitem, hcan⟩ := (Option.any_eq_true ..).1 haccept
    rcases item?_cases hitem with ⟨rfl, rfl⟩ | ⟨rfl, rfl⟩ | ⟨p, hp, k, -, rfl⟩
    · simp [Item.canAccept] at hcan
    · rw [State.items, List.mem_append, empties_eq hs] at hi
      refine hi.resolve_right fun hempty => ?_
      obtain ⟨p, hp, -, -, hid⟩ := mem_emptyItems_iff.1 hempty
      exact (itemId?_ne_augmenting hp hid).2 rfl
    · simp [Item.canAccept] at hcan
  · intro h
    refine ⟨acceptItem, List.mem_append_left _ h, ?_⟩
    rw [item?_accept]
    rfl

theorem mem_candidates_iff (hs : g.automaton.state? s = some state) {look : Lookahead} {t : Nat}
    {action : Action} :
    action ∈ g.automaton.candidates look s t ↔
      (action = .accept ∧ g.automaton.acceptsIn state = true ∧ t = g.endOfInput) ∨
      (∃ next ∈ g.automaton.shiftsOn state t, action = .shift next) ∨
      ∃ r ∈ reducesOn look s state t, action = .reduce r := by
  rw [candidates, hs]
  simp only [List.mem_append, List.mem_map, or_assoc, eq_comm (b := action)]
  refine or_congr_left ?_
  by_cases haccept : g.automaton.acceptsIn state = true ∧ t = g.endOfInput
  · rw [if_pos (by simpa using haccept), List.mem_singleton]
    exact ⟨fun h => ⟨h, haccept⟩, fun h => h.1⟩
  · rw [if_neg (by simpa using haccept)]
    exact ⟨fun h => absurd h List.not_mem_nil, fun h => absurd h.2 haccept⟩

theorem accept_mem_candidates (hs : g.automaton.state? s = some state) {string : List Nat}
    (hk : g.Fits string state.kernel) {look : Lookahead} {t : Nat} :
    Action.accept ∈ g.automaton.candidates look s t ↔ string = [start] ∧ t = g.endOfInput := by
  have hitem : g.automaton.acceptsIn state = true ↔ string = [start] := by
    rw [acceptsIn_iff hs, hk acceptItem, kernelItem_acceptItem_iff]
  rw [mem_candidates_iff hs, hitem]
  simp

theorem shift_mem_candidates (hs : g.automaton.state? s = some state) {look : Lookahead}
    {t next : Nat} (ht : g.isTerminal t = true) :
    Action.shift next ∈ g.automaton.candidates look s t ↔
      g.automaton.next? s t = some next := by
  rw [mem_candidates_iff hs, shiftsOn_eq hs ht]
  simp

theorem reduce_mem_candidates (hs : g.automaton.state? s = some state) {mode : Mode} {t r : Nat} :
    Action.reduce r ∈ g.automaton.candidates (g.automaton.lookahead mode) s t ↔
      ∃ p, g.automaton.reduceProduction? s r = some p ∧ t ∈ g.lookaheadOf mode p.lhs := by
  have hreduces : r ∈ reducesOn (g.automaton.lookahead mode) s state t ↔
      ∃ p, g.automaton.reduceProduction? s r = some p ∧ t ∈ g.lookaheadOf mode p.lhs := by
    rw [reducesOn, List.mem_filter, List.mem_range]
    constructor
    · rintro ⟨hr, ht⟩
      obtain ⟨p, -, hp⟩ := exists_reduceProduction? hs hr
      rw [terminals?_lookahead mode hs hp] at ht
      exact ⟨p, hp, IdSet.contains_iff.1 ht⟩
    · rintro ⟨p, hp, ht⟩
      refine ⟨lt_of_reduceProduction? hs hp, ?_⟩
      rw [terminals?_lookahead mode hs hp]
      exact IdSet.contains_iff.2 ht
  rw [mem_candidates_iff hs, ← hreduces]
  simp

/-- There are no candidates where there is no state. -/
theorem exists_state?_of_mem_candidates {look : Lookahead} {t : Nat} {action : Action}
    (h : action ∈ g.automaton.candidates look s t) :
    ∃ state, g.automaton.state? s = some state := by
  rw [candidates] at h
  split at h
  · cases h
  · exact ⟨_, ‹_›⟩

/-! ### Where there are no candidates -/

/-- All shifts are on terminals. -/
theorem exists_entryOf {next : Nat} (hs : g.automaton.state? s = some state)
    (hnext : next ∈ state.shifts) :
    ∃ t, g.automaton.entryOf next = some t ∧ g.isTerminal t = true := by
  obtain ⟨ts, h⟩ := exists_transitions hs
  rw [h.shifts, List.mem_map] at hnext
  obtain ⟨⟨t, _⟩, ht, rfl⟩ := hnext
  obtain ⟨hmem, hterm⟩ := List.mem_filter.1 ht
  exact ⟨t, h.entryOf hmem, hterm⟩

/-- There are no candidates but for terminals. -/
theorem isTerminal_of_mem_candidates {mode : Mode} {t : Nat} {action : Action}
    (h : action ∈ g.automaton.candidates (g.automaton.lookahead mode) s t) :
    g.isTerminal t = true := by
  obtain ⟨state, hs⟩ := exists_state?_of_mem_candidates h
  rcases (mem_candidates_iff hs).1 h with ⟨-, -, rfl⟩ | ⟨next, hnext, -⟩ | ⟨r, -, rfl⟩
  · exact g.isTerminal_endOfInput
  · obtain ⟨hmem, hentry⟩ := List.mem_filter.1 hnext
    obtain ⟨x, hx, hterm⟩ := exists_entryOf hs hmem
    rw [hx, beq_iff_eq, Option.some.injEq] at hentry
    exact hentry ▸ hterm
  · obtain ⟨p, -, ht⟩ := (reduce_mem_candidates hs).1 h
    exact isTerminal_of_mem_lookaheadOf ht

/-- It is enough to look at the slots that exist. -/
theorem conflictFree_iff {mode : Mode} :
    g.automaton.ConflictFree (g.automaton.lookahead mode) ↔
      ∀ s < g.automaton.numStates, ∀ t < g.numSymbols,
        (g.automaton.candidates (g.automaton.lookahead mode) s t).length ≤ 1 := by
  constructor
  · exact fun h s _ t _ => h s t
  · intro h s t
    rcases hc : g.automaton.candidates (g.automaton.lookahead mode) s t with _ | ⟨action, rest⟩
    · exact Nat.zero_le 1
    · have hmem : action ∈ g.automaton.candidates (g.automaton.lookahead mode) s t := by
        simp [hc]
      obtain ⟨state, hs⟩ := exists_state?_of_mem_candidates hmem
      have ht := (g.isTerminal_iff.1 (isTerminal_of_mem_candidates hmem)).2
      rw [← hc]
      exact h s (List.getElem?_eq_some_iff.1 hs).1 t ht

instance (mode : Mode) : Decidable (g.automaton.ConflictFree (g.automaton.lookahead mode)) :=
  decidable_of_iff _ conflictFree_iff.symm

/-- Any number of the terminal `x`, by the productions `S :=` and `S := S x`. -/
def repetition : Grammar :=
  ofWellFormed [⟨"S", none⟩, ⟨"x", none⟩, ⟨"$end", none⟩] 1 [[⟨[], none⟩, ⟨[0, 1], none⟩]]
    ⟨by decide, by decide, by decide, by decide, by decide, by decide⟩

example : repetition.automaton.ConflictFree (repetition.automaton.lookahead .lr0) := by
  decide +kernel

/-! ### Deciding by precedence -/

theorem resolveShiftReduce_allows {c : Contest} {p : Production}
    (hp : g.automaton.reduceProduction? c.state c.reduce = some p) (conflicts : List Conflict) :
    ∃ action conflicts', g.automaton.resolveShiftReduce c conflicts = some (action, conflicts') ∧
      c.Allows action := by
  unfold resolveShiftReduce
  dsimp only
  split
  · exact ⟨_, _, rfl, Or.inl rfl⟩
  · rw [hp, Option.map_some]
    split
    · exact ⟨_, _, rfl, Or.inl rfl⟩
    · exact ⟨_, _, rfl, Or.inr (Or.inl rfl)⟩
    · exact ⟨_, _, rfl, Or.inr (Or.inr rfl)⟩
    · exact ⟨_, _, rfl, Or.inl rfl⟩

theorem resolveReduceReduce_allows {c : Contest} {p : Production}
    (hp : g.automaton.reduceProduction? c.state c.reduce = some p)
    (ho : ∀ r, c.occupant = .reduce r → ∃ q, g.automaton.reduceProduction? c.state r = some q)
    (conflicts : List Conflict) :
    ∃ action conflicts', g.automaton.resolveReduceReduce c conflicts = some (action, conflicts') ∧
      c.Allows action := by
  have hearlier : ∃ kept discarded, g.automaton.earlierReduce? c = some (kept, discarded) ∧
      c.Allows kept := by
    unfold earlierReduce?
    split
    · next r hr =>
      obtain ⟨q, hq⟩ := ho r hr
      simp only [hp, hq, Option.bind_eq_bind, Option.bind_some]
      split
      · exact ⟨_, _, rfl, Or.inr (Or.inl rfl)⟩
      · exact ⟨_, _, rfl, Or.inl rfl⟩
    · exact ⟨_, _, rfl, Or.inr (Or.inl rfl)⟩
  obtain ⟨kept, discarded, h, hallows⟩ := hearlier
  rw [resolveReduceReduce, h, Option.map_some]
  exact ⟨kept, _, rfl, hallows⟩

/-- Precedence decides between reduces of the state, and between what else the slot holds and a
reduce of the state. -/
theorem byPrecedence_allows {c : Contest} {p : Production}
    (hp : g.automaton.reduceProduction? c.state c.reduce = some p)
    (ho : ∀ r, c.occupant = .reduce r → ∃ q, g.automaton.reduceProduction? c.state r = some q)
    (conflicts : List Conflict) :
    ∃ action conflicts', g.automaton.byPrecedence.decide? c conflicts = some (action, conflicts') ∧
      c.Allows action := by
  unfold Resolver.decide?
  split
  · exact resolveReduceReduce_allows hp ho conflicts
  · exact resolveShiftReduce_allows hp conflicts

/-- **Deciding by precedence** is deciding for one of the two sides, or for neither. -/
theorem confines_byPrecedence (mode : Mode) :
    g.automaton.Confines (g.automaton.lookahead mode) g.automaton.byPrecedence := by
  intro c conflicts hc
  obtain ⟨hoccupant, hreduce, -⟩ := hc
  obtain ⟨state, hs⟩ := exists_state?_of_mem_candidates hreduce
  obtain ⟨p, hp, -⟩ := (reduce_mem_candidates hs).1 hreduce
  refine byPrecedence_allows hp (fun r hr => ?_) conflicts
  rw [hr] at hoccupant
  obtain ⟨q, hq, -⟩ := (reduce_mem_candidates hs).1 hoccupant
  exact ⟨q, hq⟩

end SimpleLR.Grammar
