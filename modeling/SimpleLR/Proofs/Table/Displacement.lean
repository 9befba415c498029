import SimpleLR.Proofs.Table.Outcome

/-!
# Slots that have lost their shift

Contests are decided one by one, each between a reduce and what the slot holds at that moment.  The
first reduce that does not defer to the shift ends the part of the history in which precedences
matter.  If it is preferred to the shift it takes the place of the shift, and the reduces behind it
compete with it by the order of their productions.  If neither is preferred the slot is empty again,
and the next reduce takes it as if there had never been anything in it.

So precedences do not protect a slot for good.  Where an operator that does not associate has
emptied a slot, another reduce may fill it.  And a reduce that the shift is preferred to may still
get into the slot, if the shift is gone when its turn comes.

## Main Statements

* `Automaton.History.exists_first` — the first reduce that does not defer to the shift
* `Grammar.slot_after_removal` — a slot that an operator has emptied
* `Grammar.slot_eq_reduce_only_if_gone` — a reduce that the shift is preferred to
* `Grammar.removed_slot_refilled`, `Grammar.outranked_reduce_wins` — neither is protected
-/

namespace SimpleLR

/-- A list with a member of some kind has a first one. -/
theorem exists_first_of_mem {P : Nat → Prop} [DecidablePred P] {xs : List Nat} {x : Nat}
    (hx : x ∈ xs) (h : P x) :
    ∃ before y after, xs = before ++ y :: after ∧ P y ∧ ∀ z ∈ before, ¬ P z := by
  have hsome : (xs.find? fun y => decide (P y)).isSome = true :=
    List.find?_isSome.2 ⟨x, hx, by simpa using h⟩
  obtain ⟨y, hy⟩ := Option.isSome_iff_exists.1 hsome
  obtain ⟨hP, before, after, hxs, hbefore⟩ := List.find?_eq_some_iff_append.1 hy
  refine ⟨before, y, after, hxs, by simpa using hP, ?_⟩
  intro z hz
  simpa using hbefore z hz

namespace Automaton

variable {g : Grammar} {a : Automaton g} {s t r next : Nat} {last : Action} {reduces : List Nat}
  {recorded : List Conflict}

instance : Decidable (a.Defers s t r) := inferInstanceAs (Decidable (_ ∨ _))

/-- The reduce that is left in an empty slot is the earliest one. -/
theorem Victor.earliest (h : a.Victor s reduces last) (hlast : last = .reduce r) :
    a.Earliest s reduces r := by
  rcases h with ⟨-, hreject⟩ | ⟨r', hr', hearliest⟩
  · cases hreject.symm.trans hlast
  · rwa [← Action.reduce.inj (hr'.symm.trans hlast)]

/-- **A slot that has lost its shift**: there is a first reduce that did not defer to the shift.  It
has taken the place of the shift, and competes with those behind it, or the two have removed each
other, and those behind it compete for an empty slot. -/
theorem History.exists_first (hd : a.Distinct s)
    (h : a.History s t (.shift next) reduces last recorded) (hlast : last ≠ .shift next) :
    ∃ before r after, reduces = before ++ r :: after ∧ (∀ r' ∈ before, a.Defers s t r') ∧
      (a.Prefers s t r .reduce ∧ a.Victor s (r :: after) last ∨
        a.Prefers s t r .neither ∧ a.Victor s after last) := by
  obtain ⟨r, hr, hdefers⟩ : ∃ r ∈ reduces, ¬ a.Defers s t r := by
    rw [Ne, h.last_eq_shift_iff] at hlast
    simpa using hlast
  obtain ⟨before, r, after, rfl, hfirst, hbefore⟩ :=
    exists_first_of_mem (P := fun r => ¬ a.Defers s t r) hr hdefers
  have hkept : ∀ r' ∈ before, a.Defers s t r' := by
    intro r' hr'
    exact not_not.1 (hbefore r' hr')
  refine ⟨before, r, after, rfl, hkept, ?_⟩
  rcases (a.defers_or_prefers s t r).resolve_left hfirst with hreduce | hneither
  · exact Or.inl ⟨hreduce, h.victor_of_replaced hd hkept hreduce⟩
  · exact Or.inr ⟨hneither, h.victor_of_removed hd hkept hneither⟩

/-- A reduce that the shift is preferred to is in the slot only if the shift was gone before its
turn.  The first reduce that did not defer to the shift has then taken the place of the shift, and
later given way to a production that comes before its own, or it was removed together with the
shift. -/
theorem History.gone_of_last_eq_reduce (hd : a.Distinct s)
    (h : a.History s t (.shift next) reduces last recorded) (hr : a.Prefers s t r .shift)
    (hlast : last = .reduce r) :
    ∃ before r' after, reduces = before ++ r' :: after ∧ r ∈ after ∧
      (∀ r'' ∈ before, a.Defers s t r'') ∧
      (a.Prefers s t r' .reduce ∧ a.Earliest s (r' :: after) r ∨ a.Prefers s t r' .neither) := by
  obtain ⟨before, r', after, hreduces, hbefore, hcases⟩ := h.exists_first hd (by simp [hlast])
  refine ⟨before, r', after, hreduces, ?_⟩
  rcases hcases with ⟨hreduce, hwins⟩ | ⟨hneither, hwins⟩
  · have hearliest := hwins.earliest hlast
    -- the two are different, because precedences say different things about them
    have hne : r ≠ r' := by
      rintro rfl
      cases hr.unique hreduce
    exact ⟨(List.mem_cons.1 hearliest.1).resolve_left hne, hbefore, Or.inl ⟨hreduce, hearliest⟩⟩
  · exact ⟨(hwins.earliest hlast).1, hbefore, Or.inr hneither⟩

end Automaton

namespace Grammar

open Automaton

variable {g : Grammar}

/-- Shifts are on terminals. -/
theorem isTerminal_of_mem_shiftsOn {s t next : Nat} {state : State}
    (hs : g.automaton.state? s = some state) (h : next ∈ g.automaton.shiftsOn state t) :
    g.isTerminal t = true := by
  have hmem : Action.shift next ∈ g.automaton.candidates (g.automaton.lookahead .lr0) s t :=
    (mem_candidates_iff hs).2 (Or.inr (Or.inl ⟨next, h, rfl⟩))
  exact isTerminal_of_mem_candidates hmem

/-- **A slot that an operator has emptied.**  If the terminal does not associate, some reduce has
the same priority and none has a higher one, then the shift and the first reduce of the same
priority have removed each other.  The slot is empty in the end if no other reduce on the terminal
comes behind that one.  Otherwise it holds the one among those behind it whose production comes
first in the grammar. -/
theorem slot_after_removal (g : Grammar) (mode : Mode) :
    ∃ T conflicts, g.automaton.tables? mode g.automaton.byPrecedence [] = some (T, conflicts) ∧
      ∀ s state t next, g.automaton.state? s = some state →
        next ∈ g.automaton.shiftsOn state t →
        (∃ r ∈ reducesOn (g.automaton.lookahead mode) s state t,
          g.automaton.Prefers s t r .neither) →
        (∀ r ∈ reducesOn (g.automaton.lookahead mode) s state t,
          ¬ g.automaton.Prefers s t r .reduce) →
        ∃ before r after,
          reducesOn (g.automaton.lookahead mode) s state t = before ++ r :: after ∧
          g.automaton.Prefers s t r .neither ∧
          (∀ r' ∈ before, ¬ g.automaton.Prefers s t r' .neither) ∧
          (after = [] ∧ T.slot? s t = some .reject ∨
            ∃ r', T.slot? s t = some (.reduce r') ∧ g.automaton.Earliest s after r') := by
  obtain ⟨T, conflicts, htables, hT⟩ := g.exists_chronicled_tables mode []
  refine ⟨T, conflicts, htables, ?_⟩
  rintro s state t next hs hnext ⟨r, hr, hneither⟩ hnoReduce
  have ht := isTerminal_of_mem_shiftsOn hs hnext
  obtain ⟨action, hslot, hhistory⟩ := hT.slot hs ht
  rw [earlySlot_of_mem_shiftsOn hs ht hnext] at hhistory
  obtain ⟨before, r, after, hreduces, hfirst, hbefore⟩ :=
    exists_first_of_mem (P := fun r => g.automaton.Prefers s t r .neither) hr hneither
  refine ⟨before, r, after, hreduces, hfirst, hbefore, ?_⟩
  -- the reduces before the first of the same priority have no priority, or a lower one
  have hkept : ∀ r' ∈ before, g.automaton.Defers s t r' := by
    intro r' hr'
    have hmem : r' ∈ reducesOn (g.automaton.lookahead mode) s state t := by
      rw [hreduces]
      exact List.mem_append_left _ hr'
    rcases g.automaton.defers_or_prefers s t r' with hdefers | hreduce | hneither'
    · exact hdefers
    · exact absurd hreduce (hnoReduce r' hmem)
    · exact absurd hneither' (hbefore r' hr')
  rw [hreduces] at hhistory
  rw [hslot]
  rcases hhistory.victor_of_removed (reduces_distinct hs) hkept hfirst with
    ⟨hnone, rfl⟩ | ⟨r', rfl, hearliest⟩
  · exact Or.inl ⟨hnone, rfl⟩
  · exact Or.inr ⟨r', rfl, hearliest⟩

/-- An operator that does not associate: `S → S < S` and `S → x`. -/
def relation : Grammar :=
  ofWellFormed [⟨"S", none⟩, ⟨"<", some ⟨1, .nonassoc⟩⟩, ⟨"x", none⟩, ⟨"$end", none⟩] 1
    [[⟨[0, 1, 0], none⟩, ⟨[2], none⟩]]
    ⟨by decide, by decide, by decide, by decide, by decide, by decide⟩

/-- Behind `S < S` there is one reduce, and so the slot of `<` stays empty. -/
theorem slot_after_removal_relation :
    ∃ T conflicts, relation.automaton.tables? .slr relation.automaton.byPrecedence [] =
        some (T, conflicts) ∧
      ∃ state, relation.automaton.state? 4 = some state ∧
        3 ∈ relation.automaton.shiftsOn state 1 ∧
        reducesOn (relation.automaton.lookahead .slr) 4 state 1 = [0] ∧
        relation.automaton.Prefers 4 1 0 .neither ∧ ¬ relation.automaton.Prefers 4 1 0 .reduce ∧
        T.slot? 4 1 = some .reject := by
  obtain ⟨T, conflicts, htables, hslots⟩ := slot_after_removal relation .slr
  have hvalues : (relation.automaton.state? 4).map (fun state =>
      (relation.automaton.shiftsOn state 1,
        reducesOn (relation.automaton.lookahead .slr) 4 state 1)) = some ([3], [0]) := by
    decide +kernel
  obtain ⟨state, hs, hlists⟩ := Option.map_eq_some_iff.1 hvalues
  obtain ⟨hshift, hreduces⟩ := Prod.mk.inj hlists
  have hprefers : relation.automaton.Prefers 4 1 0 .neither ∧
      ¬ relation.automaton.Prefers 4 1 0 .reduce := by
    decide +kernel
  have hmem : 3 ∈ relation.automaton.shiftsOn state 1 := by simp [hshift]
  have hafter := hslots 4 state 1 3 hs hmem
  rw [hreduces] at hafter
  obtain ⟨before, r, after, hsplit, -, -, hslot⟩ :=
    hafter ⟨0, by simp, hprefers.1⟩ (by simpa using hprefers.2)
  obtain rfl : after = [] := by
    rcases List.append_eq_singleton_iff.1 hsplit.symm with ⟨-, hcons⟩ | ⟨-, hcons⟩
    · exact (List.cons_eq_cons.1 hcons).2
    · cases hcons
  rcases hslot with ⟨-, hreject⟩ | ⟨r', -, hmem', -⟩
  · exact ⟨T, conflicts, htables, state, hs, hmem, hreduces, hprefers.1, hprefers.2, hreject⟩
  · cases hmem'

/-- Comparisons, each of which can be read in two ways, where `<` does not associate. -/
def strictComparisons : Grammar := comparisons (some ⟨1, .nonassoc⟩)

/-- Behind `S < S` there are two reduces of the same priority as `<`, which does not associate.  The
first of them empties the slot of `<`, and the second fills it. -/
theorem removed_slot_refilled :
    ∃ T conflicts, strictComparisons.automaton.tables? .slr
        strictComparisons.automaton.byPrecedence [] = some (T, conflicts) ∧
      ∃ state, strictComparisons.automaton.state? 5 = some state ∧
        strictComparisons.automaton.shiftsOn state 2 = [4] ∧
        strictComparisons.symbolPrecedence 2 = some ⟨1, .nonassoc⟩ ∧
        reducesOn (strictComparisons.automaton.lookahead .slr) 5 state 2 = [0, 1] ∧
        (∀ r ∈ [0, 1], strictComparisons.automaton.Prefers 5 2 r .neither) ∧
        T.slot? 5 2 = some (.reduce 1) := by
  obtain ⟨T, conflicts, htables, -⟩ := strictComparisons.exists_chronicled_tables .slr []
  have hslot : (strictComparisons.automaton.tables? .slr
      strictComparisons.automaton.byPrecedence []).map (fun r => r.1.slot? 5 2) =
      some (some (.reduce 1)) := by
    decide +kernel
  rw [htables] at hslot
  have hvalues : (strictComparisons.automaton.state? 5).map (fun state =>
      (strictComparisons.automaton.shiftsOn state 2,
        reducesOn (strictComparisons.automaton.lookahead .slr) 5 state 2)) =
      some ([4], [0, 1]) := by
    decide +kernel
  obtain ⟨state, hs, hlists⟩ := Option.map_eq_some_iff.1 hvalues
  obtain ⟨hshift, hreduces⟩ := Prod.mk.inj hlists
  have hprefers : ∀ r ∈ [0, 1], strictComparisons.automaton.Prefers 5 2 r .neither := by
    decide +kernel
  exact ⟨T, _, htables, state, hs, hshift, rfl, hreduces, hprefers, Option.some.inj hslot⟩

/-- **A reduce that the shift is preferred to** is in the slot in the end only if the shift was gone
when its turn came.  Among the reduces on the terminal before it there is then a first one that did
not defer to the shift.  Either that one was preferred to the shift, and of it and all reduces
behind it the one in the slot is by the production that comes first in the grammar, or neither was
preferred. -/
theorem slot_eq_reduce_only_if_gone (g : Grammar) (mode : Mode) :
    ∃ T conflicts, g.automaton.tables? mode g.automaton.byPrecedence [] = some (T, conflicts) ∧
      ∀ s state t next r, g.automaton.state? s = some state →
        next ∈ g.automaton.shiftsOn state t → g.automaton.Prefers s t r .shift →
        ∃ action, T.slot? s t = some action ∧
          (action = .reduce r → ∃ before r' after,
            reducesOn (g.automaton.lookahead mode) s state t = before ++ r' :: after ∧ r ∈ after ∧
            (∀ r'' ∈ before, g.automaton.Defers s t r'') ∧
            (g.automaton.Prefers s t r' .reduce ∧ g.automaton.Earliest s (r' :: after) r ∨
              g.automaton.Prefers s t r' .neither)) := by
  obtain ⟨T, conflicts, htables, hT⟩ := g.exists_chronicled_tables mode []
  refine ⟨T, conflicts, htables, ?_⟩
  intro s state t next r hs hnext hr
  have ht := isTerminal_of_mem_shiftsOn hs hnext
  obtain ⟨action, hslot, hhistory⟩ := hT.slot hs ht
  rw [earlySlot_of_mem_shiftsOn hs ht hnext] at hhistory
  exact ⟨action, hslot, hhistory.gone_of_last_eq_reduce (reduces_distinct hs) hr⟩

/-- Three ways to go on behind `x`: `S → A t`, `S → x N t`, `S → x t`, `N →` and `A → x`, where the
priority of `A → x` is higher than that of `t`, and the priority of `N →` is lower. -/
def endings : Grammar :=
  ofWellFormed [⟨"S", none⟩, ⟨"N", none⟩, ⟨"A", none⟩, ⟨"t", some ⟨2, .left⟩⟩, ⟨"x", none⟩,
      ⟨"$end", none⟩] 3
    [[⟨[2, 3], none⟩, ⟨[4, 1, 3], none⟩, ⟨[4, 3], none⟩], [⟨[], some ⟨1, .left⟩⟩],
      [⟨[4], some ⟨3, .left⟩⟩]]
    ⟨by decide, by decide, by decide, by decide, by decide, by decide⟩

/-- Behind `x` there are a shift of `t`, the reduce by `A → x`, and then the one by `N →`, which the
shift is preferred to and which is in the slot. -/
theorem exists_state?_endings {T : Tables endings} {conflicts : List Conflict}
    (h : endings.automaton.tables? .slr endings.automaton.byPrecedence [] = some (T, conflicts)) :
    ∃ state, endings.automaton.state? 3 = some state ∧
      6 ∈ endings.automaton.shiftsOn state 3 ∧
      reducesOn (endings.automaton.lookahead .slr) 3 state 3 = [0, 1] ∧
      endings.automaton.Prefers 3 3 1 .shift ∧ T.slot? 3 3 = some (.reduce 1) := by
  have hvalues : (endings.automaton.state? 3).map (fun state =>
      (endings.automaton.shiftsOn state 3,
        reducesOn (endings.automaton.lookahead .slr) 3 state 3)) = some ([6], [0, 1]) := by
    decide +kernel
  obtain ⟨state, hs, hlists⟩ := Option.map_eq_some_iff.1 hvalues
  obtain ⟨hshift, hreduces⟩ := Prod.mk.inj hlists
  have hslot : (endings.automaton.tables? .slr endings.automaton.byPrecedence []).map
      (fun r => r.1.slot? 3 3) = some (some (.reduce 1)) := by
    decide +kernel
  rw [h] at hslot
  exact ⟨state, hs, by simp [hshift], hreduces, by decide +kernel, Option.some.inj hslot⟩

/-- Behind `x` the shift of `t` is preferred to the reduce by `N →`, which is in the slot
nevertheless: the reduce by `A → x` was there first. -/
theorem slot_eq_reduce_only_if_gone_endings :
    ∃ T conflicts, endings.automaton.tables? .slr endings.automaton.byPrecedence [] =
        some (T, conflicts) ∧
      ∃ state, endings.automaton.state? 3 = some state ∧
        6 ∈ endings.automaton.shiftsOn state 3 ∧ endings.automaton.Prefers 3 3 1 .shift ∧
        T.slot? 3 3 = some (.reduce 1) ∧
        ∃ before r' after, [0, 1] = before ++ r' :: after ∧ 1 ∈ after ∧
          (∀ r'' ∈ before, endings.automaton.Defers 3 3 r'') ∧
          (endings.automaton.Prefers 3 3 r' .reduce ∧ endings.automaton.Earliest 3 (r' :: after) 1 ∨
            endings.automaton.Prefers 3 3 r' .neither) := by
  obtain ⟨T, conflicts, htables, hslots⟩ := slot_eq_reduce_only_if_gone endings .slr
  obtain ⟨state, hs, hnext, hreduces, hprefers, hslot⟩ := exists_state?_endings htables
  obtain ⟨action, haction, hgone⟩ := hslots 3 state 3 6 1 hs hnext hprefers
  rw [hreduces] at hgone
  exact ⟨T, conflicts, htables, state, hs, hnext, hprefers, hslot,
    hgone (Option.some.inj (haction.symm.trans hslot))⟩

/-- The priority of `t` is higher than that of `N →`, and there is a shift of `t`.  The slot goes to
the reduce by `N →` all the same. -/
theorem outranked_reduce_wins :
    ∃ T conflicts, endings.automaton.tables? .slr endings.automaton.byPrecedence [] =
        some (T, conflicts) ∧
      ∃ state, endings.automaton.state? 3 = some state ∧
        6 ∈ endings.automaton.shiftsOn state 3 ∧
        1 ∈ reducesOn (endings.automaton.lookahead .slr) 3 state 3 ∧
        endings.automaton.Prefers 3 3 1 .shift ∧ T.slot? 3 3 = some (.reduce 1) := by
  obtain ⟨T, conflicts, htables, -⟩ := endings.exists_chronicled_tables .slr []
  obtain ⟨state, hs, hnext, hreduces, hprefers, hslot⟩ := exists_state?_endings htables
  exact ⟨T, conflicts, htables, state, hs, hnext, by simp [hreduces], hprefers, hslot⟩

end Grammar

end SimpleLR
