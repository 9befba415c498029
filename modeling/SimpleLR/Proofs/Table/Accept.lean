import SimpleLR.Proofs.Table.History

/-!
# Where the input is accepted

There is one state in which the input can be accepted, the one behind the start symbol.  The accept
action goes into its slot for the end of the input.  No reduce pushes it out of there, but a shift
does: a grammar may have the end of the input in its productions, and if it can stand behind the
start symbol then nothing is accepted.

## Main Statements

* `Grammar.acceptItem_mem_kernel_iff` — the state in which the input can be accepted
* `Automaton.Entry.last_eq_accept_iff`, `Automaton.History.last_eq_accept_iff` — reduces do not push
  out the accept action, and do not bring it in
* `Tables.Chronicled.slot?_eq_accept_iff`, `Grammar.accept_slot_iff` — the slots that hold it
* `Grammar.next?_endOfInput_eq_none` — where no shift can push it out
* `Grammar.no_accept_slot_terminated` — a grammar that accepts nothing
-/

namespace SimpleLR

namespace Automaton

variable {g : Grammar} {a : Automaton g} {s t r : Nat} {first held last : Action}
  {reduces : List Nat} {recorded : List Conflict}

/-- The slot holds the accept action after a reduce has been entered if it held it before. -/
theorem Entry.last_eq_accept_iff (h : a.Entry s t r held last recorded) :
    last = .accept ↔ held = .accept := by
  cases h with
  | vacant => simp
  | @ranked _ _ preference => cases preference <;> simp [Preference.outcome]
  | unranked => simp
  | accept => simp
  | earlier => simp
  | later => simp

/-- The slot holds the accept action in the end if it held it first. -/
theorem History.last_eq_accept_iff (h : a.History s t first reduces last recorded) :
    last = .accept ↔ first = .accept := by
  induction h with
  | nil => rfl
  | concat _ he ih => exact he.last_eq_accept_iff.trans ih

end Automaton

namespace Grammar

open Automaton

variable {g : Grammar} {s t : Nat} {state : State}

/-! ### The state -/

/-- The item that the automaton starts with is in the initial state only. -/
theorem eq_initial_of_startItem_mem (hs : g.automaton.state? s = some state)
    (h : startItem ∈ state.kernel) : s = initial := by
  by_contra hne
  obtain ⟨s', state', x, -, hs', hnext⟩ := exists_next?_eq hs hne
  have hsuccessor : (x, state.kernel) ∈ g.successors state'.kernel :=
    mem_successors_iff.2 ⟨exists_move_of_next? hs' hnext, kernel_of_next? hs' hs hnext⟩
  exact startItem_notMem_of_mem_successors hsuccessor h

/-- **The input can be accepted in the state behind the start symbol**, and in no other state. -/
theorem acceptItem_mem_kernel_iff (hs : g.automaton.state? s = some state) :
    acceptItem ∈ state.kernel ↔ g.automaton.next? initial start = some s := by
  obtain ⟨first, hfirst, hkernel⟩ := g.state?_initial
  constructor
  · intro h
    have hne : s ≠ initial := by
      rintro rfl
      obtain rfl : first = state := Option.some.inj (hfirst.symm.trans hs)
      rw [hkernel, IdSet.mem_singleton] at h
      cases h
    obtain ⟨s', state', x, -, hs', hnext⟩ := exists_next?_eq hs hne
    rw [kernel_of_next? hs' hs hnext, mem_targetsOn_iff] at h
    -- the dot is moved over the start symbol, and this happens in the initial state only
    rcases mem_moves_iff.1 h with ⟨hstart, rfl, -⟩ | ⟨p, hp, k, i, -, -, -, hid⟩ |
      ⟨p, hp, -, -, hid⟩
    · obtain rfl := eq_initial_of_startItem_mem hs' hstart
      exact hnext
    · exact absurd rfl (itemId?_ne_augmenting hp hid).2
    · exact absurd rfl (itemId?_ne_augmenting hp hid).2
  · intro hnext
    rw [kernel_of_next? hfirst hs hnext, mem_targetsOn_iff, hkernel]
    exact mem_moves_iff.2 (Or.inl ⟨IdSet.mem_singleton.2 rfl, rfl, rfl⟩)

/-- There is a state behind the start symbol. -/
theorem exists_next?_start (g : Grammar) :
    ∃ s state, g.automaton.goto? initial start = some (some s) ∧
      g.automaton.next? initial start = some s ∧ g.automaton.state? s = some state ∧
      g.Fits [start] state.kernel := by
  obtain ⟨first, hfirst, -⟩ := g.state?_initial
  obtain ⟨s, state, hnext, hs, hfits⟩ := next?_fits hfirst (fits_initial hfirst)
    (show g.KernelItem ([] ++ [start]) acceptItem from kernelItem_acceptItem_iff.2 rfl)
  refine ⟨s, state, ?_, hnext, hs, hfits⟩
  rw [goto?_eq hfirst (g.isTerminal_eq_false g.isNonterminal_start), hnext]

/-! ### The slot -/

/-- The accept action is in a slot before the reduces if it belongs there and there is no shift. -/
theorem earlySlot_eq_accept_iff (hs : g.automaton.state? s = some state) :
    g.earlySlot s t = .accept ↔
      acceptItem ∈ state.kernel ∧ t = g.endOfInput ∧ g.automaton.next? s t = none := by
  unfold earlySlot
  rw [← acceptsIn_iff hs, hs, Option.any_some]
  cases g.automaton.next? s t with
  | some next => simp
  | none => simp

/-- No shift is on the end of the input if no production has it. -/
theorem next?_endOfInput_eq_none (h : ∀ p ∈ g.productions, g.endOfInput ∉ p.rhs)
    (hs : g.automaton.state? s = some state) {string : List Nat}
    (hk : g.Fits string state.kernel) : g.automaton.next? s g.endOfInput = none := by
  by_contra hsome
  obtain ⟨next, hnext⟩ := Option.ne_none_iff_exists'.1 hsome
  obtain ⟨j, hj⟩ := exists_move_of_next? hs hnext
  rcases ((mem_moves_iff_kernelItem hk).1 hj).last with heq | ⟨p, hp, hmem⟩
  · have hterm := g.isTerminal_endOfInput
    rw [heq, g.isTerminal_eq_false g.isNonterminal_start] at hterm
    cases hterm
  · exact h p hp hmem

end Grammar

namespace Tables

open Automaton Grammar

variable {g : Grammar} {T : Tables g} {mode : Mode} {log : List Conflict} {s t : Nat}

/-- The slots are those of the states and the terminals. -/
theorem Chronicled.exists_state? (h : T.Chronicled mode log) {action : Action}
    (hslot : T.slot? s t = some action) :
    g.isTerminal t = true ∧ ∃ state, g.automaton.state? s = some state := by
  have hlt := lt_numStates_of_slot? hslot
  rw [h.numStates] at hlt
  exact ⟨isTerminal_of_slot? hslot, _, List.getElem?_eq_getElem hlt⟩

/-- **The slots that hold the accept action**: the one for the end of the input behind the start
symbol, unless there is a shift. -/
theorem Chronicled.slot?_eq_accept_iff (h : T.Chronicled mode log) :
    T.slot? s t = some .accept ↔ g.automaton.next? initial start = some s ∧ t = g.endOfInput ∧
      g.automaton.next? s t = none := by
  constructor
  · intro hslot
    obtain ⟨ht, state, hs⟩ := h.exists_state? hslot
    obtain ⟨action, hslot', hhistory⟩ := h.slot hs ht
    obtain rfl : action = .accept := Option.some.inj (hslot'.symm.trans hslot)
    rw [← acceptItem_mem_kernel_iff hs, ← earlySlot_eq_accept_iff hs]
    exact hhistory.last_eq_accept_iff.1 rfl
  · rintro ⟨hnext, rfl, hnone⟩
    obtain ⟨s', state, -, hnext', hs, -⟩ := g.exists_next?_start
    obtain rfl : s' = s := Option.some.inj (hnext'.symm.trans hnext)
    obtain ⟨action, hslot, hhistory⟩ := h.slot hs g.isTerminal_endOfInput
    have hearly : g.earlySlot s' g.endOfInput = .accept :=
      (earlySlot_eq_accept_iff hs).2 ⟨(acceptItem_mem_kernel_iff hs).2 hnext, rfl, hnone⟩
    rw [hslot, hhistory.last_eq_accept_iff.2 hearly]

end Tables

namespace Grammar

open Automaton

/-- **There is one slot that can hold the accept action**, if contests are decided by precedence:
the one for the end of the input in the state behind the start symbol.  It holds it exactly if there
is no shift on the end of the input in this state, and there is none if no production has the end of
the input. -/
theorem accept_slot_iff (g : Grammar) (mode : Mode) (conflicts : List Conflict) :
    ∃ T conflicts', g.automaton.tables? mode g.automaton.byPrecedence conflicts =
        some (T, conflicts') ∧
      ∃ s, g.automaton.goto? initial start = some (some s) ∧
        (∀ s' t, T.slot? s' t = some .accept ↔
          s' = s ∧ t = g.endOfInput ∧ g.automaton.next? s g.endOfInput = none) ∧
        ((∀ p ∈ g.productions, g.endOfInput ∉ p.rhs) →
          g.automaton.next? s g.endOfInput = none) := by
  obtain ⟨T, log, htables, hT⟩ := g.exists_chronicled_tables mode conflicts
  obtain ⟨s, state, hgoto, hnext, hs, hfits⟩ := g.exists_next?_start
  refine ⟨T, _, htables, s, hgoto, fun s' t => ?_, fun h => next?_endOfInput_eq_none h hs hfits⟩
  rw [hT.slot?_eq_accept_iff]
  constructor
  · rintro ⟨hnext', rfl, hnone⟩
    obtain rfl : s = s' := Option.some.inj (hnext.symm.trans hnext')
    exact ⟨rfl, rfl, hnone⟩
  · rintro ⟨rfl, rfl, hnone⟩
    exact ⟨hnext, rfl, hnone⟩

/-- A repetition does not have the end of the input in its productions. -/
theorem accept_slot_iff_repetition :
    (∀ p ∈ repetition.productions, repetition.endOfInput ∉ p.rhs) ∧
      ∃ T conflicts, repetition.automaton.tables? .slr repetition.automaton.byPrecedence [] =
          some (T, conflicts) ∧
        ∃ s, repetition.automaton.goto? initial start = some (some s) ∧
          ∀ s' t, T.slot? s' t = some .accept ↔ s' = s ∧ t = 2 := by
  have hend : ∀ p ∈ repetition.productions, repetition.endOfInput ∉ p.rhs := by
    decide +kernel
  obtain ⟨T, conflicts, htables, s, hgoto, hslots, hnone⟩ := accept_slot_iff repetition .slr []
  refine ⟨hend, T, conflicts, htables, s, hgoto, fun s' t => ?_⟩
  rw [hslots, and_iff_left (hnone hend)]
  rfl

/-- What may be followed by the end of the input: `S → S $end` and `S → x`. -/
def terminated : Grammar :=
  ofWellFormed [⟨"S", none⟩, ⟨"x", none⟩, ⟨"$end", none⟩] 1 [[⟨[0, 2], none⟩, ⟨[1], none⟩]]
    ⟨by decide, by decide, by decide, by decide, by decide, by decide⟩

/-- The end of the input can stand behind the start symbol.  No slot holds the accept action then,
and there is no conflict on record either. -/
theorem no_accept_slot_terminated :
    ∃ T, terminated.automaton.tables? .slr terminated.automaton.byPrecedence [] = some (T, []) ∧
      terminated.automaton.goto? initial start = some (some 1) ∧
      T.slot? 1 terminated.endOfInput = some (.shift 3) ∧
      ∀ s t, T.slot? s t ≠ some .accept := by
  obtain ⟨T, log, htables, hT⟩ := terminated.exists_chronicled_tables .slr []
  have hvalues : ((terminated.automaton.tables? .slr terminated.automaton.byPrecedence []).map
      fun r => (r.2, r.1.slot? 1 2)) = some ([], some (.shift 3)) := by
    decide +kernel
  rw [htables, Option.map_some, Option.some.injEq, Prod.mk.injEq, List.nil_append] at hvalues
  obtain ⟨rfl, hslot⟩ := hvalues
  have hnext : terminated.automaton.next? initial start = some 1 ∧
      terminated.automaton.next? 1 terminated.endOfInput = some 3 := by
    decide +kernel
  refine ⟨T, htables, by decide +kernel, hslot, fun s t haccept => ?_⟩
  obtain ⟨hs, rfl, hnone⟩ := hT.slot?_eq_accept_iff.1 haccept
  obtain rfl : s = 1 := Option.some.inj (hs.symm.trans hnext.1)
  rw [hnext.2] at hnone
  cases hnone

end Grammar

end SimpleLR
