import SimpleLR.Proofs.Table.Contests
import SimpleLR.Table.Script

/-!
# Slots are justified and complete

A resolver is asked in the middle of the work, with the row half filled, and what it has been asked
so far may change its mind.  It may leave a slot as it is, enter the reduce, or empty the slot, and
then a later reduce enters without a contest.  Whatever a resolver of this kind decides, each slot
of the finished tables holds something that the automaton has for it: a shift into a state that is
entered on the terminal, a reduce with the terminal in its lookahead, or the accept action on the
end of the input.  A slot without candidates stays empty, and a slot with one candidate holds it.

What a resolver is asked is put on record for the other half of the statement, which is about the
questions and not about the answers: a contest between two reduces is never taken for one with a
shift or an accept, and the reduce that competes is always one of the state with the terminal in its
lookahead.

## Main Definitions

* `Resolver.recorded` — a resolver with a record of its rulings
* `Automaton.HasReduce` — a reduce of a state applies on a terminal
* `Ruling.Fair` — what a resolver may be asked
* `Tables.Justified` — what slots may hold, and what they have to hold

## Main Statements

* `Grammar.justified_of_filled` — tables with candidates in all slots are justified
* `Grammar.exists_justified_tables` — so are all tables under a resolver that decides for one of the
  two sides, or for neither, and it is asked about fair contests only
-/

namespace SimpleLR

/-- The resolver that decides as `R` does, and keeps a record of its rulings. -/
def Resolver.recorded {σ : Type} (R : Resolver σ) : Resolver (σ × List Ruling) where
  shiftReduce c st :=
    (R.shiftReduce c st.1).map fun d => (d.1, d.2, st.2 ++ [⟨.shiftReduce, c, d.1⟩])
  reduceReduce c st :=
    (R.reduceReduce c st.1).map fun d => (d.1, d.2, st.2 ++ [⟨.reduceReduce, c, d.1⟩])

/-- The kind of a contest for a slot that holds the action. -/
def Action.contestKind : Action → ConflictKind
  | .reduce _ => .reduceReduce
  | _ => .shiftReduce

theorem Resolver.decide?_recorded {σ : Type} (R : Resolver σ) (c : Contest) (st : σ)
    (rulings : List Ruling) :
    R.recorded.decide? c (st, rulings) = (R.decide? c st).map fun d =>
      (d.1, d.2, rulings ++ [⟨c.occupant.contestKind, c, d.1⟩]) := by
  obtain ⟨s, t, occupant, r⟩ := c
  cases occupant <;> rfl

theorem Resolver.follows_recorded {σ : Type} (R : Resolver σ) :
    R.recorded.Follows R Prod.fst := by
  rintro c ⟨st, rulings⟩
  rw [decide?_recorded, Option.map_map]
  exact Option.map_id'

/-- Reduce `r` is one of the reduces of state `s`, and the terminal `t` is in its lookahead. -/
def Automaton.HasReduce {g : Grammar} (a : Automaton g) (look : Lookahead) (s t r : Nat) : Prop :=
  ∃ state ts, a.state? s = some state ∧ r < state.reduces.length ∧
    look.terminals? s r = some ts ∧ t ∈ ts

/-- What a resolver may be asked. -/
structure Ruling.Fair (g : Grammar) (mode : Mode) (ruling : Ruling) : Prop where
  /-- A contest of this kind is about a slot that holds a shift or the accept action. -/
  shiftReduce : ruling.kind = .shiftReduce →
    (∃ next, ruling.contest.occupant = .shift next) ∨ ruling.contest.occupant = .accept
  /-- A contest of this kind is about a slot that holds a reduce. -/
  reduceReduce : ruling.kind = .reduceReduce → ∃ r, ruling.contest.occupant = .reduce r
  /-- The reduce that competes belongs into the slot. -/
  reduce : g.automaton.HasReduce (g.automaton.lookahead mode) ruling.contest.state
    ruling.contest.terminal ruling.contest.reduce

/-- The slots hold what the automaton has for them, nothing if it has nothing for them, and all that
it has for them if this is one action. -/
structure Tables.Justified {g : Grammar} (T : Tables g) (mode : Mode) : Prop where
  numStates : T.numStates = g.automaton.numStates
  size : ∀ s row, T.row? s = some row → row.size = g.numTerminals
  /-- A shift leads to a successor that is entered on the terminal. -/
  shift : ∀ s t next, T.slot? s t = some (.shift next) →
    ∃ state, g.automaton.state? s = some state ∧ next ∈ state.shifts ∧
      g.automaton.entryOf next = some t
  /-- A reduce is one of the state, and the terminal is in its lookahead. -/
  reduce : ∀ s t r, T.slot? s t = some (.reduce r) →
    g.automaton.HasReduce (g.automaton.lookahead mode) s t r
  /-- The input is accepted at its end, in a state that has the item for it. -/
  accept : ∀ s t, T.slot? s t = some .accept → t = g.endOfInput ∧
    ∃ state, g.automaton.state? s = some state ∧ Grammar.acceptItem ∈ state.kernel
  /-- A slot without a candidate is empty. -/
  vacant : ∀ s state t, g.automaton.state? s = some state → g.isTerminal t = true →
    g.automaton.candidates (g.automaton.lookahead mode) s t = [] → T.slot? s t = some .reject
  /-- A slot with one candidate holds it. -/
  single : ∀ s t action,
    g.automaton.candidates (g.automaton.lookahead mode) s t = [action] → T.slot? s t = some action

namespace Grammar

open Automaton

variable {g : Grammar} {σ : Type} {R : Resolver σ} {mode : Mode} {s t : Nat}

/-! ### Candidates -/

theorem hasReduce_of_mem_candidates {r : Nat}
    (h : .reduce r ∈ g.automaton.candidates (g.automaton.lookahead mode) s t) :
    g.automaton.HasReduce (g.automaton.lookahead mode) s t r := by
  obtain ⟨state, hs⟩ := exists_state?_of_mem_candidates h
  obtain ⟨p, hp, ht⟩ := (reduce_mem_candidates hs).1 h
  exact ⟨state, _, hs, lt_of_reduceProduction? hs hp, terminals?_lookahead mode hs hp, ht⟩

theorem mem_shifts_of_mem_candidates {look : Lookahead} {next : Nat}
    (h : .shift next ∈ g.automaton.candidates look s t) :
    ∃ state, g.automaton.state? s = some state ∧ next ∈ state.shifts ∧
      g.automaton.entryOf next = some t := by
  obtain ⟨state, hs⟩ := exists_state?_of_mem_candidates h
  have hon : next ∈ g.automaton.shiftsOn state t := by
    simpa using (mem_candidates_iff hs).1 h
  obtain ⟨hmem, hentry⟩ := List.mem_filter.1 hon
  exact ⟨state, hs, hmem, beq_iff_eq.1 hentry⟩

theorem acceptItem_mem_of_mem_candidates {look : Lookahead}
    (h : .accept ∈ g.automaton.candidates look s t) :
    t = g.endOfInput ∧ ∃ state, g.automaton.state? s = some state ∧ acceptItem ∈ state.kernel := by
  obtain ⟨state, hs⟩ := exists_state?_of_mem_candidates h
  obtain ⟨haccepts, ht⟩ : g.automaton.acceptsIn state = true ∧ t = g.endOfInput := by
    simpa using (mem_candidates_iff hs).1 h
  exact ⟨ht, state, hs, (acceptsIn_iff hs).1 haccepts⟩

/-- A contest between two candidates is a fair question. -/
theorem fair_of_isContest {c : Contest}
    (hc : g.automaton.IsContest (g.automaton.lookahead mode) c) (outcome : Action) :
    Ruling.Fair g mode ⟨c.occupant.contestKind, c, outcome⟩ := by
  obtain ⟨hoccupant, hreduce, -⟩ := hc
  refine ⟨fun hkind => ?_, fun hkind => ?_, hasReduce_of_mem_candidates hreduce⟩ <;>
    dsimp only at hkind ⊢
  · obtain ⟨state, hs⟩ := exists_state?_of_mem_candidates hoccupant
    rcases (mem_candidates_iff hs).1 hoccupant with ⟨h, -⟩ | ⟨next, -, h⟩ | ⟨r, -, h⟩
    · exact Or.inr h
    · exact Or.inl ⟨next, h⟩
    · rw [h] at hkind
      cases hkind
  · cases hheld : c.occupant with
    | reduce r => exact ⟨r, rfl⟩
    | reject | shift | accept =>
      rw [hheld] at hkind
      cases hkind

/-! ### Tables -/

/-- **Tables with candidates in all slots are justified.** -/
theorem justified_of_filled {T : Tables g}
    (h : T.Filled mode fun _ candidates action => action.Settles candidates) :
    T.Justified mode := by
  constructor
  case numStates => exact h.numStates
  case size => exact fun s row hrow => (h.row s row hrow).size
  case shift =>
    intro s t next hslot
    exact mem_shifts_of_mem_candidates (mem_of_settles (h.of_slot? hslot) (by simp))
  case reduce =>
    intro s t r hslot
    exact hasReduce_of_mem_candidates (mem_of_settles (h.of_slot? hslot) (by simp))
  case accept =>
    intro s t hslot
    exact acceptItem_mem_of_mem_candidates (mem_of_settles (h.of_slot? hslot) (by simp))
  case vacant =>
    intro s state t hs ht hnone
    obtain ⟨action, hslot, haction⟩ := h.slot hs ht
    rw [hnone] at haction
    rcases haction with hmem | ⟨rfl, -⟩
    · cases hmem
    · exact hslot
  case single =>
    intro s t action hone
    have hmem : action ∈ g.automaton.candidates (g.automaton.lookahead mode) s t := by simp [hone]
    obtain ⟨state, hs⟩ := exists_state?_of_mem_candidates hmem
    obtain ⟨action', hslot, haction⟩ := h.slot hs (isTerminal_of_mem_candidates hmem)
    rw [hone] at haction
    rcases haction with hmem | ⟨-, hlen⟩
    · rw [List.mem_singleton.1 hmem] at hslot
      exact hslot
    · simp at hlen

/-- **Slots are justified and complete, and contests are fair**, if the resolver decides every
contest for one of its two sides, or for neither. -/
theorem exists_justified_tables (g : Grammar) (mode : Mode) (R : Resolver σ)
    (hR : g.automaton.Confines (g.automaton.lookahead mode) R) (st : σ) :
    ∃ T st' rulings, g.automaton.tables? mode R st = some (T, st') ∧
      g.automaton.tables? mode R.recorded (st, []) = some (T, st', rulings) ∧
      T.Justified mode ∧ ∀ ruling ∈ rulings, ruling.Fair g mode := by
  have hrecorded : ∀ c (w : σ × List Ruling), (∀ ruling ∈ w.2, ruling.Fair g mode) →
      g.automaton.IsContest (g.automaton.lookahead mode) c →
      ∃ action w', R.recorded.decide? c w = some (action, w') ∧ c.Allows action ∧
        ∀ ruling ∈ w'.2, ruling.Fair g mode := by
    rintro c ⟨st, rulings⟩ hrulings hc
    obtain ⟨action, st', hdecide, hallows⟩ := hR c st hc
    refine ⟨action, (st', rulings ++ [⟨c.occupant.contestKind, c, action⟩]), ?_, hallows, ?_⟩
    · rw [Resolver.decide?_recorded, hdecide, Option.map_some]
    · rw [List.forall_mem_append, List.forall_mem_singleton]
      exact ⟨hrulings, fair_of_isContest hc action⟩
  obtain ⟨T, ⟨st', rulings⟩, htables, hrulings, hT⟩ :=
    exists_settled_tables hrecorded (st, []) (by simp)
  refine ⟨T, st', rulings, ?_, htables, justified_of_filled hT, hrulings⟩
  rw [← g.automaton.tables?_of_follows R.follows_recorded mode (st, []), htables]
  rfl

/-- The word `x` in three readings, and the word `x y`: `S := A`, `S := B`, `S := C`, `S := A y`,
`A := x`, `B := x` and `C := x`. -/
def readings : Grammar :=
  ofWellFormed [⟨"S", none⟩, ⟨"A", none⟩, ⟨"B", none⟩, ⟨"C", none⟩, ⟨"x", none⟩, ⟨"y", none⟩,
      ⟨"$end", none⟩] 4
    [[⟨[1], none⟩, ⟨[2], none⟩, ⟨[3], none⟩, ⟨[1, 5], none⟩], [⟨[4], none⟩], [⟨[4], none⟩],
      [⟨[4], none⟩]]
    ⟨by decide, by decide, by decide, by decide, by decide, by decide⟩

/-- The resolver that empties the slot in every contest, and counts the contests. -/
def emptying : Resolver Nat where
  shiftReduce _ count := some (.reject, count + 1)
  reduceReduce _ count := some (.reject, count + 1)

/-- Without lookahead there is a contest behind `A`, about the shift of `y`, and behind `x` there
are three reduces for each slot.  The second empties the slot, so the third enters it without a
contest. -/
theorem exists_justified_tables_readings :
    readings.automaton.Confines (readings.automaton.lookahead .lr0) emptying ∧
      ∃ T rulings, readings.automaton.tables? .lr0 emptying 0 = some (T, 4) ∧
        readings.automaton.tables? .lr0 emptying.recorded (0, []) = some (T, 4, rulings) ∧
        (T.Justified .lr0 ∧ T.slot? 2 5 = some .reject ∧ T.slot? 5 6 = some (.reduce 2)) ∧
        (∀ ruling ∈ rulings, ruling.Fair readings .lr0) ∧
        rulings.map (·.kind) = [.shiftReduce, .reduceReduce, .reduceReduce, .reduceReduce] := by
  have hempties : readings.automaton.Confines (readings.automaton.lookahead .lr0) emptying := by
    intro c count _
    refine ⟨.reject, count + 1, ?_, Or.inr (Or.inr rfl)⟩
    unfold Resolver.decide?
    split <;> rfl
  obtain ⟨T, count, rulings, htables, hrecorded, hT, hfair⟩ :=
    exists_justified_tables readings .lr0 emptying hempties 0
  have hrun : ((readings.automaton.tables? .lr0 emptying.recorded (0, [])).map fun r =>
      (r.2.1, r.1.slot? 2 5, r.1.slot? 5 6, r.2.2.map (·.kind))) =
      some (4, some .reject, some (.reduce 2),
        [.shiftReduce, .reduceReduce, .reduceReduce, .reduceReduce]) := by
    decide +kernel
  rw [hrecorded, Option.map_some, Option.some.injEq] at hrun
  simp only [Prod.mk.injEq] at hrun
  obtain ⟨rfl, hshift, hrefilled, hkinds⟩ := hrun
  exact ⟨hempties, T, rulings, htables, hrecorded, ⟨hT, hshift, hrefilled⟩, hfair, hkinds⟩

end Grammar

end SimpleLR
