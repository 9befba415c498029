import SimpleLR.Proofs.Table.Contests

/-!
# How a slot comes to hold what it holds

When contests are decided by precedence, a slot has a history.  It begins with the shift or the
accept action, if there is one, and then the reduces on the terminal are entered in turn.  Each
finds something in the slot, leaves something there, and may leave a conflict on record.  Slots do
not interfere with each other.  So what a slot holds in the end, and which conflicts are recorded
about it, depends on its own history only, and a law about the outcome of contests is proved by
going through the history of one slot.

## Main Definitions

* `Automaton.Entry` — what entering one reduce does to a slot
* `Automaton.History` — what entering reduces in turn does
* `Grammar.earlySlot` — what a slot holds before the reduces
* `Grammar.RowHistory` — a row of which all slots have a history
* `Tables.Chronicled` — all slots have a history, and the conflicts are those of the histories

## Main Statements

* `Grammar.exists_entry` — one reduce
* `Grammar.exists_fillRow?_history`, `Grammar.exists_fillRows?_history` — the rows
* `Grammar.exists_chronicled_tables` — the tables
-/

namespace SimpleLR

/-- What is left in a slot if precedences decide between what it holds and a reduce. -/
def Preference.outcome (occupant incoming : Action) : Preference → Action
  | .shift => occupant
  | .reduce => incoming
  | .neither => .reject

/-- The conflict is about the slot of state `s` and terminal `t`. -/
def Conflict.isAt (c : Conflict) (s t : Nat) : Bool := c.terminal == t && c.state == s

namespace Automaton

variable {g : Grammar}

/-- What entering reduce `r` of state `s` for the terminal `t` does: what the slot holds before it,
what the slot holds after it, and which conflicts are recorded. -/
inductive Entry (a : Automaton g) (s t r : Nat) : Action → Action → List Conflict → Prop where
  /-- The slot is empty and gets the reduce. -/
  | vacant : Entry a s t r .reject (.reduce r) []
  /-- Precedences decide between a shift and the reduce. -/
  | ranked {next : Nat} {p : Production} {preference : Preference}
      (hp : a.reduceProduction? s r = some p)
      (hc : compare? (g.symbolPrecedence t) (g.precedenceOf p) = some preference) :
      Entry a s t r (.shift next) (preference.outcome (.shift next) (.reduce r)) []
  /-- The shift stays because a precedence is missing. -/
  | unranked {next : Nat} {p : Production} (hp : a.reduceProduction? s r = some p)
      (hc : compare? (g.symbolPrecedence t) (g.precedenceOf p) = none) :
      Entry a s t r (.shift next) (.shift next)
        [⟨s, t, .shiftReduce, .shift next, .reduce r⟩]
  /-- The accept action stays. -/
  | accept : Entry a s t r .accept .accept [⟨s, t, .shiftReduce, .accept, .reduce r⟩]
  /-- The reduce comes before the one in the slot. -/
  | earlier {r' : Nat} {p q : Production} (hp : a.reduceProduction? s r = some p)
      (hq : a.reduceProduction? s r' = some q) (h : p.seq < q.seq) :
      Entry a s t r (.reduce r') (.reduce r)
        [⟨s, t, .reduceReduce, .reduce r, .reduce r'⟩]
  /-- The reduce does not come before the one in the slot. -/
  | later {r' : Nat} {p q : Production} (hp : a.reduceProduction? s r = some p)
      (hq : a.reduceProduction? s r' = some q) (h : q.seq ≤ p.seq) :
      Entry a s t r (.reduce r') (.reduce r')
        [⟨s, t, .reduceReduce, .reduce r', .reduce r⟩]

/-- What entering reduces of state `s` for the terminal `t` in turn does to a slot that holds
`first` before: the reduces, what the slot holds after them, and the conflicts that are recorded. -/
inductive History (a : Automaton g) (s t : Nat) (first : Action) :
    List Nat → Action → List Conflict → Prop where
  /-- Nothing has been entered. -/
  | nil : History a s t first [] first []
  /-- One more reduce is entered. -/
  | concat {reduces : List Nat} {r : Nat} {held last : Action} {recorded more : List Conflict}
      (h : History a s t first reduces held recorded) (he : a.Entry s t r held last more) :
      History a s t first (reduces ++ [r]) last (recorded ++ more)

variable {a : Automaton g} {s t r : Nat} {first held last : Action} {reduces : List Nat}
  {recorded : List Conflict}

/-- A slot keeps what it holds, or gets the reduce, or is empty afterwards. -/
theorem Entry.last_cases (h : a.Entry s t r held last recorded) :
    last = held ∨ last = .reduce r ∨ last = .reject := by
  cases h with
  | vacant => exact Or.inr (Or.inl rfl)
  | @ranked _ _ preference _ _ =>
    cases preference with
    | shift => exact Or.inl rfl
    | reduce => exact Or.inr (Or.inl rfl)
    | neither => exact Or.inr (Or.inr rfl)
  | unranked => exact Or.inl rfl
  | accept => exact Or.inl rfl
  | earlier => exact Or.inr (Or.inl rfl)
  | later => exact Or.inl rfl

/-- What is recorded is about the slot. -/
theorem Entry.recorded_at (h : a.Entry s t r held last recorded) :
    ∀ c ∈ recorded, c.state = s ∧ c.terminal = t := by
  cases h <;> simp

/-- A slot keeps what it held first, or gets one of the reduces, or is empty in the end. -/
theorem History.last_cases (h : a.History s t first reduces last recorded) :
    last = first ∨ (∃ r ∈ reduces, last = .reduce r) ∨ last = .reject := by
  induction h with
  | nil => exact Or.inl rfl
  | @concat reduces r held last _ _ _ he ih =>
    rcases he.last_cases with rfl | rfl | rfl
    · rcases ih with hfirst | ⟨r', hr', hlast⟩ | hreject
      · exact Or.inl hfirst
      · exact Or.inr (Or.inl ⟨r', List.mem_append_left _ hr', hlast⟩)
      · exact Or.inr (Or.inr hreject)
    · exact Or.inr (Or.inl ⟨r, by simp, rfl⟩)
    · exact Or.inr (Or.inr rfl)

/-- A reduce in the slot is one of those that were entered, if there was none at first. -/
theorem History.mem_of_last_eq (h : a.History s t first reduces last recorded)
    (hfirst : ∀ r, first ≠ .reduce r) (hlast : last = .reduce r) : r ∈ reduces := by
  rcases h.last_cases with rfl | ⟨r', hr', heq⟩ | rfl
  · exact absurd hlast (hfirst r)
  · rw [Action.reduce.inj (hlast.symm.trans heq)]
    exact hr'
  · cases hlast

end Automaton

/-- What the slot of state `s` and terminal `t` holds before the reduces: the shift on the terminal
if there is one, and otherwise the accept action if it belongs there. -/
def Grammar.earlySlot (g : Grammar) (s t : Nat) : Action :=
  match g.automaton.next? s t with
  | some next => .shift next
  | none =>
    if (g.automaton.state? s).any g.automaton.acceptsIn && t == g.endOfInput then .accept
    else .reject

/-- All slots of the tables have a history, and what is recorded in the histories is the log. -/
structure Tables.Chronicled {g : Grammar} (T : Tables g) (mode : Mode) (log : List Conflict) :
    Prop where
  numStates : T.numStates = g.automaton.numStates
  slot : ∀ {s : Nat} {state : State} {t : Nat}, g.automaton.state? s = some state →
    g.isTerminal t = true → ∃ action, T.slot? s t = some action ∧
      g.automaton.History s t (g.earlySlot s t)
        (Automaton.reducesOn (g.automaton.lookahead mode) s state t) action
        (log.filter (·.isAt s t))
  conflict : ∀ c ∈ log, g.isTerminal c.terminal = true ∧
    ∃ state, g.automaton.state? c.state = some state

namespace Grammar

open Automaton

variable {g : Grammar} {s t r : Nat} {state : State} {mode : Mode}

/-! ### Before the reduces -/

theorem shiftRow_slot_eq (hs : g.automaton.state? s = some state) (ht : g.isTerminal t = true) :
    (g.automaton.shiftRow state)[g.column t]? = some (g.earlySlot s t) := by
  obtain ⟨hsize, haccept⟩ := g.acceptRow_spec state
  obtain ⟨-, hslots⟩ := foldl_enterShift (fun next h => exists_entryOf hs h) hsize
  have hshifts := shiftsOn_eq hs ht
  unfold shiftsOn at hshifts
  unfold earlySlot
  rcases hslots t ht with ⟨hnone, hslot⟩ | ⟨next, hnext, hslot⟩
  · rw [hshifts, Option.toList_eq_nil_iff] at hnone
    rw [hnone, hs, Option.any_some]
    exact hslot.trans (haccept t ht)
  · rw [hshifts, Option.mem_toList] at hnext
    rw [show g.automaton.next? s t = some next from hnext]
    exact hslot

/-- No reduce is in a slot before the reduces. -/
theorem earlySlot_ne_reduce (r : Nat) : g.earlySlot s t ≠ .reduce r := by
  unfold earlySlot
  split
  · simp
  · split <;> simp

/-- The shift on a terminal is the first in its slot. -/
theorem earlySlot_of_mem_shiftsOn {next : Nat}
    (hs : g.automaton.state? s = some state) (ht : g.isTerminal t = true)
    (h : next ∈ g.automaton.shiftsOn state t) : g.earlySlot s t = .shift next := by
  rw [shiftsOn_eq hs ht, Option.mem_toList] at h
  unfold earlySlot
  rw [show g.automaton.next? s t = some next from h]

/-! ### Entering one reduce -/

/-- **Entering one reduce** does to its slot what an entry does, and leaves the other slots
alone. -/
theorem exists_entry {row : Row} {held : Action} (hslot : row[g.column t]? = some held)
    {p : Production} (hp : g.automaton.reduceProduction? s r = some p)
    (hheld : ∀ r', held = .reduce r' → ∃ q, g.automaton.reduceProduction? s r' = some q)
    (conflicts : List Conflict) :
    ∃ last recorded, offer? g g.automaton.byPrecedence s r (row, conflicts) t =
        some (g.enter row t last, conflicts ++ recorded) ∧
      g.automaton.Entry s t r held last recorded := by
  unfold offer?
  dsimp only
  cases held with
  | reject =>
    refine ⟨_, [], ?_, .vacant⟩
    rw [hslot, List.append_nil]
  | accept =>
    refine ⟨_, _, ?_, .accept⟩
    rw [hslot]
    rfl
  | shift next =>
    rw [hslot]
    simp only [Resolver.decide?, byPrecedence, resolveShiftReduce, hp, Option.map_some]
    cases hc : compare? (g.symbolPrecedence t) (g.precedenceOf p) with
    | none => exact ⟨_, _, rfl, .unranked hp hc⟩
    | some preference =>
      refine ⟨_, [], ?_, .ranked hp hc⟩
      rw [List.append_nil]
      cases preference <;> rfl
  | reduce r' =>
    obtain ⟨q, hq⟩ := hheld r' rfl
    rw [hslot]
    simp only [Resolver.decide?, byPrecedence, resolveReduceReduce, earlierReduce?, hp, hq,
      Option.bind_eq_bind, Option.bind_some]
    by_cases hlt : p.seq < q.seq
    · rw [if_pos hlt]
      exact ⟨_, _, rfl, .earlier hp hq hlt⟩
    · rw [if_neg hlt]
      exact ⟨_, _, rfl, .later hp hq (Nat.le_of_not_lt hlt)⟩

/-! ### Rows -/

/-- The row of state `s` when the reduces in `done` have been entered, and what has been
recorded. -/
structure RowHistory (g : Grammar) (s : Nat) (done : List (Nat × Nat)) (row : Row)
    (log : List Conflict) : Prop where
  size : row.size = g.numTerminals
  slot : ∀ t, g.isTerminal t = true → ∃ action, row[g.column t]? = some action ∧
    g.automaton.History s t (g.earlySlot s t) ((done.filter fun o => o.2 == t).map (·.1)) action
      (log.filter fun c => c.terminal == t)
  conflict : ∀ c ∈ log, c.state = s ∧ g.isTerminal c.terminal = true

/-- A row into which one more reduce has been entered. -/
theorem RowHistory.concat {done : List (Nat × Nat)} {row : Row} {log recorded : List Conflict}
    {held last : Action} (h : RowHistory g s done row log) (hterm : g.isTerminal t = true)
    (hslot : row[g.column t]? = some held) (he : g.automaton.Entry s t r held last recorded) :
    RowHistory g s (done ++ [(r, t)]) (g.enter row t last) (log ++ recorded) := by
  refine ⟨by rw [size_enter, h.size], fun t' ht' => ?_, fun c hc => ?_⟩
  · by_cases htt : t = t'
    · subst htt
      obtain ⟨held', hslot', hhistory⟩ := h.slot t hterm
      obtain rfl : held' = held := Option.some.inj (hslot'.symm.trans hslot)
      have hrecorded : recorded.filter (fun c => c.terminal == t) = recorded :=
        List.filter_eq_self.2 fun c hc => by simpa using (he.recorded_at c hc).2
      refine ⟨last, enter_self h.size hterm last, ?_⟩
      rw [List.filter_append, List.filter_append, hrecorded]
      simpa using hhistory.concat he
    · -- the slot of another terminal has the same history as before
      have hnone : recorded.filter (fun c => c.terminal == t') = [] :=
        List.filter_eq_nil_iff.2 fun c hc => by
          rw [(he.recorded_at c hc).2]
          simpa using htt
      rw [enter_of_ne row hterm ht' htt, List.filter_append, List.filter_append, hnone,
        List.filter_cons_of_neg (by simpa using htt), List.filter_nil, List.append_nil,
        List.append_nil]
      exact h.slot t' ht'
  · rcases List.mem_append.1 hc with hold | hnew
    · exact h.conflict c hold
    · obtain ⟨hstate, rfl⟩ := he.recorded_at c hnew
      exact ⟨hstate, hterm⟩

/-- Entering one more reduce. -/
theorem RowHistory.offer? (hs : g.automaton.state? s = some state) {done rest : List (Nat × Nat)}
    {row : Row} {log : List Conflict} (h : RowHistory g s done row log)
    (hoffers : g.offers mode s state = done ++ (r, t) :: rest) (conflicts : List Conflict) :
    ∃ row' log', Automaton.offer? g g.automaton.byPrecedence s r (row, conflicts ++ log) t =
        some (row', conflicts ++ log') ∧ RowHistory g s (done ++ [(r, t)]) row' log' := by
  obtain ⟨p, hp, ht⟩ := (mem_offers_iff hs).1
    (show (r, t) ∈ g.offers mode s state by simp [hoffers])
  have hterm := isTerminal_of_mem_lookaheadOf ht
  obtain ⟨held, hslot, hhistory⟩ := h.slot t hterm
  -- a reduce in the slot has been entered before, so it is a reduce of the state
  have hheld : ∀ r', held = .reduce r' → ∃ q, g.automaton.reduceProduction? s r' = some q := by
    intro r' hr'
    obtain ⟨o, ho, rfl⟩ := List.mem_map.1 (hhistory.mem_of_last_eq earlySlot_ne_reduce hr')
    have hmem : o ∈ g.offers mode s state := by
      rw [hoffers]
      exact List.mem_append_left _ (List.mem_filter.1 ho).1
    obtain ⟨q, hq, -⟩ := (mem_offers_iff hs).1 hmem
    exact ⟨q, hq⟩
  obtain ⟨last, recorded, hoffer, he⟩ := exists_entry hslot hp hheld (conflicts ++ log)
  refine ⟨_, log ++ recorded, ?_, h.concat hterm hslot he⟩
  rw [hoffer, List.append_assoc]

/-- **The row of a state.** -/
theorem exists_fillRow?_history (hs : g.automaton.state? s = some state) (mode : Mode)
    (conflicts : List Conflict) :
    ∃ row log, g.automaton.fillRow? (g.automaton.lookahead mode) g.automaton.byPrecedence s state
        conflicts = some (row, conflicts ++ log) ∧
      RowHistory g s (g.offers mode s state) row log := by
  have hstart : RowHistory g s [] (g.automaton.shiftRow state) [] :=
    ⟨(shiftRow_spec hs).1, fun t ht => ⟨_, shiftRow_slot_eq hs ht, .nil⟩, by simp⟩
  have hstep : ∀ done (o : Nat × Nat) rest (w : Row × List Conflict),
      g.offers mode s state = done ++ o :: rest →
      (∃ log, w.2 = conflicts ++ log ∧ RowHistory g s done w.1 log) →
        ∃ w', Automaton.offer? g g.automaton.byPrecedence s o.1 w o.2 = some w' ∧
          ∃ log, w'.2 = conflicts ++ log ∧ RowHistory g s (done ++ [o]) w'.1 log := by
    rintro done ⟨r, t⟩ rest ⟨row, _⟩ hoffers ⟨log, rfl, hrow⟩
    obtain ⟨row', log', hoffer, hrow'⟩ := hrow.offer? hs hoffers conflicts
    exact ⟨_, hoffer, log', rfl, hrow'⟩
  obtain ⟨⟨row, _⟩, hfold, log, rfl, hrow⟩ := foldlM_inv
    (fun done (w : Row × List Conflict) => ∃ log, w.2 = conflicts ++ log ∧
      RowHistory g s done w.1 log) hstep
    (b := (g.automaton.shiftRow state, conflicts)) ⟨[], by simp, hstart⟩
  exact ⟨row, log, by rw [fillRow?_eq hs, hfold], hrow⟩

/-- **The rows of states from number `s` on.** -/
theorem exists_fillRows?_history {states : List State}
    (hs : ∀ i state, states[i]? = some state → g.automaton.state? (s + i) = some state)
    (mode : Mode) (conflicts : List Conflict) :
    ∃ rows log, g.automaton.fillRows? (g.automaton.lookahead mode) g.automaton.byPrecedence s
        states conflicts = some (rows, conflicts ++ log) ∧
      (∀ c ∈ log, s ≤ c.state ∧ c.state < s + states.length ∧ g.isTerminal c.terminal = true) ∧
      ∀ i state, states[i]? = some state → ∃ row, rows[i]? = some row ∧
        RowHistory g (s + i) (g.offers mode (s + i) state) row
          (log.filter fun c => c.state == s + i) := by
  induction states generalizing s conflicts with
  | nil => exact ⟨[], [], by simp [fillRows?], by simp, by simp⟩
  | cons state states ih =>
    obtain ⟨row, log, hfill, hrow⟩ := exists_fillRow?_history (hs 0 state rfl) mode conflicts
    obtain ⟨rows, logs, hrest, hlogs, hrows⟩ := ih (s := s + 1) (fun i state h => by
      rw [Nat.add_right_comm, Nat.add_assoc]
      exact hs (i + 1) state h) (conflicts ++ log)
    rw [Nat.add_zero] at hfill hrow
    refine ⟨row :: rows, log ++ logs, ?_, fun c hc => ?_, fun i state' hi => ?_⟩
    · simp only [fillRows?, hfill, hrest, Option.bind_eq_bind, Option.bind_some, Option.pure_def,
        List.append_assoc]
    · rw [List.length_cons]
      rcases List.mem_append.1 hc with hc | hc
      · obtain ⟨hstate, hterm⟩ := hrow.conflict c hc
        exact ⟨by omega, by omega, hterm⟩
      · obtain ⟨hge, hlt, hterm⟩ := hlogs c hc
        exact ⟨by omega, by omega, hterm⟩
    · rw [List.filter_append]
      cases i with
      | zero =>
        -- what is recorded from the next state on is not about this one
        have hlog : log.filter (fun c => c.state == s + 0) = log :=
          List.filter_eq_self.2 fun c hc => by simpa using (hrow.conflict c hc).1
        have hnone : logs.filter (fun c => c.state == s + 0) = [] :=
          List.filter_eq_nil_iff.2 fun c hc => by
            have hge := (hlogs c hc).1
            simp only [beq_iff_eq]
            omega
        obtain rfl : state = state' := Option.some.inj hi
        rw [hlog, hnone, List.append_nil]
        exact ⟨row, rfl, hrow⟩
      | succ i =>
        have hnone : log.filter (fun c => c.state == s + (i + 1)) = [] :=
          List.filter_eq_nil_iff.2 fun c hc => by
            have hstate := (hrow.conflict c hc).1
            simp only [beq_iff_eq]
            omega
        have hnumber : s + (i + 1) = s + 1 + i := by omega
        rw [hnone, List.nil_append, hnumber]
        exact hrows i state' hi

/-! ### Tables -/

/-- The reduces that are entered for a terminal. -/
theorem offers_on (hs : g.automaton.state? s = some state) (mode : Mode) (t : Nat) :
    ((g.offers mode s state).filter fun o => o.2 == t).map (·.1) =
      reducesOn (g.automaton.lookahead mode) s state t := by
  have h := entered_offers hs mode t
  rw [candidates, hs] at h
  have hmap := List.append_cancel_left h
  refine List.map_injective_iff.2 (fun _ _ => Action.reduce.inj) ?_
  rw [List.map_map]
  exact hmap

/-- There is one row for each state. -/
theorem length_of_fillRows? {σ : Type} {look : Lookahead} {R : Resolver σ} {states : List State}
    {st : σ} {filled : List Row × σ}
    (h : g.automaton.fillRows? look R s states st = some filled) :
    filled.1.length = states.length := by
  induction states generalizing s st filled with
  | nil =>
    obtain rfl : ([], st) = filled := Option.some.inj h
    rfl
  | cons state states ih =>
    obtain ⟨row, -, h⟩ := Option.bind_eq_some_iff.1 h
    obtain ⟨rest, hrest, h⟩ := Option.bind_eq_some_iff.1 h
    obtain rfl : (row.1 :: rest.1, rest.2) = filled := Option.some.inj h
    rw [List.length_cons, List.length_cons, ih hrest]

/-- **The tables are defined, and all their slots have a history**, if contests are decided by
precedence. -/
theorem exists_chronicled_tables (g : Grammar) (mode : Mode) (conflicts : List Conflict) :
    ∃ T log, g.automaton.tables? mode g.automaton.byPrecedence conflicts =
        some (T, conflicts ++ log) ∧ T.Chronicled mode log := by
  obtain ⟨T, conflicts', htables, -⟩ :=
    exists_faithful_tables mode (confines_byPrecedence (g := g) mode) conflicts
  obtain ⟨rows, log, hfill, hlog, hrows⟩ :=
    exists_fillRows?_history (g := g) state?_initial_add mode conflicts
  obtain ⟨rfl, rfl⟩ := Prod.mk.inj
    (Option.some.inj (hfill.symm.trans (g.automaton.fillRows?_of_tables? htables)))
  refine ⟨T, log, htables, length_of_fillRows? hfill, fun {s state t} hs ht => ?_, fun c hc => ?_⟩
  · obtain ⟨row, hrow, hhistory⟩ := hrows s state hs
    rw [initial, Nat.zero_add] at hhistory
    obtain ⟨action, hslot, hentries⟩ := hhistory.slot t ht
    rw [offers_on hs, List.filter_filter] at hentries
    exact ⟨action, (Tables.slot?_of_row? hrow ht).trans hslot, hentries⟩
  · obtain ⟨-, hlt, hterm⟩ := hlog c hc
    rw [initial, Nat.zero_add] at hlt
    exact ⟨hterm, _, List.getElem?_eq_getElem hlt⟩

end Grammar

end SimpleLR
