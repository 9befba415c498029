import SimpleLR.Proofs.Table.Candidates

/-!
# The slots hold candidates

A row is filled by entering one candidate after the other, and each enters its slot, loses a
contest, or wins one.  So whatever has been entered so far, the slot holds one of it, or nothing;
and it holds nothing only if nothing has been entered or there was a contest.  A resolver has a say
about two different candidates only.  If it decides for one of them, or for neither, then the tables
are defined and all their slots hold candidates.

How a row is filled is followed only once, for any condition on what slots may hold.  A resolver has
to uphold the condition in every contest that can come up, whatever it has decided before.

## Main Definitions

* `Action.Settles` — an action that a slot with given candidates may hold
* `Grammar.Upholds` — a resolver upholds a condition on what the slots of a state may hold
* `Tables.Filled` — tables with such actions in all slots
* `Tables.Faithful` — tables for the automaton of a grammar with candidates in all slots

## Main Statements

* `Grammar.fillRow?_spec`, `Grammar.fillRows?_inv` — the rows
* `Grammar.exists_filled_tables` — the tables, for any condition
* `Grammar.exists_settled_tables_of_confines`, `Grammar.exists_faithful_tables` — the tables, with
  candidates in all slots
-/

namespace SimpleLR

/-- One of the candidates, or nothing if there is not exactly one. -/
def Action.Settles (action : Action) (candidates : List Action) : Prop :=
  action ∈ candidates ∨ action = .reject ∧ candidates.length ≠ 1

/-- The tables are for the automaton of the grammar, and every slot holds one of its candidates, or
nothing if there is not exactly one. -/
structure Tables.Faithful {g : Grammar} (T : Tables g) (mode : Mode) : Prop where
  automaton : T.automaton = g.automaton
  slot : ∀ {s : Nat} {state : State} {t : Nat}, g.automaton.state? s = some state →
    g.isTerminal t = true → ∃ action, T.slot? s t = some action ∧
      action.Settles (g.automaton.candidates (g.automaton.lookahead mode) s t)

theorem Tables.slot?_of_row? {g : Grammar} {T : Tables g} {s t : Nat} {row : Row}
    (hrow : T.row? s = some row) (ht : g.isTerminal t = true) :
    T.slot? s t = row[g.column t]? := by
  rw [slot?, if_pos ht, hrow, Option.bind_some]

/-- There are slots for terminals only. -/
theorem Tables.isTerminal_of_slot? {g : Grammar} {T : Tables g} {s t : Nat} {action : Action}
    (h : T.slot? s t = some action) : g.isTerminal t = true := by
  by_contra ht
  rw [slot?, if_neg ht] at h
  cases h

/-- There are slots in rows only. -/
theorem Tables.lt_numStates_of_slot? {g : Grammar} {T : Tables g} {s t : Nat} {action : Action}
    (h : T.slot? s t = some action) : s < T.numStates := by
  rw [slot?, if_pos (isTerminal_of_slot? h)] at h
  obtain ⟨row, hrow, -⟩ := Option.bind_eq_some_iff.1 h
  exact (List.getElem?_eq_some_iff.1 hrow).1

namespace Grammar

open Automaton

variable {g : Grammar}

/-! ### Entering actions -/

theorem column_lt {t : Nat} (ht : g.isTerminal t = true) : g.column t < g.numTerminals := by
  have h := g.isTerminal_iff.1 ht
  unfold column numTerminals
  unfold numSymbols at h
  omega

theorem column_inj {t t' : Nat} (ht : g.isTerminal t = true) (ht' : g.isTerminal t' = true)
    (h : g.column t = g.column t') : t = t' := by
  have h₁ := (g.isTerminal_iff.1 ht).1
  have h₂ := (g.isTerminal_iff.1 ht').1
  unfold column at h
  omega

@[simp] theorem size_enter (row : Row) (t : Nat) (action : Action) :
    (g.enter row t action).size = row.size := by
  unfold enter
  exact Array.size_setIfInBounds

theorem enter_self {row : Row} (hrow : row.size = g.numTerminals) {t : Nat}
    (ht : g.isTerminal t = true) (action : Action) :
    (g.enter row t action)[g.column t]? = some action :=
  Array.getElem?_setIfInBounds_self_of_lt (hrow ▸ column_lt ht)

theorem enter_of_ne (row : Row) {t t' : Nat} (ht : g.isTerminal t = true)
    (ht' : g.isTerminal t' = true) (hne : t ≠ t') (action : Action) :
    (g.enter row t action)[g.column t']? = row[g.column t']? :=
  Array.getElem?_setIfInBounds_ne fun h => hne (column_inj ht ht' h)

theorem emptyRow_slot {t : Nat} (ht : g.isTerminal t = true) :
    g.emptyRow[g.column t]? = some .reject := by
  unfold emptyRow
  rw [Array.getElem?_replicate, if_pos (column_lt ht)]

/-! ### Rows before the reduces -/

variable {s : Nat} {state : State}

/-- Entering shifts: a slot keeps what it holds or gets one of the shifts on its terminal. -/
theorem foldl_enterShift {shifts : List Nat}
    (hshifts : ∀ next ∈ shifts,
      ∃ t, g.automaton.entryOf next = some t ∧ g.isTerminal t = true)
    {row : Row} (hrow : row.size = g.numTerminals) :
    (shifts.foldl g.automaton.enterShift row).size = g.numTerminals ∧
      ∀ t, g.isTerminal t = true →
        (shifts.filter (fun next => g.automaton.entryOf next == some t) = [] ∧
          (shifts.foldl g.automaton.enterShift row)[g.column t]? = row[g.column t]?) ∨
        ∃ next ∈ shifts.filter fun next => g.automaton.entryOf next == some t,
          (shifts.foldl g.automaton.enterShift row)[g.column t]? = some (.shift next) := by
  induction shifts generalizing row with
  | nil => exact ⟨hrow, fun t _ => Or.inl ⟨rfl, rfl⟩⟩
  | cons next shifts ih =>
    rw [List.forall_mem_cons] at hshifts
    obtain ⟨⟨x, hx, hterm⟩, hshifts⟩ := hshifts
    have henter : g.automaton.enterShift row next = g.enter row x (.shift next) := by
      rw [enterShift, hx]
    have hsize : (g.enter row x (.shift next)).size = g.numTerminals := by
      rw [size_enter, hrow]
    obtain ⟨hsize', hslots⟩ := ih hshifts hsize
    rw [List.foldl_cons, henter]
    refine ⟨hsize', fun t ht => ?_⟩
    by_cases hxt : x = t
    · subst hxt
      refine Or.inr ?_
      rcases hslots x ht with ⟨-, hslot⟩ | ⟨later, hlater, hslot⟩
      · rw [enter_self hrow ht] at hslot
        exact ⟨next, List.mem_filter.2 ⟨List.mem_cons_self, by simp [hx]⟩, hslot⟩
      · refine ⟨later, ?_, hslot⟩
        obtain ⟨hmem, hentry⟩ := List.mem_filter.1 hlater
        exact List.mem_filter.2 ⟨List.mem_cons_of_mem next hmem, hentry⟩
    · have hfilter : (next :: shifts).filter (fun next => g.automaton.entryOf next == some t) =
          shifts.filter fun next => g.automaton.entryOf next == some t := by
        rw [List.filter_cons_of_neg (by simpa [hx] using hxt)]
      rw [hfilter, ← enter_of_ne row hterm ht hxt (.shift next)]
      exact hslots t ht

/-- The candidates for a slot before any reduce is entered. -/
def earlyCandidates (g : Grammar) (state : State) (t : Nat) : List Action :=
  (if g.automaton.acceptsIn state && t == g.endOfInput then [.accept] else []) ++
    (g.automaton.shiftsOn state t).map .shift

theorem acceptRow_spec (state : State) :
    (g.automaton.acceptRow state).size = g.numTerminals ∧
      ∀ t, g.isTerminal t = true → (g.automaton.acceptRow state)[g.column t]? =
        some (if g.automaton.acceptsIn state && t == g.endOfInput then .accept else .reject) := by
  have hempty : g.emptyRow.size = g.numTerminals := by simp [emptyRow]
  unfold acceptRow
  cases haccept : g.automaton.acceptsIn state with
  | false => exact ⟨hempty, fun t ht => emptyRow_slot ht⟩
  | true =>
    refine ⟨by simpa using hempty, fun t ht => ?_⟩
    rw [if_pos rfl, Bool.true_and]
    by_cases h : t = g.endOfInput
    · rw [h, enter_self hempty g.isTerminal_endOfInput]
      simp
    · rw [enter_of_ne _ g.isTerminal_endOfInput ht (Ne.symm h), emptyRow_slot ht]
      simp [h]

theorem shiftRow_spec (hs : g.automaton.state? s = some state) :
    (g.automaton.shiftRow state).size = g.numTerminals ∧
      ∀ t, g.isTerminal t = true → ∃ action,
        (g.automaton.shiftRow state)[g.column t]? = some action ∧
          (action ∈ g.earlyCandidates state t ∨
            action = .reject ∧ g.earlyCandidates state t = []) := by
  obtain ⟨hsize, haccept⟩ := g.acceptRow_spec state
  obtain ⟨hsize', hslots⟩ := foldl_enterShift (fun next h => exists_entryOf hs h) hsize
  refine ⟨hsize', fun t ht => ?_⟩
  rcases hslots t ht with ⟨hnone, hslot⟩ | ⟨next, hnext, hslot⟩
  · rw [haccept t ht] at hslot
    refine ⟨_, hslot, ?_⟩
    unfold earlyCandidates shiftsOn
    rw [hnone, List.map_nil, List.append_nil]
    split
    · exact Or.inl (List.mem_singleton.2 rfl)
    · exact Or.inr ⟨rfl, rfl⟩
  · exact ⟨_, hslot, Or.inl (List.mem_append_right _ (List.mem_map.2 ⟨next, hnext, rfl⟩))⟩

/-! ### Entering the reduces -/

/-- An invariant of the elements done so far that every element keeps holds in the end. -/
theorem foldlM_inv {α β : Type} {f : β → α → Option β} {xs : List α} (I : List α → β → Prop)
    (hstep : ∀ done x rest b, xs = done ++ x :: rest → I done b →
      ∃ b', f b x = some b' ∧ I (done ++ [x]) b') {b : β} (hb : I [] b) :
    ∃ b', xs.foldlM f b = some b' ∧ I xs b' := by
  have hrun : ∀ rest done b, xs = done ++ rest → I done b →
      ∃ b', rest.foldlM f b = some b' ∧ I xs b' := by
    intro rest
    induction rest with
    | nil =>
      intro done b hxs hb
      rw [List.append_nil] at hxs
      exact ⟨b, rfl, hxs ▸ hb⟩
    | cons x rest ih =>
      intro done b hxs hb
      obtain ⟨b', hf, hb'⟩ := hstep done x rest b hxs hb
      obtain ⟨b'', hrest, hb''⟩ := ih (done ++ [x]) b' (by rw [hxs, List.append_assoc]; rfl) hb'
      refine ⟨b'', ?_, hb''⟩
      rw [List.foldlM_cons, hf]
      exact hrest
  exact hrun xs [] b rfl hb

/-- The reduces of a state with the terminals that they are entered for, in the order in which they
are entered. -/
def offers (g : Grammar) (mode : Mode) (s : Nat) (state : State) : List (Nat × Nat) :=
  (List.range state.reduces.length).flatMap fun r =>
    (((g.automaton.lookahead mode).terminals? s r).getD ∅).toList.map fun t => (r, t)

theorem mem_offers_iff (hs : g.automaton.state? s = some state) {mode : Mode} {r t : Nat} :
    (r, t) ∈ g.offers mode s state ↔
      ∃ p, g.automaton.reduceProduction? s r = some p ∧ t ∈ g.lookaheadOf mode p.lhs := by
  simp only [offers, List.mem_flatMap, List.mem_range, List.mem_map, Prod.mk.injEq]
  constructor
  · rintro ⟨r, hr, t, ht, rfl, rfl⟩
    obtain ⟨p, -, hp⟩ := exists_reduceProduction? hs hr
    rw [terminals?_lookahead mode hs hp] at ht
    exact ⟨p, hp, ht⟩
  · rintro ⟨p, hp, ht⟩
    refine ⟨r, lt_of_reduceProduction? hs hp, t, ?_, rfl, rfl⟩
    rw [terminals?_lookahead mode hs hp]
    exact ht

theorem nodup_offers (mode : Mode) (s : Nat) (state : State) :
    (g.offers mode s state).Nodup := by
  refine List.nodup_flatMap.2 ⟨fun r _ => ?_, ?_⟩
  · refine List.Nodup.map (fun t t' h => ?_) (IdSet.nodup_toList _)
    exact (Prod.mk.inj h).2
  · refine List.nodup_range.imp fun {r r'} hne => ?_
    intro o ho ho'
    obtain ⟨t, -, rfl⟩ := List.mem_map.1 ho
    obtain ⟨t', -, h⟩ := List.mem_map.1 ho'
    exact hne (Prod.mk.inj h).1.symm

/-- A row is filled by entering the reduces one by one. -/
theorem fillRow?_eq {σ : Type} (hs : g.automaton.state? s = some state) (mode : Mode)
    (R : Resolver σ) (st : σ) :
    g.automaton.fillRow? (g.automaton.lookahead mode) R s state st =
      (g.offers mode s state).foldlM (fun w o => offer? g R s o.1 w o.2)
        (g.automaton.shiftRow state, st) := by
  have hall : ∀ (rs : List Nat) (w : Row × σ), (∀ r ∈ rs, r < state.reduces.length) →
      rs.foldlM (offerAll? g (g.automaton.lookahead mode) R s) w =
        (rs.flatMap fun r => (((g.automaton.lookahead mode).terminals? s r).getD ∅).toList.map
          fun t => (r, t)).foldlM (fun w o => offer? g R s o.1 w o.2) w := by
    intro rs
    induction rs with
    | nil => exact fun w _ => rfl
    | cons r rs ih =>
      intro w hrs
      rw [List.forall_mem_cons] at hrs
      obtain ⟨p, -, hp⟩ := exists_reduceProduction? hs hrs.1
      have hlook := terminals?_lookahead mode hs hp
      rw [List.foldlM_cons, List.flatMap_cons, List.foldlM_append, List.foldlM_map, offerAll?,
        hlook]
      exact congrArg _ (funext fun w' => ih w' hrs.2)
  exact hall _ _ fun r hr => List.mem_range.1 hr

/-- The candidates for a slot that have been entered when `done` are the reduces entered so far. -/
def entered (g : Grammar) (state : State) (done : List (Nat × Nat)) (t : Nat) : List Action :=
  g.earlyCandidates state t ++ (done.filter fun o => o.2 == t).map fun o => .reduce o.1

theorem entered_concat_self (done : List (Nat × Nat)) (r t : Nat) :
    g.entered state (done ++ [(r, t)]) t = g.entered state done t ++ [.reduce r] := by
  simp [entered]

theorem entered_concat_of_ne (done : List (Nat × Nat)) (r : Nat) {t t' : Nat} (h : t ≠ t') :
    g.entered state (done ++ [(r, t)]) t' = g.entered state done t' := by
  simp [entered, h]

theorem reduce_mem_entered {done : List (Nat × Nat)} {r t : Nat} :
    Action.reduce r ∈ g.entered state done t ↔ (r, t) ∈ done := by
  have hearly : Action.reduce r ∉ g.earlyCandidates state t := by
    unfold earlyCandidates
    split <;> simp
  rw [entered, List.mem_append, or_iff_right hearly]
  simp

theorem ne_reject_of_mem_entered {done : List (Nat × Nat)} {t : Nat} {action : Action}
    (h : action ∈ g.entered state done t) : action ≠ .reject := by
  rintro rfl
  unfold entered earlyCandidates at h
  split at h <;> simp at h

theorem filter_toList_eq (ts : IdSet) (t : Nat) :
    ts.toList.filter (fun x => x == t) = if ts.contains t then [t] else [] := by
  rw [List.filter_beq]
  by_cases h : ts.contains t = true
  · have hcount := List.count_eq_one_of_mem ts.nodup_toList (IdSet.contains_iff.1 h)
    rw [if_pos h, hcount]
    rfl
  · have hcount : ts.toList.count t = 0 :=
      List.count_eq_zero.2 fun hmem => h (IdSet.contains_iff.2 hmem)
    rw [if_neg h, hcount]
    rfl

/-- In the end all candidates have been entered. -/
theorem entered_offers (hs : g.automaton.state? s = some state) (mode : Mode) (t : Nat) :
    g.entered state (g.offers mode s state) t =
      g.automaton.candidates (g.automaton.lookahead mode) s t := by
  have hreduces : ∀ rs : List Nat,
      ((rs.flatMap fun r => (((g.automaton.lookahead mode).terminals? s r).getD ∅).toList.map
        fun t => (r, t)).filter fun o => o.2 == t).map (fun o => Action.reduce o.1) =
      (rs.filter fun r => ((g.automaton.lookahead mode).terminals? s r).any fun ts =>
        ts.contains t).map Action.reduce := by
    intro rs
    induction rs with
    | nil => rfl
    | cons r rs ih =>
      rw [List.flatMap_cons, List.filter_append, List.map_append, ih, List.filter_cons,
        List.filter_map, Function.comp_def, filter_toList_eq]
      rcases (g.automaton.lookahead mode).terminals? s r with _ | ts
      · rfl
      · by_cases h : ts.contains t = true
        · simp [h]
        · simp [h]
  rw [candidates, hs, entered, offers, hreduces]
  rfl

/-! ### Rows -/

/-- A row with a slot for each terminal, where `K` says what a slot with given candidates may
hold. -/
structure FilledRow (g : Grammar) (K : List Action → Action → Prop) (row : Row)
    (candidatesOn : Nat → List Action) : Prop where
  size : row.size = g.numTerminals
  slot : ∀ t, g.isTerminal t = true → ∃ action, row[g.column t]? = some action ∧
    K (candidatesOn t) action

variable {σ : Type} {R : Resolver σ} {mode : Mode}

/-- What slots of state `s` may hold, by the candidates entered so far, under a resolver whose state
satisfies `I` all the time. -/
structure Upholds (g : Grammar) (mode : Mode) (R : Resolver σ) (I : σ → Prop) (s : Nat)
    (K : List Action → Action → Prop) : Prop where
  /-- A slot may be empty as long as nothing has been entered. -/
  empty : K [] .reject
  /-- A slot may hold any of the candidates entered. -/
  candidate : ∀ t entered, entered <+: g.automaton.candidates (g.automaton.lookahead mode) s t →
    ∀ action ∈ entered, K entered action
  /-- When one more reduce is entered into an occupied slot, the resolver decides for something that
  the slot may hold. -/
  contest : ∀ t entered r,
    entered ++ [.reduce r] <+: g.automaton.candidates (g.automaton.lookahead mode) s t →
    .reduce r ∉ entered → ∀ occupant, K entered occupant → occupant ≠ .reject → ∀ st, I st →
    ∃ action st', R.decide? ⟨s, t, occupant, r⟩ st = some (action, st') ∧
      K (entered ++ [.reduce r]) action ∧ I st'

/-- What has been entered so far is the beginning of the candidates. -/
theorem entered_isPrefix (hs : g.automaton.state? s = some state) {done rest : List (Nat × Nat)}
    (hoffers : g.offers mode s state = done ++ rest) (t : Nat) :
    g.entered state done t <+: g.automaton.candidates (g.automaton.lookahead mode) s t := by
  rw [← entered_offers hs mode t, hoffers, entered, entered, List.filter_append, List.map_append,
    ← List.append_assoc]
  exact List.prefix_append _ _

/-- Entering one more reduce. -/
theorem FilledRow.offer? {I : σ → Prop} {K : List Action → Action → Prop}
    {done : List (Nat × Nat)} {row : Row} (h : FilledRow g K row (g.entered state done))
    (hs : g.automaton.state? s = some state) (hK : Upholds g mode R I s K) {r t : Nat}
    {rest : List (Nat × Nat)} (hoffers : g.offers mode s state = done ++ (r, t) :: rest) {st : σ}
    (hst : I st) :
    ∃ row' st', Automaton.offer? g R s r (row, st) t = some (row', st') ∧ I st' ∧
      FilledRow g K row' (g.entered state (done ++ [(r, t)])) := by
  have hmem : (r, t) ∈ g.offers mode s state := by simp [hoffers]
  have hnew : Action.reduce r ∉ g.entered state done t := by
    intro hold
    have hnodup := g.nodup_offers mode s state
    rw [hoffers, List.nodup_append'] at hnodup
    exact hnodup.2.2 (reduce_mem_entered.1 hold) List.mem_cons_self
  have hentered : g.entered state done t ++ [.reduce r] <+:
      g.automaton.candidates (g.automaton.lookahead mode) s t := by
    rw [← entered_concat_self]
    apply entered_isPrefix hs
    rw [hoffers, List.append_assoc, List.singleton_append]
  obtain ⟨p, hp, ht⟩ := (mem_offers_iff hs).1 hmem
  have hterm := isTerminal_of_mem_lookaheadOf ht
  obtain ⟨action, hslot, haction⟩ := h.slot t hterm
  -- whatever the slot gets, the other slots stay as they are
  have henter : ∀ action', K (g.entered state done t ++ [.reduce r]) action' →
      FilledRow g K (g.enter row t action') (g.entered state (done ++ [(r, t)])) := by
    intro action' haction'
    refine ⟨by rw [size_enter, h.size], fun t' ht' => ?_⟩
    by_cases htt : t = t'
    · subst htt
      rw [entered_concat_self]
      exact ⟨action', enter_self h.size hterm action', haction'⟩
    · rw [entered_concat_of_ne done r htt, enter_of_ne row hterm ht' htt]
      exact h.slot t' ht'
  by_cases hempty : action = .reject
  · subst hempty
    refine ⟨_, st, ?_, hst, henter (.reduce r) (hK.candidate t _ hentered _ (by simp))⟩
    unfold Automaton.offer?
    simp only [hslot]
  · obtain ⟨action', st', hdecide, haction', hst'⟩ :=
      hK.contest t _ r hentered hnew action haction hempty st hst
    refine ⟨_, st', ?_, hst', henter action' haction'⟩
    unfold Automaton.offer?
    cases action with
    | reject => exact absurd rfl hempty
    | shift next => simp only [hslot, hdecide, Option.map_some]
    | accept => simp only [hslot, hdecide, Option.map_some]
    | reduce r' => simp only [hslot, hdecide, Option.map_some]

/-- **The row of a state** is defined, and its slots hold what they may hold. -/
theorem fillRow?_spec {I : σ → Prop} {K : List Action → Action → Prop}
    (hs : g.automaton.state? s = some state) (hK : Upholds g mode R I s K) {st : σ} (hst : I st) :
    ∃ row st', g.automaton.fillRow? (g.automaton.lookahead mode) R s state st = some (row, st') ∧
      I st' ∧ FilledRow g K row (g.automaton.candidates (g.automaton.lookahead mode) s) := by
  have hstart : FilledRow g K (g.automaton.shiftRow state) (g.entered state []) := by
    obtain ⟨hsize, hslots⟩ := shiftRow_spec hs
    refine ⟨hsize, fun t ht => ?_⟩
    obtain ⟨action, hslot, haction⟩ := hslots t ht
    have hearly : g.entered state [] t = g.earlyCandidates state t := by simp [entered]
    refine ⟨action, hslot, ?_⟩
    rcases haction with hmem | ⟨rfl, hnone⟩
    · exact hK.candidate t _ (entered_isPrefix hs (List.nil_append _).symm t) action
        (hearly ▸ hmem)
    · rw [hearly, hnone]
      exact hK.empty
  have hstep : ∀ done (o : Nat × Nat) rest (w : Row × σ),
      g.offers mode s state = done ++ o :: rest →
      I w.2 ∧ FilledRow g K w.1 (g.entered state done) →
        ∃ w', Automaton.offer? g R s o.1 w o.2 = some w' ∧
          I w'.2 ∧ FilledRow g K w'.1 (g.entered state (done ++ [o])) := by
    rintro done o rest w hoffers ⟨hst, hw⟩
    obtain ⟨row', st', hoffer, hst', hrow'⟩ := hw.offer? hs hK hoffers hst
    exact ⟨(row', st'), hoffer, hst', hrow'⟩
  obtain ⟨⟨row, st'⟩, hfold, hst', hrow⟩ := foldlM_inv
    (fun done (w : Row × σ) => I w.2 ∧ FilledRow g K w.1 (g.entered state done)) hstep
    (b := (g.automaton.shiftRow state, st)) ⟨hst, hstart⟩
  refine ⟨row, st', by rw [fillRow?_eq hs, hfold], hst', ?_⟩
  have hall : g.entered state (g.offers mode s state) =
      g.automaton.candidates (g.automaton.lookahead mode) s :=
    funext fun t => entered_offers hs mode t
  rw [← hall]
  exact hrow

/-- An invariant of the state of the resolver that every row keeps holds in the end, and what holds
of every row that is filled holds of all rows of states from number `s` on. -/
theorem fillRows?_inv {look : Lookahead} (I : σ → Prop) (P : Nat → Row → Prop)
    (hrow : ∀ s state st, g.automaton.state? s = some state → I st →
      ∃ row st', g.automaton.fillRow? look R s state st = some (row, st') ∧ I st' ∧ P s row)
    {states : List State} {s : Nat}
    (hs : ∀ i state, states[i]? = some state → g.automaton.state? (s + i) = some state) (st : σ)
    (hst : I st) :
    ∃ rows st', g.automaton.fillRows? look R s states st = some (rows, st') ∧ I st' ∧
      rows.length = states.length ∧ ∀ i row, rows[i]? = some row → P (s + i) row := by
  induction states generalizing s st with
  | nil => exact ⟨[], st, rfl, hst, rfl, fun i row h => by simp at h⟩
  | cons state states ih =>
    obtain ⟨row, st₁, hfill, hst₁, hP⟩ := hrow s state st (hs 0 state rfl) hst
    obtain ⟨rows, st₂, hrest, hst₂, hlen, hrows⟩ := ih (s := s + 1) (fun i state h => by
      rw [Nat.add_right_comm, Nat.add_assoc]
      exact hs (i + 1) state h) st₁ hst₁
    refine ⟨row :: rows, st₂, ?_, hst₂, by simp [hlen], fun i row' h => ?_⟩
    · simp only [fillRows?, hfill, hrest, Option.bind_eq_bind, Option.bind_some, Option.pure_def]
    · rcases i with _ | i
      · obtain rfl : row = row' := by simpa using h
        exact hP
      · rw [← Nat.add_assoc, Nat.add_right_comm]
        exact hrows i row' h

/-- The rows of the automaton are those of its states. -/
theorem state?_initial_add (i : Nat) (state : State) (h : g.automaton.states[i]? = some state) :
    g.automaton.state? (initial + i) = some state := by
  rwa [initial, Nat.zero_add]

end Grammar

/-! ### Tables -/

/-- The tables are for the automaton of the grammar, with a row for each state, and `K` holds of
what is in the slots of each state. -/
structure Tables.Filled {g : Grammar} (T : Tables g) (mode : Mode)
    (K : Nat → List Action → Action → Prop) : Prop where
  automaton : T.automaton = g.automaton
  numStates : T.numStates = g.automaton.numStates
  row : ∀ s row, T.row? s = some row →
    g.FilledRow (K s) row (g.automaton.candidates (g.automaton.lookahead mode) s)

theorem Tables.Filled.exists_row {g : Grammar} {T : Tables g} {mode : Mode}
    {K : Nat → List Action → Action → Prop} (h : T.Filled mode K) {s : Nat} {state : State}
    (hs : g.automaton.state? s = some state) : ∃ row, T.row? s = some row := by
  have hlt : s < T.rows.length := by
    rw [show T.rows.length = g.automaton.numStates from h.numStates]
    exact (List.getElem?_eq_some_iff.1 hs).1
  exact ⟨_, List.getElem?_eq_getElem hlt⟩

theorem Tables.Filled.slot {g : Grammar} {T : Tables g} {mode : Mode}
    {K : Nat → List Action → Action → Prop} (h : T.Filled mode K) {s : Nat} {state : State}
    {t : Nat} (hs : g.automaton.state? s = some state) (ht : g.isTerminal t = true) :
    ∃ action, T.slot? s t = some action ∧
      K s (g.automaton.candidates (g.automaton.lookahead mode) s t) action := by
  obtain ⟨row, hrow⟩ := h.exists_row hs
  obtain ⟨action, hslot, haction⟩ := (h.row s row hrow).slot t ht
  exact ⟨action, (slot?_of_row? hrow ht).trans hslot, haction⟩

/-- `K` holds of whatever is in a slot. -/
theorem Tables.Filled.of_slot? {g : Grammar} {T : Tables g} {mode : Mode}
    {K : Nat → List Action → Action → Prop} (h : T.Filled mode K) {s t : Nat} {action : Action}
    (hslot : T.slot? s t = some action) :
    K s (g.automaton.candidates (g.automaton.lookahead mode) s t) action := by
  have hlt : s < g.automaton.numStates := by
    rw [← h.numStates]
    exact lt_numStates_of_slot? hslot
  obtain ⟨action', hslot', haction'⟩ :=
    h.slot (List.getElem?_eq_getElem hlt) (isTerminal_of_slot? hslot)
  obtain rfl : action = action' := Option.some.inj (hslot.symm.trans hslot')
  exact haction'

namespace Grammar

open Automaton

variable {g : Grammar} {σ : Type} {R : Resolver σ} {mode : Mode}

theorem mem_of_settles {action : Action} {candidates : List Action}
    (h : action.Settles candidates) (hne : action ≠ .reject) : action ∈ candidates :=
  h.resolve_right fun hr => hne hr.1

/-- Every slot of a row is the slot of a terminal. -/
theorem FilledRow.exists_terminal {K : List Action → Action → Prop} {row : Row}
    {candidatesOn : Nat → List Action} (h : FilledRow g K row candidatesOn) {action : Action}
    (ha : action ∈ row.toList) :
    ∃ t, g.isTerminal t = true ∧ row[g.column t]? = some action ∧ K (candidatesOn t) action := by
  obtain ⟨i, hi⟩ := List.mem_iff_getElem?.1 ha
  rw [Array.getElem?_toList] at hi
  have hlt : i < g.numTerminals := h.size ▸ (Array.getElem?_eq_some_iff.1 hi).1
  have hterm : g.isTerminal (g.numNonterminals + i) = true := by
    rw [isTerminal_iff, numSymbols]
    unfold numTerminals at hlt
    omega
  obtain ⟨action', hslot, haction⟩ := h.slot _ hterm
  have hcolumn : g.column (g.numNonterminals + i) = i := by
    unfold column
    omega
  rw [hcolumn, hi] at hslot
  obtain rfl : action = action' := Option.some.inj hslot
  exact ⟨_, hterm, by rw [hcolumn, hi], haction⟩

/-- The productions in use are defined if all reduces in the slots are reduces of their states. -/
theorem exists_markRows? {rows : List Row} {s : Nat}
    (h : ∀ i row, rows[i]? = some row → ∀ r, Action.reduce r ∈ row.toList →
      ∃ p, g.automaton.reduceProduction? (s + i) r = some p) (used : IdSet) :
    ∃ used', g.automaton.markRows? s rows used = some used' := by
  induction rows generalizing s used with
  | nil => exact ⟨used, rfl⟩
  | cons row rows ih =>
    have hslot : ∀ done action rest used, row.toList = done ++ action :: rest → True →
        ∃ used', g.automaton.markSlot? s used action = some used' ∧ True := by
      intro done action rest used hrow _
      cases action with
      | reduce r =>
        obtain ⟨p, hp⟩ := h 0 row rfl r (by simp [hrow])
        rw [Nat.add_zero] at hp
        rw [markSlot?, hp]
        exact ⟨used.insert p.seq, rfl, trivial⟩
      | reject => exact ⟨used, rfl, trivial⟩
      | shift next => exact ⟨used, rfl, trivial⟩
      | accept => exact ⟨used, rfl, trivial⟩
    obtain ⟨used', hused, -⟩ := foldlM_inv (fun _ _ => True) hslot (b := used) trivial
    obtain ⟨used'', hrest⟩ := ih (s := s + 1) (fun i row h' r hr => by
      rw [Nat.add_right_comm, Nat.add_assoc]
      exact h (i + 1) row h' r hr) used'
    refine ⟨used'', ?_⟩
    rw [markRows?, hused]
    exact hrest

/-- **The tables are defined, and their slots hold what they may hold**, if that includes no reduces
but those of the state. -/
theorem exists_filled_tables {I : σ → Prop} {K : Nat → List Action → Action → Prop}
    (hK : ∀ s state, g.automaton.state? s = some state → Upholds g mode R I s (K s))
    (hreduce : ∀ s t r, K s (g.automaton.candidates (g.automaton.lookahead mode) s t) (.reduce r) →
      ∃ p, g.automaton.reduceProduction? s r = some p) (st : σ) (hst : I st) :
    ∃ T st', g.automaton.tables? mode R st = some (T, st') ∧ I st' ∧ T.Filled mode K := by
  obtain ⟨rows, st', hfill, hst', hlen, hrows⟩ := fillRows?_inv (R := R) I
    (fun s row => FilledRow g (K s) row (g.automaton.candidates (g.automaton.lookahead mode) s))
    (fun s state st hs hst => fillRow?_spec hs (hK s state hs) hst)
    state?_initial_add st hst
  have hmark : ∀ i row, rows[i]? = some row → ∀ r, Action.reduce r ∈ row.toList →
      ∃ p, g.automaton.reduceProduction? (initial + i) r = some p := by
    intro i row hrow r hr
    obtain ⟨t, -, -, haction⟩ := (hrows i row hrow).exists_terminal hr
    exact hreduce _ t r haction
  obtain ⟨used, hused⟩ := exists_markRows? hmark ∅
  refine ⟨⟨g.automaton, g.automaton.lookahead mode, rows, used⟩, st', ?_, hst', rfl, hlen, ?_⟩
  · simp only [tables?, hfill, hused, Option.bind_eq_bind, Option.bind_some, Option.pure_def]
  · intro s row hrow
    have hfilled := hrows s row hrow
    rwa [initial, Nat.zero_add] at hfilled

/-- A resolver that decides for one of the two sides of a contest, or for neither, leaves candidates
in the slots. -/
theorem upholds_settles {I : σ → Prop}
    (hR : ∀ c st, I st → g.automaton.IsContest (g.automaton.lookahead mode) c →
      ∃ action st', R.decide? c st = some (action, st') ∧ c.Allows action ∧ I st') (s : Nat) :
    Upholds g mode R I s fun candidates action => action.Settles candidates where
  empty := Or.inr ⟨rfl, by simp⟩
  candidate _ _ _ _ hmem := Or.inl hmem
  contest t entered r hentered hnew occupant hoccupant hne st hst := by
    have hin := mem_of_settles hoccupant hne
    have hreduce : Action.reduce r ∈ entered ++ [.reduce r] := by simp
    have hcontest : g.automaton.IsContest (g.automaton.lookahead mode) ⟨s, t, occupant, r⟩ := by
      refine ⟨hentered.subset (List.mem_append_left _ hin), hentered.subset hreduce, ?_⟩
      rintro (rfl : occupant = .reduce r)
      exact hnew hin
    obtain ⟨action, st', hdecide, hallows, hst'⟩ := hR _ st hst hcontest
    refine ⟨action, st', hdecide, ?_, hst'⟩
    rcases hallows with rfl | rfl | rfl
    · exact Or.inl (List.mem_append_left _ hin)
    · exact Or.inl hreduce
    · refine Or.inr ⟨rfl, ?_⟩
      have hpos := List.length_pos_of_mem hin
      rw [List.length_append, List.length_singleton]
      omega

/-- The tables under such a resolver. -/
theorem exists_settled_tables {I : σ → Prop}
    (hR : ∀ c st, I st → g.automaton.IsContest (g.automaton.lookahead mode) c →
      ∃ action st', R.decide? c st = some (action, st') ∧ c.Allows action ∧ I st') (st : σ)
    (hst : I st) :
    ∃ T st', g.automaton.tables? mode R st = some (T, st') ∧ I st' ∧
      T.Filled mode fun _ candidates action => action.Settles candidates := by
  refine exists_filled_tables (fun s _ _ => upholds_settles hR s) (fun s t r hr => ?_) st hst
  have hmem := mem_of_settles hr (by simp)
  obtain ⟨state, hs⟩ := exists_state?_of_mem_candidates hmem
  obtain ⟨p, hp, -⟩ := (reduce_mem_candidates hs).1 hmem
  exact ⟨p, hp⟩

/-- **The tables are defined, and their slots hold candidates**, if the resolver decides every
contest for one of its two sides, or for neither. -/
theorem exists_settled_tables_of_confines (mode : Mode)
    (hR : g.automaton.Confines (g.automaton.lookahead mode) R) (st : σ) :
    ∃ T st', g.automaton.tables? mode R st = some (T, st') ∧
      T.Filled mode fun _ candidates action => action.Settles candidates := by
  have hR' : ∀ c st, True → g.automaton.IsContest (g.automaton.lookahead mode) c →
      ∃ action st', R.decide? c st = some (action, st') ∧ c.Allows action ∧ True := by
    intro c st _ hc
    obtain ⟨action, st', hdecide, hallows⟩ := hR c st hc
    exact ⟨action, st', hdecide, hallows, trivial⟩
  obtain ⟨T, st', htables, -, hT⟩ := exists_settled_tables hR' st trivial
  exact ⟨T, st', htables, hT⟩

theorem exists_faithful_tables (mode : Mode)
    (hR : g.automaton.Confines (g.automaton.lookahead mode) R) (st : σ) :
    ∃ T st', g.automaton.tables? mode R st = some (T, st') ∧ T.Faithful mode := by
  obtain ⟨T, st', htables, hT⟩ := exists_settled_tables_of_confines mode hR st
  exact ⟨T, st', htables, hT.automaton, hT.slot⟩

/-- If no slot has two candidates there is nothing to decide. -/
theorem confines_of_conflictFree
    (h : g.automaton.ConflictFree (g.automaton.lookahead mode)) (R : Resolver σ) :
    g.automaton.Confines (g.automaton.lookahead mode) R := by
  intro c st hc
  obtain ⟨hoccupant, hreduce, hne⟩ := hc
  have hlen := h c.state c.terminal
  rcases hcands : g.automaton.candidates (g.automaton.lookahead mode) c.state c.terminal with
    _ | ⟨x, _ | ⟨y, rest⟩⟩
  · rw [hcands] at hoccupant
    cases hoccupant
  · rw [hcands, List.mem_singleton] at hoccupant hreduce
    exact absurd (hoccupant.trans hreduce.symm) hne
  · rw [hcands] at hlen
    simp at hlen

end Grammar

end SimpleLR
