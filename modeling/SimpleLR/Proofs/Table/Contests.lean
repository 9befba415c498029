import SimpleLR.Proofs.Table.Build

/-!
# Tables that are made without a contest

A resolver that keeps a log of the contests it is asked to decide makes the same tables as without
the log.  If the log is empty in the end, then every reduce has found its slot empty when it was
entered, so there is no slot for which a reduce and something else are candidates.  Conversely, if
there is no such slot, then no resolver is ever asked, and it is known what the slots hold: the
reduce, if there is one, and otherwise what was entered before the reduces.

A slot may have two candidates all the same.  If a production mentions the end of the input, then it
may have to be shifted where the input could be accepted, and the shift is entered without a
contest.

## Main Definitions

* `Resolver.logged` — a resolver with a log
* `Resolver.Follows` — a resolver that decides as another does
* `Automaton.Uncontested` — no slot has a reduce and something else as candidates
* `Tables.Plain` — what the slots hold if there was no contest

## Main Statements

* `Automaton.tables?_of_follows`, `Automaton.tables?_logged` — what a resolver keeps beside its
  decisions changes nothing, so neither does a log
* `Grammar.uncontested_of_tables?_logged` — an empty log means that there are no contests
* `Grammar.exists_plain_tables` — without contests no resolver is asked
-/

namespace SimpleLR

/-- The resolver that decides as `R` does, and keeps a log of what it was asked to decide. -/
def Resolver.logged {σ : Type} (R : Resolver σ) : Resolver (σ × List Contest) where
  shiftReduce c st := (R.shiftReduce c st.1).map fun d => (d.1, d.2, st.2 ++ [c])
  reduceReduce c st := (R.reduceReduce c st.1).map fun d => (d.1, d.2, st.2 ++ [c])

theorem Resolver.decide?_logged {σ : Type} (R : Resolver σ) (c : Contest) (st : σ)
    (log : List Contest) :
    R.logged.decide? c (st, log) = (R.decide? c st).map fun d => (d.1, d.2, log ++ [c]) := by
  unfold Resolver.decide?
  split <;> rfl

/-- `R'` decides as `R` does, where `φ` says what its state means for `R`. -/
def Resolver.Follows {σ τ : Type} (R' : Resolver τ) (R : Resolver σ) (φ : τ → σ) : Prop :=
  ∀ c st, (R'.decide? c st).map (Prod.map id φ) = R.decide? c (φ st)

theorem Resolver.follows_logged {σ : Type} (R : Resolver σ) : R.logged.Follows R Prod.fst := by
  rintro c ⟨st, log⟩
  rw [decide?_logged, Option.map_map]
  exact Option.map_id'

namespace Automaton

variable {g : Grammar} (a : Automaton g) {σ : Type}

/-- There is no slot for which a reduce and something else are candidates. -/
def Uncontested (look : Lookahead) : Prop := ∀ c, ¬ a.IsContest look c

/-! ### The log changes nothing -/

/-- What can be forgotten before each element can be forgotten in the end. -/
theorem foldlM_forget {α β γ : Type} {f : β → α → Option β} {f' : γ → α → Option γ} {φ : β → γ}
    (h : ∀ b x, (f b x).map φ = f' (φ b) x) (xs : List α) (b : β) :
    (xs.foldlM f b).map φ = xs.foldlM f' (φ b) := by
  induction xs generalizing b with
  | nil => rfl
  | cons x xs ih =>
    rw [List.foldlM_cons, List.foldlM_cons, ← h b x]
    cases f b x with
    | none => rfl
    | some b' => exact ih b'

section

variable {τ : Type} {R' : Resolver τ} {R : Resolver σ} {φ : τ → σ} (h : R'.Follows R φ)
include h

theorem offer?_of_follows (s r : Nat) (w : Row × τ) (t : Nat) :
    (offer? g R' s r w t).map (Prod.map id φ) = offer? g R s r (Prod.map id φ w) t := by
  obtain ⟨row, st⟩ := w
  show (offer? g R' s r (row, st) t).map (Prod.map id φ) = offer? g R s r (row, φ st) t
  unfold offer?
  dsimp only
  split
  · rfl
  · rfl
  · rw [← h, Option.map_map, Option.map_map]
    rfl

theorem fillRow?_of_follows (look : Lookahead) (s : Nat) (state : State) (st : τ) :
    (a.fillRow? look R' s state st).map (Prod.map id φ) = a.fillRow? look R s state (φ st) := by
  refine foldlM_forget (fun w r => ?_) _ (a.shiftRow state, st)
  unfold offerAll?
  cases look.terminals? s r with
  | none => rfl
  | some ts => exact foldlM_forget (offer?_of_follows h s r) ts.toList w

theorem fillRows?_of_follows (look : Lookahead) (s : Nat) (states : List State) (st : τ) :
    (a.fillRows? look R' s states st).map (Prod.map id φ) =
      a.fillRows? look R s states (φ st) := by
  induction states generalizing s st with
  | nil => rfl
  | cons state states ih =>
    rw [fillRows?, fillRows?, ← a.fillRow?_of_follows h look s state st]
    cases a.fillRow? look R' s state st with
    | none => rfl
    | some r =>
      obtain ⟨row, st'⟩ := r
      simp only [Option.map_some, Prod.map_apply, id_eq, Option.bind_eq_bind, Option.bind_some,
        ← ih (s + 1) st']
      cases a.fillRows? look R' (s + 1) states st' with
      | none => rfl
      | some rest => rfl

/-- **What a resolver keeps beside its decisions changes nothing**: the tables are what they would
be without it. -/
theorem tables?_of_follows (mode : Mode) (st : τ) :
    (a.tables? mode R' st).map (Prod.map id φ) = a.tables? mode R (φ st) := by
  unfold tables?
  dsimp only
  rw [← a.fillRows?_of_follows h _ initial a.states st]
  cases a.fillRows? (a.lookahead mode) R' initial a.states st with
  | none => rfl
  | some filled =>
    simp only [Option.map_some, Prod.map, id_eq, Option.bind_eq_bind, Option.bind_some]
    cases a.markRows? initial filled.1 ∅ with
    | none => rfl
    | some used => rfl

end

/-- Leave the log out. -/
def forgetLog {β : Type} (w : β × σ × List Contest) : β × σ := (w.1, w.2.1)

/-- **The log changes nothing**: the tables and the state of the resolver are what they would be
without it. -/
theorem tables?_logged (mode : Mode) (R : Resolver σ) (st : σ) (log : List Contest) :
    (a.tables? mode R.logged (st, log)).map forgetLog = a.tables? mode R st :=
  a.tables?_of_follows R.follows_logged mode (st, log)

/-- How tables come about. -/
theorem fillRows?_of_tables? {mode : Mode} {R : Resolver σ} {st st' : σ} {T : Tables g}
    (h : a.tables? mode R st = some (T, st')) :
    a.fillRows? (a.lookahead mode) R initial a.states st = some (T.rows, st') := by
  unfold tables? at h
  dsimp only at h
  obtain ⟨filled, hfill, h⟩ := Option.bind_eq_some_iff.1 h
  obtain ⟨used, -, h⟩ := Option.bind_eq_some_iff.1 h
  obtain ⟨rfl, rfl⟩ := Prod.mk.inj (Option.some.inj h)
  exact hfill

end Automaton

/-- What the slots of tables hold that are made without a contest: a reduce if there is one for the
slot, and otherwise what was entered before the reduces. -/
structure Tables.Plain {g : Grammar} (T : Tables g) (mode : Mode) : Prop where
  numStates : T.numStates = g.automaton.numStates
  reduce : ∀ s t r, .reduce r ∈ g.automaton.candidates (g.automaton.lookahead mode) s t →
    T.slot? s t = some (.reduce r)
  other : ∀ s state t, g.automaton.state? s = some state → g.isTerminal t = true →
    (∀ r, .reduce r ∉ g.automaton.candidates (g.automaton.lookahead mode) s t) →
    T.slot? s t = (g.automaton.shiftRow state)[g.column t]?

namespace Grammar

open Automaton

variable {g : Grammar} {s : Nat} {state : State} {σ : Type} {R : Resolver σ} {mode : Mode}

/-! ### An empty log means that there are no contests -/

/-- A reduce that is entered finds its slot empty, or the contest goes into the log. -/
theorem offer?_logged_cases {r t : Nat} {row : Row} {st : σ} {log : List Contest}
    {w : Row × σ × List Contest} (h : offer? g R.logged s r (row, st, log) t = some w) :
    row[g.column t]? = some .reject ∧ w = (g.enter row t (.reduce r), st, log) ∨
      ∃ action st' c, w = (g.enter row t action, st', log ++ [c]) := by
  unfold offer? at h
  dsimp only at h
  split at h
  · cases h
  · next hslot => exact Or.inl ⟨hslot, (Option.some.inj h).symm⟩
  · rw [Resolver.decide?_logged] at h
    obtain ⟨d, hd, rfl⟩ := Option.map_eq_some_iff.1 h
    obtain ⟨d', -, rfl⟩ := Option.map_eq_some_iff.1 hd
    exact Or.inr ⟨_, _, _, rfl⟩

/-- A log that has something more in it is not the same. -/
theorem log_ne_of_longer {log log' : List Contest} {c : Contest} (h : log ++ [c] <+: log') :
    log' ≠ log := by
  rintro rfl
  have hlen := h.length_le
  rw [List.length_append, List.length_singleton] at hlen
  omega

/-- The log only grows.  If it does not grow, then all reduces found their slots empty, and no two
of them had the same slot. -/
theorem foldlM_offer?_logged {offers : List (Nat × Nat)}
    (hterm : ∀ o ∈ offers, g.isTerminal o.2 = true) {row : Row}
    (hrow : row.size = g.numTerminals) {st : σ} {log : List Contest}
    {w : Row × σ × List Contest}
    (h : offers.foldlM (fun w o => offer? g R.logged s o.1 w o.2) (row, st, log) = some w) :
    log <+: w.2.2 ∧ (w.2.2 = log →
      (∀ o ∈ offers, row[g.column o.2]? = some .reject) ∧ (offers.map (·.2)).Nodup) := by
  induction offers generalizing row st log with
  | nil =>
    obtain rfl : (row, st, log) = w := Option.some.inj h
    exact ⟨List.prefix_refl log, fun _ => ⟨by simp, List.nodup_nil⟩⟩
  | cons o offers ih =>
    rw [List.forall_mem_cons] at hterm
    rw [List.foldlM_cons] at h
    obtain ⟨w', hoffer, hrest⟩ := Option.bind_eq_some_iff.1 h
    rcases offer?_logged_cases hoffer with ⟨hslot, rfl⟩ | ⟨action, st', c, rfl⟩
    · obtain ⟨hgrows, hsame⟩ := ih hterm.2 (by rw [size_enter, hrow]) hrest
      refine ⟨hgrows, fun heq => ?_⟩
      obtain ⟨hslots, hnodup⟩ := hsame heq
      -- the slot is not empty any more, so it is not the slot of a later reduce
      have hne : ∀ o' ∈ offers, o.2 ≠ o'.2 := by
        intro o' ho' heq'
        have hempty := hslots o' ho'
        rw [← heq', enter_self hrow hterm.1] at hempty
        cases hempty
      refine ⟨List.forall_mem_cons.2 ⟨hslot, fun o' ho' => ?_⟩, ?_⟩
      · rw [← enter_of_ne row hterm.1 (hterm.2 o' ho') (hne o' ho')]
        exact hslots o' ho'
      · rw [List.map_cons, List.nodup_cons]
        refine ⟨fun hmem => ?_, hnodup⟩
        obtain ⟨o', ho', heq'⟩ := List.mem_map.1 hmem
        exact hne o' ho' heq'.symm
    · obtain ⟨hgrows, -⟩ := ih hterm.2 (by rw [size_enter, hrow]) hrest
      exact ⟨(List.prefix_append log [c]).trans hgrows,
        fun heq => absurd heq (log_ne_of_longer hgrows)⟩

/-- If the reduces of a state find their slots empty, and no two of them have the same slot, then
there is no contest in this state. -/
theorem not_isContest_of_slots (hs : g.automaton.state? s = some state)
    (hslots : ∀ o ∈ g.offers mode s state,
      (g.automaton.shiftRow state)[g.column o.2]? = some .reject)
    (hnodup : ((g.offers mode s state).map (·.2)).Nodup) {c : Contest} (hc : c.state = s) :
    ¬ g.automaton.IsContest (g.automaton.lookahead mode) c := by
  rintro ⟨hoccupant, hreduce, hne⟩
  rw [hc] at hoccupant hreduce
  have hoffer := (mem_offers_iff hs).2 ((reduce_mem_candidates hs).1 hreduce)
  have hterm := isTerminal_of_mem_candidates hreduce
  -- the slot is empty before the reduces, so the occupant is another reduce
  have hearly : g.earlyCandidates state c.terminal = [] := by
    obtain ⟨action, hslot, haction⟩ := (shiftRow_spec hs).2 c.terminal hterm
    rw [hslots _ hoffer] at hslot
    obtain rfl : Action.reject = action := Option.some.inj hslot
    refine haction.elim (fun hmem => ?_) (·.2)
    have hentered : Action.reject ∈ g.entered state [] c.terminal := by simpa [entered] using hmem
    exact absurd rfl (ne_reject_of_mem_entered hentered)
  rw [← entered_offers hs, entered, hearly, List.nil_append, List.mem_map] at hoccupant
  obtain ⟨⟨r, t⟩, ho, hr⟩ := hoccupant
  obtain ⟨hmem, ht⟩ := List.mem_filter.1 ho
  obtain rfl : t = c.terminal := by simpa using ht
  have hsame := List.inj_on_of_nodup_map hnodup hmem hoffer rfl
  rw [(Prod.mk.inj hsame).1] at hr
  exact hne hr.symm

/-- The log of a row. -/
theorem fillRow?_log (hs : g.automaton.state? s = some state) {st : σ} {log : List Contest}
    {w : Row × σ × List Contest}
    (h : g.automaton.fillRow? (g.automaton.lookahead mode) R.logged s state (st, log) = some w) :
    log <+: w.2.2 ∧ (w.2.2 = log → ∀ c : Contest, c.state = s →
      ¬ g.automaton.IsContest (g.automaton.lookahead mode) c) := by
  rw [fillRow?_eq hs] at h
  have hterm : ∀ o ∈ g.offers mode s state, g.isTerminal o.2 = true := by
    intro o ho
    obtain ⟨p, -, ht⟩ := (mem_offers_iff hs).1 ho
    exact isTerminal_of_mem_lookaheadOf ht
  obtain ⟨hgrows, hsame⟩ := foldlM_offer?_logged hterm (shiftRow_spec hs).1 h
  refine ⟨hgrows, fun heq c hc => ?_⟩
  obtain ⟨hslots, hnodup⟩ := hsame heq
  exact not_isContest_of_slots hs hslots hnodup hc

/-- The log of the rows of states from number `s` on. -/
theorem fillRows?_log {states : List State}
    (hs : ∀ i state, states[i]? = some state → g.automaton.state? (s + i) = some state) {st : σ}
    {log : List Contest} {w : List Row × σ × List Contest}
    (h : g.automaton.fillRows? (g.automaton.lookahead mode) R.logged s states (st, log) = some w) :
    log <+: w.2.2 ∧ (w.2.2 = log → ∀ i, i < states.length → ∀ c : Contest, c.state = s + i →
      ¬ g.automaton.IsContest (g.automaton.lookahead mode) c) := by
  induction states generalizing s st log w with
  | nil =>
    obtain rfl : ([], st, log) = w := Option.some.inj h
    exact ⟨List.prefix_refl log, fun _ i hi => absurd hi (Nat.not_lt_zero i)⟩
  | cons state states ih =>
    obtain ⟨⟨row, st₁, log₁⟩, hrow, h⟩ := Option.bind_eq_some_iff.1 h
    obtain ⟨rest, hrest, h⟩ := Option.bind_eq_some_iff.1 h
    obtain rfl : (row :: rest.1, rest.2) = w := Option.some.inj h
    obtain ⟨hgrows, hsame⟩ := fillRow?_log (hs 0 state rfl) hrow
    obtain ⟨hgrows', hsame'⟩ := ih (s := s + 1) (fun i state h => by
      rw [Nat.add_right_comm, Nat.add_assoc]
      exact hs (i + 1) state h) hrest
    refine ⟨hgrows.trans hgrows', fun heq i hi c hc => ?_⟩
    -- the log did not grow in the end, so it did not grow on the way
    have hmiddle : log₁ = log := by
      have hback : log₁ <+: log := by
        rw [← heq]
        exact hgrows'
      exact hback.eq_of_length_le hgrows.length_le
    cases i with
    | zero => exact hsame hmiddle c hc
    | succ i =>
      refine hsame' (heq.trans hmiddle.symm) i (Nat.lt_of_succ_lt_succ hi) c ?_
      rw [hc, Nat.add_right_comm, Nat.add_assoc]

/-- **An empty log means that there are no contests.** -/
theorem uncontested_of_tables?_logged {st st' : σ} {T : Tables g}
    (h : g.automaton.tables? mode R.logged (st, []) = some (T, st', [])) :
    g.automaton.Uncontested (g.automaton.lookahead mode) := by
  intro c hc
  obtain ⟨state, hs⟩ := exists_state?_of_mem_candidates hc.2.1
  obtain ⟨-, hsame⟩ := fillRows?_log state?_initial_add (g.automaton.fillRows?_of_tables? h)
  refine hsame rfl c.state (List.getElem?_eq_some_iff.1 hs).1 c ?_ hc
  rw [initial, Nat.zero_add]

/-! ### Without contests no resolver is asked -/

section

variable (h : g.automaton.Uncontested (g.automaton.lookahead mode))
include h

/-- A reduce is the only candidate for its slot. -/
theorem eq_reduce_of_mem_candidates {t r : Nat} {action : Action}
    (hr : .reduce r ∈ g.automaton.candidates (g.automaton.lookahead mode) s t)
    (ha : action ∈ g.automaton.candidates (g.automaton.lookahead mode) s t) :
    action = .reduce r := by
  by_contra hne
  exact h ⟨s, t, action, r⟩ ⟨ha, hr, hne⟩

/-- The slot of a reduce is empty until the reduce is entered. -/
theorem shiftRow_slot (hs : g.automaton.state? s = some state) {t r : Nat}
    (hr : .reduce r ∈ g.automaton.candidates (g.automaton.lookahead mode) s t) :
    (g.automaton.shiftRow state)[g.column t]? = some .reject := by
  obtain ⟨action, hslot, haction⟩ :=
    (shiftRow_spec hs).2 t (isTerminal_of_mem_candidates hr)
  rcases haction with hmem | ⟨rfl, -⟩
  · have hcandidate : action ∈ g.automaton.candidates (g.automaton.lookahead mode) s t := by
      rw [← entered_offers hs, entered]
      exact List.mem_append_left _ hmem
    obtain rfl := eq_reduce_of_mem_candidates h hr hcandidate
    have hnone : (r, t) ∈ ([] : List (Nat × Nat)) :=
      reduce_mem_entered.1 (by simpa [entered] using hmem)
    cases hnone
  · exact hslot

end

/-- A row into which reduces have been entered without a contest: each is in its slot, and all other
slots are as they were before. -/
structure PlainRow (g : Grammar) (state : State) (done : List (Nat × Nat)) (row : Row) :
    Prop where
  size : row.size = g.numTerminals
  reduce : ∀ r t, (r, t) ∈ done → row[g.column t]? = some (.reduce r)
  other : ∀ t, g.isTerminal t = true → (∀ r, (r, t) ∉ done) →
    row[g.column t]? = (g.automaton.shiftRow state)[g.column t]?

/-- Entering one more reduce. -/
theorem PlainRow.offer? (h : g.automaton.Uncontested (g.automaton.lookahead mode))
    {done : List (Nat × Nat)} {row : Row} (hrow : PlainRow g state done row)
    (hs : g.automaton.state? s = some state) {r t : Nat} {rest : List (Nat × Nat)}
    (hoffers : g.offers mode s state = done ++ (r, t) :: rest) (R : Resolver σ) (st : σ) :
    Automaton.offer? g R s r (row, st) t = some (g.enter row t (.reduce r), st) ∧
      PlainRow g state (done ++ [(r, t)]) (g.enter row t (.reduce r)) := by
  have hcandidate : ∀ r' t', (r', t') ∈ g.offers mode s state →
      Action.reduce r' ∈ g.automaton.candidates (g.automaton.lookahead mode) s t' :=
    fun r' t' hmem => (reduce_mem_candidates hs).2 ((mem_offers_iff hs).1 hmem)
  have hr := hcandidate r t (by simp [hoffers])
  have hterm := isTerminal_of_mem_candidates hr
  -- no reduce has been entered for this slot: it would be the same one
  have hnew : ∀ r', (r', t) ∉ done := by
    intro r' hmem
    have hr' := hcandidate r' t (by simp [hoffers, hmem])
    obtain rfl : r' = r := Action.reduce.inj (eq_reduce_of_mem_candidates h hr hr')
    have hnodup := g.nodup_offers mode s state
    rw [hoffers, List.nodup_append'] at hnodup
    exact hnodup.2.2 hmem List.mem_cons_self
  have hslot : row[g.column t]? = some .reject := by
    rw [hrow.other t hterm hnew]
    exact shiftRow_slot h hs hr
  refine ⟨?_, by rw [size_enter, hrow.size], fun r' t' hmem => ?_, fun t' ht' hnone => ?_⟩
  · unfold Automaton.offer?
    simp only [hslot]
  · rcases List.mem_append.1 hmem with hold | hlast
    · have ht' := isTerminal_of_mem_candidates (hcandidate r' t' (by simp [hoffers, hold]))
      have hne : t ≠ t' := by
        rintro rfl
        exact hnew r' hold
      rw [enter_of_ne row hterm ht' hne]
      exact hrow.reduce r' t' hold
    · obtain ⟨rfl, rfl⟩ := Prod.mk.inj (List.mem_singleton.1 hlast)
      exact enter_self hrow.size hterm _
  · have hne : t ≠ t' := by
      rintro rfl
      exact hnone r (by simp)
    rw [enter_of_ne row hterm ht' hne]
    exact hrow.other t' ht' fun r' hmem => hnone r' (List.mem_append_left _ hmem)

/-- The row of a state without contests. -/
theorem fillRow?_plain (h : g.automaton.Uncontested (g.automaton.lookahead mode))
    (hs : g.automaton.state? s = some state) (R : Resolver σ) (st : σ) :
    ∃ row, g.automaton.fillRow? (g.automaton.lookahead mode) R s state st = some (row, st) ∧
      PlainRow g state (g.offers mode s state) row := by
  have hstart : PlainRow g state [] (g.automaton.shiftRow state) :=
    ⟨(shiftRow_spec hs).1, by simp, fun t _ _ => rfl⟩
  have hstep : ∀ done (o : Nat × Nat) rest (w : Row × σ),
      g.offers mode s state = done ++ o :: rest → w.2 = st ∧ PlainRow g state done w.1 →
        ∃ w', Automaton.offer? g R s o.1 w o.2 = some w' ∧
          w'.2 = st ∧ PlainRow g state (done ++ [o]) w'.1 := by
    rintro done ⟨r, t⟩ rest ⟨row, st₁⟩ hoffers ⟨hst, hrow⟩
    obtain ⟨hoffer, hrow'⟩ := hrow.offer? h hs hoffers R st₁
    exact ⟨_, hoffer, hst, hrow'⟩
  obtain ⟨⟨row, _⟩, hfold, rfl, hrow⟩ := foldlM_inv
    (fun done (w : Row × σ) => w.2 = st ∧ PlainRow g state done w.1) hstep
    (b := (g.automaton.shiftRow state, st)) ⟨rfl, hstart⟩
  exact ⟨row, by rw [fillRow?_eq hs, hfold], hrow⟩

/-- The rows of tables that are made without contests. -/
theorem plainRow_of_tables? (h : g.automaton.Uncontested (g.automaton.lookahead mode)) {st st' : σ}
    {T : Tables g} (htables : g.automaton.tables? mode R st = some (T, st')) :
    st' = st ∧ T.numStates = g.automaton.numStates ∧
      ∀ s state, g.automaton.state? s = some state →
        ∃ row, T.row? s = some row ∧ PlainRow g state (g.offers mode s state) row := by
  obtain ⟨rows, st'', hfill, hst, hlen, hrows⟩ := fillRows?_inv (R := R) (fun st' => st' = st)
    (fun s row => ∃ state, g.automaton.state? s = some state ∧
      PlainRow g state (g.offers mode s state) row)
    (fun s state st₁ hs hst => by
      obtain ⟨row, hfill, hrow⟩ := fillRow?_plain h hs R st₁
      exact ⟨row, st₁, hfill, hst, state, hs, hrow⟩)
    state?_initial_add st rfl
  obtain ⟨rfl, rfl⟩ := Prod.mk.inj
    (Option.some.inj (hfill.symm.trans (g.automaton.fillRows?_of_tables? htables)))
  refine ⟨hst, hlen, fun s state hs => ?_⟩
  have hlt : s < T.rows.length := by
    rw [hlen]
    exact (List.getElem?_eq_some_iff.1 hs).1
  have hrow := List.getElem?_eq_getElem hlt
  obtain ⟨state', hs', hplain⟩ := hrows s _ hrow
  rw [initial, Nat.zero_add] at hs' hplain
  obtain rfl : state = state' := Option.some.inj (hs.symm.trans hs')
  exact ⟨_, hrow, hplain⟩

/-- **Without contests no resolver is asked**: the tables are defined, the state of the resolver
does not change, and it is known what the slots hold. -/
theorem exists_plain_tables (h : g.automaton.Uncontested (g.automaton.lookahead mode))
    (R : Resolver σ) (st : σ) :
    ∃ T, g.automaton.tables? mode R st = some (T, st) ∧ T.Faithful mode ∧ T.Plain mode := by
  have hconfines : g.automaton.Confines (g.automaton.lookahead mode) R :=
    fun c _ hc => absurd hc (h c)
  obtain ⟨T, st', htables, hT⟩ := exists_faithful_tables mode hconfines st
  obtain ⟨rfl, hlen, hrows⟩ := plainRow_of_tables? h htables
  refine ⟨T, htables, hT, hlen, fun s t r hr => ?_, fun s state t hs ht hnone => ?_⟩
  · obtain ⟨state, hs⟩ := exists_state?_of_mem_candidates hr
    obtain ⟨row, hrow, hplain⟩ := hrows s state hs
    rw [Tables.slot?_of_row? hrow (isTerminal_of_mem_candidates hr)]
    exact hplain.reduce r t ((mem_offers_iff hs).2 ((reduce_mem_candidates hs).1 hr))
  · obtain ⟨row, hrow, hplain⟩ := hrows s state hs
    rw [Tables.slot?_of_row? hrow ht]
    exact hplain.other t ht fun r hr =>
      hnone r ((reduce_mem_candidates hs).2 ((mem_offers_iff hs).1 hr))

end Grammar

end SimpleLR
