import SimpleLR.Proofs.Table.Slots

/-!
# The productions in use

Tables know by which productions their slots reduce.  This can be found out by looking at all slots
when the tables are finished.  It can also be kept up to date on the way: as soon as a row is full
its slots are looked at, and each production is counted off when it is met for the first time.  A
row is not touched any more when the next one is begun, so both come to the same, and the count
never runs out, because no more productions are counted off than there are.

A resolver may enter anything here that is valid in the state, whether it was a candidate for the
slot or not.  What it enters may be displaced again by a later contest about the slot, and a
production may lose all its slots in this way.

## Main Definitions

* `Automaton.Valid`, `Automaton.KeepsValid` — actions that a state can take, and resolvers that
  enter no others
* `Automaton.Tally`, `Automaton.tallyRows?` — the account that is kept row by row
* `Tables.ReducesBy` — some slot reduces by a production

## Main Statements

* `Grammar.tallyRows?_eq` — keeping the account row by row is looking at all rows in the end
* `Tables.isUsed_iff`, `Tables.numUnused_eq` — the account is about the slots
* `Grammar.exists_tallied_tables` — usage is accounted for exactly
-/

namespace SimpleLR

namespace IdSet

theorem insert_of_mem {s : IdSet} {x : Nat} (h : x ∈ s) : s.insert x = s := by
  apply ext_mem
  intro z
  rw [mem_insert]
  exact or_iff_right_of_imp fun hz => hz ▸ h

theorem size_insert_of_not_mem {s : IdSet} {x : Nat} (h : x ∉ s) :
    (s.insert x).size = s.size + 1 := by
  have hnodup : (x :: s.toList).Nodup := List.nodup_cons.2 ⟨h, s.nodup_toList⟩
  have hperm : (s.insert x).toList.Perm (x :: s.toList) :=
    (List.perm_ext_iff_of_nodup (s.insert x).nodup_toList hnodup).2 fun z =>
      mem_insert.trans List.mem_cons.symm
  exact hperm.length_eq

end IdSet

namespace Automaton

variable {g : Grammar} (a : Automaton g) {σ : Type}

/-- An action that state `s` can take: shifts lead to states, and reduces are reduces of the
state. -/
def Valid (s : Nat) : Action → Prop
  | .shift next => next < a.numStates
  | .reduce r => ∃ state, a.state? s = some state ∧ r < state.reduces.length
  | .accept => True
  | .reject => True

/-- A resolver that decides every contest for an action that the state can take. -/
def KeepsValid (look : Lookahead) (R : Resolver σ) : Prop :=
  ∀ (c : Contest) (st : σ), a.Valid c.state c.occupant → c.occupant ≠ .reject →
    a.HasReduce look c.state c.terminal c.reduce →
    ∃ action st', R.decide? c st = some (action, st') ∧ a.Valid c.state action

/-! ### The account -/

/-- The productions that are in use, and how many are not. -/
structure Tally where
  /-- The numbers of the productions in use. -/
  used : IdSet
  /-- The number of productions that are not in use. -/
  unused : Nat

/-- Mark a production.  It is counted off the first time only, and cannot be if nothing is left of
the count. -/
def Tally.mark? (tally : Tally) (seq : Nat) : Option Tally :=
  if tally.used.contains seq then some tally
  else
    match tally.unused with
    | 0 => none
    | unused + 1 => some ⟨tally.used.insert seq, unused⟩

/-- Mark the production of a slot of state `s`. -/
def tallySlot? (s : Nat) (tally : Tally) : Action → Option Tally
  | .reduce r => (a.reduceProduction? s r).bind fun p => tally.mark? p.seq
  | _ => some tally

/-- Fill the rows of the given states, of which the first has number `s`, and mark the productions
of each row as soon as it is full. -/
def tallyRows? (look : Lookahead) (R : Resolver σ) :
    Nat → List State → σ → Tally → Option (List Row × σ × Tally)
  | _, [], st, tally => some ([], st, tally)
  | s, state :: states, st, tally => do
    let r ← a.fillRow? look R s state st
    let tally ← r.1.toList.foldlM (a.tallySlot? s) tally
    let rest ← tallyRows? look R (s + 1) states r.2 tally
    return (r.1 :: rest.1, rest.2)

/-- The production that an action of state `s` reduces by. -/
def Reduces (s : Nat) (action : Action) (p : Production) : Prop :=
  ∃ r, action = .reduce r ∧ a.reduceProduction? s r = some p

/-! ### Looking at all slots -/

variable {a} {s : Nat} {used used' : IdSet}

theorem mem_markSlot? {action : Action} (h : a.markSlot? s used action = some used') {x : Nat} :
    x ∈ used' ↔ x ∈ used ∨ ∃ p, a.Reduces s action p ∧ p.seq = x := by
  cases action with
  | reduce r =>
    obtain ⟨p, hp, rfl⟩ := Option.map_eq_some_iff.1 h
    rw [IdSet.mem_insert, or_comm]
    refine or_congr_right ⟨?_, ?_⟩
    · rintro rfl
      exact ⟨p, ⟨r, rfl, hp⟩, rfl⟩
    · rintro ⟨q, ⟨r', hr, hq⟩, rfl⟩
      obtain rfl : r = r' := Action.reduce.inj hr
      rw [Option.some.inj (hp.symm.trans hq)]
  | reject | shift | accept =>
    obtain rfl : used = used' := Option.some.inj h
    simp [Reduces]

theorem mem_foldlM_markSlot? {actions : List Action}
    (h : actions.foldlM (a.markSlot? s) used = some used') {x : Nat} :
    x ∈ used' ↔ x ∈ used ∨ ∃ action ∈ actions, ∃ p, a.Reduces s action p ∧ p.seq = x := by
  induction actions generalizing used with
  | nil =>
    obtain rfl : used = used' := Option.some.inj h
    simp
  | cons action actions ih =>
    rw [List.foldlM_cons] at h
    obtain ⟨used₁, hslot, hrest⟩ := Option.bind_eq_some_iff.1 h
    rw [ih hrest, mem_markSlot? hslot, or_assoc, List.exists_mem_cons_iff]

/-- The productions in use are those by which a slot of some row reduces. -/
theorem mem_markRows? {rows : List Row} (h : a.markRows? s rows used = some used') {x : Nat} :
    x ∈ used' ↔ x ∈ used ∨ ∃ i row, rows[i]? = some row ∧
      ∃ action ∈ row.toList, ∃ p, a.Reduces (s + i) action p ∧ p.seq = x := by
  induction rows generalizing s used with
  | nil =>
    obtain rfl : used = used' := Option.some.inj h
    simp
  | cons row rows ih =>
    obtain ⟨used₁, hrow, hrest⟩ := Option.bind_eq_some_iff.1 h
    rw [ih hrest, mem_foldlM_markSlot? hrow, or_assoc]
    refine or_congr_right ⟨?_, ?_⟩
    · rintro (hhere | ⟨i, row', hi, hthere⟩)
      · exact ⟨0, row, rfl, hhere⟩
      · refine ⟨i + 1, row', hi, ?_⟩
        rwa [Nat.add_right_comm, Nat.add_assoc] at hthere
    · rintro ⟨i, row', hi, hslot⟩
      cases i with
      | zero =>
        obtain rfl : row = row' := Option.some.inj hi
        exact Or.inl hslot
      | succ i =>
        refine Or.inr ⟨i, row', hi, ?_⟩
        rwa [Nat.add_right_comm, Nat.add_assoc]

/-- How the productions in use are found. -/
theorem markRows?_of_tables? {mode : Mode} {R : Resolver σ} {st st' : σ} {T : Tables g}
    (h : a.tables? mode R st = some (T, st')) : a.markRows? initial T.rows ∅ = some T.used := by
  unfold tables? at h
  dsimp only at h
  obtain ⟨filled, -, h⟩ := Option.bind_eq_some_iff.1 h
  obtain ⟨used, hused, h⟩ := Option.bind_eq_some_iff.1 h
  obtain ⟨rfl, rfl⟩ := Prod.mk.inj (Option.some.inj h)
  exact hused

end Automaton

/-- Some slot reduces by the production. -/
def Tables.ReducesBy {g : Grammar} (T : Tables g) (p : Production) : Prop :=
  ∃ s t r, T.slot? s t = some (.reduce r) ∧ T.automaton.reduceProduction? s r = some p

namespace Grammar

open Automaton

variable {g : Grammar} {σ : Type} {R : Resolver σ} {mode : Mode} {s : Nat}

theorem exists_state?_of_reduceProduction? {r : Nat} {p : Production}
    (h : g.automaton.reduceProduction? s r = some p) :
    ∃ state, g.automaton.state? s = some state := by
  obtain ⟨item, hitem, -⟩ := Option.bind_eq_some_iff.1 h
  obtain ⟨state, hs, -⟩ := Option.bind_eq_some_iff.1 hitem
  exact ⟨state, hs⟩

theorem mem_productions_of_reduceProduction? {r : Nat} {p : Production}
    (h : g.automaton.reduceProduction? s r = some p) : p ∈ g.productions := by
  obtain ⟨state, hs⟩ := exists_state?_of_reduceProduction? h
  exact ((exists_reduce_iff hs).1 ⟨r, h⟩).1

theorem seq_lt_numProductions {p : Production} (hp : p ∈ g.productions) :
    p.seq < g.numProductions :=
  (List.getElem?_eq_some_iff.1 (g.production?_seq hp)).1

theorem seq_lt_of_reduces {action : Action} {p : Production}
    (h : g.automaton.Reduces s action p) : p.seq < g.numProductions := by
  obtain ⟨r, -, hp⟩ := h
  exact seq_lt_numProductions (mem_productions_of_reduceProduction? hp)

/-! ### The account row by row -/

/-- The account of which the given productions are in use. -/
def tallyOf (g : Grammar) (used : IdSet) : Tally := ⟨used, g.numProductions - used.size⟩

section

variable {used used' : IdSet} (hused : ∀ x ∈ used, x < g.numProductions)
include hused

/-- **The count does not run out**: a production that is met for the first time has not been counted
off. -/
theorem mark?_tallyOf {seq : Nat} (hseq : seq < g.numProductions) :
    (g.tallyOf used).mark? seq = some (g.tallyOf (used.insert seq)) := by
  by_cases hmem : seq ∈ used
  · rw [IdSet.insert_of_mem hmem]
    exact if_pos (IdSet.contains_iff.2 hmem)
  · have hsize := IdSet.size_insert_of_not_mem hmem
    have hle : (used.insert seq).size ≤ g.numProductions := by
      apply IdSet.size_le_of_forall_lt
      intro x hx
      rcases IdSet.mem_insert.1 hx with rfl | hx
      · exact hseq
      · exact hused x hx
    have hcount : g.numProductions - used.size =
        g.numProductions - (used.insert seq).size + 1 := by omega
    unfold Tally.mark? tallyOf
    rw [if_neg fun h => hmem (IdSet.contains_iff.1 h), hcount]

theorem tallySlot?_tallyOf (action : Action) :
    g.automaton.tallySlot? s (g.tallyOf used) action =
      (g.automaton.markSlot? s used action).map g.tallyOf := by
  cases action with
  | reduce r =>
    rw [tallySlot?, markSlot?, Option.map_map]
    cases hp : g.automaton.reduceProduction? s r with
    | none => rfl
    | some p => exact mark?_tallyOf hused (seq_lt_of_reduces ⟨r, rfl, hp⟩)
  | reject | shift | accept => rfl

theorem lt_of_mem_markSlot? {action : Action}
    (h : g.automaton.markSlot? s used action = some used') : ∀ x ∈ used', x < g.numProductions := by
  intro x hx
  rcases (mem_markSlot? h).1 hx with hx | ⟨p, hp, rfl⟩
  · exact hused x hx
  · exact seq_lt_of_reduces hp

/-- The account of one row. -/
theorem foldlM_tallySlot? (actions : List Action) :
    actions.foldlM (g.automaton.tallySlot? s) (g.tallyOf used) =
      (actions.foldlM (g.automaton.markSlot? s) used).map g.tallyOf := by
  induction actions generalizing used with
  | nil => rfl
  | cons action actions ih =>
    rw [List.foldlM_cons, List.foldlM_cons, tallySlot?_tallyOf hused]
    cases hslot : g.automaton.markSlot? s used action with
    | none => rfl
    | some used₁ => exact ih (lt_of_mem_markSlot? hused hslot)

theorem lt_of_mem_foldlM_markSlot? {actions : List Action}
    (h : actions.foldlM (g.automaton.markSlot? s) used = some used') :
    ∀ x ∈ used', x < g.numProductions := by
  intro x hx
  rcases (mem_foldlM_markSlot? h).1 hx with hx | ⟨action, -, p, hp, rfl⟩
  · exact hused x hx
  · exact seq_lt_of_reduces hp

/-- **Keeping the account row by row is looking at all rows in the end.** -/
theorem tallyRows?_eq (look : Lookahead) (R : Resolver σ) (s : Nat) (states : List State) (st : σ) :
    g.automaton.tallyRows? look R s states st (g.tallyOf used) =
      (g.automaton.fillRows? look R s states st).bind fun filled =>
        (g.automaton.markRows? s filled.1 used).map fun used' =>
          (filled.1, filled.2, g.tallyOf used') := by
  induction states generalizing s st used with
  | nil => rfl
  | cons state states ih =>
    rw [tallyRows?, fillRows?]
    cases g.automaton.fillRow? look R s state st with
    | none => rfl
    | some r =>
      simp only [Option.bind_eq_bind, Option.bind_some, Option.pure_def, Option.bind_assoc,
        foldlM_tallySlot? hused, markRows?]
      cases hrow : r.1.toList.foldlM (g.automaton.markSlot? s) used with
      | none =>
        -- the rows after this one make no difference any more
        cases g.automaton.fillRows? look R (s + 1) states r.2 <;> rfl
      | some used₁ =>
        simp only [Option.map_some, Option.bind_some, ih (lt_of_mem_foldlM_markSlot? hused hrow)]
        cases g.automaton.fillRows? look R (s + 1) states r.2 with
        | none => rfl
        | some rest =>
          simp only [Option.bind_some]
          cases g.automaton.markRows? (s + 1) rest.1 used₁ <;> rfl

end

/-! ### Valid slots -/

theorem valid_of_mem_candidates {t : Nat} {action : Action}
    (h : action ∈ g.automaton.candidates (g.automaton.lookahead mode) s t) :
    g.automaton.Valid s action := by
  cases action with
  | shift next =>
    obtain ⟨-, -, -, hentry⟩ := mem_shifts_of_mem_candidates h
    obtain ⟨state, hs, -⟩ := Option.bind_eq_some_iff.1 hentry
    exact (List.getElem?_eq_some_iff.1 hs).1
  | reduce r =>
    obtain ⟨state, -, hs, hr, -⟩ := hasReduce_of_mem_candidates h
    exact ⟨state, hs, hr⟩
  | accept | reject => trivial

theorem upholds_valid (hR : g.automaton.KeepsValid (g.automaton.lookahead mode) R) (s : Nat) :
    Upholds g mode R (fun _ => True) s fun _ action => g.automaton.Valid s action where
  empty := trivial
  candidate _ _ hentered _ hmem := valid_of_mem_candidates (hentered.subset hmem)
  contest t entered r hentered _ occupant hvalid hne st _ := by
    have hreduce : g.automaton.HasReduce (g.automaton.lookahead mode) s t r :=
      hasReduce_of_mem_candidates (hentered.subset (by simp))
    obtain ⟨action, st', hdecide, haction⟩ := hR ⟨s, t, occupant, r⟩ st hvalid hne hreduce
    exact ⟨action, st', hdecide, haction, trivial⟩

/-- Deciding by precedence enters valid actions only. -/
theorem keepsValid_byPrecedence (mode : Mode) :
    g.automaton.KeepsValid (g.automaton.lookahead mode) g.automaton.byPrecedence := by
  rintro c conflicts hoccupant - ⟨state, ts, hs, hr, -⟩
  obtain ⟨p, -, hp⟩ := exists_reduceProduction? hs hr
  have hheld : ∀ r, c.occupant = .reduce r →
      ∃ q, g.automaton.reduceProduction? c.state r = some q := by
    intro r hheld
    rw [hheld] at hoccupant
    obtain ⟨state', hs', hr'⟩ := hoccupant
    obtain ⟨q, -, hq⟩ := exists_reduceProduction? hs' hr'
    exact ⟨q, hq⟩
  obtain ⟨action, conflicts', hdecide, rfl | rfl | rfl⟩ := byPrecedence_allows hp hheld conflicts
  · exact ⟨_, conflicts', hdecide, hoccupant⟩
  · exact ⟨_, conflicts', hdecide, state, hs, hr⟩
  · exact ⟨_, conflicts', hdecide, trivial⟩

end Grammar

namespace Tables

open Automaton Grammar

variable {g : Grammar} {T : Tables g} {mode : Mode} {K : Nat → List Action → Action → Prop}

/-! ### What the account says about the slots -/

/-- The numbers marked are those of the productions by which some slot reduces. -/
theorem Filled.mem_used_iff (h : T.Filled mode K)
    (hused : g.automaton.markRows? initial T.rows ∅ = some T.used) {x : Nat} :
    x ∈ T.used ↔ ∃ p, T.ReducesBy p ∧ p.seq = x := by
  rw [mem_markRows? hused, or_iff_right (IdSet.not_mem_empty x)]
  simp only [ReducesBy, h.automaton]
  constructor
  · rintro ⟨s, row, hrow, action, haction, p, ⟨r, rfl, hp⟩, hx⟩
    rw [initial, Nat.zero_add] at hp
    obtain ⟨t, ht, hslot, -⟩ := (h.row s row hrow).exists_terminal haction
    exact ⟨p, ⟨s, t, r, (slot?_of_row? hrow ht).trans hslot, hp⟩, hx⟩
  · rintro ⟨p, ⟨s, t, r, hslot, hp⟩, hx⟩
    rw [slot?, if_pos (isTerminal_of_slot? hslot)] at hslot
    obtain ⟨row, hrow, hslot⟩ := Option.bind_eq_some_iff.1 hslot
    refine ⟨s, row, hrow, .reduce r, ?_, p, ⟨r, rfl, ?_⟩, hx⟩
    · rw [← Array.getElem?_toList] at hslot
      exact List.mem_of_getElem? hslot
    · rwa [initial, Nat.zero_add]

theorem ReducesBy.mem_productions (hT : T.automaton = g.automaton) {p : Production}
    (h : T.ReducesBy p) : p ∈ g.productions := by
  obtain ⟨s, t, r, -, hp⟩ := h
  rw [hT] at hp
  exact mem_productions_of_reduceProduction? hp

section

variable (hT : T.automaton = g.automaton)
  (hused : ∀ x, x ∈ T.used ↔ ∃ p, T.ReducesBy p ∧ p.seq = x)
include hT hused

theorem isUsed_iff {p : Production} (hp : p ∈ g.productions) :
    T.isUsed p = true ↔ T.ReducesBy p := by
  rw [isUsed, IdSet.contains_iff, hused]
  constructor
  · rintro ⟨q, hq, hseq⟩
    -- productions with the same number are the same
    have hfound := g.production?_seq (hq.mem_productions hT)
    rw [hseq, g.production?_seq hp] at hfound
    rwa [Option.some.inj hfound]
  · intro h
    exact ⟨p, h, rfl⟩

theorem mem_unused_iff {p : Production} :
    p ∈ T.unused ↔ p ∈ g.productions ∧ ¬ T.ReducesBy p := by
  rw [unused, List.mem_filter]
  apply and_congr_right
  intro hp
  rw [← isUsed_iff hT hused hp]
  simp

/-- As many productions are in use as have been marked. -/
theorem length_filter_isUsed : (g.productions.filter T.isUsed).length = T.used.size := by
  have hseq : (g.productions.filter T.isUsed).map (·.seq) =
      (List.range g.numProductions).filter T.used.contains := by
    rw [show List.range g.numProductions = g.productions.map (·.seq) from g.rules_seq.symm,
      List.filter_map]
    rfl
  have hperm : ((List.range g.numProductions).filter T.used.contains).Perm T.used.toList := by
    rw [List.perm_ext_iff_of_nodup (List.nodup_range.filter _) T.used.nodup_toList]
    intro x
    rw [List.mem_filter, List.mem_range, IdSet.contains_iff]
    apply and_iff_right_of_imp
    intro hx
    obtain ⟨p, hp, rfl⟩ := (hused x).1 hx
    exact seq_lt_numProductions (hp.mem_productions hT)
  calc (g.productions.filter T.isUsed).length
      = ((g.productions.filter T.isUsed).map (·.seq)).length := List.length_map _ |>.symm
    _ = T.used.size := by rw [hseq]; exact hperm.length_eq

theorem numUnused_eq : T.numUnused = T.unused.length := by
  have hsplit := List.length_eq_length_filter_add (l := g.productions) T.isUsed
  rw [length_filter_isUsed hT hused] at hsplit
  unfold numUnused numProductions unused
  omega

end

/-- The productions that are not in use are listed in the order of their numbers. -/
theorem pairwise_unused (T : Tables g) : T.unused.Pairwise fun p q => p.seq < q.seq := by
  apply List.Pairwise.filter
  rw [← List.pairwise_map (f := fun p : Production => p.seq) (R := (· < ·)),
    show g.productions.map (·.seq) = _ from g.rules_seq]
  exact List.pairwise_lt_range

end Tables

namespace Grammar

open Automaton

variable {σ : Type}

/-- **Usage is accounted for exactly**, if the resolver enters valid actions only.  The account that
is kept row by row is the one of the finished tables, a production is in use just if some slot
reduces by it, and those that are not in use are as many as the account says and are listed once
each, in the order of their numbers. -/
theorem exists_tallied_tables (g : Grammar) (mode : Mode) (R : Resolver σ)
    (hR : g.automaton.KeepsValid (g.automaton.lookahead mode) R) (st : σ) :
    ∃ T st', g.automaton.tables? mode R st = some (T, st') ∧
      g.automaton.tallyRows? (g.automaton.lookahead mode) R initial g.automaton.states st
          ⟨∅, g.numProductions⟩ = some (T.rows, st', ⟨T.used, T.numUnused⟩) ∧
      (∀ p ∈ g.productions, T.isUsed p = true ↔ T.ReducesBy p) ∧
      T.numUnused = T.unused.length ∧
      (∀ p, p ∈ T.unused ↔ p ∈ g.productions ∧ ¬ T.ReducesBy p) ∧
      T.unused.Pairwise fun p q => p.seq < q.seq := by
  have hreduce : ∀ s (_ : Nat) r, g.automaton.Valid s (.reduce r) →
      ∃ p, g.automaton.reduceProduction? s r = some p := by
    rintro s - r ⟨state, hs, hr⟩
    obtain ⟨p, -, hp⟩ := exists_reduceProduction? hs hr
    exact ⟨p, hp⟩
  obtain ⟨T, st', htables, -, hT⟩ := exists_filled_tables
    (fun s _ _ => upholds_valid hR s) hreduce st trivial
  have hmark := markRows?_of_tables? htables
  have hused : ∀ x, x ∈ T.used ↔ ∃ p, T.ReducesBy p ∧ p.seq = x :=
    fun x => hT.mem_used_iff hmark
  refine ⟨T, st', htables, ?_, fun p hp => Tables.isUsed_iff hT.automaton hused hp,
    Tables.numUnused_eq hT.automaton hused, fun p => Tables.mem_unused_iff hT.automaton hused,
    T.pairwise_unused⟩
  have hnone : ∀ x ∈ (∅ : IdSet), x < g.numProductions := by simp
  have htally := tallyRows?_eq hnone (g.automaton.lookahead mode) R initial g.automaton.states st
  rw [g.automaton.fillRows?_of_tables? htables, Option.bind_some, hmark, Option.map_some] at htally
  exact htally

/-- The resolver that enters the accept action in every contest, wherever it is. -/
def accepting : Resolver Unit where
  shiftReduce _ st := some (.accept, st)
  reduceReduce _ st := some (.accept, st)

/-- Precedence leaves two of the three readings of `x` out.  Entering the accept action in every
contest leaves all three out: each slot behind `x` held the first of them until there was a
contest. -/
theorem exists_tallied_tables_readings :
    (∃ T conflicts, readings.automaton.tables? .slr readings.automaton.byPrecedence [] =
        some (T, conflicts) ∧ T.numUnused = 2 ∧ T.unused.map (·.seq) = [5, 6]) ∧
      readings.automaton.KeepsValid (readings.automaton.lookahead .lr0) accepting ∧
      ∃ T, readings.automaton.tables? .lr0 accepting () = some (T, ()) ∧
        T.numUnused = 3 ∧ T.unused.map (·.seq) = [4, 5, 6] ∧
        ∀ p ∈ readings.productions, p.seq = 4 → ¬ T.ReducesBy p := by
  have hvalid : readings.automaton.KeepsValid (readings.automaton.lookahead .lr0) accepting := by
    intro c st _ _ _
    refine ⟨.accept, st, ?_, trivial⟩
    unfold Resolver.decide?
    split <;> rfl
  obtain ⟨T, conflicts, htables, -, -, hcount, -, -⟩ := exists_tallied_tables readings .slr
    readings.automaton.byPrecedence (keepsValid_byPrecedence .slr) []
  have hranked : ((readings.automaton.tables? .slr readings.automaton.byPrecedence []).map
      fun r => r.1.unused.map (·.seq)) = some [5, 6] := by
    decide +kernel
  rw [htables, Option.map_some, Option.some.injEq] at hranked
  obtain ⟨T', ⟨⟩, htables', -, hused', hcount', -, -⟩ :=
    exists_tallied_tables readings .lr0 accepting hvalid ()
  have haccepting : ((readings.automaton.tables? .lr0 accepting ()).map
      fun r => (r.1.used.contains 4, r.1.unused.map (·.seq))) = some (false, [4, 5, 6]) := by
    decide +kernel
  rw [htables', Option.map_some, Option.some.injEq, Prod.mk.injEq] at haccepting
  obtain ⟨hmark, hlist⟩ := haccepting
  refine ⟨⟨T, conflicts, htables, ?_, hranked⟩, hvalid, T', htables', ?_, hlist, ?_⟩
  · rw [hcount, ← List.length_map (·.seq), hranked]
    rfl
  · rw [hcount', ← List.length_map (·.seq), hlist]
    rfl
  · intro p hp hseq hreduces
    have hin := (hused' p hp).2 hreduces
    rw [Tables.isUsed, hseq, hmark] at hin
    cases hin

end Grammar

end SimpleLR
