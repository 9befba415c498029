import SimpleLR.Proofs.Table.History

/-!
# No candidate is lost without a trace

A candidate for a slot that is not in the slot in the end has lost a contest.  If it lost by
precedence, then the terminal and the production of a reduce have precedences.  In all other cases a
conflict is on record that says that it was given up.  What a conflict says was given up does not
come back.

The proofs go through the history of one slot.  A reduce leaves its slot only for another reduce,
and this is recorded.  A shift leaves its slot only by precedence.  No reduce is entered twice, so
one that has been given up stays away.

## Main Definitions

* `Automaton.Ranked` — precedences can decide between a terminal and a reduce

## Main Statements

* `Automaton.Entry.reduce_cases`, `Automaton.Entry.held_reduce_cases`,
  `Automaton.Entry.held_shift_cases`, `Automaton.Entry.discarded_cases` — what one reduce can push
  out
* `Automaton.History.reduce_cases`, `Automaton.History.shift_cases`,
  `Automaton.History.discarded_ne_last` — what can be lost in a history
* `Grammar.lost_only_on_record` — the three properties of the tables
-/

namespace SimpleLR

/-- Precedences say something only if there are both. -/
theorem compare?_eq_some {x y : Option Precedence} {preference : Preference}
    (h : compare? x y = some preference) : x.isSome = true ∧ y.isSome = true := by
  cases x with
  | none => cases h
  | some x =>
    cases y with
    | none => cases h
    | some y => exact ⟨rfl, rfl⟩

namespace Automaton

variable {g : Grammar}

/-- Precedences can decide between the terminal `t` and reduce `r` of state `s`: the terminal has
one, and so has the production. -/
def Ranked (a : Automaton g) (s t r : Nat) : Prop :=
  ∃ p, a.reduceProduction? s r = some p ∧ (g.symbolPrecedence t).isSome = true ∧
    (g.precedenceOf p).isSome = true

variable {a : Automaton g} {s t r : Nat} {first held last : Action} {reduces : List Nat}
  {recorded : List Conflict}

/-! ### One reduce -/

/-- A reduce gets into the slot, or precedences can decide about it, or it is recorded as given
up. -/
theorem Entry.reduce_cases (h : a.Entry s t r held last recorded) :
    last = .reduce r ∨ (∃ c ∈ recorded, c.discarded = .reduce r) ∨ a.Ranked s t r := by
  cases h with
  | vacant => exact Or.inl rfl
  | ranked hp hc => exact Or.inr (Or.inr ⟨_, hp, compare?_eq_some hc⟩)
  | unranked => exact Or.inr (Or.inl ⟨_, List.mem_singleton_self _, rfl⟩)
  | accept => exact Or.inr (Or.inl ⟨_, List.mem_singleton_self _, rfl⟩)
  | earlier => exact Or.inl rfl
  | later => exact Or.inr (Or.inl ⟨_, List.mem_singleton_self _, rfl⟩)

/-- A reduce that is pushed out of the slot is recorded as given up. -/
theorem Entry.held_reduce_cases {r' : Nat} (h : a.Entry s t r (.reduce r') last recorded) :
    last = .reduce r' ∨ ∃ c ∈ recorded, c.discarded = .reduce r' := by
  cases h with
  | earlier => exact Or.inr ⟨_, List.mem_singleton_self _, rfl⟩
  | later => exact Or.inl rfl

/-- A shift is pushed out of the slot only by precedence. -/
theorem Entry.held_shift_cases {next : Nat} (h : a.Entry s t r (.shift next) last recorded) :
    last = .shift next ∨ a.Ranked s t r := by
  cases h with
  | ranked hp hc => exact Or.inr ⟨_, hp, compare?_eq_some hc⟩
  | unranked => exact Or.inl rfl

/-- What is recorded as given up is the reduce that is entered or the one in the slot, and not the
one that the slot holds afterwards. -/
theorem Entry.discarded_cases (h : a.Entry s t r held last recorded) (hne : held ≠ .reduce r) :
    ∀ c ∈ recorded, (c.discarded = .reduce r ∨ c.discarded = held ∧ ∃ r', held = .reduce r') ∧
      c.discarded ≠ last := by
  cases h with
  | vacant => simp
  | ranked => simp
  | unranked => simp
  | accept => simp
  | @earlier r' =>
    intro c hc
    obtain rfl := List.mem_singleton.1 hc
    exact ⟨Or.inr ⟨rfl, r', rfl⟩, hne⟩
  | later =>
    intro c hc
    obtain rfl := List.mem_singleton.1 hc
    exact ⟨Or.inl rfl, hne.symm⟩

/-! ### All reduces -/

/-- **A reduce is in the slot in the end, or recorded as given up, or precedences can decide about
it.** -/
theorem History.reduce_cases (h : a.History s t first reduces last recorded) :
    ∀ r ∈ reduces,
      last = .reduce r ∨ (∃ c ∈ recorded, c.discarded = .reduce r) ∨ a.Ranked s t r := by
  induction h with
  | nil => simp
  | @concat reduces r' held last recorded more h he ih =>
    intro r hr
    rcases List.mem_append.1 hr with hold | hlast
    · rcases ih r hold with rfl | ⟨c, hc, hdiscarded⟩ | hranked
      · refine he.held_reduce_cases.imp_right fun ⟨c, hc, hdiscarded⟩ => ?_
        exact Or.inl ⟨c, List.mem_append_right _ hc, hdiscarded⟩
      · exact Or.inr (Or.inl ⟨c, List.mem_append_left _ hc, hdiscarded⟩)
      · exact Or.inr (Or.inr hranked)
    · obtain rfl := List.mem_singleton.1 hlast
      refine he.reduce_cases.imp_right (Or.imp_left fun ⟨c, hc, hdiscarded⟩ => ?_)
      exact ⟨c, List.mem_append_right _ hc, hdiscarded⟩

/-- **A shift is in the slot in the end, or precedences can decide about some reduce.** -/
theorem History.shift_cases {next : Nat} (h : a.History s t (.shift next) reduces last recorded) :
    last = .shift next ∨ ∃ r ∈ reduces, a.Ranked s t r := by
  induction h with
  | nil => exact Or.inl rfl
  | @concat reduces r held last recorded more h he ih =>
    rcases ih with rfl | ⟨r', hr', hranked⟩
    · exact he.held_shift_cases.imp_right fun hranked => ⟨r, by simp, hranked⟩
    · exact Or.inr ⟨r', List.mem_append_left _ hr', hranked⟩

/-- **What is recorded as given up is one of the reduces, and not in the slot in the end**, if no
reduce is entered twice. -/
theorem History.discarded_ne_last (h : a.History s t first reduces last recorded)
    (hfirst : ∀ r, first ≠ .reduce r) (hnodup : reduces.Nodup) :
    ∀ c ∈ recorded, (∃ r ∈ reduces, c.discarded = .reduce r) ∧ c.discarded ≠ last := by
  induction h with
  | nil => simp
  | @concat reduces r held last recorded more h he ih =>
    rw [List.nodup_append', List.disjoint_singleton] at hnodup
    obtain ⟨hnodup, -, hnew⟩ := hnodup
    -- the reduce is not in the slot, because those in the slot were entered before
    have hheld : held ≠ .reduce r := fun heq => hnew (h.mem_of_last_eq hfirst heq)
    intro c hc
    rcases List.mem_append.1 hc with hold | hlast
    · obtain ⟨⟨r', hr', hdiscarded⟩, hne⟩ := ih hnodup c hold
      refine ⟨⟨r', List.mem_append_left _ hr', hdiscarded⟩, ?_⟩
      rcases he.last_cases with rfl | rfl | rfl
      · exact hne
      · rw [hdiscarded]
        intro heq
        exact hnew (Action.reduce.inj heq ▸ hr')
      · rw [hdiscarded]
        simp
    · obtain ⟨hdiscarded, hne⟩ := he.discarded_cases hheld c hlast
      refine ⟨?_, hne⟩
      rcases hdiscarded with hdiscarded | ⟨hdiscarded, r', hr'⟩
      · exact ⟨r, by simp, hdiscarded⟩
      · have hmem := h.mem_of_last_eq hfirst hr'
        exact ⟨r', List.mem_append_left _ hmem, hdiscarded.trans hr'⟩

end Automaton

namespace Grammar

open Automaton

variable {g : Grammar}

theorem nodup_reducesOn (look : Lookahead) (s : Nat) (state : State) (t : Nat) :
    (reducesOn look s state t).Nodup :=
  List.nodup_range.filter _

/-- **No shift and no reduce is lost without a trace** if contests are decided by precedence.  A
reduce that is not in a slot of its lookahead is recorded there as given up, or precedences can
decide about it.  A shift that is not in its slot competed with a reduce that precedences can decide
about.  What is recorded as given up is not in the slot. -/
theorem lost_only_on_record (g : Grammar) (mode : Mode) :
    ∃ T conflicts, g.automaton.tables? mode g.automaton.byPrecedence [] = some (T, conflicts) ∧
      (∀ s state t, g.automaton.state? s = some state → g.isTerminal t = true →
        ∃ action, T.slot? s t = some action ∧
          (∀ r ∈ reducesOn (g.automaton.lookahead mode) s state t, action ≠ .reduce r →
            (∃ c ∈ conflicts, c.state = s ∧ c.terminal = t ∧ c.discarded = .reduce r) ∨
              g.automaton.Ranked s t r) ∧
          ∀ next ∈ g.automaton.shiftsOn state t, action ≠ .shift next →
            ∃ r ∈ reducesOn (g.automaton.lookahead mode) s state t, g.automaton.Ranked s t r) ∧
      ∀ c ∈ conflicts, ∃ action, T.slot? c.state c.terminal = some action ∧
        action ≠ c.discarded := by
  obtain ⟨T, conflicts, htables, hT⟩ := g.exists_chronicled_tables mode []
  refine ⟨T, conflicts, htables, fun s state t hs ht => ?_, fun c hc => ?_⟩
  · obtain ⟨action, hslot, hhistory⟩ := hT.slot hs ht
    refine ⟨action, hslot, fun r hr hne => ?_, fun next hnext hne => ?_⟩
    · refine (hhistory.reduce_cases r hr).resolve_left hne |>.imp_left ?_
      rintro ⟨c, hc, hdiscarded⟩
      obtain ⟨hmem, hat⟩ := List.mem_filter.1 hc
      obtain ⟨hterminal, hstate⟩ : c.terminal = t ∧ c.state = s := by
        simpa [Conflict.isAt] using hat
      exact ⟨c, hmem, hstate, hterminal, hdiscarded⟩
    · rw [earlySlot_of_mem_shiftsOn hs ht hnext] at hhistory
      exact hhistory.shift_cases.resolve_left hne
  · obtain ⟨hterm, state, hs⟩ := hT.conflict c hc
    obtain ⟨action, hslot, hhistory⟩ := hT.slot hs hterm
    have hmem : c ∈ conflicts.filter (·.isAt c.state c.terminal) :=
      List.mem_filter.2 ⟨hc, by simp [Conflict.isAt]⟩
    obtain ⟨-, hne⟩ := hhistory.discarded_ne_last earlySlot_ne_reduce
      (nodup_reducesOn _ _ _ _) c hmem
    exact ⟨action, hslot, hne.symm⟩

/-- Sums and products, of which only `+` has a precedence: `S → S + S`, `S → S * S` and `S → x`. -/
def operators : Grammar :=
  ofWellFormed [⟨"S", none⟩, ⟨"+", some ⟨1, .left⟩⟩, ⟨"*", none⟩, ⟨"x", none⟩, ⟨"$end", none⟩] 1
    [[⟨[0, 1, 0], none⟩, ⟨[0, 2, 0], none⟩, ⟨[3], none⟩]]
    ⟨by decide, by decide, by decide, by decide, by decide, by decide⟩

/-- Behind `S + S` the shift of `+` loses to the reduce by precedence.  The reduce loses to the
shift of `*`, which has no precedence, and so there is a conflict on record. -/
theorem lost_only_on_record_operators :
    ∃ T conflicts, operators.automaton.tables? .slr operators.automaton.byPrecedence [] =
        some (T, conflicts) ∧
      (T.slot? 5 1 = some (.reduce 0) ∧ ∃ r, operators.automaton.Ranked 5 1 r) ∧
      T.slot? 5 2 = some (.shift 4) ∧
      ∃ c ∈ conflicts, (c.state = 5 ∧ c.terminal = 2 ∧ c.discarded = .reduce 0) ∧
        ∃ action, T.slot? c.state c.terminal = some action ∧ action ≠ c.discarded := by
  obtain ⟨T, conflicts, htables, hcandidates, hconflicts⟩ := lost_only_on_record operators .slr
  have hslots : ((operators.automaton.tables? .slr operators.automaton.byPrecedence []).map
      fun r => (r.1.slot? 5 1, r.1.slot? 5 2)) = some (some (.reduce 0), some (.shift 4)) := by
    decide +kernel
  rw [htables, Option.map_some, Option.some.injEq, Prod.mk.injEq] at hslots
  obtain ⟨hplus, htimes⟩ := hslots
  have hstate : ((operators.automaton.state? 5).map fun state =>
      (operators.automaton.shiftsOn state 1,
        reducesOn (operators.automaton.lookahead .slr) 5 state 2)) = some ([3], [0]) := by
    decide +kernel
  obtain ⟨state, hs, hlists⟩ := Option.map_eq_some_iff.1 hstate
  obtain ⟨hshifts, hreduces⟩ := Prod.mk.inj hlists
  obtain ⟨action, hslot, -, hshift⟩ := hcandidates 5 state 1 hs (by decide)
  obtain rfl : action = .reduce 0 := Option.some.inj (hslot.symm.trans hplus)
  obtain ⟨r, -, hranked⟩ := hshift 3 (by rw [hshifts]; simp) (by simp)
  obtain ⟨action', hslot', hreduce, -⟩ := hcandidates 5 state 2 hs (by decide)
  obtain rfl : action' = .shift 4 := Option.some.inj (hslot'.symm.trans htimes)
  have hnone : ¬ operators.automaton.Ranked 5 2 0 := by
    rintro ⟨p, -, hprecedence, -⟩
    exact absurd hprecedence (by decide)
  obtain ⟨c, hc, hgiven⟩ := (hreduce 0 (by rw [hreduces]; simp) (by simp)).resolve_right hnone
  exact ⟨T, conflicts, htables, ⟨hplus, r, hranked⟩, htimes, c, hc, hgiven, hconflicts c hc⟩

end Grammar

end SimpleLR
