import SimpleLR.Proofs.Parse.Completeness
import SimpleLR.Proofs.Parse.Soundness

/-!
# What holds throughout a run

A parser has to be ready for trouble that never comes: a reduce of more symbols than there are on
the stack, a left-hand side without a next state, a look-up in a state that does not exist.  For
tables made from a grammar none of this happens, whatever the input and however contests were
decided, because the stack remains a path through the automaton.  So there is one reason only to
reject the input: the next symbol of it.

## Main Definitions

* `Tables.InRange` — all look-ups in a state are defined

## Main Statements

* `Tables.Faithful.exists_step?`, `Tables.Faithful.exists_after?` — one step stays on a path, and so
  does any number of them
* `Tables.Faithful.step?_of_reduction?` — a reduce is done, and the left-hand side is put on the
  stack
* `Tables.Explains.rejected` — the symbol that a rejection is about
* `Grammar.run_stays_on_path` — all of it, for the tables of a grammar
-/

namespace SimpleLR

/-- A run with a verdict has a last step, which has a final outcome. -/
theorem Configuration.exists_last_step {σ α : Type} {t : ParseTable σ α}
    {c last : Configuration σ α} {n : Nat} {v : Verdict σ α}
    (h : c.run t n = .finished v last) :
    ∃ m d o, c.after? t m = some d ∧ d.step? t = some (o, last) ∧ o.isFinal = true ∧
      v = verdict o last := by
  induction n generalizing c with
  | zero => cases h
  | succ n ih =>
    unfold run at h
    split at h
    · cases h
    · next o c' hstep =>
      cases ho : o.isFinal with
      | true =>
        rw [ho, if_pos rfl] at h
        obtain ⟨rfl, rfl⟩ := RunResult.finished.inj h
        exact ⟨0, c, o, rfl, hstep, ho, rfl⟩
      | false =>
        rw [ho] at h
        obtain ⟨m, d, o', hm, hlast⟩ := ih h
        refine ⟨m + 1, d, o', ?_, hlast⟩
        rw [after?_succ, hstep]
        exact hm

namespace Tables

open Automaton Grammar SimpleLR.Configuration

variable {g : Grammar}

/-! ### Look-ups -/

/-- All look-ups in the state `s` are defined: there is a slot for each terminal, the reduces in the
slots are reduces of the state, and the next states on nonterminals exist. -/
structure InRange (T : Tables g) (s : Nat) : Prop where
  slot : ∀ t, g.isTerminal t = true → ∃ action, T.slot? s t = some action
  reduce : ∀ t r, T.slot? s t = some (.reduce r) →
    ∃ p, T.automaton.reduceProduction? s r = some p
  gotos : ∃ state, T.automaton.state? s = some state ∧
    ∀ next ∈ state.gotos, ∃ state', T.automaton.state? next = some state'

variable {T : Tables g} {mode : Mode} {c : Configuration Nat Nat}

/-- What a slot holds is a candidate for it, unless it is empty. -/
theorem Faithful.mem_candidates (hT : T.Faithful mode) {s t : Nat} {state : State}
    (hs : g.automaton.state? s = some state) {action : Action} (h : T.slot? s t = some action)
    (hne : action ≠ .reject) :
    action ∈ g.automaton.candidates (g.automaton.lookahead mode) s t := by
  obtain ⟨held, hslot, hsettles⟩ := hT.slot hs (isTerminal_of_slot? h)
  obtain rfl : held = action := Option.some.inj (hslot.symm.trans h)
  exact mem_of_settles hsettles hne

theorem Faithful.inRange (hT : T.Faithful mode) {s : Nat} {state : State}
    (hs : g.automaton.state? s = some state) : T.InRange s := by
  refine ⟨fun t ht => ?_, fun t r hslot => ?_, ?_⟩
  · obtain ⟨action, hslot, -⟩ := hT.slot hs ht
    exact ⟨action, hslot⟩
  · obtain ⟨p, hp, -⟩ := (reduce_mem_candidates hs).1 (hT.mem_candidates hs hslot (by simp))
    rw [hT.automaton]
    exact ⟨p, hp⟩
  · rw [hT.automaton]
    refine ⟨state, hs, fun next hnext => ?_⟩
    obtain ⟨ts, h⟩ := exists_transitions hs
    rw [h.gotos, List.mem_map] at hnext
    obtain ⟨⟨x, _⟩, ht, rfl⟩ := hnext
    obtain ⟨state', hs', -⟩ := h.target x _ (List.mem_filter.1 ht).1
    exact ⟨state', hs'⟩

/-! ### Steps -/

/-- **Every step is defined** and leaves the stack a path. -/
theorem Faithful.exists_step? (hT : T.Faithful mode) (h : g.OnPath c) :
    ∃ o c', c.step? T.parseTable = some (o, c') ∧ g.OnPath c' := by
  cases ha : c.accepted with
  | true => exact ⟨.accept, c, step?_of_accepted ha, h⟩
  | false =>
    obtain ⟨o, c', hstep, -, hpath⟩ := hT.step?_effect h ha
    exact ⟨o, c', hstep, hpath⟩

/-- **Any number of steps is defined** and leaves the stack a path. -/
theorem Faithful.exists_after? (hT : T.Faithful mode) (h : g.OnPath c) (n : Nat) :
    ∃ c', c.after? T.parseTable n = some c' ∧ g.OnPath c' := by
  induction n generalizing c with
  | zero => exact ⟨c, rfl, h⟩
  | succ n ih =>
    obtain ⟨o, d, hstep, hd⟩ := hT.exists_step? h
    obtain ⟨c', hn, hc'⟩ := ih hd
    refine ⟨c', ?_, hc'⟩
    rw [after?_succ, hstep]
    exact hn

/-- When a reduce comes next. -/
theorem reduction?_eq_some_iff {p : Production} :
    T.reduction? c = some p ↔ c.accepted = false ∧ c.pending = none ∧
      ∃ r, T.slot? c.state (c.read T.parseTable).1 = some (.reduce r) ∧
        T.automaton.reduceProduction? c.state r = some p := by
  unfold reduction?
  cases c.accepted with
  | true => simp
  | false =>
    cases c.pending with
    | some lhs => simp
    | none =>
      rw [if_neg (by simp)]
      split
      · next r hslot => simp [hslot]
      · next hslot =>
        constructor
        · intro h
          cases h
        · rintro ⟨-, -, r, hr, -⟩
          exact absurd hr (hslot r)

/-- **A reduce that comes next is done**: the right-hand side is on top of the stack, and when it
has been taken off the left-hand side is put in its place. -/
theorem Faithful.step?_of_reduction? (hT : T.Faithful mode) (h : g.OnPath c) {p : Production}
    (hr : T.reduction? c = some p) :
    ∃ c' c'', c.step? T.parseTable = some (.reduce, c') ∧ p ∈ g.productions ∧
      c.symbols = c'.symbols ++ p.rhs ∧ c'.pending = some p.lhs ∧
      c'.ahead = c.upcoming T.parseTable ∧ c'.step? T.parseTable = some (.goto, c'') := by
  obtain ⟨ha, hp, r, hslot, hr⟩ := reduction?_eq_some_iff.1 hr
  obtain ⟨x, xs, hu⟩ := c.exists_upcoming T.parseTable
  rw [read_eq hu] at hslot
  rw [hT.automaton] at hr
  obtain ⟨state, hs, hk⟩ := h.exists_state?
  obtain ⟨hmem, context, hstring, hc⟩ := (reduceProduction?_iff hs hk).1 ⟨r, hr⟩
  obtain ⟨s, hstep, hpath⟩ :=
    hT.step?_reduce h ha hp hu (isTerminal_of_slot? hslot) hslot hr hstring hc
  obtain ⟨next, hgoto, -⟩ := hT.step?_settle hpath ha rfl
  refine ⟨_, _, hstep, hmem, ?_, rfl, hu.symm, hgoto⟩
  show c.symbols = ((c.stack.drop p.rhs.length).map (·.symbol)).reverse ++ p.rhs
  rw [symbols_drop hstring, hstring]

/-- A step is a reduce only if one comes next. -/
theorem Faithful.isSome_reduction? (hT : T.Faithful mode) (h : g.OnPath c)
    {c' : Configuration Nat Nat} (hstep : c.step? T.parseTable = some (.reduce, c')) :
    (T.reduction? c).isSome = true := by
  obtain ⟨heffect, -⟩ := hT.effect h (accepted_eq_false hstep (by simp)) hstep
  cases heffect with
  | consume _ _ ho => simp at ho
  | reduce _ _ _ hr _ => rw [hr, Option.isSome_some]

/-! ### Rejections -/

/-- A step that rejects the input does so because of the symbol that it has read. -/
theorem Faithful.lookahead_of_error (hT : T.Faithful mode) (h : g.OnPath c)
    {c' : Configuration Nat Nat} (hstep : c.step? T.parseTable = some (.error, c')) :
    c'.pending = none ∧ ∃ x, c'.lookahead = some x := by
  obtain ⟨heffect, -⟩ := hT.effect h (accepted_eq_false hstep (by simp)) hstep
  cases heffect with
  | consume _ _ ho => simp at ho
  | reject hp _ => exact ⟨hp, _, rfl⟩

/-- **A rejection is about the next symbol**: the first one of the input that has not been
consumed. -/
theorem Explains.rejected {input consumed : List Nat} {performed : List Production}
    (h : Explains g input consumed performed c) (hT : T.Faithful mode) {m s : Nat}
    {symbol : Option Nat} {last : Configuration Nat Nat}
    (hrun : c.run T.parseTable m = .finished (.rejected s symbol) last) :
    last.state = s ∧ last.pending = none ∧ ∃ x, symbol = some x ∧ last.lookahead = some x ∧
      ∃ consumed' k, consumed' ++ x :: last.input =
        input ++ List.replicate k g.endOfInput := by
  obtain ⟨n, d, o, hn, hstep, ho, hverdict⟩ := exists_last_step hrun
  have hd := h.after?_consumed hT hn
  cases o with
  | error =>
    obtain ⟨hp, x, hx⟩ := hT.lookahead_of_error hd.onPath hstep
    obtain ⟨rfl, hsymbol⟩ := Verdict.rejected.inj hverdict
    rw [hp, Option.none_or, hx] at hsymbol
    obtain ⟨k, hk⟩ := (hd.step_consumption hT hstep).input
    rw [ahead, hx] at hk
    exact ⟨rfl, hp, x, hsymbol, hx, _, k, hk⟩
  | accept => cases hverdict
  | shift => cases ho
  | goto => cases ho
  | reduce => cases ho

end Tables

namespace Grammar

open Automaton Tables

/-- **A run stays on a path.**  Let contests be decided by precedence.  Then the tables are defined,
and after any number of steps on any input the parser is in a configuration in which

* the stack is a path through the automaton, from the initial state to the current one, and all
  look-ups in the current state are defined, as is the next step;
* the next step is a reduce just if the slot says so, so there are always symbols enough on the
  stack;
* what such a reduce takes off the stack is the right-hand side, and in the step after it the
  left-hand side is put on the stack;
* if running on from there ends in a rejection, then no left-hand side is pending, and the rejection
  is about the symbol that has been read: the first one of the input, with the end of the input
  repeated behind it, that has not been consumed. -/
theorem run_stays_on_path (g : Grammar) (mode : Mode) (conflicts : List Conflict) :
    ∃ T conflicts',
      g.automaton.tables? mode g.automaton.byPrecedence conflicts = some (T, conflicts') ∧
      ∀ (input : List Nat) (n : Nat), ∃ c o c',
        (Configuration.start T.parseTable input).after? T.parseTable n = some c ∧
        c.step? T.parseTable = some (o, c') ∧
        g.Traces c.stack c.state ∧ T.InRange c.state ∧
        (o = .reduce ↔ (T.reduction? c).isSome = true) ∧
        (∀ p, T.reduction? c = some p → p ∈ g.productions ∧ c.symbols = c'.symbols ++ p.rhs ∧
          c'.pending = some p.lhs ∧ ∃ c'', c'.step? T.parseTable = some (.goto, c'')) ∧
        ∀ (m s : Nat) (symbol : Option Nat) (last : Configuration Nat Nat),
          c.run T.parseTable m = .finished (.rejected s symbol) last →
          last.state = s ∧ last.pending = none ∧ ∃ x, symbol = some x ∧ last.lookahead = some x ∧
            ∃ consumed k, consumed ++ x :: last.input =
              input ++ List.replicate k g.endOfInput := by
  obtain ⟨T, conflicts', htables, hT⟩ :=
    exists_faithful_tables mode (confines_byPrecedence (g := g) mode) conflicts
  refine ⟨T, conflicts', htables, fun input n => ?_⟩
  obtain ⟨c, hn, hpath⟩ := hT.exists_after? (onPath_start T input) n
  obtain ⟨o, c', hstep, -⟩ := hT.exists_step? hpath
  obtain ⟨state, hs, -⟩ := hpath.exists_state?
  refine ⟨c, o, c', hn, hstep, hpath.traces, hT.inRange hs, ?_, ?_, ?_⟩
  · constructor
    · rintro rfl
      exact hT.isSome_reduction? hpath hstep
    · intro hr
      obtain ⟨p, hp⟩ := Option.isSome_iff_exists.1 hr
      obtain ⟨d, -, hreduce, -⟩ := hT.step?_of_reduction? hpath hp
      exact (Prod.mk.inj (Option.some.inj (hstep.symm.trans hreduce))).1
  · intro p hp
    obtain ⟨d, d', hreduce, hmem, hsymbols, hpending, -, hgoto⟩ := hT.step?_of_reduction? hpath hp
    obtain ⟨-, rfl⟩ := Prod.mk.inj (Option.some.inj (hstep.symm.trans hreduce))
    exact ⟨hmem, hsymbols, hpending, d', hgoto⟩
  · intro m s symbol last hrun
    exact ((explains_start T input).after?_consumed hT hn).rejected hT hrun

/-- On `x` and then something that is no symbol at all the run for a repetition ends in a rejection,
which is about that. -/
theorem run_stays_on_path_repetition :
    ∃ T conflicts', repetition.automaton.tables? .slr repetition.automaton.byPrecedence [] =
        some (T, conflicts') ∧
      ∃ s last, (Configuration.start T.parseTable [1, 7]).run T.parseTable 4 =
          .finished (.rejected s (some 7)) last ∧
        last.state = s ∧ last.pending = none ∧ last.lookahead = some 7 := by
  obtain ⟨T, conflicts', htables, hinputs⟩ := run_stays_on_path repetition .slr []
  obtain ⟨c, -, -, hstart, -, -, -, -, -, hrejected⟩ := hinputs [1, 7] 0
  obtain rfl : Configuration.start T.parseTable [1, 7] = c := Option.some.inj hstart
  have hreject : ((repetition.automaton.tables? .slr repetition.automaton.byPrecedence []).map
      fun r => match (Configuration.start r.1.parseTable [1, 7]).run r.1.parseTable 4 with
        | .finished (.rejected _ symbol) _ => symbol
        | _ => none) = some (some 7) := by
    decide +kernel
  rw [htables, Option.map_some, Option.some.injEq] at hreject
  split at hreject
  · next s symbol last hrun =>
    subst hreject
    obtain ⟨hs, hp, x, hx, hlookahead, -⟩ := hrejected 4 s _ last hrun
    exact ⟨T, conflicts', htables, s, last, hrun, hs, hp, hlookahead.trans hx.symm⟩
  · cases hreject

end Grammar

end SimpleLR
