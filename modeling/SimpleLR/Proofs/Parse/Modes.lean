import SimpleLR.Proofs.Parse.Invariant
import SimpleLR.Proofs.Table.Contests

/-!
# The two modes where the coarser lookahead is enough

If tables are made without a contest although every reduce applies on every terminal, then the finer
lookahead changes little.  There is no contest either, and the slots are the same, except that a
reduce is missing on the terminals that cannot follow its left-hand side.  So a parser with the
finer lookahead does the same, step by step, until it comes upon such a slot and rejects the input.

It rejects nothing that the other parser would accept.  From an accepting run something can be read
off that is derived from the start symbol: what is on the stack at some time, followed by what is
consumed afterwards.  If a left-hand side is pending at this time, then the next terminal comes
right behind it, and so this terminal is in its follow set.

## Main Definitions

* `Tables.Prunes` — the same slots, but for reduces on terminals that cannot follow

## Main Statements

* `Tables.Plain.prunes` — the slots in the two modes
* `Tables.Prunes.step?_cases` — one step in the two modes
* `Tables.Prunes.takeWhile_isPrefix` — a number of steps, up to a rejection
* `Tables.Faithful.mem_follow_of_run` — in a run that accepts, reduces are on terminals that can
  follow
* `Tables.Prunes.run_accepted_iff` — the same inputs are accepted
* `Grammar.slr_agrees_with_lr0` — all of it, for the tables of a grammar
-/

namespace SimpleLR

namespace Grammar

open Automaton

variable {g : Grammar}

/-! ### Contests in the two modes -/

/-- The coarser lookahead makes for more candidates. -/
theorem mem_candidates_lr0 {s t : Nat} {action : Action}
    (h : action ∈ g.automaton.candidates (g.automaton.lookahead .slr) s t) :
    action ∈ g.automaton.candidates (g.automaton.lookahead .lr0) s t := by
  obtain ⟨state, hs⟩ := exists_state?_of_mem_candidates h
  have hterm := isTerminal_of_mem_candidates h
  cases action with
  | reject => simp [mem_candidates_iff hs] at h
  | accept => simpa [mem_candidates_iff hs] using h
  | shift next => exact (shift_mem_candidates hs hterm).2 ((shift_mem_candidates hs hterm).1 h)
  | reduce r =>
    obtain ⟨p, hp, ht⟩ := (reduce_mem_candidates hs).1 h
    exact (reduce_mem_candidates hs).2 ⟨p, hp, mem_lookaheadOf_of_mem_follow .lr0 ht⟩

/-- If there are no contests with the coarser lookahead, then there are none with the finer one. -/
theorem uncontested_slr (h : g.automaton.Uncontested (g.automaton.lookahead .lr0)) :
    g.automaton.Uncontested (g.automaton.lookahead .slr) := by
  rintro c ⟨hoccupant, hreduce, hne⟩
  exact h c ⟨mem_candidates_lr0 hoccupant, mem_candidates_lr0 hreduce, hne⟩

end Grammar

namespace Tables

open Automaton Grammar SimpleLR.Configuration

variable {g : Grammar}

/-! ### The slots in the two modes -/

/-- The slots of `T` are those of `T₀`, except that they may be empty where `T₀` reduces on a
terminal that cannot follow the left-hand side. -/
structure Prunes (T T₀ : Tables g) : Prop where
  automaton : T.automaton = T₀.automaton
  slot : ∀ s t, T.slot? s t = T₀.slot? s t ∨
    T.slot? s t = some .reject ∧ ∃ r p, T₀.slot? s t = some (.reduce r) ∧
      T₀.automaton.reduceProduction? s r = some p ∧ t ∉ g.analyse.follow.setOf p.lhs

variable {T T₀ : Tables g}

/-- There are no slots where there is no state. -/
theorem Plain.slot?_eq_none {mode : Mode} (h : T.Plain mode) {s : Nat}
    (hs : g.automaton.state? s = none) (t : Nat) : T.slot? s t = none := by
  have hrow : T.row? s = none := by
    refine List.getElem?_eq_none ?_
    have hlen : g.automaton.numStates ≤ s := List.getElem?_eq_none_iff.1 hs
    rwa [← h.numStates] at hlen
  rw [slot?, hrow, Option.bind_none, ite_self]

/-- **The slots in the two modes**, if there are no contests. -/
theorem Plain.prunes (hfree : g.automaton.Uncontested (g.automaton.lookahead .lr0))
    (hT : T.Faithful .slr) (hT₀ : T₀.Faithful .lr0) (h : T.Plain .slr) (h₀ : T₀.Plain .lr0) :
    T.Prunes T₀ := by
  refine ⟨by rw [hT.automaton, hT₀.automaton], fun s t => ?_⟩
  by_cases ht : g.isTerminal t = true
  swap
  · exact Or.inl (by rw [slot?, slot?, if_neg ht, if_neg ht])
  cases hs : g.automaton.state? s with
  | none => exact Or.inl (by rw [h.slot?_eq_none hs, h₀.slot?_eq_none hs])
  | some state =>
    by_cases hr : ∃ r, .reduce r ∈ g.automaton.candidates (g.automaton.lookahead .slr) s t
    · obtain ⟨r, hr⟩ := hr
      exact Or.inl (by rw [h.reduce s t r hr, h₀.reduce s t r (mem_candidates_lr0 hr)])
    · rw [not_exists] at hr
      by_cases hr₀ : ∃ r, .reduce r ∈ g.automaton.candidates (g.automaton.lookahead .lr0) s t
      · -- the reduce is a candidate on all terminals, so its lookahead does not have this one
        obtain ⟨r, hr₀⟩ := hr₀
        obtain ⟨p, hp, -⟩ := (reduce_mem_candidates hs).1 hr₀
        refine Or.inr ⟨?_, r, p, h₀.reduce s t r hr₀, ?_, fun hfollow => ?_⟩
        · rw [h.other s state t hs ht hr]
          exact shiftRow_slot hfree hs hr₀
        · rwa [hT₀.automaton]
        · exact hr r ((reduce_mem_candidates hs).2 ⟨p, hp, hfollow⟩)
      · rw [not_exists] at hr₀
        exact Or.inl (by rw [h.other s state t hs ht hr, h₀.other s state t hs ht hr₀])

theorem Prunes.slot?_cases (h : T.Prunes T₀) (s t : Nat) :
    T.slot? s t = some .reject ∨ T.slot? s t = T₀.slot? s t :=
  (h.slot s t).elim Or.inr fun h => Or.inl h.1

/-! ### Steps in the two modes -/

theorem Prunes.goto? (h : T.Prunes T₀) (c : Configuration Nat Nat) (x : Nat)
    (settled : Configuration Nat Nat → Configuration Nat Nat) :
    c.goto? T.parseTable x settled = c.goto? T₀.parseTable x settled := by
  unfold Configuration.goto?
  show (T.automaton.goto? c.state x).map _ = (T₀.automaton.goto? c.state x).map _
  rw [h.automaton]

/-- Where the slots are the same, a symbol is dealt with in the same way. -/
theorem Prunes.consume? (h : T.Prunes T₀) {c : Configuration Nat Nat} {x : Nat}
    (hslot : T.slot? c.state x = T₀.slot? c.state x) :
    c.consume? T.parseTable x = c.consume? T₀.parseTable x := by
  have haction : T.parseAction? c.state x = T₀.parseAction? c.state x := by
    unfold parseAction?
    rw [hslot, h.automaton]
  unfold Configuration.consume?
  rw [h.goto?]
  show (if g.isNonterminal x = true then _ else (T.parseAction? c.state x).map _) =
    if g.isNonterminal x = true then _ else (T₀.parseAction? c.state x).map _
  rw [haction]

/-- **One step in the two modes** is the same, unless one parser rejects the input where the other
one reduces on a terminal that cannot follow. -/
theorem Prunes.step?_cases (h : T.Prunes T₀) (c : Configuration Nat Nat) :
    c.step? T.parseTable = c.step? T₀.parseTable ∨
      (∃ c', c.step? T.parseTable = some (.error, c')) ∧
        ∃ p, T₀.reduction? c = some p ∧
          (c.read T₀.parseTable).1 ∉ g.analyse.follow.setOf p.lhs := by
  cases ha : c.accepted with
  | true => exact Or.inl (by rw [step?_of_accepted ha, step?_of_accepted ha])
  | false =>
    cases hp : c.pending with
    | some lhs =>
      exact Or.inl (by rw [step?_of_pending ha hp, step?_of_pending ha hp, h.goto?])
    | none =>
      obtain ⟨x, xs, hu⟩ := c.exists_upcoming T₀.parseTable
      have hu' : c.upcoming T.parseTable = x :: xs := hu
      rcases h.slot c.state x with hslot | ⟨hempty, r, p, hslot, hr, hfollow⟩
      · refine Or.inl ?_
        rw [step?_of_upcoming ha hp hu', step?_of_upcoming ha hp hu]
        exact h.consume? hslot
      · have hx := g.isNonterminal_eq_false (isTerminal_of_slot? hslot)
        refine Or.inr ⟨⟨_, step?_reject ha hp hu' hx fun _ => hempty⟩, p, ?_, ?_⟩
        · rw [reduction?_eq ha hp hu hslot, hr]
        · rwa [read_eq hu]

theorem Faithful.exists_steps? {mode : Mode} (hT : T.Faithful mode) {c : Configuration Nat Nat}
    (hc : g.OnPath c) (n : Nat) : ∃ steps, c.steps? T.parseTable n = some steps := by
  induction n generalizing c with
  | zero => exact ⟨[], rfl⟩
  | succ n ih =>
    obtain ⟨o, c', hstep, hc'⟩ := hT.exists_step? hc
    obtain ⟨steps, hsteps⟩ := ih hc'
    refine ⟨(o, c') :: steps, ?_⟩
    rw [steps?, hstep, Option.bind_some, hsteps, Option.map_some]

/-- **A number of steps in the two modes** are the same up to a rejection. -/
theorem Prunes.takeWhile_isPrefix (h : T.Prunes T₀) {n : Nat} {c : Configuration Nat Nat}
    {steps steps₀ : List (Outcome × Configuration Nat Nat)}
    (hsteps : c.steps? T.parseTable n = some steps)
    (hsteps₀ : c.steps? T₀.parseTable n = some steps₀) :
    steps.takeWhile (fun r => r.1 != .error) <+: steps₀ := by
  induction n generalizing c steps steps₀ with
  | zero =>
    obtain rfl : [] = steps := Option.some.inj hsteps
    exact List.nil_prefix
  | succ n ih =>
    obtain ⟨r, hstep, hsteps⟩ := Option.bind_eq_some_iff.1 hsteps
    obtain ⟨rest, hrest, rfl⟩ := Option.map_eq_some_iff.1 hsteps
    by_cases herror : r.1 = .error
    · rw [List.takeWhile_cons_of_neg (by simp [herror])]
      exact List.nil_prefix
    · rcases h.step?_cases c with hsame | ⟨⟨c', hreject⟩, -⟩
      · obtain ⟨r₀, hstep₀, hsteps₀⟩ := Option.bind_eq_some_iff.1 hsteps₀
        obtain ⟨rest₀, hrest₀, rfl⟩ := Option.map_eq_some_iff.1 hsteps₀
        obtain rfl : r = r₀ := Option.some.inj (hstep.symm.trans (hsame.trans hstep₀))
        rw [List.takeWhile_cons_of_pos (by simpa using herror), List.prefix_cons_inj]
        exact ih hrest hrest₀
      · rw [Option.some.inj (hstep.symm.trans hreject)] at herror
        exact absurd rfl herror

/-! ### Runs that accept -/

section

variable {mode : Mode} {c : Configuration Nat Nat}

/-- The stack explains itself, as if it had been the input. -/
theorem explains_form (h : g.OnPath c) (ha : c.accepted = false) :
    Explains g (c.form ++ c.ahead) c.form [] c := by
  refine ⟨h, ⟨0, by simp⟩, .refl _, fun _ => .refl _, fun haccept => ?_⟩
  exact absurd haccept (ne_true_of_eq_false ha)

/-- **What a run that accepts derives** from the start symbol: what has been consumed, and then what
is consumed until the end of the input is read. -/
theorem Explains.derives_of_run {input consumed : List Nat} {performed : List Production}
    (h : Explains g input consumed performed c) (hT : T.Faithful mode) {n : Nat}
    {last : Configuration Nat Nat}
    (hrun : c.run T.parseTable n = .finished .accepted last) :
    ∃ more rest k, g.Derives [Grammar.start] (consumed ++ more) ∧
      consumed ++ (more ++ g.endOfInput :: rest) = input ++ List.replicate k g.endOfInput := by
  obtain ⟨m, d, o, hm, hstep, -, hverdict⟩ := exists_last_step hrun
  have ho : o = .accept := by
    by_contra ho
    rw [verdict, if_neg ho] at hverdict
    cases hverdict
  subst ho
  have hd := h.after?_consumed hT hm
  have hlast := hd.step_consumption hT hstep
  rw [consumption, List.append_nil] at hlast
  obtain ⟨hs, hp, rest, hahead⟩ := hlast.accepted (hT.accepted_of_step? hd.onPath hstep)
  obtain ⟨k, hk⟩ := hlast.input
  have hform : last.form = [Grammar.start] := by
    rw [form, hs, hp]
    rfl
  refine ⟨c.consumed T.parseTable m, rest, k, ⟨_, hform ▸ hlast.derivation⟩, ?_⟩
  rw [← hk, hahead, List.append_assoc]

/-- **In a run that accepts, reduces are on terminals that can follow** the left-hand side. -/
theorem Faithful.mem_follow_of_run (hT : T.Faithful mode) (h : g.OnPath c) {p : Production}
    (hr : T.reduction? c = some p) {n : Nat} {last : Configuration Nat Nat}
    (hrun : c.run T.parseTable n = .finished .accepted last) :
    (c.read T.parseTable).1 ∈ g.analyse.follow.setOf p.lhs := by
  obtain ⟨x, xs, hu⟩ := c.exists_upcoming T.parseTable
  obtain ⟨c', c'', hreduce, hmem, -, hpending, hahead, hgoto⟩ := hT.step?_of_reduction? h hr
  obtain ⟨ha, -, r, hslot, -⟩ := reduction?_eq_some_iff.1 hr
  rw [read_eq hu] at hslot ⊢
  have hx := isTerminal_of_slot? hslot
  obtain ⟨-, hpath⟩ := hT.effect h ha hreduce
  -- the run goes on from where the left-hand side is pending
  obtain ⟨m, hrun'⟩ : ∃ m, c'.run T.parseTable m = .finished .accepted last := by
    cases n with
    | zero => cases hrun
    | succ m => exact ⟨m, by rwa [run_succ hreduce] at hrun⟩
  obtain ⟨more, rest, k, ⟨ps, hderivation⟩, hinput⟩ :=
    (explains_form hpath (accepted_eq_false hgoto (by simp))).derives_of_run hT hrun'
  have hform : c'.form ++ more = c'.symbols ++ p.lhs :: more := by
    rw [form, hpending, List.append_assoc]
    rfl
  rw [hform] at hderivation
  have hbegin : g.CanBegin x (x = g.endOfInput) more := by
    rw [List.append_assoc, List.append_cancel_left_eq, hahead, hu] at hinput
    cases more with
    | nil => exact (List.cons_eq_cons.1 hinput).1.symm
    | cons y more =>
      obtain rfl : y = x := (List.cons_eq_cons.1 hinput).1
      exact canBegin_cons hx more
  exact mem_follow_of_derivation hderivation (g.isNonterminal_lhs hmem) hbegin

end

/-- **The same inputs are accepted in the two modes**, after the same number of steps. -/
theorem Prunes.run_accepted_iff {mode : Mode} (h : T.Prunes T₀) (hT₀ : T₀.Faithful mode)
    {c last : Configuration Nat Nat} (hc : g.OnPath c) {n : Nat} :
    c.run T.parseTable n = .finished .accepted last ↔
      c.run T₀.parseTable n = .finished .accepted last := by
  induction n generalizing c with
  | zero => rfl
  | succ n ih =>
    obtain ⟨o, c', hstep₀, hc'⟩ := hT₀.exists_step? hc
    rcases h.step?_cases c with hsame | ⟨⟨d, hreject⟩, p, hr, hfollow⟩
    · rw [run_succ (hsame.trans hstep₀), run_succ hstep₀]
      cases o.isFinal with
      | true => rfl
      | false => exact ih hc'
    · -- neither parser accepts
      constructor
      · intro hrun
        rw [run_succ hreject] at hrun
        cases hrun
      · intro hrun
        exact absurd (hT₀.mem_follow_of_run hc hr hrun) hfollow

end Tables

namespace Grammar

open Automaton Tables

/-- **The two modes agree where the coarser lookahead is enough.**  Suppose that tables in which
every reduce applies on every terminal are made without the resolver being asked.  Then, whatever
the resolver, it is not asked either when tables with the finer lookahead are made.  A slot of these
is empty or holds the same.  On any input, nonterminals in it included, the two parsers do the same
in any number of steps up to the first rejection by the one with the finer lookahead; and the one
accepts the input just if the other one does, in the same step and with the same configuration in
the end. -/
theorem slr_agrees_with_lr0 (g : Grammar) {σ₀ : Type} (R₀ : Resolver σ₀) {st₀ st₀' : σ₀}
    {T₀ : Tables g}
    (hunasked : g.automaton.tables? .lr0 R₀.logged (st₀, []) = some (T₀, st₀', []))
    {σ : Type} (R : Resolver σ) (st : σ) :
    g.automaton.tables? .lr0 R₀ st₀ = some (T₀, st₀') ∧
    ∃ T, g.automaton.tables? .slr R.logged (st, []) = some (T, st, []) ∧
      g.automaton.tables? .slr R st = some (T, st) ∧
      (∀ s t, T.slot? s t = some .reject ∨ T.slot? s t = T₀.slot? s t) ∧
      ∀ input : List Nat,
        (∀ n, ∃ steps steps₀,
          (Configuration.start T.parseTable input).steps? T.parseTable n = some steps ∧
          (Configuration.start T₀.parseTable input).steps? T₀.parseTable n = some steps₀ ∧
          steps.takeWhile (fun r => r.1 != .error) <+: steps₀) ∧
        ∀ n c,
          (Configuration.start T.parseTable input).run T.parseTable n = .finished .accepted c ↔
            (Configuration.start T₀.parseTable input).run T₀.parseTable n =
              .finished .accepted c := by
  have hfree := uncontested_of_tables?_logged hunasked
  obtain ⟨T₀', htables₀, hT₀, hplain₀⟩ := exists_plain_tables hfree R₀.logged (st₀, [])
  obtain rfl : T₀ = T₀' :=
    (Prod.mk.inj (Option.some.inj (hunasked.symm.trans htables₀))).1
  obtain ⟨T, htables, hT, hplain⟩ :=
    exists_plain_tables (uncontested_slr hfree) R.logged (st, [])
  have hprunes := Plain.prunes hfree hT hT₀ hplain hplain₀
  refine ⟨?_, T, htables, ?_, hprunes.slot?_cases, fun input => ⟨fun n => ?_, fun n c => ?_⟩⟩
  · rw [← g.automaton.tables?_logged .lr0 R₀ st₀ [], hunasked]
    rfl
  · rw [← g.automaton.tables?_logged .slr R st [], htables]
    rfl
  · obtain ⟨steps, hsteps⟩ := hT.exists_steps? (onPath_start T input) n
    obtain ⟨steps₀, hsteps₀⟩ := hT₀.exists_steps? (onPath_start T₀ input) n
    exact ⟨steps, steps₀, hsteps, hsteps₀, hprunes.takeWhile_isPrefix hsteps hsteps₀⟩
  · exact hprunes.run_accepted_iff hT₀ (onPath_start T input)

/-- The terminal `c` between as many `a` as `b`, by the productions `S := a S b` and `S := c`. -/
def nesting : Grammar :=
  ofWellFormed [⟨"S", none⟩, ⟨"a", none⟩, ⟨"b", none⟩, ⟨"c", none⟩, ⟨"$end", none⟩] 1
    [[⟨[1, 0, 2], none⟩, ⟨[3], none⟩]]
    ⟨by decide, by decide, by decide, by decide, by decide, by decide⟩

/-- A nesting needs no lookahead.  On `c a` the parser with the finer lookahead rejects `a` at once,
where the other one reduces first, and both accept `a S b`. -/
theorem slr_agrees_with_lr0_nesting :
    ∃ T₀ T, nesting.automaton.tables? .lr0 nesting.automaton.byPrecedence.logged ([], []) =
        some (T₀, [], []) ∧
      nesting.automaton.tables? .slr nesting.automaton.byPrecedence [] = some (T, []) ∧
      (∃ steps steps₀,
        (Configuration.start T.parseTable [3, 1]).steps? T.parseTable 3 = some steps ∧
        (Configuration.start T₀.parseTable [3, 1]).steps? T₀.parseTable 3 = some steps₀ ∧
        steps.map (·.1) = [.shift, .error, .error] ∧
        steps₀.map (·.1) = [.shift, .reduce, .goto] ∧
        steps.takeWhile (fun r => r.1 != .error) <+: steps₀) ∧
      ∃ c, (Configuration.start T₀.parseTable [1, 0, 2]).run T₀.parseTable 6 =
          .finished .accepted c ∧
        (Configuration.start T.parseTable [1, 0, 2]).run T.parseTable 6 =
          .finished .accepted c := by
  have hlog : (nesting.automaton.tables? .lr0 nesting.automaton.byPrecedence.logged ([], [])).map
      (·.2) = some ([], []) := by
    decide +kernel
  obtain ⟨⟨T₀, st₀, log⟩, htables₀, hnone⟩ := Option.map_eq_some_iff.1 hlog
  obtain ⟨rfl, rfl⟩ := Prod.mk.inj hnone
  obtain ⟨hlr0, T, -, hslr, -, hinputs⟩ := slr_agrees_with_lr0 nesting _ htables₀
    nesting.automaton.byPrecedence []
  obtain ⟨steps, steps₀, hsteps, hsteps₀, hsame⟩ := (hinputs [3, 1]).1 3
  have hfine : ((nesting.automaton.tables? .slr nesting.automaton.byPrecedence []).bind fun r =>
      ((Configuration.start r.1.parseTable [3, 1]).steps? r.1.parseTable 3).map
        (·.map (·.1))) = some [.shift, .error, .error] := by
    decide +kernel
  rw [hslr, Option.bind_some, hsteps, Option.map_some, Option.some.injEq] at hfine
  have hcoarse : ((nesting.automaton.tables? .lr0 nesting.automaton.byPrecedence []).bind fun r =>
      ((Configuration.start r.1.parseTable [3, 1]).steps? r.1.parseTable 3).map
        (·.map (·.1))) = some [.shift, .reduce, .goto] := by
    decide +kernel
  rw [hlr0, Option.bind_some, hsteps₀, Option.map_some, Option.some.injEq] at hcoarse
  have haccept : ((nesting.automaton.tables? .lr0 nesting.automaton.byPrecedence []).map fun r =>
      match (Configuration.start r.1.parseTable [1, 0, 2]).run r.1.parseTable 6 with
      | .finished .accepted _ => true
      | _ => false) = some true := by
    decide +kernel
  rw [hlr0, Option.map_some, Option.some.injEq] at haccept
  split at haccept
  · next c hrun =>
    exact ⟨T₀, T, htables₀, hslr, ⟨steps, steps₀, hsteps, hsteps₀, hfine, hcoarse, hsame⟩, c, hrun,
      ((hinputs [1, 0, 2]).2 6 c).2 hrun⟩
  · cases haccept

end Grammar

end SimpleLR
