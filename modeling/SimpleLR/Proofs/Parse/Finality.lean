import SimpleLR.Proofs.Parse.Completeness
import SimpleLR.Proofs.Parse.Stack

/-!
# Nothing happens after the end

A parser may be asked for another step when it has accepted or rejected its input.  Whatever the
table says, it gives the same answer again and stays as it is.  When it has accepted this is
remembered.  When it has rejected nothing is remembered, but nothing has been given up either: the
stack, the state and a pending left-hand side are those from before the step, and the symbol that
was refused is waiting, so that the same thing is looked up and found again.

It follows that it does not matter where a run is begun.  From any configuration on the way, and
from the last one, a run comes to the same verdict in the same configuration.

## Main Statements

* `Configuration.Effect.of_error` — a step that rejects changes nothing but what has been read
* `Configuration.step?_of_isFinal` — after the end each step is the last one again
* `Configuration.run_of_after?` — all runs along the way have the same end
* `ParseTable.final_steps_absorb` — the three of them for any table
-/

namespace SimpleLR

variable {σ α : Type}

namespace Configuration

variable {t : ParseTable σ α} {b c c' d : Configuration σ α} {o : Outcome}

/-! ### One more step -/

/-- A symbol that is waiting is not read once more. -/
theorem read_of_lookahead {x : α} (h : c.lookahead = some x) : c.read t = (x, c) := by
  rw [read, h]

/-- **A step that rejects changes nothing but what has been read**, and reads a symbol only if none
was waiting and no left-hand side was pending. -/
theorem Effect.of_error (he : Effect t c .error c') :
    c'.stack = c.stack ∧ c'.state = c.state ∧ c'.accepted = c.accepted ∧ c'.pending = c.pending ∧
      (c' = c ∨ c.lookahead = none ∧ c.pending = none ∧ c' = (c.read t).2) := by
  cases he with
  | strand => exact ⟨rfl, rfl, rfl, rfl, Or.inl rfl⟩
  | @refuse x xs _ hp hu _ =>
    refine ⟨rfl, rfl, rfl, rfl, ?_⟩
    have hread := read_eq hu
    cases hl : c.lookahead with
    | none => exact Or.inr ⟨rfl, hp, by rw [hread]⟩
    | some y =>
      rw [read_of_lookahead hl] at hread
      exact Or.inl (Prod.mk.inj hread).2.symm

/-- **After the end each step is the last one again.** -/
theorem step?_of_isFinal (hstep : c.step? t = some (o, c')) (ho : o.isFinal = true) :
    c'.step? t = some (o, c') := by
  cases effect_of_step? hstep with
  | rest => exact hstep
  | strand => exact hstep
  | accept => exact step?_of_accepted rfl
  | @refuse x xs ha hp hu _ =>
    -- the symbol that was refused is waiting, so it comes next again
    have hagain : ({ c with lookahead := some x, input := xs } : Configuration σ α).step? t =
        ({ c with lookahead := some x, input := xs } : Configuration σ α).consume? t x :=
      step?_of_upcoming ha hp rfl
    rw [step?_of_upcoming ha hp hu] at hstep
    exact hagain.trans hstep
  | settle => cases ho
  | splice => cases ho
  | shift => cases ho
  | reduce => cases ho

/-! ### Any number of steps -/

theorem after?_of_isFinal (hstep : c.step? t = some (o, c')) (ho : o.isFinal = true) (n : Nat) :
    c'.after? t n = some c' := by
  have hself := step?_of_isFinal hstep ho
  induction n with
  | zero => rfl
  | succ n ih => rw [after?_succ, hself, Option.bind_some, ih]

theorem steps?_of_isFinal (hstep : c.step? t = some (o, c')) (ho : o.isFinal = true) (n : Nat) :
    c'.steps? t n = some (List.replicate n (o, c')) := by
  have hself := step?_of_isFinal hstep ho
  induction n with
  | zero => rfl
  | succ n ih => rw [steps?, hself, Option.bind_some, ih, Option.map_some, List.replicate_succ]

/-- A run comes to the end that the steps come to. -/
theorem run_of_step? {n : Nat} (hn : b.after? t n = some c) (hstep : c.step? t = some (o, c'))
    (ho : o.isFinal = true) {k : Nat} (hk : n < k) : b.run t k = .finished (verdict o c') c' := by
  induction n generalizing b k with
  | zero =>
    obtain rfl : b = c := Option.some.inj hn
    obtain ⟨k, rfl⟩ := Nat.exists_eq_add_one.2 hk
    rw [run_succ hstep, if_pos ho]
  | succ n ih =>
    obtain ⟨k, rfl⟩ := Nat.exists_eq_add_one.2 (Nat.zero_lt_of_lt hk)
    rw [after?_succ] at hn
    obtain ⟨⟨o₁, b₁⟩, hfirst, hn⟩ := Option.bind_eq_some_iff.1 hn
    rw [run_succ hfirst]
    by_cases ho₁ : o₁.isFinal = true
    · -- the end has come already, so the step in `c` is the first one again
      obtain rfl : b₁ = c := Option.some.inj ((after?_of_isFinal hfirst ho₁ n).symm.trans hn)
      have hagain := (step?_of_isFinal hfirst ho₁).symm.trans hstep
      obtain ⟨rfl, rfl⟩ := Prod.mk.inj (Option.some.inj hagain)
      rw [if_pos ho]
    · rw [if_neg ho₁]
      exact ih hn (Nat.lt_of_succ_lt_succ hk)

/-- **All runs along the way have the same end**, also those that begin in the last configuration.
-/
theorem run_of_after? {n i : Nat} (hn : b.after? t n = some c) (hstep : c.step? t = some (o, c'))
    (ho : o.isFinal = true) (hi : b.after? t i = some d) {k : Nat} (hk : n < k) :
    d.run t k = .finished (verdict o c') c' := by
  rcases Nat.lt_or_ge n i with hlt | hle
  · obtain ⟨m, rfl⟩ := Nat.exists_eq_add_of_lt hlt
    rw [Nat.add_assoc, after?_add, hn, Option.bind_some, after?_succ, hstep, Option.bind_some,
      after?_of_isFinal hstep ho] at hi
    obtain rfl : c' = d := Option.some.inj hi
    exact run_of_step? rfl (step?_of_isFinal hstep ho) ho (Nat.zero_lt_of_lt hk)
  · obtain ⟨m, rfl⟩ := Nat.exists_eq_add_of_le hle
    rw [after?_add, hi, Option.bind_some] at hn
    exact run_of_step? hn hstep ho (Nat.lt_of_le_of_lt (Nat.le_add_left m i) hk)

end Configuration

/-- **Nothing happens after the end.**  Let a parser make a step with any table, in any
configuration that it may have come to.  If the step rejects the input, then the stack, the state,
whether the input is accepted and what is pending stay as they are; at most a symbol is read, if
none was waiting and nothing was pending.  If the step rejects or accepts the input, then all
further steps do the same and change nothing.  And a run that begins in a configuration on the way
there, or there, comes to the same verdict in the same configuration. -/
theorem ParseTable.final_steps_absorb (t : ParseTable σ α) (c c' : Configuration σ α) (o : Outcome)
    (hstep : c.step? t = some (o, c')) :
    (o = .error →
      c'.stack = c.stack ∧ c'.state = c.state ∧ c'.accepted = c.accepted ∧
        c'.pending = c.pending ∧
        (c' = c ∨ c.lookahead = none ∧ c.pending = none ∧ c' = (c.read t).2)) ∧
    (o = .error ∨ o = .accept →
      (∀ n, c'.steps? t n = some (List.replicate n (o, c'))) ∧
      (∀ (b d : Configuration σ α) n i, b.after? t n = some c → b.after? t i = some d →
        ∀ k, n < k → d.run t k = .finished (Configuration.verdict o c') c') ∧
      ∀ k, 0 < k → c'.run t k = .finished (Configuration.verdict o c') c') := by
  constructor
  · rintro rfl
    exact (Configuration.effect_of_step? hstep).of_error
  · intro hfinal
    have ho : o.isFinal = true := by
      rcases hfinal with rfl | rfl
      · rfl
      · rfl
    refine ⟨Configuration.steps?_of_isFinal hstep ho, fun b d n i hn hi k hk => ?_, fun k hk => ?_⟩
    · exact Configuration.run_of_after? hn hstep ho hi hk
    · exact Configuration.run_of_step? rfl (Configuration.step?_of_isFinal hstep ho) ho hk

/-- The empty word is rejected by a reduce of more symbols than there are; the end of the input has
been read then and stays.  On the word `1` the run from the second configuration ends like the run
from the first. -/
theorem ParseTable.final_steps_absorb_single :
    (∃ c', (Configuration.start ExplicitTable.single.parseTable []).step?
          ExplicitTable.single.parseTable = some (.error, c') ∧
        c'.stack = [] ∧ c'.lookahead = some 2 ∧
        c'.run ExplicitTable.single.parseTable 1 = .finished (.rejected 0 (some 2)) c') ∧
      ∃ d c', (Configuration.start ExplicitTable.single.parseTable [1]).after?
          ExplicitTable.single.parseTable 1 = some d ∧
        (Configuration.start ExplicitTable.single.parseTable [1]).run
          ExplicitTable.single.parseTable 4 = .finished .accepted c' ∧
        d.run ExplicitTable.single.parseTable 4 = .finished .accepted c' ∧
        c'.steps? ExplicitTable.single.parseTable 2 =
          some [(.accept, c'), (.accept, c')] := by
  constructor
  · obtain ⟨-, hend⟩ := final_steps_absorb ExplicitTable.single.parseTable
      (Configuration.start ExplicitTable.single.parseTable [])
      ⟨[], 0, false, some 2, none, []⟩ .error (by decide)
    exact ⟨_, by decide, rfl, rfl, (hend (Or.inl rfl)).2.2 1 Nat.one_pos⟩
  · obtain ⟨-, hend⟩ := final_steps_absorb ExplicitTable.single.parseTable
      ⟨[⟨0, 0⟩], 2, false, some 2, none, []⟩ ⟨[⟨0, 0⟩], 2, true, some 2, none, []⟩ .accept
      (by decide)
    obtain ⟨hsteps, hruns, -⟩ := hend (Or.inr rfl)
    have hall := hruns (Configuration.start ExplicitTable.single.parseTable [1])
    exact ⟨⟨[⟨0, 1⟩], 1, false, none, none, []⟩, _, by decide,
      hall _ 3 0 (by decide) rfl 4 (Nat.lt_succ_self 3),
      hall _ 3 1 (by decide) (by decide) 4 (Nat.lt_succ_self 3), hsteps 2⟩

end SimpleLR
