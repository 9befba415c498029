import Mathlib.Algebra.GroupWithZero.Nat
import SimpleLR.Proofs.Parse.Stack

/-!
# Nothing of the input is lost or read twice

A symbol that is read waits, for as many steps as it takes, until it is put on the stack.  So at any
time the symbols that came from the input and were put on the stack, the one that is waiting and
those that have not been read make up the input, with the end of the input behind it once for each
time that it was read there.  A left-hand side is put on the stack as well, but it does not come
from the input.  Every step balances this account, and the account of the symbols that are on the
stack.

The records of a run are about any table, also one that makes the parser fail or go on for ever.

## Main Definitions

* `StepRecord` — a step, with the configurations before and after it
* `Configuration.records` — the records of a number of steps
* `StepRecord.taken`, `StepRecord.popped` — what a step moves from the input to the stack, and how
  much it takes off the stack

## Main Statements

* `Configuration.Effect.input_balance`, `Configuration.Effect.stack_balance` — one step
* `Configuration.input_balance`, `Configuration.stack_balance` — any number of steps
* `ParseTable.input_conserved` — both accounts, for a parser that has just been started
-/

namespace SimpleLR

variable {σ α : Type}

/-- A step that was made. -/
structure StepRecord (σ α : Type) where
  /-- The configuration before the step. -/
  before : Configuration σ α
  /-- What the step did. -/
  outcome : Outcome
  /-- The configuration after the step. -/
  after : Configuration σ α

namespace StepRecord

/-- Whether the step put a symbol on the stack. -/
def pushes (r : StepRecord σ α) : Bool := r.outcome == .shift || r.outcome == .goto

/-- The symbol that the step moved from the input to the stack: by a shift, or by a goto while no
left-hand side was pending. -/
def taken (r : StepRecord σ α) : List α :=
  match r.outcome, r.before.pending with
  | .shift, _ | .goto, none => (r.after.stack.head?.map (·.symbol)).toList
  | _, _ => []

/-- How many symbols the step took off the stack. -/
def popped (t : ParseTable σ α) (r : StepRecord σ α) : Nat :=
  match r.outcome, t.action? r.before.state (r.before.read t).1 with
  | .reduce, some (.reduce _ length) => length
  | _, _ => 0

/-- Whether the step read the end of the input: a symbol was needed, none was waiting, and the input
had been read. -/
def readsEnd (r : StepRecord σ α) : Bool :=
  !r.before.accepted && r.before.pending.isNone && r.before.lookahead.isNone &&
    r.before.input.isEmpty

end StepRecord

namespace Configuration

variable {t : ParseTable σ α} {c c' : Configuration σ α} {o : Outcome}

/-- The records of the next `n` steps. -/
def records (t : ParseTable σ α) : Nat → Configuration σ α → List (StepRecord σ α)
  | 0, _ => []
  | n + 1, c =>
    match c.step? t with
    | some (o, c') => ⟨c, o, c'⟩ :: records t n c'
    | none => []

theorem records_succ (h : c.step? t = some (o, c')) (n : Nat) :
    c.records t (n + 1) = ⟨c, o, c'⟩ :: c'.records t n := by
  rw [records, h]

/-! ### One step -/

/-- A symbol that is needed is there, or it is the end of the input. -/
theorem upcoming_eq (ha : c.accepted = false) (hp : c.pending = none) (o : Outcome)
    (c' : Configuration σ α) :
    c.upcoming t = c.ahead ++
      List.replicate (if (StepRecord.mk c o c').readsEnd then 1 else 0) t.endOfInput := by
  unfold upcoming ahead StepRecord.readsEnd
  rw [ha, hp]
  cases c.lookahead with
  | some x => simp
  | none =>
    cases c.input with
    | nil => rfl
    | cons x xs => simp

/-- **The account of the input over one step.** -/
theorem Effect.input_balance (he : Effect t c o c') :
    (StepRecord.mk c o c').taken ++ c'.ahead = c.ahead ++
      List.replicate (if (StepRecord.mk c o c').readsEnd then 1 else 0) t.endOfInput := by
  cases he with
  | rest ha => simp [StepRecord.taken, StepRecord.readsEnd, ha]
  | settle _ hp _ => simp [StepRecord.taken, StepRecord.readsEnd, hp, ahead, push]
  | strand _ hp _ => simp [StepRecord.taken, StepRecord.readsEnd, hp]
  | splice ha hp hu _ _ =>
    rw [← upcoming_eq ha hp, hu]
    simp [StepRecord.taken, hp, ahead, push]
  | shift ha hp hu _ _ =>
    rw [← upcoming_eq ha hp, hu]
    simp [StepRecord.taken, hp, ahead, push]
  | reduce ha hp hu _ _ hd =>
    rw [← upcoming_eq ha hp, hu, (pop?_eq_some hd).2]
    simp [StepRecord.taken, ahead]
  | accept ha hp hu _ _ =>
    rw [← upcoming_eq ha hp, hu]
    simp [StepRecord.taken, ahead]
  | refuse ha hp hu _ =>
    rw [← upcoming_eq ha hp, hu]
    simp [StepRecord.taken, ahead]

/-- **The account of the stack over one step.** -/
theorem Effect.stack_balance (he : Effect t c o c') :
    c'.stack.length + (StepRecord.mk c o c').popped t =
      c.stack.length + if (StepRecord.mk c o c').pushes then 1 else 0 := by
  cases he with
  | reduce _ _ hu _ hr hd =>
    obtain ⟨hlen, hstack⟩ := pop?_eq_some hd
    rw [hstack]
    simp only [StepRecord.popped, read_eq hu, hr, List.length_drop]
    exact Nat.sub_add_cancel hlen
  | rest => rfl
  | settle => rfl
  | strand => rfl
  | splice => rfl
  | shift => rfl
  | accept => rfl
  | refuse => rfl

/-! ### Any number of steps -/

/-- **The account of the input.** -/
theorem input_balance {n : Nat} (hn : c.after? t n = some c') :
    (c.records t n).flatMap StepRecord.taken ++ c'.ahead =
      c.ahead ++ List.replicate ((c.records t n).countP StepRecord.readsEnd) t.endOfInput := by
  induction n generalizing c with
  | zero =>
    obtain rfl : c = c' := Option.some.inj hn
    simp [records]
  | succ n ih =>
    rw [after?_succ] at hn
    obtain ⟨⟨o, d⟩, hstep, hn⟩ := Option.bind_eq_some_iff.1 hn
    rw [records_succ hstep, List.flatMap_cons, List.append_assoc, ih hn, List.countP_cons,
      Nat.add_comm, List.replicate_add, ← List.append_assoc, ← List.append_assoc,
      (effect_of_step? hstep).input_balance]

/-- **The account of the stack.** -/
theorem stack_balance {n : Nat} (hn : c.after? t n = some c') :
    c'.stack.length + ((c.records t n).map (StepRecord.popped t)).sum =
      c.stack.length + (c.records t n).countP StepRecord.pushes := by
  induction n generalizing c with
  | zero =>
    obtain rfl : c = c' := Option.some.inj hn
    rfl
  | succ n ih =>
    rw [after?_succ] at hn
    obtain ⟨⟨o, d⟩, hstep, hn⟩ := Option.bind_eq_some_iff.1 hn
    have hone := (effect_of_step? hstep).stack_balance
    have hrest := ih (c := d) hn
    rw [records_succ hstep, List.map_cons, List.sum_cons, List.countP_cons]
    omega

end Configuration

/-- **The input is conserved.**  Let a parser be started with any table on any input.  If all
look-ups are defined then so is any number of steps.  After any number of steps that are defined,
the symbols that were put on the stack by a shift, or by a goto while no left-hand side was pending,
followed by the symbol that is waiting and by what has not been read, are the input with the end of
the input behind it, as often as it has been read there.  And there are as many symbols on the stack
as were put there, less those that the reduces took off. -/
theorem ParseTable.input_conserved (t : ParseTable σ α) (input : List α) (n : Nat) :
    (t.Total → ∃ c, (Configuration.start t input).after? t n = some c) ∧
    ∀ c, (Configuration.start t input).after? t n = some c →
      ((Configuration.start t input).records t n).flatMap StepRecord.taken ++
          (c.lookahead.toList ++ c.input) =
        input ++ List.replicate
          (((Configuration.start t input).records t n).countP StepRecord.readsEnd) t.endOfInput ∧
      c.stack.length +
          (((Configuration.start t input).records t n).map (StepRecord.popped t)).sum =
        ((Configuration.start t input).records t n).countP StepRecord.pushes := by
  refine ⟨fun ht => Configuration.exists_after?_of_total ht n _, fun c hn => ⟨?_, ?_⟩⟩
  · exact Configuration.input_balance hn
  · have hstack := Configuration.stack_balance hn
    rw [show (Configuration.start t input).stack.length = 0 from rfl, Nat.zero_add] at hstack
    exact hstack

/-- On the word `1` two symbols are put on the stack in four steps, of which one came from the
input, and one is taken off; the end of the input is read once and is waiting. -/
theorem ParseTable.input_conserved_single :
    ∃ c, (Configuration.start ExplicitTable.single.parseTable [1]).after?
        ExplicitTable.single.parseTable 4 = some c ∧
      [1] ++ (c.lookahead.toList ++ c.input) = [1] ++ List.replicate 1 2 ∧
      c.stack.length + 1 = 2 := by
  obtain ⟨htotal, hall⟩ := input_conserved ExplicitTable.single.parseTable [1] 4
  obtain ⟨c, hn⟩ := htotal ExplicitTable.single.total
  obtain ⟨hinput, hstack⟩ := hall c hn
  have hrecords : (((Configuration.start ExplicitTable.single.parseTable [1]).records
      ExplicitTable.single.parseTable 4).flatMap StepRecord.taken,
      ((Configuration.start ExplicitTable.single.parseTable [1]).records
        ExplicitTable.single.parseTable 4).countP StepRecord.readsEnd,
      (((Configuration.start ExplicitTable.single.parseTable [1]).records
        ExplicitTable.single.parseTable 4).map
          (StepRecord.popped ExplicitTable.single.parseTable)).sum,
      ((Configuration.start ExplicitTable.single.parseTable [1]).records
        ExplicitTable.single.parseTable 4).countP StepRecord.pushes) = ([1], 1, 1, 2) := by
    decide +kernel
  simp only [Prod.mk.injEq] at hrecords
  obtain ⟨htaken, hreads, hpopped, hpushes⟩ := hrecords
  rw [htaken, hreads] at hinput
  rw [hpopped, hpushes] at hstack
  exact ⟨c, hn, hinput, hstack⟩

end SimpleLR
