import SimpleLR.Proofs.Parse.Step

/-!
# What a step does, whatever the table says

A parse table need not come from a grammar.  It may send the parser anywhere, reduce by more symbols
than there are on the stack, or give a left-hand side no next state.  Still there are only a few
things that a step can do to a configuration, and each goes with an answer of the table.

## Main Definitions

* `ParseTable.Total` — all look-ups are defined
* `Configuration.Refuses` — the table has no use for the next symbol
* `Configuration.Effect` — what a step can do

## Main Statements

* `Configuration.effect_of_step?` — a step that is defined has one of these effects
* `Configuration.exists_after?_of_total` — all steps are defined if all look-ups are
* `Configuration.after?_inv` — what every step keeps is kept by any number of them
-/

namespace SimpleLR

variable {σ α : Type}

/-- All look-ups in the table are defined. -/
structure ParseTable.Total (t : ParseTable σ α) : Prop where
  action : ∀ s x, ∃ action, t.action? s x = some action
  goto : ∀ s x, ∃ next?, t.goto? s x = some next?

/-- In a table that is written out all look-ups are defined. -/
theorem ExplicitTable.total (t : ExplicitTable) : t.parseTable.Total :=
  ⟨fun _ _ => ⟨_, rfl⟩, fun _ _ => ⟨_, rfl⟩⟩

namespace Configuration

variable {t : ParseTable σ α} {c c' : Configuration σ α} {o : Outcome}

/-- Taking symbols off the stack changes nothing but the stack and the state. -/
theorem pop?_eq_some {n : Nat} (h : c.pop? n = some c') :
    n ≤ c.stack.length ∧ c' = { c with stack := c.stack.drop n, state := c'.state } := by
  cases n with
  | zero =>
    obtain rfl : c = c' := Option.some.inj h
    exact ⟨Nat.zero_le _, rfl⟩
  | succ n =>
    obtain ⟨f, hf, rfl⟩ := Option.map_eq_some_iff.1 h
    exact ⟨(List.getElem?_eq_some_iff.1 hf).1, rfl⟩

/-! ### The effects of a step -/

/-- The table has no use for the symbol `x` in this configuration: there is no next state for it if
it is a nonterminal, and otherwise it is to be rejected, or there are not as many symbols on the
stack as are to be reduced. -/
def Refuses (t : ParseTable σ α) (c : Configuration σ α) (x : α) : Prop :=
  t.isNonterminal x = true ∧ t.goto? c.state x = some none ∨
    t.isNonterminal x = false ∧ (t.action? c.state x = some .reject ∨
      ∃ lhs length, t.action? c.state x = some (.reduce lhs length) ∧ c.stack.length < length)

/-- What a step can do. -/
inductive Effect (t : ParseTable σ α) (c : Configuration σ α) :
    Outcome → Configuration σ α → Prop where
  /-- The input has been accepted before. -/
  | rest (ha : c.accepted = true) : Effect t c .accept c
  /-- The left-hand side of the last reduce is put on the stack. -/
  | settle {lhs : α} {next : σ} (ha : c.accepted = false) (hp : c.pending = some lhs)
      (hg : t.goto? c.state lhs = some (some next)) :
      Effect t c .goto { c.push lhs next with pending := none }
  /-- There is no next state for the left-hand side of the last reduce. -/
  | strand {lhs : α} (ha : c.accepted = false) (hp : c.pending = some lhs)
      (hg : t.goto? c.state lhs = some none) : Effect t c .error c
  /-- The next symbol, a nonterminal, is put on the stack. -/
  | splice {x : α} {xs : List α} {next : σ} (ha : c.accepted = false) (hp : c.pending = none)
      (hu : c.upcoming t = x :: xs) (hx : t.isNonterminal x = true)
      (hg : t.goto? c.state x = some (some next)) :
      Effect t c .goto { c.push x next with lookahead := none, input := xs }
  /-- The next symbol, a terminal, is put on the stack. -/
  | shift {x : α} {xs : List α} {next : σ} (ha : c.accepted = false) (hp : c.pending = none)
      (hu : c.upcoming t = x :: xs) (hx : t.isNonterminal x = false)
      (hs : t.action? c.state x = some (.shift next)) :
      Effect t c .shift { c.push x next with lookahead := none, input := xs }
  /-- Symbols are taken off the stack. -/
  | reduce {x lhs : α} {xs : List α} {length : Nat} {d : Configuration σ α}
      (ha : c.accepted = false) (hp : c.pending = none) (hu : c.upcoming t = x :: xs)
      (hx : t.isNonterminal x = false) (hr : t.action? c.state x = some (.reduce lhs length))
      (hd : ({ c with lookahead := some x, input := xs } : Configuration σ α).pop? length =
        some d) :
      Effect t c .reduce { d with pending := some lhs }
  /-- The input is accepted. -/
  | accept {x : α} {xs : List α} (ha : c.accepted = false) (hp : c.pending = none)
      (hu : c.upcoming t = x :: xs) (hx : t.isNonterminal x = false)
      (hs : t.action? c.state x = some .accept) :
      Effect t c .accept { c with accepted := true, lookahead := some x, input := xs }
  /-- The next symbol is refused. -/
  | refuse {x : α} {xs : List α} (ha : c.accepted = false) (hp : c.pending = none)
      (hu : c.upcoming t = x :: xs) (hx : c.Refuses t x) :
      Effect t c .error { c with lookahead := some x, input := xs }

/-- The effect of an action on the next symbol. -/
theorem effect_of_action (ha : c.accepted = false) (hp : c.pending = none) {x : α} {xs : List α}
    (hu : c.upcoming t = x :: xs) (hx : t.isNonterminal x = false) {action : ParseAction σ α}
    (haction : t.action? c.state x = some action) :
    Effect t c
      (({ c with lookahead := some x, input := xs } : Configuration σ α).act x action).1
      (({ c with lookahead := some x, input := xs } : Configuration σ α).act x action).2 := by
  cases action with
  | shift next => exact .shift ha hp hu hx haction
  | accept => exact .accept ha hp hu hx haction
  | reject => exact .refuse ha hp hu (Or.inr ⟨hx, Or.inl haction⟩)
  | reduce lhs length =>
    unfold act
    dsimp only
    split
    · next d hd => exact .reduce ha hp hu hx haction hd
    · next hd =>
      refine .refuse ha hp hu (Or.inr ⟨hx, Or.inr ⟨lhs, length, haction, ?_⟩⟩)
      cases length with
      | zero => cases hd
      | succ n =>
        have hnone := Option.map_eq_none_iff.1 hd
        exact Nat.lt_succ_of_le (List.getElem?_eq_none_iff.1 hnone)

/-- **A step that is defined has one of the effects.** -/
theorem effect_of_step? (h : c.step? t = some (o, c')) : Effect t c o c' := by
  cases ha : c.accepted with
  | true =>
    rw [step?_of_accepted ha] at h
    obtain ⟨rfl, rfl⟩ := Prod.mk.inj (Option.some.inj h)
    exact .rest ha
  | false =>
    cases hp : c.pending with
    | some lhs =>
      rw [step?_of_pending ha hp] at h
      obtain ⟨next?, hg, h⟩ := Option.map_eq_some_iff.1 h
      cases next? with
      | some next =>
        obtain ⟨rfl, rfl⟩ := Prod.mk.inj h
        exact .settle ha hp hg
      | none =>
        obtain ⟨rfl, rfl⟩ := Prod.mk.inj h
        exact .strand ha hp hg
    | none =>
      obtain ⟨x, xs, hu⟩ := c.exists_upcoming t
      rw [step?_of_upcoming ha hp hu, consume?] at h
      cases hx : t.isNonterminal x with
      | true =>
        rw [hx, if_pos rfl] at h
        obtain ⟨next?, hg, h⟩ := Option.map_eq_some_iff.1 h
        cases next? with
        | some next =>
          obtain ⟨rfl, rfl⟩ := Prod.mk.inj h
          exact .splice ha hp hu hx hg
        | none =>
          obtain ⟨rfl, rfl⟩ := Prod.mk.inj h
          exact .refuse ha hp hu (Or.inl ⟨hx, hg⟩)
      | false =>
        rw [hx, if_neg (by simp)] at h
        obtain ⟨action, haction, h⟩ := Option.map_eq_some_iff.1 h
        obtain ⟨rfl, rfl⟩ := Prod.mk.inj h
        exact effect_of_action ha hp hu hx haction

/-! ### Any number of steps -/

theorem exists_step?_of_total (ht : t.Total) (c : Configuration σ α) :
    ∃ o c', c.step? t = some (o, c') := by
  cases ha : c.accepted with
  | true => exact ⟨_, _, step?_of_accepted ha⟩
  | false =>
    cases hp : c.pending with
    | some lhs =>
      obtain ⟨next?, hg⟩ := ht.goto c.state lhs
      rw [step?_of_pending ha hp, goto?, hg]
      exact ⟨_, _, rfl⟩
    | none =>
      obtain ⟨x, xs, hu⟩ := c.exists_upcoming t
      rw [step?_of_upcoming ha hp hu, consume?]
      split
      · obtain ⟨next?, hg⟩ := ht.goto c.state x
        show ∃ o c', (t.goto? c.state x).map _ = some (o, c')
        rw [hg]
        exact ⟨_, _, rfl⟩
      · obtain ⟨action, haction⟩ := ht.action c.state x
        show ∃ o c', (t.action? c.state x).map _ = some (o, c')
        rw [haction]
        exact ⟨_, _, rfl⟩

/-- **All steps are defined if all look-ups are.** -/
theorem exists_after?_of_total (ht : t.Total) (n : Nat) (c : Configuration σ α) :
    ∃ c', c.after? t n = some c' := by
  induction n generalizing c with
  | zero => exact ⟨c, rfl⟩
  | succ n ih =>
    obtain ⟨o, d, hstep⟩ := exists_step?_of_total ht c
    obtain ⟨c', hn⟩ := ih d
    refine ⟨c', ?_⟩
    rw [after?_succ, hstep]
    exact hn

/-- **What every effect keeps is kept by any number of steps.** -/
theorem after?_inv {I : Configuration σ α → Prop}
    (hstep : ∀ c o c', Effect t c o c' → I c → I c') (hc : I c) {n : Nat}
    (hn : c.after? t n = some c') : I c' := by
  induction n generalizing c with
  | zero =>
    obtain rfl : c = c' := Option.some.inj hn
    exact hc
  | succ n ih =>
    rw [after?_succ] at hn
    obtain ⟨⟨o, d⟩, hd, hn⟩ := Option.bind_eq_some_iff.1 hn
    exact ih (hstep c o d (effect_of_step? hd) hc) hn

end Configuration

end SimpleLR
