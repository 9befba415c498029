import SimpleLR.Proofs.Grammar.Derivation
import SimpleLR.Proofs.Parse.Step

/-!
# Accepted inputs are derived

At any time the string on the stack derives what has been consumed, by the productions of the
reduces so far in reverse order: a reduce adds a derivation step at the beginning, and consuming a
symbol adds the symbol on both sides.  When the input is accepted the start symbol is all there is
on the stack, so it derives what has been consumed.

No property of the lookahead is used, and it does not matter how contests are decided.

## Main Definitions

* `Tables.reductions` — the productions of the reduces in a number of steps
* `Configuration.consumed` — the symbols consumed in a number of steps
* `Configuration.form` — the string on the stack, with the left-hand side that is pending
* `Tables.Explains` — the invariant

## Main Statements

* `Tables.Explains.step_consumption`, `Tables.Explains.after?_consumed` — one step, and a number of
  them
* `Grammar.exists_derivation_of_accept` — an accepted input is derived
-/

namespace SimpleLR

namespace Configuration

variable {σ α : Type}

/-- The string on the stack, with the left-hand side that is pending behind it. -/
def form (c : Configuration σ α) : List α := c.symbols ++ c.pending.toList

/-- What a step with the given outcome consumes of the input: the symbol that it puts on the stack,
unless this is the left-hand side of the last reduce. -/
def consumption (t : ParseTable σ α) (c : Configuration σ α) : Outcome → List α
  | .shift => [(c.read t).1]
  | .goto => if c.pending.isSome then [] else [(c.read t).1]
  | .reduce | .accept | .error => []

/-- What the next `n` steps consume of the input. -/
def consumed (t : ParseTable σ α) : Nat → Configuration σ α → List α
  | 0, _ => []
  | n + 1, c =>
    match c.step? t with
    | some (o, c') => c.consumption t o ++ consumed t n c'
    | none => []

theorem consumed_succ {t : ParseTable σ α} {c c' : Configuration σ α} {o : Outcome}
    (h : c.step? t = some (o, c')) (n : Nat) :
    c.consumed t (n + 1) = c.consumption t o ++ c'.consumed t n := by
  rw [consumed, h]

end Configuration

namespace Tables

open Automaton Grammar

variable {g : Grammar} (T : Tables g)

/-- The productions of the reduces in the next `n` steps, in the order in which they are done. -/
def reductions : Nat → Configuration Nat Nat → List Production
  | 0, _ => []
  | n + 1, c =>
    match c.step? T.parseTable with
    | some (o, c') => (if o = .reduce then (T.reduction? c).toList else []) ++ reductions n c'
    | none => []

theorem reductions_succ {c c' : Configuration Nat Nat} {o : Outcome}
    (h : c.step? T.parseTable = some (o, c')) (n : Nat) :
    T.reductions (n + 1) c =
      (if o = .reduce then (T.reduction? c).toList else []) ++ T.reductions n c' := by
  rw [reductions, h]

/-- What is on the stack derives what has been consumed of the input, by the productions of the
reduces so far in reverse order. -/
structure Explains (g : Grammar) (input consumed : List Nat) (performed : List Production)
    (c : Configuration Nat Nat) : Prop where
  onPath : g.OnPath c
  /-- What has been consumed and what has not are the input, with the end of the input repeated. -/
  input : ∃ k, consumed ++ c.ahead = input ++ List.replicate k g.endOfInput
  derivation : g.Derivation c.form performed.reverse consumed
  rightDerivation : g.IsWord consumed → g.RightDerivation c.form performed.reverse consumed
  /-- The input has been accepted for a reason. -/
  accepted : c.accepted = true →
    c.symbols = [start] ∧ c.pending = none ∧ ∃ rest, c.ahead = g.endOfInput :: rest

variable {T} {mode : Mode} {input consumed : List Nat} {performed : List Production}
  {c c' : Configuration Nat Nat} {o : Outcome}

/-- Reading the next symbol adds at most the end of the input. -/
theorem Explains.read (h : Explains g input consumed performed c) (ha : c.accepted = false)
    {x : Nat} {xs : List Nat} (hu : c.upcoming T.parseTable = x :: xs) :
    Explains g input consumed performed { c with lookahead := some x, input := xs } := by
  have hinput : ∃ k, consumed ++ c.upcoming T.parseTable =
      input ++ List.replicate k g.endOfInput := by
    obtain ⟨k, hk⟩ := h.input
    by_cases hahead : c.ahead = []
    · refine ⟨k + 1, ?_⟩
      rw [hahead, List.append_nil] at hk
      rw [Configuration.upcoming_of_nil _ hahead, hk, List.replicate_succ', List.append_assoc]
      rfl
    · exact ⟨k, by rw [Configuration.upcoming_of_ne_nil _ hahead, hk]⟩
  rw [hu] at hinput
  refine ⟨h.onPath.of_eq rfl rfl rfl, hinput, h.derivation, h.rightDerivation, fun haccept => ?_⟩
  exact absurd haccept (ne_true_of_eq_false ha)

/-- Putting the left-hand side on the stack changes nothing. -/
theorem Explains.settle (h : Explains g input consumed performed c) (ha : c.accepted = false)
    {lhs next : Nat} (hp : c.pending = some lhs)
    (hpath : g.OnPath { c.push lhs next with pending := none }) :
    Explains g input consumed performed { c.push lhs next with pending := none } := by
  have hform : Configuration.form { c.push lhs next with pending := none } = c.form := by
    show (c.push lhs next).symbols ++ [] = c.symbols ++ c.pending.toList
    rw [Configuration.symbols_push, hp, List.append_nil]
    rfl
  refine ⟨hpath, h.input, hform ▸ h.derivation, hform ▸ h.rightDerivation, fun haccept => ?_⟩
  exact absurd haccept (ne_true_of_eq_false ha)

/-- Consuming a symbol adds it on both sides. -/
theorem Explains.consume (h : Explains g input consumed performed c) (ha : c.accepted = false)
    {x next : Nat} {xs : List Nat} (hp : c.pending = none)
    (hu : c.upcoming T.parseTable = x :: xs)
    (hpath : g.OnPath { c.push x next with lookahead := none, input := xs }) :
    Explains g input (consumed ++ [x]) performed
      { c.push x next with lookahead := none, input := xs } := by
  have hform : Configuration.form { c.push x next with lookahead := none, input := xs } =
      c.form ++ [x] := by
    show (c.push x next).symbols ++ c.pending.toList = c.symbols ++ c.pending.toList ++ [x]
    rw [Configuration.symbols_push, hp, Option.toList_none, List.append_nil, List.append_nil]
  obtain ⟨k, hk⟩ := (h.read ha hu).input
  refine ⟨hpath, ⟨k, ?_⟩, ?_, fun hw => ?_, fun haccept => ?_⟩
  · rw [← hk, List.append_assoc]
    rfl
  · rw [hform]
    simpa using h.derivation.context [] [x]
  · rw [isWord_append_iff] at hw
    rw [hform]
    simpa using (h.rightDerivation hw.1).context [] hw.2
  · exact absurd haccept (ne_true_of_eq_false ha)

/-- A reduce adds a derivation step at the beginning. -/
theorem Explains.reduce (h : Explains g input consumed performed c) (ha : c.accepted = false)
    {x s : Nat} {xs context : List Nat} {p : Production} (hp : c.pending = none)
    (hu : c.upcoming T.parseTable = x :: xs) (hmem : p ∈ g.productions)
    (hs : c.symbols = context ++ p.rhs)
    (hpath : g.OnPath
      { c with
        stack := c.stack.drop p.rhs.length
        state := s
        lookahead := some x
        input := xs
        pending := some p.lhs }) :
    Explains g input consumed (performed ++ [p])
      { c with
        stack := c.stack.drop p.rhs.length
        state := s
        lookahead := some x
        input := xs
        pending := some p.lhs } := by
  have hold : c.form = context ++ (p.rhs ++ []) := by
    rw [Configuration.form, hp, hs, Option.toList_none, List.append_nil, List.append_nil]
  have hderivation := h.derivation
  have hright := h.rightDerivation
  rw [hold] at hderivation hright
  refine ⟨hpath, (h.read ha hu).input, ?_, fun hw => ?_, fun haccept => ?_⟩
  · show g.Derivation (((c.stack.drop p.rhs.length).map (·.symbol)).reverse ++ [p.lhs]) _ _
    rw [Configuration.symbols_drop hs, List.reverse_append]
    exact (Derivation.tail (.refl _) hmem ⟨context, [], rfl, rfl⟩).trans hderivation
  · show g.RightDerivation (((c.stack.drop p.rhs.length).map (·.symbol)).reverse ++ [p.lhs]) _ _
    rw [Configuration.symbols_drop hs, List.reverse_append]
    exact (hright hw).head hmem isWord_nil
  · exact absurd haccept (ne_true_of_eq_false ha)

/-- **One step** keeps what is on the stack an explanation of what has been consumed. -/
theorem Explains.step_consumption (h : Explains g input consumed performed c) (hT : T.Faithful mode)
    (hstep : c.step? T.parseTable = some (o, c')) :
    Explains g input (consumed ++ c.consumption T.parseTable o)
      (performed ++ if o = .reduce then (T.reduction? c).toList else []) c' := by
  cases ha : c.accepted with
  | true =>
    have haccept := Configuration.step?_of_accepted (t := T.parseTable) ha
    obtain ⟨rfl, rfl⟩ := Prod.mk.inj (Option.some.inj (haccept.symm.trans hstep))
    rwa [if_neg (by simp), Configuration.consumption, List.append_nil, List.append_nil]
  | false =>
    obtain ⟨heffect, hpath⟩ := hT.effect h.onPath ha hstep
    cases heffect with
    | settle hp =>
      -- only a reduce adds to the productions performed, and the left-hand side is not in the input
      have hnone : c.consumption T.parseTable .goto = [] := by simp [Configuration.consumption, hp]
      rw [if_neg (by simp), hnone, List.append_nil, List.append_nil]
      exact h.settle ha hp hpath
    | @consume x next xs _ hp hu ho =>
      have hx : c.consumption T.parseTable o = [x] := by
        rcases ho with rfl | rfl
        · rw [Configuration.consumption, Configuration.read_eq hu]
        · rw [Configuration.consumption, Configuration.read_eq hu, hp]
          rfl
      have hne : o ≠ .reduce := by
        rcases ho with rfl | rfl <;> simp
      rw [hx, if_neg hne, List.append_nil]
      exact h.consume ha hp hu hpath
    | reduce hp hu hmem hr hs =>
      rw [if_pos rfl, hr, Configuration.consumption, List.append_nil]
      exact h.reduce ha hp hu hmem hs hpath
    | @accept xs hp hs hu =>
      rw [if_neg (by simp), Configuration.consumption, List.append_nil, List.append_nil]
      exact ⟨hpath, (h.read ha hu).input, h.derivation, h.rightDerivation,
        fun _ => ⟨hs, hp, xs, rfl⟩⟩
    | reject hp hu =>
      rw [if_neg (by simp), Configuration.consumption, List.append_nil, List.append_nil]
      exact h.read ha hu

theorem Explains.step (h : Explains g input consumed performed c) (hT : T.Faithful mode)
    (hstep : c.step? T.parseTable = some (o, c')) :
    ∃ consumed', Explains g input consumed'
      (performed ++ if o = .reduce then (T.reduction? c).toList else []) c' :=
  ⟨_, h.step_consumption hT hstep⟩

/-- **A number of steps.** -/
theorem Explains.after?_consumed (h : Explains g input consumed performed c) (hT : T.Faithful mode)
    {n : Nat} (hn : c.after? T.parseTable n = some c') :
    Explains g input (consumed ++ c.consumed T.parseTable n) (performed ++ T.reductions n c)
      c' := by
  induction n generalizing c consumed performed with
  | zero =>
    obtain rfl : c = c' := Option.some.inj hn
    rwa [reductions, Configuration.consumed, List.append_nil, List.append_nil]
  | succ n ih =>
    rw [Configuration.after?_succ] at hn
    obtain ⟨⟨o, d⟩, hstep, hn⟩ := Option.bind_eq_some_iff.1 hn
    rw [reductions_succ T hstep, Configuration.consumed_succ hstep, ← List.append_assoc,
      ← List.append_assoc]
    exact ih (h.step_consumption hT hstep) hn

theorem Explains.after? (h : Explains g input consumed performed c) (hT : T.Faithful mode) {n : Nat}
    (hn : c.after? T.parseTable n = some c') :
    ∃ consumed', Explains g input consumed' (performed ++ T.reductions n c) c' :=
  ⟨_, h.after?_consumed hT hn⟩

theorem explains_start (T : Tables g) (input : List Nat) :
    Explains g input [] [] (Configuration.start T.parseTable input) :=
  ⟨onPath_start T input, ⟨0, by simp [Configuration.ahead, Configuration.start]⟩, .refl _,
    fun _ => .refl _, fun h => by cases h⟩

/-- A step that accepts leaves the parser accepting. -/
theorem Faithful.accepted_of_step? (hT : T.Faithful mode) (h : g.OnPath c)
    (hstep : c.step? T.parseTable = some (.accept, c')) : c'.accepted = true := by
  cases ha : c.accepted with
  | true =>
    have haccept := Configuration.step?_of_accepted (t := T.parseTable) ha
    obtain ⟨-, rfl⟩ := Prod.mk.inj (Option.some.inj (haccept.symm.trans hstep))
    exact ha
  | false =>
    obtain ⟨heffect, -⟩ := hT.effect h ha hstep
    cases heffect with
    | consume _ _ ho => simp at ho
    | accept => rfl

/-- A path along the start symbol begins in the initial state. -/
theorem stack_eq_of_symbols (h : g.OnPath c) (hs : c.symbols = [start]) :
    c.stack = [⟨initial, start⟩] := by
  have htraces := h.traces
  unfold Configuration.symbols at hs
  rw [List.reverse_eq_iff, List.reverse_singleton] at hs
  rcases hstack : c.stack with _ | ⟨⟨s, x⟩, rest⟩
  · rw [hstack] at hs
    cases hs
  · rw [hstack] at hs htraces
    obtain ⟨rfl, hrest⟩ := List.cons_eq_cons.1 hs
    obtain rfl := List.map_eq_nil_iff.1 hrest
    obtain rfl : s = initial := htraces.1
    rfl

end Tables

namespace Grammar

open Automaton Tables

/-- **An accepted input is derived.**  Let contests be decided for one of their two sides, or for
neither; deciding them by precedence is so.  Then the tables are defined, and whenever a step of the
parser accepts, the start symbol derives what was consumed, which was followed by the end of the
input.  The derivation uses the productions of the reduces in reverse order; it is a right
derivation if only terminals were consumed.  The stack holds nothing but the start symbol in the
end. -/
theorem exists_derivation_of_accept (g : Grammar) (mode : Mode) :
    g.automaton.Confines (g.automaton.lookahead mode) g.automaton.byPrecedence ∧
    ∀ {σ : Type} (R : Resolver σ) (st : σ),
      g.automaton.Confines (g.automaton.lookahead mode) R →
      ∃ T st', g.automaton.tables? mode R st = some (T, st') ∧
        ∀ (input : List Nat) (n : Nat) (c c' : Configuration Nat Nat),
          (Configuration.start T.parseTable input).after? T.parseTable n = some c →
          c.step? T.parseTable = some (.accept, c') →
          ∃ u k, u ++ [g.endOfInput] <+: input ++ List.replicate k g.endOfInput ∧
            g.Derivation [start]
              (T.reductions n (Configuration.start T.parseTable input)).reverse u ∧
            (g.IsWord u → g.RightDerivation [start]
              (T.reductions n (Configuration.start T.parseTable input)).reverse u) ∧
            c'.stack = [⟨initial, start⟩] := by
  refine ⟨confines_byPrecedence mode, fun R st hR => ?_⟩
  obtain ⟨T, st', htables, hT⟩ := exists_faithful_tables mode hR st
  refine ⟨T, st', htables, ?_⟩
  intro input n c c' hn hstep
  obtain ⟨u, hc⟩ := (explains_start T input).after? hT hn
  have haccepted := hT.accepted_of_step? hc.onPath hstep
  obtain ⟨u', hc'⟩ := hc.step hT hstep
  rw [if_neg (by simp), List.append_nil, List.nil_append] at hc'
  obtain ⟨hs, hp, rest, hahead⟩ := hc'.accepted haccepted
  obtain ⟨k, hk⟩ := hc'.input
  have hform : c'.form = [start] := by
    rw [Configuration.form, hs, hp]
    rfl
  have hderivation := hc'.derivation
  have hright := hc'.rightDerivation
  rw [hform] at hderivation hright
  refine ⟨u', k, ⟨rest, ?_⟩, hderivation, hright, stack_eq_of_symbols hc'.onPath hs⟩
  rw [← hk, hahead, List.append_assoc]
  rfl

/-- The word `x x` of a repetition is accepted in the ninth step, and so it is derived. -/
theorem exists_derivation_of_accept_repetition :
    ∃ T st', repetition.automaton.tables? .slr repetition.automaton.byPrecedence [] =
        some (T, st') ∧
      ∃ c c', (Configuration.start T.parseTable [1, 1]).after? T.parseTable 8 = some c ∧
        c.step? T.parseTable = some (.accept, c') ∧
        ∃ u k, u ++ [2] <+: [1, 1] ++ List.replicate k 2 ∧
          repetition.Derivation [start]
            (T.reductions 8 (Configuration.start T.parseTable [1, 1])).reverse u ∧
          (repetition.IsWord u → repetition.RightDerivation [start]
            (T.reductions 8 (Configuration.start T.parseTable [1, 1])).reverse u) ∧
          c'.stack = [⟨initial, start⟩] := by
  obtain ⟨hconfines, hall⟩ := exists_derivation_of_accept repetition .slr
  obtain ⟨T, st', htables, hT⟩ := hall repetition.automaton.byPrecedence [] hconfines
  have haccept : ((repetition.automaton.tables? .slr repetition.automaton.byPrecedence []).bind
      fun r => ((Configuration.start r.1.parseTable [1, 1]).after? r.1.parseTable 8).bind fun c =>
        (c.step? r.1.parseTable).map (·.1)) = some .accept := by
    decide +kernel
  rw [htables, Option.bind_some] at haccept
  obtain ⟨c, hc, haccept⟩ := Option.bind_eq_some_iff.1 haccept
  obtain ⟨⟨o, c'⟩, hstep, rfl⟩ := Option.map_eq_some_iff.1 haccept
  exact ⟨T, st', htables, c, c', hc, hstep, hT [1, 1] 8 c c' hc hstep⟩

end Grammar

end SimpleLR
