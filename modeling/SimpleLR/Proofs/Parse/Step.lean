import SimpleLR.Parse.Run
import SimpleLR.Proofs.Table.Build

/-!
# What a step of the parser does

The stack of a parser for a grammar is a path through the automaton: its symbols spell a string that
leads from the initial state to the current one.  The state therefore fits the string, which says
what the slots of the tables can hold: a reduce finds the right-hand side on top of the stack, a
left-hand side can always be moved over, and the input is accepted with nothing but the start symbol
on the stack.

## Main Definitions

* `Configuration.symbols`, `Configuration.upcoming` — the string on the stack, and what comes next
* `Grammar.OnPath` — the stack is a path
* `Tables.reduction?` — the production of the reduce that comes next
* `Tables.Effect` — what a step can do

## Main Statements

* `Tables.Faithful.step?_effect` — every step is defined, has one of these effects and stays on a
  path
-/

namespace SimpleLR

namespace Configuration

variable {σ α : Type}

/-! ### The stack and the input -/

/-- The symbols on the stack, the top last. -/
def symbols (c : Configuration σ α) : List α := (c.stack.map (·.symbol)).reverse

/-- What has not been consumed. -/
def ahead (c : Configuration σ α) : List α := c.lookahead.toList ++ c.input

/-- What has not been consumed, as it is seen when a symbol is needed. -/
def upcoming (t : ParseTable σ α) (c : Configuration σ α) : List α :=
  if c.ahead.isEmpty then [t.endOfInput] else c.ahead

theorem upcoming_ne_nil (t : ParseTable σ α) (c : Configuration σ α) : c.upcoming t ≠ [] := by
  unfold upcoming
  split
  · simp
  · next h => simpa using h

theorem exists_upcoming (t : ParseTable σ α) (c : Configuration σ α) :
    ∃ x xs, c.upcoming t = x :: xs :=
  List.exists_cons_of_ne_nil (c.upcoming_ne_nil t)

theorem upcoming_of_ne_nil (t : ParseTable σ α) {c : Configuration σ α} (h : c.ahead ≠ []) :
    c.upcoming t = c.ahead := by
  unfold upcoming
  rw [if_neg (by simpa using h)]

theorem upcoming_of_nil (t : ParseTable σ α) {c : Configuration σ α} (h : c.ahead = []) :
    c.upcoming t = [t.endOfInput] := by
  unfold upcoming
  rw [if_pos (by simpa using h)]

/-- Reading makes the next symbol wait. -/
theorem read_eq {t : ParseTable σ α} {c : Configuration σ α} {x : α} {xs : List α}
    (h : c.upcoming t = x :: xs) :
    c.read t = (x, { c with lookahead := some x, input := xs }) := by
  rcases c with ⟨stack, state, accepted, _ | y, pending, _ | ⟨y, rest⟩⟩
  · obtain ⟨rfl, rfl⟩ := List.cons_eq_cons.1 h
    rfl
  · obtain ⟨rfl, rfl⟩ := List.cons_eq_cons.1 h
    rfl
  · obtain ⟨rfl, rfl⟩ := List.cons_eq_cons.1 h
    rfl
  · obtain ⟨rfl, rfl⟩ := List.cons_eq_cons.1 h
    rfl

theorem step?_of_upcoming {t : ParseTable σ α} {c : Configuration σ α} {x : α} {xs : List α}
    (ha : c.accepted = false) (hp : c.pending = none) (h : c.upcoming t = x :: xs) :
    c.step? t =
      ({ c with lookahead := some x, input := xs } : Configuration σ α).consume? t x := by
  rcases c with ⟨stack, state, accepted, lookahead, pending, input⟩
  obtain rfl : accepted = false := ha
  obtain rfl : pending = none := hp
  rw [step?, read_eq h]
  rfl

theorem step?_of_accepted {t : ParseTable σ α} {c : Configuration σ α} (ha : c.accepted = true) :
    c.step? t = some (.accept, c) := by
  rw [step?, if_pos ha]

/-- A step that does not accept is made before the input is accepted. -/
theorem accepted_eq_false {t : ParseTable σ α} {c c' : Configuration σ α} {o : Outcome}
    (h : c.step? t = some (o, c')) (ho : o ≠ .accept) : c.accepted = false := by
  by_contra ha
  rw [step?_of_accepted (by simpa using ha)] at h
  exact ho (Prod.mk.inj (Option.some.inj h)).1.symm

theorem step?_of_pending {t : ParseTable σ α} {c : Configuration σ α} {lhs : α}
    (ha : c.accepted = false) (hp : c.pending = some lhs) :
    c.step? t = c.goto? t lhs fun c' => { c' with pending := none } := by
  rw [step?, ha, hp]
  rfl

theorem symbols_push (c : Configuration σ α) (x : α) (next : σ) :
    (c.push x next).symbols = c.symbols ++ [x] := by
  simp [symbols, push]

/-- What remains on the stack when its top is taken off. -/
theorem symbols_drop {c : Configuration σ α} {before popped : List α}
    (h : c.symbols = before ++ popped) :
    ((c.stack.drop popped.length).map (·.symbol)).reverse = before := by
  have hlen : c.stack.length - popped.length = before.length := by
    have := congrArg List.length h
    simp only [symbols, List.length_reverse, List.length_map, List.length_append] at this
    omega
  rw [List.map_drop, List.reverse_drop, List.length_map, hlen]
  show c.symbols.take before.length = before
  rw [h, List.take_left]

end Configuration

namespace Grammar

open Automaton

variable (g : Grammar)

/-! ### The stack is a path -/

/-- The stack is a path through the automaton from the initial state to the state `s`. -/
def Traces : List (Frame Nat Nat) → Nat → Prop
  | [], s => s = initial
  | f :: stack, s => Traces stack f.state ∧ g.automaton.next? f.state f.symbol = some s

/-- The stack is a path to the state of the parser, and the left-hand side of the last reduce may
come next if it is not on the stack yet. -/
structure OnPath (c : Configuration Nat Nat) : Prop where
  traces : g.Traces c.stack c.state
  pending : ∀ lhs, c.pending = some lhs → g.LeftContext lhs c.symbols

variable {g}

theorem Traces.walk? {stack : List (Frame Nat Nat)} {s : Nat} (h : g.Traces stack s) :
    g.automaton.walk? initial (stack.map (·.symbol)).reverse = some s := by
  induction stack generalizing s with
  | nil =>
    obtain rfl : s = initial := h
    rfl
  | cons f stack ih =>
    rw [List.map_cons, List.reverse_cons, walk?_append, ih h.1, Option.bind_some, walk?_cons, h.2,
      Option.bind_some, walk?_nil]

theorem Traces.drop {stack : List (Frame Nat Nat)} {s n : Nat} {f : Frame Nat Nat}
    (h : g.Traces stack s) (hf : stack[n]? = some f) :
    g.Traces (stack.drop (n + 1)) f.state := by
  induction stack generalizing s n with
  | nil => simp at hf
  | cons f' stack ih =>
    rw [List.drop_succ_cons]
    rcases n with _ | n
    · obtain rfl : f' = f := by simpa using hf
      exact h.1
    · exact ih h.1 (by simpa using hf)

/-- Taking symbols off the stack leads back along the path. -/
theorem Traces.exists_pop? {c : Configuration Nat Nat} (h : g.Traces c.stack c.state) {n : Nat}
    (hn : n ≤ c.stack.length) :
    ∃ s, c.pop? n = some { c with stack := c.stack.drop n, state := s } ∧
      g.Traces (c.stack.drop n) s := by
  cases n with
  | zero => exact ⟨c.state, rfl, h⟩
  | succ n =>
    have hf := List.getElem?_eq_getElem (show n < c.stack.length from hn)
    refine ⟨c.stack[n].state, ?_, h.drop hf⟩
    rw [Configuration.pop?, hf, Option.map_some]

variable {c : Configuration Nat Nat}

theorem OnPath.exists_state? (h : g.OnPath c) :
    ∃ state, g.automaton.state? c.state = some state ∧ g.Fits c.symbols state.kernel :=
  walk?_fits h.traces.walk?

/-- The next state on a symbol is there just if some item is under way behind it. -/
theorem OnPath.exists_next?_iff (h : g.OnPath c) {x : Nat} :
    (∃ next, g.automaton.next? c.state x = some next) ↔
      ∃ i, g.KernelItem (c.symbols ++ [x]) i := by
  obtain ⟨state, hs, hk⟩ := h.exists_state?
  constructor
  · rintro ⟨next, hnext⟩
    obtain ⟨j, hj⟩ := exists_move_of_next? hs hnext
    exact ⟨j, (mem_moves_iff_kernelItem hk).1 hj⟩
  · rintro ⟨i, hi⟩
    obtain ⟨next, -, hnext, -⟩ := next?_fits hs hk hi
    exact ⟨next, hnext⟩

theorem OnPath.push (h : g.OnPath c) {x next : Nat}
    (hnext : g.automaton.next? c.state x = some next) :
    g.Traces (c.push x next).stack (c.push x next).state :=
  ⟨h.traces, hnext⟩

/-- A symbol that is consumed prolongs the path. -/
theorem OnPath.consume (h : g.OnPath c) (hp : c.pending = none) {x next : Nat}
    (hnext : g.automaton.next? c.state x = some next) (xs : List Nat) :
    g.OnPath { c.push x next with lookahead := none, input := xs } := by
  refine ⟨h.push hnext, fun lhs hlhs => ?_⟩
  rw [show c.pending = some lhs from hlhs] at hp
  cases hp

/-- The input does not matter for the path. -/
theorem OnPath.of_eq {c' : Configuration Nat Nat} (h : g.OnPath c) (hstack : c'.stack = c.stack)
    (hstate : c'.state = c.state) (hpending : c'.pending = c.pending) : g.OnPath c' := by
  refine ⟨hstack ▸ hstate ▸ h.traces, fun lhs hlhs => ?_⟩
  rw [Configuration.symbols, hstack]
  exact h.pending lhs (hpending ▸ hlhs)

theorem onPath_start (T : Tables g) (input : List Nat) :
    g.OnPath (Configuration.start T.parseTable input) :=
  ⟨rfl, fun lhs h => by cases h⟩

end Grammar

namespace Tables

open Automaton Grammar

variable {g : Grammar} (T : Tables g)

/-! ### The effects of a step -/

/-- The production of the reduce that the next step is, if it is one. -/
def reduction? (c : Configuration Nat Nat) : Option Production :=
  if c.accepted || c.pending.isSome then none
  else
    match T.slot? c.state (c.read T.parseTable).1 with
    | some (.reduce r) => T.automaton.reduceProduction? c.state r
    | _ => none

/-- What a step can do before the input is accepted. -/
inductive Effect (c : Configuration Nat Nat) : Outcome → Configuration Nat Nat → Prop where
  /-- The left-hand side of the last reduce is put on the stack. -/
  | settle {lhs next : Nat} (hp : c.pending = some lhs) :
      Effect c .goto { c.push lhs next with pending := none }
  /-- The next symbol is put on the stack. -/
  | consume {x next : Nat} {xs : List Nat} {o : Outcome} (hp : c.pending = none)
      (hu : c.upcoming T.parseTable = x :: xs) (ho : o = .shift ∨ o = .goto) :
      Effect c o { c.push x next with lookahead := none, input := xs }
  /-- The right-hand side of a production is taken off the stack. -/
  | reduce {x s : Nat} {xs context : List Nat} {p : Production} (hp : c.pending = none)
      (hu : c.upcoming T.parseTable = x :: xs) (hmem : p ∈ g.productions)
      (hr : T.reduction? c = some p) (hs : c.symbols = context ++ p.rhs) :
      Effect c .reduce
        { c with
          stack := c.stack.drop p.rhs.length
          state := s
          lookahead := some x
          input := xs
          pending := some p.lhs }
  /-- The input is accepted. -/
  | accept {xs : List Nat} (hp : c.pending = none) (hs : c.symbols = [start])
      (hu : c.upcoming T.parseTable = g.endOfInput :: xs) :
      Effect c .accept
        { c with accepted := true, lookahead := some g.endOfInput, input := xs }
  /-- The next symbol is rejected. -/
  | reject {x : Nat} {xs : List Nat} (hp : c.pending = none)
      (hu : c.upcoming T.parseTable = x :: xs) :
      Effect c .error { c with lookahead := some x, input := xs }

variable {T} {mode : Mode} {c : Configuration Nat Nat}

theorem Faithful.goto? (hT : T.Faithful mode) (h : g.OnPath c) {x : Nat}
    (hx : g.isNonterminal x = true) :
    T.parseTable.goto? c.state x = some (g.automaton.next? c.state x) := by
  obtain ⟨state, hs, -⟩ := h.exists_state?
  show T.automaton.goto? c.state x = _
  rw [hT.automaton]
  exact goto?_eq hs (g.isTerminal_eq_false hx)

/-- After a reduce the left-hand side is put on the stack. -/
theorem Faithful.step?_settle (hT : T.Faithful mode) (h : g.OnPath c) (ha : c.accepted = false)
    {lhs : Nat} (hp : c.pending = some lhs) :
    ∃ next, c.step? T.parseTable = some (.goto, { c.push lhs next with pending := none }) ∧
      g.OnPath { c.push lhs next with pending := none } := by
  have hc := h.pending lhs hp
  obtain ⟨next, hnext⟩ := h.exists_next?_iff.2 hc.exists_kernelItem_concat
  refine ⟨next, ?_, h.push hnext, fun lhs h => by cases h⟩
  rw [Configuration.step?_of_pending ha hp, Configuration.goto?,
    hT.goto? h hc.isNonterminal, hnext]
  rfl

/-- A nonterminal in the input is put on the stack or rejected. -/
theorem Faithful.step?_nonterminal (hT : T.Faithful mode) (h : g.OnPath c)
    (ha : c.accepted = false) (hp : c.pending = none) {x : Nat} {xs : List Nat}
    (hu : c.upcoming T.parseTable = x :: xs) (hx : g.isNonterminal x = true) :
    (∃ next, g.automaton.next? c.state x = some next ∧ c.step? T.parseTable =
      some (.goto, { c.push x next with lookahead := none, input := xs })) ∨
    g.automaton.next? c.state x = none ∧
      c.step? T.parseTable = some (.error, { c with lookahead := some x, input := xs }) := by
  rw [Configuration.step?_of_upcoming ha hp hu, Configuration.consume?,
    if_pos (show T.parseTable.isNonterminal x = true from hx), Configuration.goto?]
  have hgoto := hT.goto? h hx
  rcases hnext : g.automaton.next? c.state x with _ | next
  · refine Or.inr ⟨rfl, ?_⟩
    show (T.parseTable.goto? c.state x).map _ = _
    rw [hgoto, hnext]
    rfl
  · refine Or.inl ⟨next, rfl, ?_⟩
    show (T.parseTable.goto? c.state x).map _ = _
    rw [hgoto, hnext]
    rfl

/-- Anything else in the input is dealt with by the action for it. -/
theorem step?_action (ha : c.accepted = false) (hp : c.pending = none) {x : Nat} {xs : List Nat}
    (hu : c.upcoming T.parseTable = x :: xs) (hx : g.isNonterminal x = false)
    {action : ParseAction Nat Nat} (haction : T.parseAction? c.state x = some action) :
    c.step? T.parseTable = some
      (({ c with lookahead := some x, input := xs } : Configuration Nat Nat).act x action) := by
  rw [Configuration.step?_of_upcoming ha hp hu, Configuration.consume?,
    if_neg (show ¬ T.parseTable.isNonterminal x = true by
      rw [show T.parseTable.isNonterminal x = false from hx]
      simp)]
  show (T.parseAction? c.state x).map _ = _
  rw [haction]
  rfl

/-- A reduce finds the right-hand side on the stack. -/
theorem Faithful.step?_reduce (hT : T.Faithful mode) (h : g.OnPath c) (ha : c.accepted = false)
    (hp : c.pending = none) {x : Nat} {xs : List Nat} (hu : c.upcoming T.parseTable = x :: xs)
    (hx : g.isTerminal x = true) {r : Nat} (hslot : T.slot? c.state x = some (.reduce r))
    {p : Production} (hr : g.automaton.reduceProduction? c.state r = some p)
    {context : List Nat} (hs : c.symbols = context ++ p.rhs) (hc : g.LeftContext p.lhs context) :
    ∃ s, c.step? T.parseTable = some (.reduce,
        { c with
          stack := c.stack.drop p.rhs.length
          state := s
          lookahead := some x
          input := xs
          pending := some p.lhs }) ∧
      g.OnPath
        { c with
          stack := c.stack.drop p.rhs.length
          state := s
          lookahead := some x
          input := xs
          pending := some p.lhs } := by
  have hlen : p.rhs.length ≤ c.stack.length := by
    have := congrArg List.length hs
    simp only [Configuration.symbols, List.length_reverse, List.length_map,
      List.length_append] at this
    omega
  have htraces :
      g.Traces ({ c with lookahead := some x, input := xs } : Configuration Nat Nat).stack
        ({ c with lookahead := some x, input := xs } : Configuration Nat Nat).state := h.traces
  obtain ⟨s, hpop, hdrop⟩ := htraces.exists_pop? hlen
  refine ⟨s, ?_, hdrop, ?_⟩
  · have haction : T.parseAction? c.state x = some (.reduce p.lhs p.rhs.length) := by
      rw [parseAction?, if_pos hx, hslot, hT.automaton]
      show (g.automaton.reduceProduction? c.state r).map _ = _
      rw [hr, Option.map_some]
    rw [step?_action ha hp hu (g.isNonterminal_eq_false hx) haction, Configuration.act, hpop]
  · intro lhs hlhs
    obtain rfl : p.lhs = lhs := Option.some.inj hlhs
    show g.LeftContext p.lhs ((c.stack.drop p.rhs.length).map (·.symbol)).reverse
    rwa [Configuration.symbols_drop hs]

/-- A shift goes to the next state. -/
theorem step?_shift (h : g.OnPath c) (ha : c.accepted = false) (hp : c.pending = none) {x : Nat}
    {xs : List Nat} (hu : c.upcoming T.parseTable = x :: xs) (hx : g.isTerminal x = true)
    {next : Nat} (hslot : T.slot? c.state x = some (.shift next))
    (hnext : g.automaton.next? c.state x = some next) :
    c.step? T.parseTable = some (.shift, { c.push x next with lookahead := none, input := xs }) ∧
      g.OnPath { c.push x next with lookahead := none, input := xs } := by
  have haction : T.parseAction? c.state x = some (.shift next) := by
    rw [parseAction?, if_pos hx, hslot]
    rfl
  exact ⟨step?_action ha hp hu (g.isNonterminal_eq_false hx) haction, h.consume hp hnext xs⟩

theorem step?_accept (ha : c.accepted = false) (hp : c.pending = none) {xs : List Nat}
    (hu : c.upcoming T.parseTable = g.endOfInput :: xs)
    (hslot : T.slot? c.state g.endOfInput = some .accept) :
    c.step? T.parseTable = some (.accept,
      { c with accepted := true, lookahead := some g.endOfInput, input := xs }) := by
  have hx := g.isTerminal_endOfInput
  have haction : T.parseAction? c.state g.endOfInput = some .accept := by
    rw [parseAction?, if_pos hx, hslot]
    rfl
  exact step?_action ha hp hu (g.isNonterminal_eq_false hx) haction

/-- Nothing is done on a symbol whose slot is empty, or that has no slot. -/
theorem step?_reject (ha : c.accepted = false) (hp : c.pending = none) {x : Nat} {xs : List Nat}
    (hu : c.upcoming T.parseTable = x :: xs) (hx : g.isNonterminal x = false)
    (hslot : g.isTerminal x = true → T.slot? c.state x = some .reject) :
    c.step? T.parseTable = some (.error, { c with lookahead := some x, input := xs }) := by
  have haction : T.parseAction? c.state x = some .reject := by
    by_cases hterm : g.isTerminal x = true
    · rw [parseAction?, if_pos hterm, hslot hterm]
      rfl
    · rw [parseAction?, if_neg hterm]
  exact step?_action ha hp hu hx haction

/-- The reduce that the next step is. -/
theorem reduction?_eq (ha : c.accepted = false) (hp : c.pending = none) {x : Nat} {xs : List Nat}
    (hu : c.upcoming T.parseTable = x :: xs) {r : Nat}
    (hslot : T.slot? c.state x = some (.reduce r)) :
    T.reduction? c = T.automaton.reduceProduction? c.state r := by
  rw [reduction?, ha, hp, Configuration.read_eq hu]
  simp only [hslot]
  rfl

/-- **Every step is defined**, has one of the listed effects, and leaves the stack a path. -/
theorem Faithful.step?_effect (hT : T.Faithful mode) (h : g.OnPath c) (ha : c.accepted = false) :
    ∃ o c', c.step? T.parseTable = some (o, c') ∧ T.Effect c o c' ∧ g.OnPath c' := by
  rcases hp : c.pending with _ | lhs
  · obtain ⟨x, xs, hu⟩ := c.exists_upcoming T.parseTable
    by_cases hn : g.isNonterminal x = true
    · rcases hT.step?_nonterminal h ha hp hu hn with ⟨next, hnext, hstep⟩ | ⟨-, hstep⟩
      · exact ⟨_, _, hstep, .consume hp hu (Or.inr rfl), h.consume hp hnext xs⟩
      · exact ⟨_, _, hstep, .reject hp hu, h.of_eq rfl rfl rfl⟩
    · rw [Bool.not_eq_true] at hn
      by_cases hx : g.isTerminal x = true
      · obtain ⟨state, hs, hk⟩ := h.exists_state?
        obtain ⟨action, hslot, hsettles⟩ := hT.slot hs hx
        cases action with
        | reject =>
          exact ⟨_, _, step?_reject ha hp hu hn fun _ => hslot, .reject hp hu,
            h.of_eq rfl rfl rfl⟩
        | shift next =>
          have hnext := (shift_mem_candidates hs hx).1 (mem_of_settles hsettles (by simp))
          obtain ⟨hstep, hpath⟩ := step?_shift h ha hp hu hx hslot hnext
          exact ⟨_, _, hstep, .consume hp hu (Or.inl rfl), hpath⟩
        | accept =>
          obtain ⟨hstring, rfl⟩ :=
            (accept_mem_candidates hs hk).1 (mem_of_settles hsettles (by simp))
          exact ⟨_, _, step?_accept ha hp hu hslot, .accept hp hstring hu,
            h.of_eq rfl rfl rfl⟩
        | reduce r =>
          obtain ⟨p, hr, -⟩ := (reduce_mem_candidates hs).1 (mem_of_settles hsettles (by simp))
          obtain ⟨hmem, context, hstring, hc⟩ := (reduceProduction?_iff hs hk).1 ⟨r, hr⟩
          obtain ⟨s, hstep, hpath⟩ := hT.step?_reduce h ha hp hu hx hslot hr hstring hc
          refine ⟨_, _, hstep, .reduce hp hu hmem ?_ hstring, hpath⟩
          rw [reduction?_eq ha hp hu hslot, hT.automaton, hr]
      · exact ⟨_, _, step?_reject ha hp hu hn fun h => absurd h hx, .reject hp hu,
          h.of_eq rfl rfl rfl⟩
  · obtain ⟨next, hstep, hpath⟩ := hT.step?_settle h ha hp
    exact ⟨_, _, hstep, .settle hp, hpath⟩

/-- What a given step has done. -/
theorem Faithful.effect (hT : T.Faithful mode) (h : g.OnPath c) (ha : c.accepted = false)
    {o : Outcome} {c' : Configuration Nat Nat} (hstep : c.step? T.parseTable = some (o, c')) :
    T.Effect c o c' ∧ g.OnPath c' := by
  obtain ⟨o', d, hstep', heffect, hpath⟩ := hT.step?_effect h ha
  obtain ⟨rfl, rfl⟩ := Prod.mk.inj (Option.some.inj (hstep'.symm.trans hstep))
  exact ⟨heffect, hpath⟩

end Tables

end SimpleLR
