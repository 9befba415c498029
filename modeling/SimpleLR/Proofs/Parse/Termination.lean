import SimpleLR.Proofs.Parse.Completeness

/-!
# The parser comes to an end

Nothing gets smaller when a parser reduces: an empty production even makes the stack grow.  Still,
if no slot has two candidates and all nonterminals are productive, it cannot go on reducing without
consuming a symbol.  Suppose it did, from the string `u` on the stack.  After `n` reduces it has
some other string on the stack, which derives `u` in `n` steps and is followed by some word in
something derived from the start symbol.  With this word as the rest of the input the parser
retraces the derivation: it does the same `n` reduces, but goes on to accept, so it does not reduce
for ever.  What it does until it consumes a symbol depends on the first symbol of the word only.
There are finitely many terminals, so there is a bound on the number of reduces for all of them, and
`n` was arbitrary.

## Main Definitions

* `Configuration.Lingers` — steps that leave the next symbol waiting
* `Grammar.Reduces` — a number of reduces at the end of a string

## Main Statements

* `Tables.exists_not_lingers` — the next symbol does not wait for ever
* `Grammar.exists_run_eq_finished` — every run comes to an end
-/

namespace SimpleLR

namespace Configuration

variable {σ α : Type} {t : ParseTable σ α}

/-! ### Steps that leave the next symbol waiting -/

/-- A number of steps without a final outcome that leave the next symbol waiting. -/
inductive Lingers (t : ParseTable σ α) :
    Nat → Configuration σ α → Configuration σ α → Prop where
  /-- No step at all. -/
  | zero (c : Configuration σ α) : Lingers t 0 c c
  /-- One more step. -/
  | succ {n : Nat} {c c' c'' : Configuration σ α} {o : Outcome} (h : c.step? t = some (o, c'))
      (ho : o.isFinal = false) (hl : c'.lookahead = c.lookahead) (h' : Lingers t n c' c'') :
      Lingers t (n + 1) c c''

/-- Whoever lingers for longer lingers for shorter, and gets to the same place on the way. -/
theorem Lingers.split {m n : Nat} {c c' c'' : Configuration σ α} (h : Lingers t m c c')
    (h' : Lingers t (m + n) c c'') : Lingers t n c' c'' := by
  induction h with
  | zero => rwa [Nat.zero_add] at h'
  | succ hstep _ _ _ ih =>
    rw [Nat.add_right_comm] at h'
    cases h' with
    | succ hstep' _ _ h' =>
      obtain ⟨-, rfl⟩ := Prod.mk.inj (Option.some.inj (hstep.symm.trans hstep'))
      exact ih h'

theorem Lingers.exists_of_le {m n : Nat} (hmn : m ≤ n) {c c'' : Configuration σ α}
    (h : Lingers t n c c'') : ∃ c', Lingers t m c c' := by
  induction h generalizing m with
  | zero c =>
    obtain rfl : m = 0 := Nat.le_zero.1 hmn
    exact ⟨c, .zero c⟩
  | @succ n c _ _ _ hstep ho hl _ ih =>
    cases m with
    | zero => exact ⟨c, .zero c⟩
    | succ m =>
      obtain ⟨d, hd⟩ := ih (Nat.le_of_succ_le_succ hmn)
      exact ⟨d, .succ hstep ho hl hd⟩

/-! ### Another rest of the input -/

/-- The configuration with another rest of the input. -/
def withInput (c : Configuration σ α) (xs : List α) : Configuration σ α := { c with input := xs }

theorem pop?_withInput (c : Configuration σ α) (xs : List α) (n : Nat) :
    (c.withInput xs).pop? n = (c.pop? n).map (·.withInput xs) := by
  cases n with
  | zero => rfl
  | succ n =>
    show c.stack[n]?.map _ = (c.stack[n]?.map _).map _
    rw [Option.map_map]
    rfl

theorem act_withInput (c : Configuration σ α) (xs : List α) (x : α) (action : ParseAction σ α) :
    (c.withInput xs).act x action = ((c.act x action).1, (c.act x action).2.withInput xs) := by
  cases action with
  | shift next => rfl
  | accept => rfl
  | reject => rfl
  | reduce lhs length =>
    unfold act
    dsimp only
    rw [pop?_withInput]
    cases c.pop? length with
    | none => rfl
    | some c' => rfl

theorem goto?_withInput (c : Configuration σ α) (xs : List α) (x : α)
    {settled : Configuration σ α → Configuration σ α}
    (h : ∀ d : Configuration σ α, settled (d.withInput xs) = (settled d).withInput xs) :
    (c.withInput xs).goto? t x settled =
      (c.goto? t x settled).map fun r => (r.1, r.2.withInput xs) := by
  unfold goto?
  rw [Option.map_map]
  refine congrArg (fun f => (t.goto? c.state x).map f) (funext fun next? => ?_)
  cases next? with
  | none => rfl
  | some next => exact congrArg (Prod.mk Outcome.goto) (h (c.push x next))

/-- While a symbol is waiting the rest of the input does not matter. -/
theorem step?_withInput {c : Configuration σ α} {x : α} (hx : c.lookahead = some x)
    (xs : List α) :
    (c.withInput xs).step? t = (c.step? t).map fun r => (r.1, r.2.withInput xs) := by
  cases ha : c.accepted with
  | true =>
    rw [step?_of_accepted ha, step?_of_accepted (c := c.withInput xs) ha]
    rfl
  | false =>
    cases hp : c.pending with
    | some lhs =>
      rw [step?_of_pending ha hp, step?_of_pending (c := c.withInput xs) ha hp]
      exact goto?_withInput c xs lhs fun d => rfl
    | none =>
      have hread : c.read t = (x, c) := by rw [read, hx]
      have hread' : (c.withInput xs).read t = (x, c.withInput xs) := by
        rw [read, show (c.withInput xs).lookahead = some x from hx]
      have hstep : c.step? t = c.consume? t x := by
        rw [step?, if_neg (by simp [ha]), hread, hp]
      have hstep' : (c.withInput xs).step? t = (c.withInput xs).consume? t x := by
        rw [step?, if_neg (by simp [withInput, ha]), hread',
          show (c.withInput xs).pending = none from hp]
      rw [hstep, hstep', consume?, consume?]
      by_cases hn : t.isNonterminal x = true
      · rw [if_pos hn, if_pos hn]
        exact goto?_withInput c xs x fun d => rfl
      · rw [if_neg hn, if_neg hn, Option.map_map]
        exact congrArg (fun f => (t.action? c.state x).map f)
          (funext fun action => act_withInput c xs x action)

theorem Lingers.withInput {n : Nat} {c c' : Configuration σ α} (h : Lingers t n c c') {x : α}
    (hx : c.lookahead = some x) (xs : List α) :
    Lingers t n (c.withInput xs) (c'.withInput xs) := by
  induction h with
  | zero => exact .zero _
  | @succ n c c' c'' o hstep ho hl _ ih =>
    have hstep' : (c.withInput xs).step? t = some (o, c'.withInput xs) := by
      rw [step?_withInput hx, hstep]
      rfl
    exact .succ hstep' ho hl (ih (hl.trans hx))

/-- Whoever comes to an end does not linger for ever. -/
theorem Goes.exists_not_lingers {c c' d : Configuration σ α} {o : Outcome} (h : Goes t c c')
    (hd : c'.step? t = some (o, d)) (ho : o.isFinal = true) :
    ∃ m, ∀ e, ¬ Lingers t m c e := by
  induction h with
  | refl c =>
    refine ⟨1, fun e he => ?_⟩
    cases he with
    | succ hstep ho' _ _ =>
      obtain ⟨rfl, -⟩ := Prod.mk.inj (Option.some.inj (hd.symm.trans hstep))
      rw [ho] at ho'
      cases ho'
  | step hstep _ _ ih =>
    obtain ⟨m, hm⟩ := ih hd
    refine ⟨m + 1, fun e he => ?_⟩
    cases he with
    | succ hstep' _ _ he =>
      obtain ⟨-, rfl⟩ := Prod.mk.inj (Option.some.inj (hstep.symm.trans hstep'))
      exact hm e he

end Configuration

namespace Grammar

variable {g : Grammar}

/-! ### Reducing at the end of a string -/

/-- A number of reduces at the end of the first string lead to the second one. -/
inductive Reduces (g : Grammar) : Nat → List Nat → List Nat → Prop where
  /-- No reduce at all. -/
  | zero (string : List Nat) : Reduces g 0 string string
  /-- One more reduce. -/
  | succ {n : Nat} {context string : List Nat} {p : Production} (hp : p ∈ g.productions)
      (h : Reduces g n (context ++ [p.lhs]) string) : Reduces g (n + 1) (context ++ p.rhs) string

/-- Reducing is deriving backwards. -/
theorem Reduces.exists_rightDerivation {n : Nat} {u v : List Nat} (h : g.Reduces n u v)
    {w : List Nat} (hw : g.IsWord w) : ∃ ps, g.RightDerivation (v ++ w) ps (u ++ w) := by
  induction h with
  | zero => exact ⟨[], .refl _⟩
  | @succ n context v p hp _ ih =>
    obtain ⟨ps, hd⟩ := ih
    rw [List.append_assoc, List.singleton_append] at hd
    rw [List.append_assoc]
    exact ⟨ps ++ [p], .tail hd hp hw⟩

/-- A reduce leaves a nonterminal at the end. -/
theorem Reduces.exists_nonterminal {n : Nat} {u v : List Nat} (h : g.Reduces (n + 1) u v) :
    ∃ context m, v = context ++ [m] ∧ g.isNonterminal m = true := by
  generalize hk : n + 1 = k at h
  induction h generalizing n with
  | zero => cases hk
  | @succ k context v p hp h ih =>
    cases k with
    | zero =>
      cases h with
      | zero => exact ⟨context, p.lhs, rfl, g.isNonterminal_lhs hp⟩
    | succ k => exact ih rfl

/-- If all nonterminals are productive, then a string that can be followed can be completed to
something derived. -/
theorem KernelItem.exists_rightDerivation (hg : g.Productive) {string : List Nat} {i : Nat}
    (h : g.KernelItem string i) :
    ∃ ps w, g.IsWord w ∧ g.RightDerivation [start] ps (string ++ w) := by
  rcases h with ⟨-, rfl⟩ | ⟨-, rfl⟩ | ⟨p, hp, before, after, context, hr, -, rfl, hc, -⟩
  · obtain ⟨ps, w, hw, hd⟩ := yields_of_isProductive (hg start g.isNonterminal_start)
    exact ⟨ps, w, hw, hd⟩
  · exact ⟨[], [], isWord_nil, .refl _⟩
  · obtain ⟨ps, w, hw, hd⟩ := hc.exists_rightDerivation hg
    obtain ⟨qs, v, hv, ha⟩ := hg.exists_word hp (u := after) (by simp [hr])
    have hreplaced := RightDerivation.tail hd hp hw
    rw [hr, List.append_assoc, ← List.append_assoc context] at hreplaced
    exact ⟨_, v ++ w, hv.append hw, hreplaced.trans (ha.context (context ++ before) hw)⟩

end Grammar

namespace Tables

open Automaton Grammar SimpleLR.Configuration

variable {g : Grammar} {T : Tables g} {mode : Mode}

/-! ### While the next symbol waits -/

/-- The parser is on its way with a symbol waiting. -/
structure Waits (g : Grammar) (x : Nat) (xs : List Nat) (c : Configuration Nat Nat) : Prop where
  onPath : g.OnPath c
  accepted : c.accepted = false
  lookahead : c.lookahead = some x
  input : c.input = xs

theorem Waits.upcoming {x : Nat} {xs : List Nat} {c : Configuration Nat Nat} (h : Waits g x xs c) :
    c.upcoming T.parseTable = x :: xs := by
  have hahead : c.ahead = x :: xs := by
    rw [ahead, h.lookahead, h.input]
    rfl
  rw [upcoming_of_ne_nil _ (by simp [hahead]), hahead]

/-- **A step while a symbol waits** ends the run, consumes the symbol, reduces, or puts a left-hand
side on the stack. -/
theorem Waits.step_cases (hT : T.Faithful mode) {x : Nat} {xs : List Nat}
    {c : Configuration Nat Nat} (h : Waits g x xs c) :
    ∃ o c', c.step? T.parseTable = some (o, c') ∧
      (o.isFinal = true ∨
        o.isFinal = false ∧ g.OnPath c' ∧ c'.accepted = false ∧ c'.lookahead = none ∧
          c'.pending = none ∧ c'.input = xs ∧ c'.symbols = c.symbols ++ [x] ∨
        o.isFinal = false ∧ Waits g x xs c' ∧ c.pending = none ∧
          (∃ p ∈ g.productions, c.symbols = c'.symbols ++ p.rhs ∧ c'.pending = some p.lhs) ∨
        o.isFinal = false ∧ Waits g x xs c' ∧
          ∃ lhs, c.pending = some lhs ∧ c'.pending = none ∧ c'.symbols = c.symbols ++ [lhs]) := by
  obtain ⟨o, c', hstep, heffect, hpath⟩ := hT.step?_effect h.onPath h.accepted
  refine ⟨o, c', hstep, ?_⟩
  have hx := h.upcoming (T := T)
  cases heffect with
  | @settle lhs next hp =>
    have hwaits : Waits g x xs _ := ⟨hpath, h.accepted, h.lookahead, h.input⟩
    exact Or.inr (Or.inr (Or.inr ⟨rfl, hwaits, lhs, hp, rfl, symbols_push c lhs next⟩))
  | @consume y next ys _ hp hu ho =>
    obtain ⟨rfl, rfl⟩ := List.cons_eq_cons.1 (hu.symm.trans hx)
    refine Or.inr (Or.inl ⟨?_, hpath, h.accepted, rfl, hp, rfl, symbols_push c y next⟩)
    rcases ho with rfl | rfl
    · rfl
    · rfl
  | @reduce y s ys context p hp hu hmem _ hs =>
    obtain ⟨rfl, rfl⟩ := List.cons_eq_cons.1 (hu.symm.trans hx)
    refine Or.inr (Or.inr (Or.inl ⟨rfl, ⟨hpath, h.accepted, rfl, rfl⟩, hp, p, hmem, ?_, rfl⟩))
    show c.symbols = ((c.stack.drop p.rhs.length).map (·.symbol)).reverse ++ p.rhs
    rw [symbols_drop hs, hs]
  | accept => exact Or.inl rfl
  | reject => exact Or.inl rfl

/-- A step that leaves the symbol waiting is a reduce or puts a left-hand side on the stack. -/
theorem Waits.lingers_step (hT : T.Faithful mode) {x : Nat} {xs : List Nat}
    {c c' : Configuration Nat Nat} {o : Outcome} (h : Waits g x xs c)
    (hstep : c.step? T.parseTable = some (o, c')) (ho : o.isFinal = false)
    (hl : c'.lookahead = c.lookahead) :
    Waits g x xs c' ∧
      (c.pending = none ∧
          (∃ p ∈ g.productions, c.symbols = c'.symbols ++ p.rhs ∧ c'.pending = some p.lhs) ∨
        ∃ lhs, c.pending = some lhs ∧ c'.pending = none ∧ c'.symbols = c.symbols ++ [lhs]) := by
  obtain ⟨o', d, hstep', hcases⟩ := h.step_cases hT
  obtain ⟨rfl, rfl⟩ := Prod.mk.inj (Option.some.inj (hstep'.symm.trans hstep))
  rcases hcases with hfinal | ⟨-, -, -, hnone, -⟩ | ⟨-, hw, hp, hr⟩ | ⟨-, hw, hr⟩
  · rw [ho] at hfinal
    cases hfinal
  · rw [hnone, h.lookahead] at hl
    cases hl
  · exact ⟨hw, Or.inl ⟨hp, hr⟩⟩
  · exact ⟨hw, Or.inr hr⟩

theorem Waits.lingers (hT : T.Faithful mode) {x n : Nat} {xs : List Nat}
    {c c' : Configuration Nat Nat} (h : Waits g x xs c) (hc : Lingers T.parseTable n c c') :
    Waits g x xs c' := by
  induction hc with
  | zero => exact h
  | succ hstep ho hl _ ih => exact ih (h.lingers_step hT hstep ho hl).1

/-- Lingering is reducing: every other step is a reduce. -/
theorem Waits.reduces (hT : T.Faithful mode) {x n : Nat} {xs : List Nat}
    {c c' : Configuration Nat Nat} (h : Waits g x xs c) (hp : c.pending = none)
    (hc : Lingers T.parseTable (2 * n) c c') :
    g.Reduces n c.symbols c'.symbols := by
  induction n generalizing c with
  | zero =>
    cases hc with
    | zero => exact .zero _
  | succ n ih =>
    rw [Nat.mul_succ] at hc
    cases hc with
    | succ hstep ho hl hc =>
      cases hc with
      | succ hstep' ho' hl' hc =>
        obtain ⟨h₁, ⟨-, p, hmem, hs, hp₁⟩ | ⟨lhs, hlhs, -⟩⟩ := h.lingers_step hT hstep ho hl
        · obtain ⟨h₂, ⟨hnone, -⟩ | ⟨lhs, hlhs, hp₂, hs₂⟩⟩ := h₁.lingers_step hT hstep' ho' hl'
          · rw [hp₁] at hnone
            cases hnone
          · obtain rfl : p.lhs = lhs := Option.some.inj (hp₁.symm.trans hlhs)
            rw [hs]
            refine .succ hmem ?_
            rw [← hs₂]
            exact ih h₂ hp₂ hc
        · rw [hp] at hlhs
          cases hlhs

/-- Properties that come to hold of finitely many numbers after a while come to hold of all of them
at some time. -/
theorem exists_common_bound (P : Nat → Nat → Prop)
    (hmono : ∀ t m n, m ≤ n → P t m → P t n) (count : Nat) :
    ∃ bound, ∀ t, t < count → (∃ m, P t m) → P t bound := by
  induction count with
  | zero => exact ⟨0, fun t ht => absurd ht (Nat.not_lt_zero t)⟩
  | succ count ih =>
    obtain ⟨bound, hbound⟩ := ih
    by_cases hlast : ∃ m, P count m
    · obtain ⟨m, hm⟩ := hlast
      refine ⟨max bound m, fun t ht h => ?_⟩
      rcases Nat.lt_succ_iff_lt_or_eq.1 ht with hlt | rfl
      · exact hmono t _ _ (Nat.le_max_left bound m) (hbound t hlt h)
      · exact hmono t _ _ (Nat.le_max_right bound m) hm
    · refine ⟨bound, fun t ht h => ?_⟩
      rcases Nat.lt_succ_iff_lt_or_eq.1 ht with hlt | rfl
      · exact hbound t hlt h
      · exact absurd h hlast

section

variable (hT : T.Faithful mode) (hfree : g.automaton.ConflictFree (g.automaton.lookahead mode))
include hT hfree

/-- Reduces that retrace a derivation are done while the next symbol waits. -/
theorem Stands.exists_lingers {n t : Nat} {u v w xs : List Nat} (hr : g.Reduces n u v)
    (hw : g.IsWord w) (ht : g.facing w = t :: xs) {ps : List Production}
    (hd : g.RightDerivation [Grammar.start] ps (v ++ w)) {c : Configuration Nat Nat}
    (h : T.Stands u w c) (hl : c.lookahead = some t) :
    ∃ c', Lingers T.parseTable (2 * n) c c' ∧ T.Stands v w c' := by
  induction hr generalizing c with
  | zero => exact ⟨c, .zero c, h⟩
  | @succ n context v p hp hr ih =>
    obtain ⟨qs, hback⟩ := hr.exists_rightDerivation hw
    have hform := hd.trans hback
    rw [List.append_assoc, List.singleton_append] at hform
    have hn := g.isNonterminal_lhs hp
    obtain ⟨c₁, c₂, hreduce, hl₁, hgoto, hl₂, h₂⟩ := h.reduce hT hfree hp
      (hform.leftContext rfl hn) ht (hform.mem_lookaheadOf hn hw ht mode)
    obtain ⟨c', hc', hstands⟩ := ih hd h₂ hl₂
    refine ⟨c', ?_, hstands⟩
    exact .succ hreduce rfl (hl₁.trans hl.symm) (.succ hgoto rfl (hl₂.trans hl₁.symm) hc')

/-- If the parser can do a number of reduces with some symbol waiting, then it does as many with a
symbol waiting with which it does not go on for ever. -/
theorem Waits.exists_bounded (hg : g.Productive) {x n : Nat} {xs : List Nat}
    {c c' : Configuration Nat Nat} (h : Waits g x xs c) (hp : c.pending = none)
    (hc : Lingers T.parseTable (2 * (n + 1)) c c') :
    ∃ t, t < g.numSymbols ∧
      (∃ d, Lingers T.parseTable (2 * (n + 1)) { c with lookahead := some t, input := [] } d) ∧
      ∃ m, ∀ d, ¬ Lingers T.parseTable m { c with lookahead := some t, input := [] } d := by
  have hr := h.reduces hT hp hc
  obtain ⟨i, hi⟩ := exists_walk?_iff.1 ⟨_, (h.lingers hT hc).onPath.traces.walk?⟩
  obtain ⟨ps, w, hw, hd⟩ := hi.exists_rightDerivation hg
  obtain ⟨t, ys, ht⟩ := exists_facing_eq (g := g) w
  have hstands : T.Stands c.symbols w { c with lookahead := some t, input := ys } :=
    ⟨h.onPath.of_eq rfl rfl rfl, h.accepted, hp, rfl, ht.symm⟩
  -- with the word as the rest of the input it does the same reduces, and goes on to accept
  obtain ⟨d, hlingers, hd'⟩ := hstands.exists_lingers hT hfree hr hw ht hd rfl
  obtain ⟨context, m, hlast, hm⟩ := hr.exists_nonterminal
  obtain ⟨e, e', hgoes, haccept⟩ :=
    hd'.exists_accept hT hfree hd rfl (Or.inr ⟨context, m, hlast, hm, hw⟩)
  obtain ⟨k, hk⟩ := hgoes.exists_not_lingers haccept rfl
  refine ⟨t, (g.isTerminal_iff.1 (isTerminal_of_facing hw ht)).2,
    ⟨_, hlingers.withInput rfl []⟩, 2 * (n + 1) + k, fun d' hd' => ?_⟩
  exact hk _ (hlingers.split (hd'.withInput rfl ys))

/-- **The next symbol does not wait for ever.** -/
theorem Waits.exists_not_lingers (hg : g.Productive) {x : Nat} {xs : List Nat}
    {c : Configuration Nat Nat} (h : Waits g x xs c) (hp : c.pending = none) :
    ∃ n, ∀ c', ¬ Lingers T.parseTable n c c' := by
  by_contra hall
  push Not at hall
  -- one bound for all symbols with which the parser does not go on for ever
  obtain ⟨bound, hbound⟩ := exists_common_bound
    (fun t m => ∀ d, ¬ Lingers T.parseTable m { c with lookahead := some t, input := [] } d)
    (fun t m n hmn hm d hd => by
      obtain ⟨d', hd'⟩ := hd.exists_of_le hmn
      exact hm d' hd') g.numSymbols
  obtain ⟨c', hc'⟩ := hall (2 * (bound + 1))
  obtain ⟨t, ht, ⟨d, hd⟩, hm⟩ := h.exists_bounded hT hfree hg hp hc'
  obtain ⟨d', hd'⟩ := hd.exists_of_le (show bound ≤ 2 * (bound + 1) by omega)
  exact hbound t ht hm d' hd'

end

/-- Reading a symbol is not a step. -/
theorem run_of_upcoming {c : Configuration Nat Nat} {x : Nat} {xs : List Nat}
    (ha : c.accepted = false) (hp : c.pending = none) (hu : c.upcoming T.parseTable = x :: xs)
    {n : Nat} {v : Verdict Nat Nat} {d : Configuration Nat Nat}
    (h : ({ c with lookahead := some x, input := xs } : Configuration Nat Nat).run T.parseTable n =
      .finished v d) : c.run T.parseTable n = .finished v d := by
  cases n with
  | zero => cases h
  | succ n =>
    have hstep := step?_of_upcoming ha hp hu
    have hstep' := step?_of_upcoming (t := T.parseTable)
      (c := { c with lookahead := some x, input := xs }) ha hp rfl
    rw [run, hstep'] at h
    rw [run, hstep]
    exact h

/-- The run comes to an end, or the symbol `x` is consumed and `xs` is left of the input. -/
def Proceeds (T : Tables g) (x : Nat) (xs : List Nat) (c : Configuration Nat Nat) : Prop :=
  (∃ m v d, c.run T.parseTable m = .finished v d) ∨
    ∃ c', Goes T.parseTable c c' ∧ g.OnPath c' ∧ c'.accepted = false ∧ c'.pending = none ∧
      c'.ahead = xs ∧ ∃ string, c'.symbols = string ++ [x]

theorem Proceeds.step {x : Nat} {xs : List Nat} {c c' : Configuration Nat Nat} {o : Outcome}
    (hstep : c.step? T.parseTable = some (o, c')) (ho : o.isFinal = false)
    (h : T.Proceeds x xs c') : T.Proceeds x xs c := by
  rcases h with ⟨m, v, d, hrun⟩ | ⟨d, hgoes, hrest⟩
  · refine Or.inl ⟨m + 1, v, d, ?_⟩
    rw [run_succ hstep, ho]
    exact hrun
  · exact Or.inr ⟨d, .step hstep ho hgoes, hrest⟩

/-- When a symbol does not wait for ever the run comes to an end or the symbol is consumed. -/
theorem Waits.proceeds (hT : T.Faithful mode) {x n : Nat} {xs : List Nat}
    {c : Configuration Nat Nat} (h : Waits g x xs c)
    (hn : ∀ c', ¬ Lingers T.parseTable n c c') : T.Proceeds x xs c := by
  induction n generalizing c with
  | zero => exact absurd (.zero c) (hn c)
  | succ n ih =>
    obtain ⟨o, c₁, hstep, hcases⟩ := h.step_cases hT
    have hlater : o.isFinal = false → Waits g x xs c₁ → T.Proceeds x xs c := by
      intro ho h₁
      have hl : c₁.lookahead = c.lookahead := h₁.lookahead.trans h.lookahead.symm
      exact .step hstep ho (ih h₁ fun c' hc' => hn c' (.succ hstep ho hl hc'))
    rcases hcases with hfinal | ⟨ho, hpath, ha, hl, hp, hinput, hs⟩ | ⟨ho, h₁, -⟩ | ⟨ho, h₁, -⟩
    · refine Or.inl ⟨1, verdict o c₁, c₁, ?_⟩
      rw [run_succ hstep, hfinal]
      rfl
    · refine Or.inr ⟨c₁, .single hstep ho, hpath, ha, hp, ?_, c.symbols, hs⟩
      rw [ahead, hl, hinput]
      rfl
    · exact hlater ho h₁
    · exact hlater ho h₁

/-- **Every run comes to an end**: as long as there is input each symbol of it is consumed or ends
the run, and the end of the input is never consumed. -/
theorem exists_run_eq (hT : T.Faithful mode)
    (hfree : g.automaton.ConflictFree (g.automaton.lookahead mode)) (hg : g.Productive)
    (hend : ∀ p ∈ g.productions, g.endOfInput ∉ p.rhs) {c : Configuration Nat Nat}
    (h : g.OnPath c) (ha : c.accepted = false) (hp : c.pending = none) :
    ∃ n v d, c.run T.parseTable n = .finished v d := by
  generalize hlen : c.ahead.length = k
  induction k generalizing c with
  | zero =>
    have hu := upcoming_of_nil T.parseTable (List.length_eq_zero_iff.1 hlen)
    have hw : Waits g g.endOfInput [] { c with lookahead := some g.endOfInput, input := [] } :=
      ⟨h.of_eq rfl rfl rfl, ha, rfl, rfl⟩
    obtain ⟨n, hn⟩ := hw.exists_not_lingers hT hfree hg hp
    rcases hw.proceeds hT hn with ⟨m, v, d, hrun⟩ | ⟨c', -, hpath, -, -, -, string, hs⟩
    · exact ⟨m, v, d, run_of_upcoming ha hp hu hrun⟩
    · -- the end of the input is in no right-hand side, so it never gets onto the stack
      obtain ⟨i, hi⟩ := exists_walk?_iff.1 ⟨_, hpath.traces.walk?⟩
      rw [show (c'.stack.map (·.symbol)).reverse = string ++ [g.endOfInput] from hs] at hi
      rcases hi.last with hstart | ⟨p, hmem, hx⟩
      · have hterm := g.isNonterminal_eq_false g.isTerminal_endOfInput
        rw [hstart, g.isNonterminal_start] at hterm
        cases hterm
      · exact absurd hx (hend p hmem)
  | succ k ih =>
    have hne : c.ahead ≠ [] := List.length_pos_iff.1 (by omega)
    obtain ⟨x, xs, hahead⟩ := List.exists_cons_of_ne_nil hne
    have hu := upcoming_of_ne_nil T.parseTable hne
    rw [hahead] at hu
    have hw : Waits g x xs { c with lookahead := some x, input := xs } :=
      ⟨h.of_eq rfl rfl rfl, ha, rfl, rfl⟩
    obtain ⟨n, hn⟩ := hw.exists_not_lingers hT hfree hg hp
    rcases hw.proceeds hT hn with ⟨m, v, d, hrun⟩ | ⟨c', hgoes, hpath, ha', hp', hahead', -⟩
    · exact ⟨m, v, d, run_of_upcoming ha hp hu hrun⟩
    · have hlen' : c'.ahead.length = k := by
        rw [hahead, List.length_cons] at hlen
        rw [hahead']
        omega
      obtain ⟨m, v, d, hrun⟩ := ih hpath ha' hp' hlen'
      obtain ⟨n', hn'⟩ := hgoes.exists_run
      exact ⟨n' + m, v, d, run_of_upcoming ha hp hu (by rw [hn', hrun])⟩

end Tables

namespace Grammar

/-- **Every run comes to an end.**  If all nonterminals are productive, no production mentions the
end of the input and no slot has two candidates, then the tables are defined, whatever the resolver,
and the parser comes to a verdict on every list of numbers, be they symbols or not. -/
theorem exists_run_eq_finished (g : Grammar) (mode : Mode)
    (hproductive : ∀ n, g.isNonterminal n = true → g.isProductive g.analyse n = true)
    (hend : ∀ p ∈ g.productions, g.endOfInput ∉ p.rhs)
    (hfree : g.automaton.ConflictFree (g.automaton.lookahead mode)) {σ : Type} (R : Resolver σ)
    (st : σ) :
    ∃ T st', g.automaton.tables? mode R st = some (T, st') ∧
      ∀ input : List Nat, ∃ n verdict c,
        (Configuration.start T.parseTable input).run T.parseTable n = .finished verdict c := by
  obtain ⟨T, st', htables, hT⟩ :=
    exists_faithful_tables mode (confines_of_conflictFree hfree R) st
  refine ⟨T, st', htables, fun input => ?_⟩
  exact Tables.exists_run_eq hT hfree hproductive hend (onPath_start T input) rfl rfl

/-- The run for a repetition on something that is no word at all comes to an end. -/
theorem exists_run_eq_finished_repetition :
    (∀ n, repetition.isNonterminal n = true →
      repetition.isProductive repetition.analyse n = true) ∧
    (∀ p ∈ repetition.productions, repetition.endOfInput ∉ p.rhs) ∧
    repetition.automaton.ConflictFree (repetition.automaton.lookahead .lr0) ∧
    ∃ T st', repetition.automaton.tables? .lr0 repetition.automaton.byPrecedence [] =
        some (T, st') ∧
      ∃ n verdict c, (Configuration.start T.parseTable [1, 2, 7, 0]).run T.parseTable n =
        .finished verdict c := by
  have hproductive : ∀ n, repetition.isNonterminal n = true →
      repetition.isProductive repetition.analyse n = true := by
    intro n hn
    obtain rfl : n = 0 := Nat.lt_one_iff.1 (repetition.isNonterminal_iff.1 hn)
    decide +kernel
  have hend : ∀ p ∈ repetition.productions, repetition.endOfInput ∉ p.rhs := by
    decide +kernel
  have hfree : repetition.automaton.ConflictFree (repetition.automaton.lookahead .lr0) := by
    decide +kernel
  obtain ⟨T, st', htables, hruns⟩ := exists_run_eq_finished repetition .lr0 hproductive hend hfree
    repetition.automaton.byPrecedence []
  exact ⟨hproductive, hend, hfree, T, st', htables, hruns [1, 2, 7, 0]⟩

end Grammar

end SimpleLR
