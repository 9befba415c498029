import SimpleLR.Proofs.Analysis.Follow
import SimpleLR.Proofs.Grammar.Derivation
import SimpleLR.Proofs.Parse.Step

/-!
# What is derived is accepted

If no slot has two candidates, then every slot holds its only candidate, and the parser does
whatever some candidate says.  So it retraces a right derivation backwards.  The replaced
nonterminal has only terminals behind it.  Before it and its right-hand side the automaton can be
followed, and symbols are consumed until the right-hand side is on top of the stack.  Then the next
terminal can follow the nonterminal, hence there is a reduce for it.

## Main Definitions

* `Configuration.Goes` — steps without a final outcome
* `Tables.Stands` — a parser with a given string on the stack and a given rest of the input

## Main Statements

* `Tables.Stands.consumeAll`, `Tables.Stands.reduce` — consuming symbols, and reducing
* `Tables.Stands.exists_accept` — retracing a whole right derivation
* `Grammar.run_eq_accepted_of_rightDerivation` — what is derived is accepted
-/

namespace SimpleLR

namespace Configuration

variable {σ α : Type}

/-! ### Steps without a final outcome -/

/-- Steps without a final outcome lead from the one configuration to the other. -/
inductive Goes (t : ParseTable σ α) : Configuration σ α → Configuration σ α → Prop where
  /-- No step at all. -/
  | refl (c : Configuration σ α) : Goes t c c
  /-- One more step. -/
  | step {c c' c'' : Configuration σ α} {o : Outcome} (h : c.step? t = some (o, c'))
      (ho : o.isFinal = false) (h' : Goes t c' c'') : Goes t c c''

theorem Goes.trans {t : ParseTable σ α} {c c' c'' : Configuration σ α} (h : Goes t c c')
    (h' : Goes t c' c'') : Goes t c c'' := by
  induction h with
  | refl => exact h'
  | step hstep ho _ ih => exact .step hstep ho (ih h')

theorem Goes.single {t : ParseTable σ α} {c c' : Configuration σ α} {o : Outcome}
    (h : c.step? t = some (o, c')) (ho : o.isFinal = false) : Goes t c c' :=
  .step h ho (.refl c')

theorem run_succ {t : ParseTable σ α} {c c' : Configuration σ α} {o : Outcome}
    (h : c.step? t = some (o, c')) (n : Nat) :
    c.run t (n + 1) = if o.isFinal then .finished (verdict o c') c' else c'.run t n := by
  rw [run, h]

/-- A run goes on from wherever it gets to. -/
theorem Goes.exists_run {t : ParseTable σ α} {c c' : Configuration σ α} (h : Goes t c c') :
    ∃ n, ∀ m, c.run t (n + m) = c'.run t m := by
  induction h with
  | refl => exact ⟨0, fun m => by rw [Nat.zero_add]⟩
  | step hstep ho _ ih =>
    obtain ⟨n, hn⟩ := ih
    refine ⟨n + 1, fun m => ?_⟩
    rw [Nat.add_right_comm, run_succ hstep, ho, ← hn m]
    rfl

end Configuration

namespace Grammar

variable {g : Grammar}

/-! ### The terminal behind a nonterminal -/

/-- The symbols to come when this is what remains of the input. -/
def facing (g : Grammar) (rest : List Nat) : List Nat :=
  if rest.isEmpty then [g.endOfInput] else rest

theorem facing_cons (x : Nat) (rest : List Nat) : g.facing (x :: rest) = x :: rest := rfl

theorem exists_facing_eq (rest : List Nat) : ∃ x xs, g.facing rest = x :: xs := by
  rcases rest with _ | ⟨x, xs⟩
  · exact ⟨g.endOfInput, [], rfl⟩
  · exact ⟨x, xs, rfl⟩

theorem isTerminal_of_facing {rest : List Nat} (hw : g.IsWord rest) {t : Nat} {xs : List Nat}
    (ht : g.facing rest = t :: xs) : g.isTerminal t = true := by
  rcases rest with _ | ⟨x, rest⟩
  · obtain ⟨rfl, -⟩ := List.cons_eq_cons.1 ht
    exact g.isTerminal_endOfInput
  · obtain ⟨rfl, -⟩ := List.cons_eq_cons.1 ht
    exact hw x List.mem_cons_self

/-- What is read behind a nonterminal that has only terminals behind it is in its lookahead. -/
theorem RightDerivation.mem_lookaheadOf {ps : List Production} {before after : List Nat} {n : Nat}
    (h : g.RightDerivation [Grammar.start] ps (before ++ n :: after))
    (hn : g.isNonterminal n = true) (hw : g.IsWord after) {t : Nat} {xs : List Nat}
    (ht : g.facing after = t :: xs) (mode : Mode) : t ∈ g.lookaheadOf mode n := by
  refine mem_lookaheadOf_of_mem_follow mode (mem_follow_of_derivation h.derivation hn ?_)
  rcases after with _ | ⟨x, after⟩
  · exact (List.cons_eq_cons.1 ht).1.symm
  · obtain ⟨rfl, -⟩ := List.cons_eq_cons.1 ht
    exact canBegin_cons (hw x List.mem_cons_self) after

end Grammar

namespace Tables

open Automaton Grammar SimpleLR.Configuration

variable {g : Grammar} {T : Tables g} {mode : Mode}

/-! ### One candidate for each slot -/

/-- If no slot has two candidates, then a slot holds its candidate. -/
theorem Faithful.slot?_eq (hT : T.Faithful mode)
    (hfree : g.automaton.ConflictFree (g.automaton.lookahead mode)) {s t : Nat} {action : Action}
    (ht : g.isTerminal t = true)
    (hmem : action ∈ g.automaton.candidates (g.automaton.lookahead mode) s t) :
    T.slot? s t = some action := by
  obtain ⟨state, hs⟩ := exists_state?_of_mem_candidates hmem
  obtain ⟨held, hslot, hsettles⟩ := hT.slot hs ht
  have hone : g.automaton.candidates (g.automaton.lookahead mode) s t = [action] := by
    have hlen := hfree s t
    obtain ⟨rest, hrest⟩ := List.length_eq_one_iff.1
      (Nat.le_antisymm hlen (List.length_pos_of_mem hmem))
    rw [hrest, List.mem_singleton] at hmem
    rw [hrest, hmem]
  rw [hone] at hsettles
  rcases hsettles with hheld | ⟨-, hne⟩
  · rw [hslot, List.mem_singleton.1 hheld]
  · exact absurd rfl hne

/-- The parser has the string on the stack and the rest of the input to come, and is about to look
at the next symbol. -/
structure Stands (T : Tables g) (string rest : List Nat) (c : Configuration Nat Nat) : Prop where
  onPath : g.OnPath c
  accepted : c.accepted = false
  pending : c.pending = none
  symbols : c.symbols = string
  upcoming : c.upcoming T.parseTable = g.facing rest

theorem stands_start (T : Tables g) (input : List Nat) :
    T.Stands [] input (Configuration.start T.parseTable input) :=
  ⟨onPath_start T input, rfl, rfl, rfl, rfl⟩

section

variable (hT : T.Faithful mode) (hfree : g.automaton.ConflictFree (g.automaton.lookahead mode))
include hT hfree

/-! ### Consuming and reducing -/

/-- A symbol behind which some item is under way is consumed. -/
theorem Stands.consume {string rest : List Nat} {x i : Nat} {c : Configuration Nat Nat}
    (h : T.Stands string (x :: rest) c) (hi : g.KernelItem (string ++ [x]) i) :
    ∃ c', Goes T.parseTable c c' ∧ T.Stands (string ++ [x]) rest c' := by
  have hu := h.upcoming
  rw [facing_cons] at hu
  have hsymbols : ∀ next, (c.push x next).symbols = string ++ [x] := by
    intro next
    rw [symbols_push, h.symbols]
  rw [← h.symbols] at hi
  obtain ⟨next, hnext⟩ := h.onPath.exists_next?_iff.2 ⟨i, hi⟩
  by_cases hn : g.isNonterminal x = true
  · rcases hT.step?_nonterminal h.onPath h.accepted h.pending hu hn with
      ⟨next', hnext', hstep⟩ | ⟨hnone, -⟩
    · exact ⟨_, .single hstep rfl, h.onPath.consume h.pending hnext' rest, h.accepted, h.pending,
        hsymbols next', rfl⟩
    · rw [hnone] at hnext
      cases hnext
  · have hx := g.isTerminal_of_lt hi.lt_numSymbols (by simpa using hn)
    obtain ⟨state, hs, -⟩ := h.onPath.exists_state?
    have hslot := hT.slot?_eq hfree hx ((shift_mem_candidates hs hx).2 hnext)
    obtain ⟨hstep, hpath⟩ := step?_shift h.onPath h.accepted h.pending hu hx hslot hnext
    exact ⟨_, .single hstep rfl, hpath, h.accepted, h.pending, hsymbols next, rfl⟩

/-- Symbols are consumed as long as the automaton can be followed. -/
theorem Stands.consumeAll {string more rest : List Nat} {c : Configuration Nat Nat}
    (h : T.Stands string (more ++ rest) c) (hi : ∃ i, g.KernelItem (string ++ more) i) :
    ∃ c', Goes T.parseTable c c' ∧ T.Stands (string ++ more) rest c' := by
  induction more generalizing string c with
  | nil =>
    refine ⟨c, .refl c, ?_⟩
    rwa [List.append_nil]
  | cons x more ih =>
    have hsplit : string ++ x :: more = (string ++ [x]) ++ more := by
      rw [List.append_assoc]
      rfl
    rw [hsplit] at hi ⊢
    obtain ⟨i, hx⟩ := exists_kernelItem_of_append hi
    obtain ⟨c₁, hgoes, h₁⟩ := h.consume hT hfree hx
    obtain ⟨c₂, hgoes', h₂⟩ := ih h₁ hi
    exact ⟨c₂, hgoes.trans hgoes', h₂⟩

/-- **A right-hand side on top of the stack is reduced** if the next terminal is in the lookahead of
the left-hand side, and then the left-hand side is put on the stack.  The terminal keeps waiting. -/
theorem Stands.reduce {context rest xs : List Nat} {p : Production} {t : Nat}
    {c : Configuration Nat Nat} (h : T.Stands (context ++ p.rhs) rest c) (hp : p ∈ g.productions)
    (hc : g.LeftContext p.lhs context) (hrest : g.facing rest = t :: xs)
    (ht : t ∈ g.lookaheadOf mode p.lhs) :
    ∃ c₁ c₂, c.step? T.parseTable = some (.reduce, c₁) ∧ c₁.lookahead = some t ∧
      c₁.step? T.parseTable = some (.goto, c₂) ∧ c₂.lookahead = some t ∧
      T.Stands (context ++ [p.lhs]) rest c₂ := by
  have hu := h.upcoming
  rw [hrest] at hu
  have hx := isTerminal_of_mem_lookaheadOf ht
  obtain ⟨state, hs, hk⟩ := h.onPath.exists_state?
  obtain ⟨r, hr⟩ := (reduceProduction?_iff hs hk).2 ⟨hp, context, h.symbols, hc⟩
  have hslot := hT.slot?_eq hfree hx ((reduce_mem_candidates hs).2 ⟨p, hr, ht⟩)
  obtain ⟨s, hstep, hpath⟩ :=
    hT.step?_reduce h.onPath h.accepted h.pending hu hx hslot hr h.symbols hc
  obtain ⟨next, hstep', hpath'⟩ := hT.step?_settle hpath h.accepted rfl
  refine ⟨_, _, hstep, rfl, hstep', rfl, hpath', h.accepted, rfl, ?_, hrest.symm⟩
  show (Configuration.push _ p.lhs next).symbols = _
  rw [symbols_push]
  show ((c.stack.drop p.rhs.length).map (·.symbol)).reverse ++ [p.lhs] = _
  rw [symbols_drop h.symbols]

/-- Behind the start symbol the end of the input is accepted. -/
theorem Stands.accept {c : Configuration Nat Nat} (h : T.Stands [start] [] c) :
    ∃ c', c.step? T.parseTable = some (.accept, c') := by
  obtain ⟨state, hs, hk⟩ := h.onPath.exists_state?
  have hslot := hT.slot?_eq hfree g.isTerminal_endOfInput
    ((accept_mem_candidates hs hk).2 ⟨h.symbols, rfl⟩)
  exact ⟨_, step?_accept h.accepted h.pending h.upcoming hslot⟩

/-! ### Retracing derivations -/

/-- One step of a right derivation is retraced. -/
theorem Stands.retrace {ps : List Production} {p : Production} {before after : List Nat}
    (hd : g.RightDerivation [start] ps (before ++ p.lhs :: after)) (hp : p ∈ g.productions)
    (hw : g.IsWord after) {string more : List Nat} (hmore : string ++ more = before ++ p.rhs)
    {c : Configuration Nat Nat} (h : T.Stands string (more ++ after) c) :
    ∃ c', Goes T.parseTable c c' ∧ T.Stands (before ++ [p.lhs]) after c' := by
  have hn := g.isNonterminal_lhs hp
  have hc := hd.leftContext rfl hn
  have hitem : ∃ i, g.KernelItem (string ++ more) i := by
    rw [hmore]
    exact hc.exists_kernelItem_rhs hp
  obtain ⟨c₁, hgoes, h₁⟩ := h.consumeAll hT hfree hitem
  rw [hmore] at h₁
  obtain ⟨t, xs, hrest⟩ := exists_facing_eq (g := g) after
  obtain ⟨c₂, c₃, hreduce, -, hgoto, -, h₃⟩ :=
    h₁.reduce hT hfree hp hc hrest (hd.mem_lookaheadOf hn hw hrest mode)
  exact ⟨c₃, hgoes.trans (.step hreduce rfl (.single hgoto rfl)), h₃⟩

/-- **A right derivation is retraced** to the start symbol, from the beginning of the input or from
behind the last nonterminal. -/
theorem Stands.exists_accept {ps : List Production} {form : List Nat}
    (hd : g.RightDerivation [start] ps form) {string rest : List Nat}
    (hform : form = string ++ rest)
    (hlast : string = [] ∨ ∃ context n, string = context ++ [n] ∧ g.isNonterminal n = true ∧
      g.IsWord rest) {c : Configuration Nat Nat} (h : T.Stands string rest c) :
    ∃ c' c'', Goes T.parseTable c c' ∧ c'.step? T.parseTable = some (.accept, c'') := by
  induction hd generalizing string rest c with
  | refl =>
    -- the start symbol is on the stack, or it is still to be consumed
    have hstands : ∃ c', Goes T.parseTable c c' ∧ T.Stands [start] [] c' := by
      rcases hlast with rfl | ⟨context, n, rfl, -, -⟩
      · rw [List.nil_append] at hform
        subst hform
        exact h.consume hT hfree (kernelItem_acceptItem_iff.2 rfl)
      · obtain ⟨hstring, rfl⟩ : context ++ [n] = [Grammar.start] ∧ rest = [] := by
          rcases List.append_eq_singleton_iff.1 hform.symm with ⟨hnil, -⟩ | hsingle
          · simp at hnil
          · exact hsingle
        exact ⟨c, .refl c, hstring ▸ h⟩
    obtain ⟨c', hgoes, hc'⟩ := hstands
    obtain ⟨c'', haccept⟩ := hc'.accept hT hfree
    exact ⟨c', c'', hgoes, haccept⟩
  | @tail before after ps p hd hp hw ih =>
    -- the string does not reach beyond the right-hand side, which the last nonterminal is not
    -- behind
    obtain ⟨more, hmore, rfl⟩ : ∃ more, string ++ more = before ++ p.rhs ∧
        rest = more ++ after := by
      rcases hlast with rfl | ⟨context, n, rfl, hn, -⟩
      · exact ⟨before ++ p.rhs, rfl, by rw [List.append_assoc, hform, List.nil_append]⟩
      · have hsplit : (before ++ p.rhs) ++ after = context ++ n :: rest := by
          rw [List.append_assoc, hform, List.append_assoc]
          rfl
        rcases append_eq_append_cons hsplit with ⟨more, hmore, hrest⟩ | ⟨more, hafter, -⟩
        · refine ⟨more, ?_, hrest⟩
          rw [hmore, List.append_assoc]
          rfl
        · have hterm := g.isNonterminal_eq_false (hw n (by simp [hafter]))
          rw [hn] at hterm
          cases hterm
    obtain ⟨c₁, hgoes, h₁⟩ := h.retrace hT hfree hd hp hw hmore
    obtain ⟨c', c'', hgoes', haccept⟩ := ih
      (show before ++ p.lhs :: after = (before ++ [p.lhs]) ++ after by
        rw [List.append_assoc]
        rfl)
      (Or.inr ⟨before, p.lhs, rfl, g.isNonterminal_lhs hp, hw⟩) h₁
    exact ⟨c', c'', hgoes.trans hgoes', haccept⟩

theorem run_eq_accepted {ps : List Production} {form : List Nat}
    (hd : g.RightDerivation [start] ps form) :
    ∃ n c, (Configuration.start T.parseTable form).run T.parseTable n =
      .finished .accepted c := by
  obtain ⟨c, c', hgoes, haccept⟩ :=
    (stands_start T form).exists_accept hT hfree hd rfl (Or.inl rfl)
  obtain ⟨n, hn⟩ := hgoes.exists_run
  refine ⟨n + 1, c', ?_⟩
  rw [hn 1, run_succ haccept]
  rfl

end

end Tables

namespace Grammar

/-- **What is derived is accepted.**  If no slot has two candidates, then the tables are defined,
whatever the resolver, and the parser accepts everything that a right derivation derives from the
start symbol, nonterminals in it included.  In particular it accepts every word that is derived at
all. -/
theorem run_eq_accepted_of_rightDerivation (g : Grammar) (mode : Mode)
    (hfree : g.automaton.ConflictFree (g.automaton.lookahead mode)) {σ : Type} (R : Resolver σ)
    (st : σ) :
    ∃ T st', g.automaton.tables? mode R st = some (T, st') ∧
      (∀ (ps : List Production) (form : List Nat), g.RightDerivation [start] ps form →
        ∃ n c, (Configuration.start T.parseTable form).run T.parseTable n =
          .finished .accepted c) ∧
      ∀ word : List Nat, g.IsWord word → g.Derives [start] word →
        ∃ n c, (Configuration.start T.parseTable word).run T.parseTable n =
          .finished .accepted c := by
  obtain ⟨T, st', htables, hT⟩ :=
    exists_faithful_tables mode (confines_of_conflictFree hfree R) st
  refine ⟨T, st', htables, fun ps form hd => Tables.run_eq_accepted hT hfree hd, ?_⟩
  intro word hword hderives
  obtain ⟨ps, hd⟩ := hderives.exists_rightDerivation hword
  exact Tables.run_eq_accepted hT hfree hd

/-- A repetition is accepted with its nonterminal in the input. -/
theorem run_eq_accepted_of_rightDerivation_repetition :
    repetition.automaton.ConflictFree (repetition.automaton.lookahead .slr) ∧
    repetition.RightDerivation [start] [⟨0, 1, 1, [0, 1], none⟩] [0, 1] ∧
    ∃ T st', repetition.automaton.tables? .slr repetition.automaton.byPrecedence [] =
        some (T, st') ∧
      ∃ n c, (Configuration.start T.parseTable [0, 1]).run T.parseTable n =
        .finished .accepted c := by
  have hfree : repetition.automaton.ConflictFree (repetition.automaton.lookahead .slr) := by
    decide +kernel
  have hmem : (⟨0, 1, 1, [0, 1], none⟩ : Production) ∈ repetition.productions := by
    decide +kernel
  have hd : repetition.RightDerivation [start] [⟨0, 1, 1, [0, 1], none⟩] [0, 1] :=
    RightDerivation.tail (.refl ([] ++ start :: [])) hmem isWord_nil
  obtain ⟨T, st', htables, hforms, -⟩ :=
    run_eq_accepted_of_rightDerivation repetition .slr hfree repetition.automaton.byPrecedence []
  exact ⟨hfree, hd, T, st', htables, hforms _ _ hd⟩

end Grammar

end SimpleLR
