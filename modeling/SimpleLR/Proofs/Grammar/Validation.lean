import SimpleLR.Grammar.Dependency
import SimpleLR.Grammar.Validation

/-!
# Validation is exact and what passes it is kept

Symbols and alternatives have to pass a number of checks.  A check is violated or not whatever
becomes of the others, and the checks stand in an order: first those of the symbol table, then those
of the nonterminals in turn, where it is asked first whether there is an alternative at all and
then, alternative by alternative and from left to right, whether a symbol exists.  The fault that is
reported is that of the first violated check.  Where no check is violated there is a grammar, and
its productions are the alternatives, numbered one after the other.

## Main Definitions

* `Check`, `Check.Before` — the checks and their order
* `Check.Violated`, `Check.FirstViolated` — a check that is violated, and the first such check
* `Grammar.ComposedOf` — a grammar is made of the given symbols and alternatives

## Main Statements

* `fault?_eq_some_iff` — the fault reported is that of the first violated check
* `Grammar.composedOf_of_ofAlternatives` — what passes the checks is kept
* `Grammar.ofAlternatives_exact` — when there is a grammar, what it is, and what is reported if not
-/

namespace SimpleLR

/-! ### Checks and their order -/

/-- A check that symbols, of which some are nonterminals, and their alternatives have to pass. -/
inductive Check where
  /-- There is a symbol. -/
  | someSymbol
  /-- There are not too many symbols. -/
  | symbolLimit
  /-- There is a nonterminal. -/
  | someNonterminal
  /-- There is a terminal. -/
  | someTerminal
  /-- There are no more lists of alternatives than nonterminals. -/
  | listLimit
  /-- Nonterminal `i` has an alternative. -/
  | someAlternative (i : Nat)
  /-- What stands at place `k` of alternative `j` of nonterminal `i` is a symbol. -/
  | symbolAt (i j k : Nat)

/-- At place `k` of alternative `j` stands `x`, which is not below `bound`. -/
def StrayAt (bound : Nat) (alternatives : List Alternative) (j k x : Nat) : Prop :=
  ∃ a, alternatives[j]? = some a ∧ a.rhs[k]? = some x ∧ bound ≤ x

namespace Check

/-- Where a check stands in the order of the checks. -/
def place : Check → List Nat
  | someSymbol => [0]
  | symbolLimit => [1]
  | someNonterminal => [2]
  | someTerminal => [3]
  | listLimit => [4]
  | someAlternative i => [5, i]
  | symbolAt i j k => [5, i, j, k]

/-- Places are compared like words.  So what is asked about a nonterminal as a whole comes before
what is asked about its alternatives, and after all that is asked about the nonterminals before
it. -/
def Before (c d : Check) : Prop := List.Lex (· < ·) c.place d.place

/-- `Violated symbols n rules c e`: the check `c` is violated, which is the error `e`.  A
nonterminal for which no list is given has no alternatives. -/
inductive Violated (symbols : List Symbol) (n : Nat) (rules : List (List Alternative)) :
    Check → GrammarError → Prop where
  /-- The symbol table is empty. -/
  | someSymbol (h : symbols.length = 0) : Violated symbols n rules .someSymbol .noSymbols
  /-- The symbol table is too long. -/
  | symbolLimit (h : maxSymbols < symbols.length) :
      Violated symbols n rules .symbolLimit (.tooManySymbols symbols.length maxSymbols)
  /-- No symbol is a nonterminal. -/
  | someNonterminal (h : n = 0) : Violated symbols n rules .someNonterminal .noNonterminals
  /-- No symbol is left to be a terminal. -/
  | someTerminal (h : symbols.length ≤ n) : Violated symbols n rules .someTerminal .noTerminals
  /-- A list of alternatives is left over. -/
  | listLimit (h : n < rules.length) :
      Violated symbols n rules .listLimit (.extraProductions n rules.length)
  /-- A nonterminal has no alternative. -/
  | someAlternative {i : Nat} {s : Symbol} (hi : i < n) (hs : symbols[i]? = some s)
      (h : rules[i]?.getD [] = []) :
      Violated symbols n rules (.someAlternative i) (.missingProductions s.name)
  /-- An alternative mentions what is not a symbol. -/
  | symbolAt {i j k x : Nat} {s : Symbol} (hi : i < n) (hs : symbols[i]? = some s)
      (h : StrayAt symbols.length (rules[i]?.getD []) j k x) :
      Violated symbols n rules (.symbolAt i j k) (.symbolOutOfRange s.name j x)

/-- The check `c` is violated, with the error `e`, and no check before it is. -/
structure FirstViolated (symbols : List Symbol) (n : Nat) (rules : List (List Alternative))
    (c : Check) (e : GrammarError) : Prop where
  /-- The check is violated. -/
  violated : Violated symbols n rules c e
  /-- No violated check comes before it. -/
  not_before : ∀ d e', Violated symbols n rules d e' → ¬ d.Before c

section Order

variable {i j k i' j' k' : Nat}

theorem someAlternative_before_someAlternative :
    (someAlternative i').Before (someAlternative i) ↔ i' < i := by
  simp [Before, place, List.cons_lex_cons_iff]

theorem symbolAt_before_someAlternative :
    (symbolAt i' j' k').Before (someAlternative i) ↔ i' < i := by
  simp [Before, place, List.cons_lex_cons_iff]

theorem someAlternative_before_symbolAt :
    (someAlternative i').Before (symbolAt i j k) ↔ i' ≤ i := by
  simp [Before, place, List.cons_lex_cons_iff, Nat.le_iff_lt_or_eq]

theorem symbolAt_before_symbolAt :
    (symbolAt i' j' k').Before (symbolAt i j k) ↔
      i' < i ∨ i' = i ∧ (j' < j ∨ j' = j ∧ k' < k) := by
  simp [Before, place, List.cons_lex_cons_iff]

end Order

/-- Of two different checks one comes before the other. -/
theorem eq_of_not_before {c d : Check} (h : ¬ c.Before d) (h' : ¬ d.Before c) : c = d := by
  cases c <;> cases d <;> simp [Before, place, List.cons_lex_cons_iff] at h h' ⊢ <;> omega

end Check

/-! ### Stray symbols -/

section Stray

variable {bound : Nat} {alternatives rest : List Alternative} {a : Alternative} {j k x y : Nat}

theorem StrayAt.unique (h : StrayAt bound alternatives j k x)
    (h' : StrayAt bound alternatives j k y) : x = y := by
  obtain ⟨a, ha, hx, -⟩ := h
  obtain ⟨b, hb, hy, -⟩ := h'
  obtain rfl := Option.some.inj (ha.symm.trans hb)
  exact Option.some.inj (hx.symm.trans hy)

theorem StrayAt.exists_mem (h : StrayAt bound alternatives j k x) :
    ∃ a ∈ alternatives, x ∈ a.rhs ∧ bound ≤ x := by
  obtain ⟨a, ha, hx, hle⟩ := h
  exact ⟨a, List.mem_of_getElem? ha, List.mem_of_getElem? hx, hle⟩

theorem strayAt_zero : StrayAt bound (a :: rest) 0 k x ↔ a.rhs[k]? = some x ∧ bound ≤ x := by
  simp [StrayAt]

theorem strayAt_succ : StrayAt bound (a :: rest) (j + 1) k x ↔ StrayAt bound rest j k x := by
  simp [StrayAt]

/-- The fault of alternatives is the first stray symbol, alternative by alternative and from left to
right. -/
theorem exists_strayAt_of_alternativesFault? {name : String} {index : Nat} {e : GrammarError}
    (h : alternativesFault? bound name index alternatives = some e) :
    ∃ j k x, StrayAt bound alternatives j k x ∧ e = .symbolOutOfRange name (index + j) x ∧
      ∀ j' k' x', StrayAt bound alternatives j' k' x' → j < j' ∨ j = j' ∧ k ≤ k' := by
  induction alternatives generalizing index with
  | nil => simp [alternativesFault?] at h
  | cons a rest ih =>
    rw [alternativesFault?] at h
    split at h
    · rename_i x hx
      obtain ⟨hstray, k, hk, rfl, hbefore⟩ := List.find?_eq_some_iff_getElem.1 hx
      have hhere : StrayAt bound (a :: rest) 0 k a.rhs[k] :=
        strayAt_zero.2 ⟨List.getElem?_eq_getElem hk, by simpa using hstray⟩
      refine ⟨0, k, a.rhs[k], hhere, (Option.some.inj h).symm, fun j' k' x' hs => ?_⟩
      cases j' with
      | zero =>
        obtain ⟨hx', hle⟩ := strayAt_zero.1 hs
        obtain ⟨_, rfl⟩ := List.getElem?_eq_some_iff.1 hx'
        refine Or.inr ⟨rfl, Nat.le_of_not_lt fun hlt => ?_⟩
        have hsmall : a.rhs[k'] < bound := by simpa using hbefore k' hlt
        omega
      | succ j' => exact Or.inl (Nat.succ_pos j')
    · rename_i hnone
      obtain ⟨j, k, x, hs, rfl, hfirst⟩ := ih h
      refine ⟨j + 1, k, x, strayAt_succ.2 hs, ?_, fun j' k' x' hs' => ?_⟩
      · rw [Nat.add_right_comm, Nat.add_assoc]
      · cases j' with
        | zero =>
          obtain ⟨hx', hle⟩ := strayAt_zero.1 hs'
          have hsmall : x' < bound := by
            simpa using List.find?_eq_none.1 hnone x' (List.mem_of_getElem? hx')
          omega
        | succ j' =>
          have hle := hfirst j' k' x' (strayAt_succ.1 hs')
          omega

/-- The fault of rules is that of the first nonterminal which has no alternative, or an alternative
with a stray symbol. -/
theorem exists_getElem?_of_rulesFault? {symbols : List Symbol} {rules : List (List Alternative)}
    {e : GrammarError} (h : rulesFault? bound symbols rules = some e) :
    ∃ (i : Nat) (s : Symbol), symbols[i]? = some s ∧
      (∀ i' < i, rules[i']?.getD [] ≠ [] ∧
        ∀ j k x, ¬ StrayAt bound (rules[i']?.getD []) j k x) ∧
      (rules[i]?.getD [] = [] ∧ e = .missingProductions s.name ∨
        rules[i]?.getD [] ≠ [] ∧
          alternativesFault? bound s.name 0 (rules[i]?.getD []) = some e) := by
  induction symbols generalizing rules with
  | nil => simp [rulesFault?] at h
  | cons s symbols ih =>
    rcases rules with _ | ⟨_ | ⟨a, as⟩, rest⟩
    · exact ⟨0, s, rfl, by simp, Or.inl ⟨rfl, (Option.some.inj h).symm⟩⟩
    · exact ⟨0, s, rfl, by simp, Or.inl ⟨rfl, (Option.some.inj h).symm⟩⟩
    · rw [rulesFault?] at h
      split at h
      · rename_i he
        exact ⟨0, s, rfl, by simp, Or.inr ⟨by simp, he.trans h⟩⟩
      · rename_i he
        obtain ⟨i, s', hs', hbefore, hi⟩ := ih h
        refine ⟨i + 1, s', hs', fun i' hi' => ?_, hi⟩
        cases i' with
        | zero =>
          refine ⟨by simp, fun j k x hstray => ?_⟩
          obtain ⟨b, hb, hx, hle⟩ := hstray.exists_mem
          have hlt := alternativesFault?_eq_none_iff.1 he b hb x hx
          omega
        | succ i' => exact hbefore i' (Nat.lt_of_succ_lt_succ hi')

end Stray

/-- In well-formed rules every nonterminal has a list of its own. -/
theorem WellFormed.alternatives_mem {symbols : List Symbol} {n : Nat}
    {rules : List (List Alternative)} (h : WellFormed symbols n rules) {i : Nat} (hi : i < n) :
    rules[i]?.getD [] ∈ rules := by
  have hlt : i < rules.length := h.length_rules ▸ hi
  rw [List.getElem?_eq_getElem hlt, Option.getD_some]
  exact List.getElem_mem hlt

namespace Check

variable {symbols : List Symbol} {n : Nat} {rules : List (List Alternative)} {c d : Check}
  {e e' : GrammarError}

/-! ### The first violated check -/

/-- A check has one error. -/
theorem Violated.error_unique (h : Violated symbols n rules c e)
    (h' : Violated symbols n rules c e') : e = e' := by
  cases h with
  | someAlternative _ hs _ =>
    cases h' with
    | someAlternative _ hs' _ => rw [Option.some.inj (hs.symm.trans hs')]
  | symbolAt _ hs hx =>
    cases h' with
    | symbolAt _ hs' hx' => rw [Option.some.inj (hs.symm.trans hs'), hx.unique hx']
  | _ => cases h'; rfl

theorem FirstViolated.error_unique (h : FirstViolated symbols n rules c e)
    (h' : FirstViolated symbols n rules d e') : e = e' := by
  obtain rfl : c = d :=
    eq_of_not_before (h'.not_before c e h.violated) (h.not_before d e' h'.violated)
  exact h.violated.error_unique h'.violated

/-- Well-formed symbols and alternatives pass all checks. -/
theorem not_violated_of_wellFormed (h : WellFormed symbols n rules) :
    ¬ Violated symbols n rules c e := by
  have hlimit := h.length_symbols_le
  have hpos := h.pos
  have hlt := h.lt
  have hlists := h.length_rules
  intro hv
  cases hv with
  | someAlternative hi _ hempty =>
    exact h.nonempty _ (h.alternatives_mem hi) hempty
  | symbolAt hi _ hstray =>
    obtain ⟨a, ha, hx, hle⟩ := hstray.exists_mem
    have hlt := h.rhs_lt _ (h.alternatives_mem hi) a ha _ hx
    omega
  | _ => omega

/-- A fault of the symbol table is that of the first violated check. -/
theorem exists_firstViolated_of_symbolsFault?
    (h : symbolsFault? symbols n rules.length = some e) :
    ∃ c, FirstViolated symbols n rules c e := by
  unfold symbolsFault? at h
  -- the branches are the checks in their order, so a check that stands before one has been passed
  split at h
  · cases h
    refine ⟨_, .someSymbol ‹_›, ?_⟩
    rintro _ _ ⟨⟩ <;> simp [Before, place, List.cons_lex_cons_iff]
  split at h
  · cases h
    refine ⟨_, .symbolLimit ‹_›, ?_⟩
    rintro _ _ ⟨⟩ <;> simp [Before, place, List.cons_lex_cons_iff]
    omega
  split at h
  · cases h
    refine ⟨_, .someNonterminal ‹_›, ?_⟩
    rintro _ _ ⟨⟩ <;> simp [Before, place, List.cons_lex_cons_iff] <;> omega
  split at h
  · cases h
    refine ⟨_, .someTerminal ‹_›, ?_⟩
    rintro _ _ ⟨⟩ <;> simp [Before, place, List.cons_lex_cons_iff] <;> omega
  split at h
  · cases h
    refine ⟨_, .listLimit ‹_›, ?_⟩
    rintro _ _ ⟨⟩ <;> simp [Before, place, List.cons_lex_cons_iff] <;> omega
  · cases h

/-- Where the symbol table has no fault, only nonterminals and their alternatives violate checks. -/
theorem Violated.cases_of_symbolsFault? (hnone : symbolsFault? symbols n rules.length = none)
    (h : Violated symbols n rules c e) :
    (∃ i, c = .someAlternative i ∧ rules[i]?.getD [] = []) ∨
      ∃ i j k x, c = .symbolAt i j k ∧ StrayAt symbols.length (rules[i]?.getD []) j k x := by
  obtain ⟨hlimit, hpos, hlt, hlists⟩ := symbolsFault?_eq_none_iff.1 hnone
  cases h with
  | someAlternative _ _ h => exact Or.inl ⟨_, rfl, h⟩
  | symbolAt _ _ h => exact Or.inr ⟨_, _, _, _, rfl, h⟩
  | _ => omega

/-- A fault of the rules is that of the first violated check, if the symbol table has no fault. -/
theorem exists_firstViolated_of_rulesFault?
    (hnone : symbolsFault? symbols n rules.length = none)
    (h : rulesFault? symbols.length (symbols.take n) rules = some e) :
    ∃ c, FirstViolated symbols n rules c e := by
  obtain ⟨i, s, hs, hbefore, hi⟩ := exists_getElem?_of_rulesFault? h
  obtain ⟨hin, hs⟩ : i < n ∧ symbols[i]? = some s := by
    rw [List.getElem?_take] at hs
    split at hs
    · exact ⟨‹_›, hs⟩
    · cases hs
  rcases hi with ⟨hempty, rfl⟩ | ⟨hne, hfault⟩
  · refine ⟨_, .someAlternative hin hs hempty, fun d e' hd => ?_⟩
    rcases hd.cases_of_symbolsFault? hnone with ⟨i', rfl, hempty'⟩ | ⟨i', j', k', x', rfl, hstray⟩
    · rw [someAlternative_before_someAlternative]
      exact fun hlt => (hbefore i' hlt).1 hempty'
    · rw [symbolAt_before_someAlternative]
      exact fun hlt => (hbefore i' hlt).2 j' k' x' hstray
  · obtain ⟨j, k, x, hstray, rfl, hfirst⟩ := exists_strayAt_of_alternativesFault? hfault
    rw [Nat.zero_add]
    refine ⟨_, .symbolAt hin hs hstray, fun d e' hd => ?_⟩
    rcases hd.cases_of_symbolsFault? hnone with ⟨i', rfl, hempty⟩ | ⟨i', j', k', x', rfl, hstray'⟩
    · rw [someAlternative_before_symbolAt]
      intro hle
      rcases Nat.lt_or_eq_of_le hle with hlt | rfl
      · exact (hbefore i' hlt).1 hempty
      · exact hne hempty
    · rw [symbolAt_before_symbolAt]
      rintro (hlt | ⟨rfl, hlt⟩)
      · exact (hbefore i' hlt).2 j' k' x' hstray'
      · have hle := hfirst j' k' x' hstray'
        omega

end Check

/-- **The fault reported is that of the first violated check.** -/
theorem fault?_eq_some_iff {symbols : List Symbol} {n : Nat} {rules : List (List Alternative)}
    {e : GrammarError} :
    fault? symbols n rules = some e ↔ ∃ c, Check.FirstViolated symbols n rules c e := by
  have first {e : GrammarError} (h : fault? symbols n rules = some e) :
      ∃ c, Check.FirstViolated symbols n rules c e := by
    rw [fault?] at h
    split at h
    · rename_i hs
      exact Check.exists_firstViolated_of_symbolsFault? (hs.trans h)
    · rename_i hs
      exact Check.exists_firstViolated_of_rulesFault? hs h
  refine ⟨first, ?_⟩
  rintro ⟨c, hc⟩
  rcases hf : fault? symbols n rules with _ | e'
  · exact absurd hc.violated (Check.not_violated_of_wellFormed (fault?_eq_none_iff.1 hf))
  · obtain ⟨d, hd⟩ := first hf
    rw [hd.error_unique hc]

namespace Grammar

variable {symbols : List Symbol} {n : Nat} {rules : List (List Alternative)}

/-! ### What passes the checks -/

theorem ofAlternatives_eq_error_iff {e : GrammarError} :
    ofAlternatives symbols n rules = .error e ↔ fault? symbols n rules = some e := by
  rw [ofAlternatives]
  split <;> simp_all

theorem exists_ofAlternatives_iff :
    (∃ g, ofAlternatives symbols n rules = .ok g) ↔ WellFormed symbols n rules := by
  rw [← fault?_eq_none_iff, ofAlternatives]
  split <;> simp_all

/-- `g` is made of the given symbols, of which the first `n` are nonterminals with the given
alternatives. -/
structure ComposedOf (g : Grammar) (symbols : List Symbol) (n : Nat)
    (rules : List (List Alternative)) : Prop where
  /-- The symbols are those given. -/
  symbols_eq : g.symbols = symbols
  /-- The nonterminals are the first `n` of them. -/
  numNonterminals_eq : g.numNonterminals = n
  /-- Production `j` of nonterminal `i` is alternative `j` of it, and its number is the number of
  alternatives before it. -/
  productionsOf_eq : ∀ i j, (g.productionsOf i)[j]? = (rules[i]?.bind (·[j]?)).map fun a =>
    Production.mk i j (precedingAlternatives rules i + j) a.rhs a.precedence
  /-- There are as many productions as alternatives. -/
  numProductions_eq : g.numProductions = rules.flatten.length
  /-- All productions in order are numbered without a gap. -/
  seq_productions : g.productions.map (·.seq) = List.range g.numProductions
  /-- A production stands at the place of its number. -/
  productions_seq : ∀ i, ∀ p ∈ g.productionsOf i, g.productions[p.seq]? = some p
  /-- The number of a symbol fits sixteen bits. -/
  fits : ∀ x < g.numSymbols, (UInt16.ofNat x).toNat = x
  /-- The end of the input and all that productions mention are symbols. -/
  lt_numSymbols : g.endOfInput < g.numSymbols ∧
    ∀ p ∈ g.productions, ∀ x ∈ p.lhs :: p.rhs, x < g.numSymbols
  /-- Dependencies and dependents are converse to each other. -/
  mem_dependencies_iff : ∀ i m, m ∈ g.dependencies i ↔ i ∈ g.dependents m
  /-- They are the nonterminals that the alternatives of nonterminals mention. -/
  mem_dependents_iff : ∀ i m, i ∈ g.dependents m ↔
    i < n ∧ m < n ∧ ∃ as, rules[i]? = some as ∧ ∃ a ∈ as, m ∈ a.rhs

theorem getElem?_productionsOf {g : Grammar} (hrules : g.rules = numberRules 0 0 rules)
    (i j : Nat) : (g.productionsOf i)[j]? = (rules[i]?.bind (·[j]?)).map fun a =>
      Production.mk i j (precedingAlternatives rules i + j) a.rhs a.precedence := by
  rw [productionsOf, hrules, getElem?_numberRules, Nat.zero_add, Nat.zero_add]
  rcases rules[i]? with _ | as
  · rfl
  · exact getElem?_numberAlternatives i _ as j

/-- A nonterminal mentions in its productions what it mentions in its alternatives. -/
theorem exists_mem_productionsOf_iff {g : Grammar} (hrules : g.rules = numberRules 0 0 rules)
    {i m : Nat} : (∃ p ∈ g.productionsOf i, m ∈ p.rhs) ↔
      ∃ as, rules[i]? = some as ∧ ∃ a ∈ as, m ∈ a.rhs := by
  constructor
  · rintro ⟨p, hp, hm⟩
    obtain ⟨j, hj⟩ := List.mem_iff_getElem?.1 hp
    rw [getElem?_productionsOf hrules] at hj
    obtain ⟨a, ha, rfl⟩ := Option.map_eq_some_iff.1 hj
    obtain ⟨as, has, ha⟩ := Option.bind_eq_some_iff.1 ha
    exact ⟨as, has, a, List.mem_of_getElem? ha, hm⟩
  · rintro ⟨as, has, a, ha, hm⟩
    obtain ⟨j, hj⟩ := List.mem_iff_getElem?.1 ha
    refine ⟨⟨i, j, precedingAlternatives rules i + j, a.rhs, a.precedence⟩, ?_, hm⟩
    refine List.mem_iff_getElem?.2 ⟨j, ?_⟩
    rw [getElem?_productionsOf hrules, has, Option.bind_some, hj, Option.map_some]

theorem mem_dependencies_iff_mem_dependents {g : Grammar} {i m : Nat} :
    m ∈ g.dependencies i ↔ i ∈ g.dependents m := by
  rw [mem_dependencies, mem_dependents]
  constructor
  · rintro ⟨hm, p, hp, hx⟩
    obtain ⟨hp', rfl⟩ := g.mem_productionsOf.1 hp
    exact ⟨g.isNonterminal_lhs hp', hm, p, hp, hx⟩
  · rintro ⟨-, hm, h⟩
    exact ⟨hm, h⟩

/-- **What passes the checks is kept.** -/
theorem composedOf_of_ofAlternatives {g : Grammar}
    (h : ofAlternatives symbols n rules = .ok g) : g.ComposedOf symbols n rules := by
  obtain ⟨hsymbols, hn, hrules⟩ := eq_of_ofAlternatives h
  refine ⟨hsymbols, hn, getElem?_productionsOf hrules, ?_, g.rules_seq, ?_, ?_, ⟨?_, ?_⟩,
    fun i m => mem_dependencies_iff_mem_dependents, ?_⟩
  · rw [numProductions, productions, hrules, length_flatten_numberRules]
  · intro i p hp
    exact g.production?_seq (g.mem_productionsOf.1 hp).1
  · intro x hx
    have hle : g.numSymbols ≤ 65535 := g.length_symbols_le
    exact UInt16.toNat_ofNat_of_lt' (show x < 65536 by omega)
  · exact (g.isTerminal_iff.1 g.isTerminal_endOfInput).2
  · intro p hp
    rw [List.forall_mem_cons]
    refine ⟨?_, fun x hx => g.lt_numSymbols_of_mem_rhs hp hx⟩
    exact Nat.lt_trans (g.isNonterminal_iff.1 (g.isNonterminal_lhs hp)) g.numNonterminals_lt
  · intro i m
    rw [mem_dependents, isNonterminal_iff, isNonterminal_iff, hn,
      exists_mem_productionsOf_iff hrules]

/-- **Validation is exact and construction faithful.**  There is a grammar just if symbols and
alternatives are well-formed, and then it is made of them.  Otherwise the error is that of the first
violated check. -/
theorem ofAlternatives_exact (symbols : List Symbol) (n : Nat) (rules : List (List Alternative)) :
    ((∃ g, ofAlternatives symbols n rules = .ok g) ↔ WellFormed symbols n rules) ∧
      (∀ g, ofAlternatives symbols n rules = .ok g → g.ComposedOf symbols n rules) ∧
      ∀ e, ofAlternatives symbols n rules = .error e ↔
        ∃ c, Check.FirstViolated symbols n rules c e := by
  refine ⟨exists_ofAlternatives_iff, fun g => composedOf_of_ofAlternatives, fun e => ?_⟩
  rw [ofAlternatives_eq_error_iff, fault?_eq_some_iff]

/-- Two nonterminals and two terminals. -/
def pairSymbols : List Symbol := [⟨"S", none⟩, ⟨"A", none⟩, ⟨"x", none⟩, ⟨"$end", none⟩]

/-- The alternatives `S := A x`, `S :=` and `A := S` make up a grammar, in which the production of
`A` has number two.  In `S := A x` and `S := x 7 9`, without an alternative of `A`, the first fault
is that `7` is not a symbol. -/
theorem ofAlternatives_exact_pair :
    (∃ g, ofAlternatives pairSymbols 2 [[⟨[1, 2], none⟩, ⟨[], none⟩], [⟨[0], none⟩]] = .ok g ∧
      (g.productionsOf 1)[0]? = some ⟨1, 0, 2, [0], none⟩ ∧ 0 ∈ g.dependents 1) ∧
    ∃ c, Check.FirstViolated pairSymbols 2 [[⟨[1, 2], none⟩, ⟨[2, 7, 9], none⟩]] c
      (.symbolOutOfRange "S" 1 7) := by
  constructor
  · have hwf : WellFormed pairSymbols 2 [[⟨[1, 2], none⟩, ⟨[], none⟩], [⟨[0], none⟩]] :=
      ⟨by decide, by decide, by decide, by decide, by decide, by decide⟩
    obtain ⟨g, hg⟩ := (ofAlternatives_exact _ _ _).1.2 hwf
    have hcomposed := (ofAlternatives_exact _ _ _).2.1 g hg
    refine ⟨g, hg, hcomposed.productionsOf_eq 1 0, (hcomposed.mem_dependents_iff 0 1).2 ?_⟩
    exact ⟨by decide, by decide, _, rfl, ⟨[1, 2], none⟩, by decide, by decide⟩
  · have hfault : fault? pairSymbols 2 [[⟨[1, 2], none⟩, ⟨[2, 7, 9], none⟩]] =
        some (.symbolOutOfRange "S" 1 7) := by decide
    exact ((ofAlternatives_exact _ _ _).2.2 _).1 (ofAlternatives_eq_error_iff.2 hfault)

end Grammar

end SimpleLR
