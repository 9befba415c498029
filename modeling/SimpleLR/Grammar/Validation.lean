import SimpleLR.Grammar.Basic
import SimpleLR.Grammar.Error

/-!
# Grammars from symbols and alternatives

`Grammar.ofAlternatives` makes a grammar of a symbol table, the number of its nonterminals and the
alternatives of each of them, or says what is wrong.  Of several faults the first one counts: first
the symbol table, then the nonterminals in turn, and for a nonterminal its alternatives in turn.

## Main Definitions

* `numberAlternatives`, `numberRules` — productions with their places
* `symbolsFault?`, `rulesFault?` — the first fault, if there is one
* `Grammar.ofAlternatives` — the grammar or the first fault
-/

namespace SimpleLR

/-! ### Numbering -/

/-- The productions of nonterminal `lhs`, numbered from `seq`. -/
def numberAlternatives (lhs seq : Nat) (alternatives : List Alternative) : List Production :=
  alternatives.mapIdx fun j a => ⟨lhs, j, seq + j, a.rhs, a.precedence⟩

/-- The productions of the nonterminals from `lhs` on, numbered from `seq`. -/
def numberRules (lhs seq : Nat) : List (List Alternative) → List (List Production)
  | [] => []
  | alternatives :: rest =>
    numberAlternatives lhs seq alternatives ::
      numberRules (lhs + 1) (seq + alternatives.length) rest

@[simp] theorem length_numberAlternatives (lhs seq : Nat) (alternatives : List Alternative) :
    (numberAlternatives lhs seq alternatives).length = alternatives.length := by
  simp [numberAlternatives]

theorem getElem?_numberAlternatives (lhs seq : Nat) (alternatives : List Alternative) (j : Nat) :
    (numberAlternatives lhs seq alternatives)[j]? =
      alternatives[j]?.map fun a => ⟨lhs, j, seq + j, a.rhs, a.precedence⟩ := by
  simp [numberAlternatives]

theorem seq_numberAlternatives (lhs seq : Nat) (alternatives : List Alternative) :
    (numberAlternatives lhs seq alternatives).map (·.seq) =
      List.range' seq alternatives.length := by
  refine List.ext_getElem (by simp) fun j _ _ => ?_
  simp [numberAlternatives]

theorem map_numberAlternatives (lhs seq : Nat) (alternatives : List Alternative) :
    (numberAlternatives lhs seq alternatives).map (fun p => (p.rhs, p.precedence)) =
      alternatives.map fun a => (a.rhs, a.precedence) := by
  refine List.ext_getElem (by simp) fun j _ _ => ?_
  simp [numberAlternatives]

@[simp] theorem length_numberRules (lhs seq : Nat) (rules : List (List Alternative)) :
    (numberRules lhs seq rules).length = rules.length := by
  induction rules generalizing lhs seq with
  | nil => rfl
  | cons alternatives rest ih => simp [numberRules, ih]

/-- The number of alternatives in front of those of nonterminal `n`. -/
def precedingAlternatives (rules : List (List Alternative)) (n : Nat) : Nat :=
  (rules.take n).flatten.length

theorem getElem?_numberRules (lhs seq : Nat) (rules : List (List Alternative)) (n : Nat) :
    (numberRules lhs seq rules)[n]? =
      rules[n]?.map (numberAlternatives (lhs + n) (seq + precedingAlternatives rules n)) := by
  induction rules generalizing lhs seq n with
  | nil => simp [numberRules]
  | cons alternatives rest ih =>
    cases n with
    | zero => simp [numberRules, precedingAlternatives]
    | succ n =>
      have e : precedingAlternatives (alternatives :: rest) (n + 1) =
          alternatives.length + precedingAlternatives rest n := by
        simp [precedingAlternatives]
      simp only [numberRules, List.getElem?_cons_succ, ih, e]
      rw [Nat.add_assoc lhs 1 n, Nat.add_comm 1 n, Nat.add_assoc seq]

theorem seq_numberRules (lhs seq : Nat) (rules : List (List Alternative)) :
    (numberRules lhs seq rules).flatten.map (·.seq) =
      List.range' seq rules.flatten.length := by
  induction rules generalizing lhs seq with
  | nil => rfl
  | cons alternatives rest ih =>
    rw [numberRules, List.flatten_cons, List.map_append, seq_numberAlternatives, ih,
      List.flatten_cons, List.length_append, List.range'_append_1]

theorem length_flatten_numberRules (lhs seq : Nat) (rules : List (List Alternative)) :
    (numberRules lhs seq rules).flatten.length = rules.flatten.length := by
  rw [← List.length_map (fun p : Production => p.seq), seq_numberRules, List.length_range']

/-! ### Faults -/

/-- The first symbol of an alternative that is not below `bound`, from alternative `index` on. -/
def alternativesFault? (bound : Nat) (name : String) : Nat → List Alternative → Option GrammarError
  | _, [] => none
  | index, a :: rest =>
    match a.rhs.find? fun x => decide (bound ≤ x) with
    | some x => some (.symbolOutOfRange name index x)
    | none => alternativesFault? bound name (index + 1) rest

/-- The first fault of the alternatives of the given nonterminals. -/
def rulesFault? (bound : Nat) : List Symbol → List (List Alternative) → Option GrammarError
  | [], _ => none
  | s :: _, [] => some (.missingProductions s.name)
  | s :: _, [] :: _ => some (.missingProductions s.name)
  | s :: symbols, (a :: as) :: rest =>
    match alternativesFault? bound s.name 0 (a :: as) with
    | some e => some e
    | none => rulesFault? bound symbols rest

/-- The first fault of a symbol table with `n` nonterminals and `m` lists of alternatives. -/
def symbolsFault? (symbols : List Symbol) (n m : Nat) : Option GrammarError :=
  if symbols.length = 0 then some .noSymbols
  else if maxSymbols < symbols.length then some (.tooManySymbols symbols.length maxSymbols)
  else if n = 0 then some .noNonterminals
  else if symbols.length ≤ n then some .noTerminals
  else if n < m then some (.extraProductions n m)
  else none

theorem alternativesFault?_eq_none_iff {bound : Nat} {name : String} {index : Nat}
    {alternatives : List Alternative} :
    alternativesFault? bound name index alternatives = none ↔
      ∀ a ∈ alternatives, ∀ x ∈ a.rhs, x < bound := by
  induction alternatives generalizing index with
  | nil => simp [alternativesFault?]
  | cons a rest ih =>
    rw [alternativesFault?]
    split
    · rename_i x hx
      have hm := List.mem_of_find?_eq_some hx
      have hb : bound ≤ x := by simpa using List.find?_some hx
      constructor
      · simp
      · intro h
        have := h a List.mem_cons_self x hm
        omega
    · rename_i hx
      have hx : ∀ x ∈ a.rhs, x < bound := by simpa using hx
      rw [ih, List.forall_mem_cons]
      exact ⟨fun h => ⟨hx, h⟩, fun h => h.2⟩

theorem rulesFault?_eq_none_iff {bound : Nat} {symbols : List Symbol}
    {rules : List (List Alternative)} (hlen : rules.length ≤ symbols.length) :
    rulesFault? bound symbols rules = none ↔
      rules.length = symbols.length ∧
        ∀ as ∈ rules, as ≠ [] ∧ ∀ a ∈ as, ∀ x ∈ a.rhs, x < bound := by
  induction symbols generalizing rules with
  | nil =>
    cases rules with
    | nil => simp [rulesFault?]
    | cons as rest => simp at hlen
  | cons s symbols ih =>
    cases rules with
    | nil => simp [rulesFault?]
    | cons as rest =>
      cases as with
      | nil => simp [rulesFault?]
      | cons a as =>
        have hlen : rest.length ≤ symbols.length := by simpa using hlen
        rw [rulesFault?]
        split
        · rename_i e he
          constructor
          · simp
          · intro h
            have := alternativesFault?_eq_none_iff.2 (h.2 _ List.mem_cons_self).2 |>.symm.trans he
            simp at this
        · rename_i he
          have he := alternativesFault?_eq_none_iff.1 he
          rw [ih hlen]
          constructor
          · intro h
            refine ⟨by simp [h.1], fun bs hbs => ?_⟩
            rcases List.mem_cons.1 hbs with rfl | hbs
            · exact ⟨by simp, he⟩
            · exact h.2 bs hbs
          · intro h
            exact ⟨by simpa using h.1, fun bs hbs => h.2 bs (List.mem_cons_of_mem _ hbs)⟩

theorem symbolsFault?_eq_none_iff {symbols : List Symbol} {n m : Nat} :
    symbolsFault? symbols n m = none ↔
      symbols.length ≤ maxSymbols ∧ 0 < n ∧ n < symbols.length ∧ m ≤ n := by
  unfold symbolsFault?
  repeat' split
  all_goals
    simp
    omega

/-! ### The grammar -/

/-- What symbols and alternatives must satisfy to make up a grammar. -/
structure WellFormed (symbols : List Symbol) (n : Nat) (rules : List (List Alternative)) :
    Prop where
  length_symbols_le : symbols.length ≤ maxSymbols
  pos : 0 < n
  lt : n < symbols.length
  length_rules : rules.length = n
  nonempty : ∀ as ∈ rules, as ≠ []
  rhs_lt : ∀ as ∈ rules, ∀ a ∈ as, ∀ x ∈ a.rhs, x < symbols.length

/-- The first fault of symbols and alternatives. -/
def fault? (symbols : List Symbol) (n : Nat) (rules : List (List Alternative)) :
    Option GrammarError :=
  match symbolsFault? symbols n rules.length with
  | some e => some e
  | none => rulesFault? symbols.length (symbols.take n) rules

/-- **Validation is exact**: there is no fault just if all conditions hold. -/
theorem fault?_eq_none_iff {symbols : List Symbol} {n : Nat} {rules : List (List Alternative)} :
    fault? symbols n rules = none ↔ WellFormed symbols n rules := by
  rw [fault?]
  split
  · rename_i e he
    refine ⟨by simp, fun h => ?_⟩
    have := symbolsFault?_eq_none_iff.2
      ⟨h.length_symbols_le, h.pos, h.lt, Nat.le_of_eq h.length_rules⟩
    simp [he] at this
  · rename_i he
    obtain ⟨h₁, h₂, h₃, h₄⟩ := symbolsFault?_eq_none_iff.1 he
    have hl : (symbols.take n).length = n := by
      rw [List.length_take]
      omega
    rw [rulesFault?_eq_none_iff (by omega), hl]
    exact ⟨fun h => ⟨h₁, h₂, h₃, h.1, fun as has => (h.2 as has).1, fun as has => (h.2 as has).2⟩,
      fun h => ⟨h.length_rules, fun as has => ⟨h.nonempty as has, h.rhs_lt as has⟩⟩⟩

namespace Grammar

/-- The grammar of well-formed symbols and alternatives. -/
def ofWellFormed (symbols : List Symbol) (n : Nat) (rules : List (List Alternative))
    (h : WellFormed symbols n rules) : Grammar where
  symbols := symbols
  numNonterminals := n
  rules := numberRules 0 0 rules
  numNonterminals_pos := h.pos
  numNonterminals_lt := h.lt
  length_symbols_le := h.length_symbols_le
  length_rules := by rw [length_numberRules, h.length_rules]
  rules_ne_nil := by
    intro ps hps
    obtain ⟨i, hi⟩ := List.mem_iff_getElem?.1 hps
    rw [getElem?_numberRules] at hi
    obtain ⟨as, has, rfl⟩ := Option.map_eq_some_iff.1 hi
    intro e
    have hl := congrArg List.length e
    rw [length_numberAlternatives, List.length_nil] at hl
    exact h.nonempty as (List.mem_of_getElem? has) (List.length_eq_zero_iff.1 hl)
  rhs_lt := by
    intro ps hps p hp x hx
    obtain ⟨i, hi⟩ := List.mem_iff_getElem?.1 hps
    rw [getElem?_numberRules] at hi
    obtain ⟨as, has, rfl⟩ := Option.map_eq_some_iff.1 hi
    obtain ⟨j, hj⟩ := List.mem_iff_getElem?.1 hp
    rw [getElem?_numberAlternatives] at hj
    obtain ⟨a, ha, rfl⟩ := Option.map_eq_some_iff.1 hj
    exact h.rhs_lt as (List.mem_of_getElem? has) a (List.mem_of_getElem? ha) x hx
  rules_place := by
    intro n ps hn j p hj
    rw [getElem?_numberRules] at hn
    obtain ⟨as, has, rfl⟩ := Option.map_eq_some_iff.1 hn
    rw [getElem?_numberAlternatives] at hj
    obtain ⟨a, ha, rfl⟩ := Option.map_eq_some_iff.1 hj
    simp
  rules_seq := by
    rw [seq_numberRules, length_flatten_numberRules, List.range_eq_range']

/-- The grammar with the given symbols, of which the first `n` are nonterminals with the given
alternatives, or the first fault in them. -/
def ofAlternatives (symbols : List Symbol) (n : Nat) (rules : List (List Alternative)) :
    Except GrammarError Grammar :=
  match h : fault? symbols n rules with
  | some e => .error e
  | none => .ok (ofWellFormed symbols n rules (fault?_eq_none_iff.1 h))

theorem eq_of_ofAlternatives {symbols : List Symbol} {n : Nat} {rules : List (List Alternative)}
    {g : Grammar} (h : ofAlternatives symbols n rules = .ok g) :
    g.symbols = symbols ∧ g.numNonterminals = n ∧ g.rules = numberRules 0 0 rules := by
  rw [ofAlternatives] at h
  split at h
  · simp at h
  · cases h
    exact ⟨rfl, rfl, rfl⟩

end Grammar

end SimpleLR
