import SimpleLR.Grammar.Validation
import SimpleLR.Proofs.Analysis.Exactness
import SimpleLR.Proofs.Grammar.Derivation

/-!
# Decisions say what is derived

Two properties of symbols are decided by their right-hand sides: deriving the empty string, and
deriving a word of terminals.  Both are read off derivations in the same way.  Backwards, if all
symbols of a string have been decided to have the property, then so have all symbols of any string
that it is derived from.  Forwards, if some symbol of a string has been decided *not* to have the
property, then so has some symbol of every string derived from it: a mark is given only if every
right-hand side has a marked symbol, so a marked symbol is only ever replaced by a string with
another one.

The second fact does not depend on the order in which nonterminals are looked at, nor on how far the
analysis has come.  It holds of every mark from the moment it is given.

## Main Statements

* `Property.Justified.exists_fails_of_derivation` — marks are never derived away
* `Grammar.status_eq_holds_of_derivation` — decisions are complete along derivations
* `Grammar.isNullable_iff` — exactly the nonterminals that derive the empty string are nullable
* `Grammar.isProductive_iff` — exactly the symbols that derive words are productive
-/

namespace SimpleLR

namespace Property

variable {g : Grammar} {onTerminals : Decision} {S : Nat → Prop} {ds : Decisions}

/-! ### Marks along derivations -/

/-- When a nonterminal is replaced, a string with a marked symbol keeps one. -/
theorem Justified.exists_fails_of_replaces (h : Justified g onTerminals S ds) {p : Production}
    (hp : p ∈ g.productions) {u v : List Nat} (hr : p.Replaces u v)
    (hu : ∃ x ∈ u, status g onTerminals ds x = .fails) :
    ∃ x ∈ v, status g onTerminals ds x = .fails := by
  obtain ⟨before, after, rfl, rfl⟩ := hr
  obtain ⟨x, hx, hfails⟩ := hu
  by_cases hlhs : x = p.lhs
  · -- the mark was given because this right-hand side, like all others, is blocked
    subst hlhs
    have hmark := (status_eq_iff (g.isNonterminal_lhs hp) (by simp)).1 hfails
    obtain ⟨y, hy, hblocked⟩ := h.fails p.lhs hmark p (g.mem_productionsOf.2 ⟨hp, rfl⟩)
    exact ⟨y, List.mem_append_right _ (List.mem_append_left _ hy), hblocked⟩
  · refine ⟨x, ?_, hfails⟩
    rcases List.mem_append.1 hx with hx | hx
    · exact List.mem_append_left _ hx
    · have hafter := (List.mem_cons.1 hx).resolve_left hlhs
      exact List.mem_append_right _ (List.mem_append_right _ hafter)

/-- **Marks are never derived away.** -/
theorem Justified.exists_fails_of_derivation (h : Justified g onTerminals S ds) {u v : List Nat}
    {ps : List Production} (hd : g.Derivation u ps v)
    (hu : ∃ x ∈ u, status g onTerminals ds x = .fails) :
    ∃ x ∈ v, status g onTerminals ds x = .fails := by
  induction hd with
  | refl => exact hu
  | tail _ hp hr ih => exact h.exists_fails_of_replaces hp hr ih

/-- Decisions are justified after any visits, in any order. -/
theorem Justified.round (hS : PassedOn g onTerminals S) (h : Justified g onTerminals S ds)
    (visits : List Nat) :
    Justified g onTerminals S (Analysis.round (Property.update g onTerminals) visits ds).2 := by
  induction visits generalizing ds with
  | nil => exact h
  | cons n visits ih => exact ih (h.update hS n)

/-- A marked symbol does not derive the empty string. -/
theorem Justified.not_derives_nil (h : Justified g .fails S ds) {x : Nat}
    (hx : ds[x]? = some .fails) : ¬ g.Derives [x] [] := by
  rintro ⟨ps, hd⟩
  have hstatus : status g .fails ds x = .fails := by
    simp [status, hx]
  obtain ⟨y, hy, -⟩ := h.exists_fails_of_derivation hd ⟨x, List.mem_singleton_self x, hstatus⟩
  simp at hy

end Property

namespace Grammar

open Property

variable {g : Grammar}

/-! ### Decisions along derivations -/

/-- **Decisions are complete along derivations**: what derives a string of symbols that have the
property has only symbols that have it. -/
theorem status_eq_holds_of_derivation {onTerminals : Decision} {u v : List Nat}
    {ps : List Production} (hd : g.Derivation u ps v)
    (hv : ∀ x ∈ v, status g onTerminals (g.decisions onTerminals g.components).2 x = .holds) :
    ∀ x ∈ u, status g onTerminals (g.decisions onTerminals g.components).2 x = .holds := by
  induction hd with
  | refl => exact hv
  | @tail _ _ _ p _ hp hr ih =>
    refine ih ?_
    obtain ⟨before, after, rfl, rfl⟩ := hr
    rw [List.forall_mem_append, List.forall_mem_append] at hv
    obtain ⟨hbefore, hrhs, hafter⟩ := hv
    have hlhs := g.decisions_complete hp hrhs
    rw [List.forall_mem_append, List.forall_mem_cons,
      status_eq_iff (g.isNonterminal_lhs hp) (by simp)]
    exact ⟨hbefore, by simpa [has] using hlhs, hafter⟩

/-- A nonterminal that derives a string of symbols that have the property is decided to have it. -/
theorem has_of_derives {onTerminals : Decision} {n : Nat} {v : List Nat}
    (hn : g.isNonterminal n = true) (hd : g.Derives [n] v)
    (hv : ∀ x ∈ v, status g onTerminals (g.decisions onTerminals g.components).2 x = .holds) :
    has (g.decisions onTerminals g.components).2 n = true := by
  obtain ⟨ps, hd⟩ := hd
  have hstatus := status_eq_holds_of_derivation hd hv n (List.mem_singleton_self n)
  simpa [has] using (status_eq_iff hn (by simp)).1 hstatus

/-! ### Deriving the empty string -/

/-- **Exactly the nonterminals that derive the empty string are nullable.**  A nonterminal that is
marked as not nullable does not derive the empty string, whatever nonterminals have been looked at
when it is marked and in whatever order. -/
theorem isNullable_iff (g : Grammar) (x : Nat) :
    (g.analyse.isNullable x = true ↔ g.isNonterminal x = true ∧ g.Derives [x] []) ∧
      (g.analyse.nullable[x]? = some .fails → ¬ g.Derives [x] []) ∧
      ∀ visits : List Nat,
        (Analysis.round (Property.update g .fails) visits
          (List.replicate g.numNonterminals .undecided)).2[x]? = some .fails →
        ¬ g.Derives [x] [] := by
  have htrivial : PassedOn g .fails fun _ => True := fun _ _ _ => trivial
  refine ⟨?_, ?_, ?_⟩
  · constructor
    · intro h
      exact ⟨g.isNonterminal_of_decided (beq_iff_eq.1 h), derives_nil_of_isNullable h⟩
    · rintro ⟨hn, hd⟩
      exact has_of_derives hn hd (by simp)
  · exact (g.decisions_spec .fails htrivial).1.not_derives_nil
  · intro visits
    exact ((justified_undecided g .fails).round htrivial visits).not_derives_nil

/-- The productions `S :=`, `S := A`, `A := x B`, `B := A` and `B := B`.  The nonterminals `A` and
`B` depend on each other, and `A` is marked before anything is known about `B`, of which nothing is
ever decided. -/
def guarded : Grammar :=
  ofWellFormed [⟨"S", none⟩, ⟨"A", none⟩, ⟨"B", none⟩, ⟨"x", none⟩, ⟨"$end", none⟩] 3
    [[⟨[], none⟩, ⟨[1], none⟩], [⟨[3, 2], none⟩], [⟨[1], none⟩, ⟨[2], none⟩]]
    ⟨by decide, by decide, by decide, by decide, by decide, by decide⟩

/-- A mark stands for good next to a nonterminal that is left undecided. -/
theorem isNullable_iff_guarded :
    guarded.analyse.nullable = [.holds, .fails, .undecided] ∧ ¬ guarded.Derives [1] [] ∧
      guarded.Derives [0] [] := by
  have hmarks : guarded.analyse.nullable = [.holds, .fails, .undecided] := by decide +kernel
  refine ⟨hmarks, (isNullable_iff guarded 1).2.1 ?_, ((isNullable_iff guarded 0).1.1 ?_).2⟩
  · rw [hmarks]
    rfl
  · rw [GrammarFacts.isNullable, hmarks]
    rfl

/-! ### Deriving a word -/

/-- A nonterminal is productive exactly if it derives a word. -/
theorem isProductive_iff_exists_word {n : Nat} (hn : g.isNonterminal n = true) :
    g.isProductive g.analyse n = true ↔ ∃ w, g.IsWord w ∧ g.Derives [n] w := by
  constructor
  · intro h
    obtain ⟨ps, w, hw, hd⟩ := yields_of_isProductive h
    exact ⟨w, hw, ps, hd.derivation⟩
  · rintro ⟨w, hw, hd⟩
    have hterminals : ∀ x ∈ w,
        status g .holds (g.decisions .holds g.components).2 x = .holds := by
      intro x hx
      rw [status, if_neg (by simp [g.isNonterminal_eq_false (hw x hx)])]
    rw [isProductive, Bool.or_eq_true]
    exact Or.inr (has_of_derives hn hd hterminals)

/-- **Exactly the symbols that derive words are productive**: the terminals, and the nonterminals
that derive a word of terminals.  The others are listed once each, in ascending order. -/
theorem isProductive_iff (g : Grammar) :
    (∀ x, g.isProductive g.analyse x = true ↔ g.isTerminal x = true ∨
        g.isNonterminal x = true ∧ ∃ w, g.IsWord w ∧ g.Derives [x] w) ∧
      (g.unproductive g.analyse).Pairwise (· < ·) ∧
      ∀ n, n ∈ g.unproductive g.analyse ↔
        g.isNonterminal n = true ∧ ¬ ∃ w, g.IsWord w ∧ g.Derives [n] w := by
  refine ⟨?_, List.pairwise_lt_range.filter _, ?_⟩
  · intro x
    constructor
    · intro h
      rcases Bool.or_eq_true_iff.1 h with hterminal | hhas
      · exact Or.inl hterminal
      · have hn := g.isNonterminal_of_decided (beq_iff_eq.1 hhas)
        exact Or.inr ⟨hn, (isProductive_iff_exists_word hn).1 h⟩
    · rintro (hterminal | ⟨hn, hword⟩)
      · exact Bool.or_eq_true_iff.2 (Or.inl hterminal)
      · exact (isProductive_iff_exists_word hn).2 hword
  · intro n
    rw [unproductive, List.mem_filter, nonterminals, List.mem_range, ← isNonterminal_iff]
    apply and_congr_right
    intro hn
    rw [← isProductive_iff_exists_word hn]
    simp

end Grammar

end SimpleLR
