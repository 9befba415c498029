import SimpleLR.Proofs.Parse.Completeness

/-!
# Derivations are unique if no slot has two candidates

A right derivation ends with the replacement of a nonterminal that has only terminals behind it.
The string up to the end of the right-hand side leads through the automaton to a state in which
there is a reduce for it, and the terminal behind is in its lookahead.  If the same string could
also be derived with another last step, then there would be a second candidate for some slot: the
other reduce if the two right-hand sides end at the same place, and the shift of the next terminal
if one of them ends earlier.  So the last steps are the same, and what they have been applied to is
derived with fewer steps.

The parser does not come into this, nor does it matter whether the string has nonterminals in it.

## Main Statements

* `Grammar.RightDerivation.form_unique` — the productions determine what is derived
* `Grammar.last_step_unique` — what is derived determines the last step
* `Grammar.rightDerivation_unique` — what is derived determines the productions
-/

namespace SimpleLR.Grammar

open Automaton

variable {g : Grammar}

/-! ### The productions determine what is derived -/

/-- A string has one last nonterminal. -/
theorem last_nonterminal_unique {n n' : Nat} {before after before' after' : List Nat}
    (hn : g.isNonterminal n = true) (hw : g.IsWord after) (hn' : g.isNonterminal n' = true)
    (hw' : g.IsWord after') (h : before ++ n :: after = before' ++ n' :: after') :
    before = before' ∧ n = n' ∧ after = after' := by
  have hnotMem : ∀ {x : Nat} {word : List Nat}, g.isNonterminal x = true → g.IsWord word →
      x ∉ word := by
    intro x word hx hword hmem
    have hterm := g.isNonterminal_eq_false (hword x hmem)
    rw [hx] at hterm
    cases hterm
  rcases append_eq_append_cons h with ⟨rest, -, hafter⟩ | ⟨rest, hrest, hbefore⟩
  · exact absurd (by simp [hafter]) (hnotMem hn hw')
  · cases rest with
    | nil =>
      obtain ⟨rfl, rfl⟩ := List.cons_eq_cons.1 hrest
      exact ⟨by rw [hbefore, List.append_nil], rfl, rfl⟩
    | cons x rest =>
      obtain ⟨-, hafter⟩ := List.cons_eq_cons.1 hrest
      exact absurd (by simp [hafter]) (hnotMem hn' hw)

/-- A right derivation has no step or a last one. -/
theorem RightDerivation.last_cases {u w : List Nat} {ps : List Production}
    (h : g.RightDerivation u ps w) :
    ps = [] ∧ w = u ∨
      ∃ qs p before after, ps = qs ++ [p] ∧ g.RightDerivation u qs (before ++ p.lhs :: after) ∧
        p ∈ g.productions ∧ g.IsWord after ∧ w = before ++ (p.rhs ++ after) := by
  cases h with
  | refl => exact Or.inl ⟨rfl, rfl⟩
  | tail hd hp hw => exact Or.inr ⟨_, _, _, _, rfl, hd, hp, hw, rfl⟩

/-- **The productions determine what is derived**, because there is no choice where to use them. -/
theorem RightDerivation.form_unique {u v w : List Nat} {ps : List Production}
    (hv : g.RightDerivation u ps v) (hw : g.RightDerivation u ps w) : v = w := by
  induction hv generalizing w with
  | refl =>
    rcases hw.last_cases with ⟨-, rfl⟩ | ⟨qs, q, _, _, hnil, -⟩
    · rfl
    · simp at hnil
  | @tail before after ps p _ hp ha ih =>
    rcases hw.last_cases with ⟨hnil, -⟩ | ⟨qs, q, before', after', hps, hd', hq, ha', rfl⟩
    · simp at hnil
    · obtain ⟨rfl, hlast⟩ := List.append_inj' hps rfl
      obtain rfl : p = q := by simpa using hlast
      have hn := g.isNonterminal_lhs hp
      obtain ⟨rfl, -, rfl⟩ := last_nonterminal_unique hn ha hn ha' (ih hd')
      rfl

/-! ### What is derived determines the last step -/

/-- Behind the right-hand side of the last step there is a reduce for it on the terminal that comes
next. -/
theorem RightDerivation.exists_reduce_candidate (mode : Mode) {ps : List Production}
    {p : Production} {before after : List Nat}
    (h : g.RightDerivation [start] ps (before ++ p.lhs :: after)) (hp : p ∈ g.productions)
    (hw : g.IsWord after) {t : Nat} {xs : List Nat} (ht : g.facing after = t :: xs) :
    ∃ s state r, g.automaton.walk? initial (before ++ p.rhs) = some s ∧
      g.automaton.state? s = some state ∧ g.Fits (before ++ p.rhs) state.kernel ∧
      g.automaton.reduceProduction? s r = some p ∧
      Action.reduce r ∈ g.automaton.candidates (g.automaton.lookahead mode) s t := by
  have hn := g.isNonterminal_lhs hp
  have hc := h.leftContext rfl hn
  obtain ⟨s, hwalk⟩ := exists_walk?_iff.2 (hc.exists_kernelItem_rhs hp)
  obtain ⟨state, hs, hk⟩ := walk?_fits hwalk
  obtain ⟨r, hr⟩ := (reduceProduction?_iff hs hk).2 ⟨hp, before, rfl, hc⟩
  refine ⟨s, state, r, hwalk, hs, hk, hr, ?_⟩
  exact (reduce_mem_candidates hs).2 ⟨p, hr, h.mem_lookaheadOf hn hw ht mode⟩

section

variable {mode : Mode} (hfree : g.automaton.ConflictFree (g.automaton.lookahead mode))
include hfree

/-- If no slot has two candidates then all candidates for a slot are the same. -/
theorem candidate_unique {s t : Nat} {a b : Action}
    (ha : a ∈ g.automaton.candidates (g.automaton.lookahead mode) s t)
    (hb : b ∈ g.automaton.candidates (g.automaton.lookahead mode) s t) : a = b := by
  obtain ⟨c, hc⟩ := List.length_eq_one_iff.1
    (Nat.le_antisymm (hfree s t) (List.length_pos_of_mem ha))
  rw [hc, List.mem_singleton] at ha hb
  rw [ha, hb]

section

variable {ps qs : List Production} {p q : Production} {before after before' after' : List Nat}
  (hd : g.RightDerivation [start] ps (before ++ p.lhs :: after)) (hp : p ∈ g.productions)
  (hw : g.IsWord after)
  (hd' : g.RightDerivation [start] qs (before' ++ q.lhs :: after')) (hq : q ∈ g.productions)
include hd hp hw hd' hq

/-- Of two last steps that derive the same, neither ends earlier than the other: the terminal
between them could be shifted, while the earlier one demands a reduce. -/
theorem between_eq_nil {between : List Nat}
    (hlonger : before' ++ q.rhs = (before ++ p.rhs) ++ between)
    (hafter : after = between ++ after') : between = [] := by
  cases between with
  | nil => rfl
  | cons x rest =>
    have hfacing : g.facing after = x :: (rest ++ after') := by
      rw [hafter]
      rfl
    obtain ⟨s, state, r, -, hs, hk, -, hreduce⟩ := hd.exists_reduce_candidate mode hp hw hfacing
    have hx : g.isTerminal x = true := hw x (by simp [hafter])
    -- the longer string can be followed, and so can its beginning up to the terminal
    have hitem := (hd'.leftContext rfl (g.isNonterminal_lhs hq)).exists_kernelItem_rhs hq
    rw [hlonger, ← List.singleton_append, ← List.append_assoc] at hitem
    obtain ⟨i, hi⟩ := exists_kernelItem_of_append hitem
    obtain ⟨next, -, hnext, -⟩ := next?_fits hs hk hi
    have hshift : Action.shift next ∈
        g.automaton.candidates (g.automaton.lookahead mode) s x :=
      (shift_mem_candidates hs hx).2 hnext
    cases candidate_unique hfree hshift hreduce

/-- Two last steps that derive the same and end at the same place are the same. -/
theorem last_step_unique_of_end_eq (hsame : before ++ p.rhs = before' ++ q.rhs)
    (hafter : after = after') : p = q ∧ before = before' := by
  subst hafter
  obtain ⟨t, xs, ht⟩ := exists_facing_eq (g := g) after
  obtain ⟨s, state, r, hwalk, -, -, hr, hreduce⟩ := hd.exists_reduce_candidate mode hp hw ht
  obtain ⟨s', state', r', hwalk', -, -, hr', hreduce'⟩ :=
    hd'.exists_reduce_candidate mode hq hw ht
  rw [← hsame, hwalk] at hwalk'
  obtain rfl : s = s' := Option.some.inj hwalk'
  obtain rfl : r = r' := Action.reduce.inj (candidate_unique hfree hreduce hreduce')
  obtain rfl : p = q := Option.some.inj (hr.symm.trans hr')
  exact ⟨rfl, List.append_cancel_right hsame⟩

/-- **What is derived determines the last step.** -/
theorem last_step_unique (hw' : g.IsWord after')
    (h : before ++ (p.rhs ++ after) = before' ++ (q.rhs ++ after')) :
    p = q ∧ before = before' ∧ after = after' := by
  rw [← List.append_assoc, ← List.append_assoc] at h
  have hends : before ++ p.rhs = before' ++ q.rhs ∧ after = after' := by
    rcases List.append_eq_append_iff.1 h with ⟨between, hlonger, hafter⟩ |
      ⟨between, hlonger, hafter⟩
    · obtain rfl := between_eq_nil hfree hd hp hw hd' hq hlonger hafter
      exact ⟨by rw [hlonger, List.append_nil], hafter⟩
    · obtain rfl := between_eq_nil hfree hd' hq hw' hd hp hlonger hafter
      exact ⟨by rw [hlonger, List.append_nil], hafter.symm⟩
  obtain ⟨rfl, rfl⟩ :=
    last_step_unique_of_end_eq hfree hd hp hw hd' hq hends.1 hends.2
  exact ⟨rfl, rfl, hends.2⟩

end

/-- The start symbol is not derived from itself by any step: in its state the end of the input is
accepted, so there is no reduce. -/
theorem start_ne_of_last_step {ps : List Production} {p : Production} {before after : List Nat}
    (hd : g.RightDerivation [start] ps (before ++ p.lhs :: after)) (hp : p ∈ g.productions)
    (hw : g.IsWord after) : before ++ (p.rhs ++ after) ≠ [start] := by
  intro h
  rw [← List.append_assoc] at h
  obtain ⟨hstring, rfl⟩ : before ++ p.rhs = [start] ∧ after = [] := by
    rcases List.append_eq_singleton_iff.1 h with ⟨-, hafter⟩ | hsplit
    · have hterm := g.isNonterminal_eq_false (hw start (by simp [hafter]))
      rw [g.isNonterminal_start] at hterm
      cases hterm
    · exact hsplit
  obtain ⟨s, state, r, -, hs, hk, -, hreduce⟩ := hd.exists_reduce_candidate mode hp hw rfl
  have haccept : Action.accept ∈
      g.automaton.candidates (g.automaton.lookahead mode) s g.endOfInput :=
    (accept_mem_candidates hs hk).2 ⟨hstring, rfl⟩
  cases candidate_unique hfree haccept hreduce

/-! ### What is derived determines the productions -/

theorem productions_unique {ps qs : List Production} {form : List Nat}
    (h : g.RightDerivation [start] ps form) (h' : g.RightDerivation [start] qs form) :
    ps = qs := by
  induction h generalizing qs with
  | refl =>
    rcases h'.last_cases with ⟨rfl, -⟩ | ⟨_, q, _, _, -, hd', hq, hw', hform⟩
    · rfl
    · exact absurd hform.symm (start_ne_of_last_step hfree hd' hq hw')
  | tail hd hp hw ih =>
    rcases h'.last_cases with ⟨-, hform⟩ | ⟨_, q, _, _, rfl, hd', hq, hw', hform⟩
    · exact absurd hform (start_ne_of_last_step hfree hd hp hw)
    · obtain ⟨rfl, rfl, rfl⟩ := last_step_unique hfree hd hp hw hd' hq hw' hform
      rw [ih hd']

end

/-- **A grammar without conflicts is unambiguous.**  If no slot has two candidates, then whatever is
derived from the start symbol by always replacing the last nonterminal, be it a word or not, is
derived so in one way only: with the same productions, and with the same strings on the way. -/
theorem rightDerivation_unique (g : Grammar) (mode : Mode)
    (hfree : g.automaton.ConflictFree (g.automaton.lookahead mode)) {form : List Nat}
    {ps qs : List Production} (h : g.RightDerivation [start] ps form)
    (h' : g.RightDerivation [start] qs form) :
    ps = qs ∧ ∀ (i : Nat) (u v : List Nat), g.RightDerivation [start] (ps.take i) u →
      g.RightDerivation [start] (qs.take i) v → u = v := by
  obtain rfl := productions_unique hfree h h'
  exact ⟨rfl, fun i u v hu hv => hu.form_unique hv⟩

/-- The word `x` of a repetition is derived in one way only. -/
theorem rightDerivation_unique_repetition :
    repetition.automaton.ConflictFree (repetition.automaton.lookahead .lr0) ∧
    repetition.RightDerivation [start]
      [⟨0, 1, 1, [0, 1], none⟩, ⟨0, 0, 0, [], none⟩] [1] ∧
    ∀ ps, repetition.RightDerivation [start] ps [1] →
      ps = [⟨0, 1, 1, [0, 1], none⟩, ⟨0, 0, 0, [], none⟩] := by
  have hfree : repetition.automaton.ConflictFree (repetition.automaton.lookahead .lr0) := by
    decide +kernel
  have hrepeat : (⟨0, 1, 1, [0, 1], none⟩ : Production) ∈ repetition.productions := by
    decide +kernel
  have hempty : (⟨0, 0, 0, [], none⟩ : Production) ∈ repetition.productions := by
    decide +kernel
  have hword : repetition.IsWord [1] := by
    simpa [IsWord] using (by decide +kernel : repetition.isTerminal 1 = true)
  have hfirst : repetition.RightDerivation [start] [⟨0, 1, 1, [0, 1], none⟩] ([] ++ 0 :: [1]) :=
    RightDerivation.tail (.refl ([] ++ start :: [])) hrepeat isWord_nil
  have hd : repetition.RightDerivation [start]
      [⟨0, 1, 1, [0, 1], none⟩, ⟨0, 0, 0, [], none⟩] [1] :=
    RightDerivation.tail hfirst hempty hword
  refine ⟨hfree, hd, fun ps hps => ?_⟩
  exact (rightDerivation_unique repetition .lr0 hfree hps hd).1

end SimpleLR.Grammar
