import SimpleLR.Grammar.Derivation
import SimpleLR.Proofs.Analysis.Sets

/-!
# Follow sets along derivations

A follow set has to have every terminal that comes right after its nonterminal in something derived.
It is built from demands of single productions, so this has to be carried along derivations.  What
carries it is a property of strings of symbols: every nonterminal in the string is followed by
whatever can come to stand behind it, as far as first sets and nullability tell.  Replacing a
nonterminal by a right-hand side keeps this property, because the first set of the nonterminal has
what the right-hand side can begin with, and its follow set is passed on to the right-hand side.

## Main Definitions

* `Grammar.CanBegin` — a terminal can come first in what is derived from a string
* `Grammar.WellFollowed` — the follow sets have all that can come after the nonterminals of a string

## Main Statements

* `Grammar.CanBegin.of_derivation` — what a string can begin with, its origin can begin with
* `Grammar.wellFollowed_of_derivation` — derivations keep strings well followed
* `Grammar.mem_follow_of_derivation` — what comes after a nonterminal in something derived from the
  start symbol is in its follow set
-/

namespace SimpleLR.Grammar

variable (g : Grammar)

/-- By first sets and nullability, `t` can come first in what is derived from the string, or all of
the string can vanish and `after` holds. -/
def CanBegin (t : Nat) (after : Prop) : List Nat → Prop
  | [] => after
  | x :: xs => t ∈ g.firstOf x ∨ g.analyse.isNullable x = true ∧ CanBegin t after xs

/-- The follow set of each nonterminal in the string has all that can come right after it, where
`after` is what can come after the whole string. -/
def WellFollowed (after : Nat → Prop) : List Nat → Prop
  | [] => True
  | x :: xs =>
    (g.isNonterminal x = true → ∀ t, g.CanBegin t (after t) xs → t ∈ g.analyse.follow.setOf x) ∧
      WellFollowed after xs

variable {g}

/-! ### What can begin a string -/

theorem CanBegin.mono {t : Nat} {after after' : Prop} (h : after → after') {xs : List Nat}
    (hb : g.CanBegin t after xs) : g.CanBegin t after' xs := by
  induction xs with
  | nil => exact h hb
  | cons x xs ih => exact hb.imp_right fun hb => ⟨hb.1, ih hb.2⟩

theorem canBegin_append {t : Nat} {after : Prop} {xs ys : List Nat} :
    g.CanBegin t after (xs ++ ys) ↔ g.CanBegin t (g.CanBegin t after ys) xs := by
  induction xs with
  | nil => rfl
  | cons x xs ih => rw [List.cons_append, CanBegin, CanBegin, ih]

/-- A string is begun by one of the symbols that can come to stand first in it, if it does not
vanish. -/
theorem canBegin_iff {t : Nat} {after : Prop} {xs : List Nat} :
    g.CanBegin t after xs ↔
      (∃ x ∈ throughNullable g.analyse.isNullable xs, t ∈ g.firstOf x) ∨
        (∀ x ∈ xs, g.analyse.isNullable x = true) ∧ after := by
  induction xs with
  | nil => simp [CanBegin, throughNullable]
  | cons x xs ih =>
    rw [CanBegin, ih, throughNullable]
    by_cases hx : g.analyse.isNullable x = true
    · simp [hx, or_assoc]
    · simp [hx]

/-- A nonterminal can begin with whatever its right-hand sides can begin with. -/
theorem canBegin_lhs {p : Production} (hp : p ∈ g.productions) {t : Nat} {after : Prop}
    {behind : List Nat} (h : g.CanBegin t after (p.rhs ++ behind)) :
    g.CanBegin t after (p.lhs :: behind) := by
  rw [canBegin_append] at h
  rcases canBegin_iff.1 h with ⟨x, hx, ht⟩ | ⟨hnull, hbehind⟩
  · refine Or.inl ?_
    rw [g.firstOf_of_isNonterminal (g.isNonterminal_lhs hp)]
    exact g.mem_first_lhs hp hx ht
  · exact Or.inr ⟨g.isNullable_lhs hp hnull, hbehind⟩

/-- Before a nonterminal is replaced, a string can begin with all that it can begin with
afterwards. -/
theorem CanBegin.of_replaces {p : Production} (hp : p ∈ g.productions) {t : Nat} {after : Prop}
    {u v : List Nat} (hr : p.Replaces u v) (h : g.CanBegin t after v) : g.CanBegin t after u := by
  obtain ⟨before, behind, rfl, rfl⟩ := hr
  rw [canBegin_append] at h ⊢
  exact h.mono (canBegin_lhs hp)

theorem CanBegin.of_derivation {ps : List Production} {t : Nat} {after : Prop} {u v : List Nat}
    (hd : g.Derivation u ps v) (h : g.CanBegin t after v) : g.CanBegin t after u := by
  induction hd with
  | refl => exact h
  | tail _ hp hr ih => exact ih (h.of_replaces hp hr)

/-! ### Well-followed strings -/

theorem WellFollowed.mono {after after' : Nat → Prop} (h : ∀ t, after' t → after t)
    {xs : List Nat} (hw : g.WellFollowed after xs) : g.WellFollowed after' xs := by
  induction xs with
  | nil => trivial
  | cons x xs ih => exact ⟨fun hx t ht => hw.1 hx t (ht.mono (h t)), ih hw.2⟩

theorem wellFollowed_append {after : Nat → Prop} {xs ys : List Nat} :
    g.WellFollowed after (xs ++ ys) ↔
      g.WellFollowed (fun t => g.CanBegin t (after t) ys) xs ∧ g.WellFollowed after ys := by
  induction xs with
  | nil => simp [WellFollowed]
  | cons x xs ih =>
    rw [List.cons_append, WellFollowed, WellFollowed, ih, and_assoc]
    simp only [canBegin_append]

/-- A right-hand side is well followed by what follows the left-hand side. -/
theorem wellFollowed_rhs {p : Production} (hp : p ∈ g.productions) :
    g.WellFollowed (fun t => t ∈ g.analyse.follow.setOf p.lhs) p.rhs := by
  -- the demands are about suffixes of the right-hand side
  have hsuffix : ∀ before xs, p.rhs = before ++ xs →
      g.WellFollowed (fun t => t ∈ g.analyse.follow.setOf p.lhs) xs := by
    intro before xs
    induction xs generalizing before with
    | nil => exact fun _ => trivial
    | cons x xs ih =>
      intro hr
      refine ⟨fun hx t ht => ?_, ih (before ++ [x]) (by rw [hr, List.append_assoc]; rfl)⟩
      rcases canBegin_iff.1 ht with ⟨y, hy, hty⟩ | ⟨hnull, hlhs⟩
      · exact g.mem_follow_of_mem_first hp hr hx hy hty
      · exact g.mem_follow_of_mem_follow hp hr hx hnull hlhs
  exact hsuffix [] p.rhs rfl

/-- Replacing a nonterminal keeps a string well followed. -/
theorem WellFollowed.replace {p : Production} (hp : p ∈ g.productions) {after : Nat → Prop}
    {u v : List Nat} (hr : p.Replaces u v) (h : g.WellFollowed after u) :
    g.WellFollowed after v := by
  obtain ⟨before, behind, rfl, rfl⟩ := hr
  rw [wellFollowed_append] at h
  obtain ⟨hbefore, hlhs, hbehind⟩ := h
  rw [wellFollowed_append, wellFollowed_append]
  -- what can begin the right-hand side can begin the left-hand side, so nothing new is demanded
  refine ⟨hbefore.mono fun t => canBegin_lhs hp, (wellFollowed_rhs hp).mono ?_, hbehind⟩
  exact hlhs (g.isNonterminal_lhs hp)

theorem wellFollowed_of_derivation {u v : List Nat} {ps : List Production}
    (h : g.Derivation u ps v) {after : Nat → Prop} (hu : g.WellFollowed after u) :
    g.WellFollowed after v := by
  induction h with
  | refl => exact hu
  | tail _ hp hr ih => exact ih.replace hp hr

/-- **Follow sets are large enough**: all that can begin what stands behind a nonterminal in
something derived from the start symbol is in its follow set. -/
theorem mem_follow_of_derivation {ps : List Production} {before behind : List Nat} {n t : Nat}
    (h : g.Derivation [start] ps (before ++ n :: behind)) (hn : g.isNonterminal n = true)
    (ht : g.CanBegin t (t = g.endOfInput) behind) : t ∈ g.analyse.follow.setOf n := by
  have hstart : g.WellFollowed (fun t => t = g.endOfInput) [start] :=
    ⟨fun _ t ht => (show t = g.endOfInput from ht) ▸ g.endOfInput_mem_follow_start, trivial⟩
  have hw := wellFollowed_of_derivation h hstart
  rw [wellFollowed_append] at hw
  exact hw.2.1 hn t ht

/-- A terminal begins a string in which it stands first. -/
theorem canBegin_cons {t : Nat} (ht : g.isTerminal t = true) {after : Prop} (xs : List Nat) :
    g.CanBegin t after (t :: xs) := by
  refine Or.inl ?_
  rw [g.firstOf_of_not_isNonterminal (g.isNonterminal_eq_false ht)]
  exact IdSet.mem_singleton.2 rfl

end SimpleLR.Grammar
