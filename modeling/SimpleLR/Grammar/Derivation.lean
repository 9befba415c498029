import SimpleLR.Grammar.Basic

/-!
# Derivations

What a grammar means: a string of symbols is derived from another one by replacing nonterminals
according to productions.  The productions used are part of a derivation, so that derivations can be
told apart.

## Main Definitions

* `Production.Replaces` — one replacement
* `Grammar.Derivation`, `Grammar.Derives` — a derivation by given productions, and by any
* `Grammar.RightDerivation` — a derivation in which the last nonterminal is always the one replaced
* `Grammar.IsWord` — strings of terminals
* `Grammar.LeftContext` — what can stand before a nonterminal when it is about to be recognised
-/

namespace SimpleLR

/-- Replace an occurrence of the left-hand side by the right-hand side. -/
def Production.Replaces (p : Production) (u v : List Nat) : Prop :=
  ∃ before after, u = before ++ p.lhs :: after ∧ v = before ++ (p.rhs ++ after)

namespace Grammar

variable (g : Grammar)

/-- Strings of terminals of the grammar. -/
def IsWord (w : List Nat) : Prop := ∀ x ∈ w, g.isTerminal x = true

/-- `Derivation u ps v`: the productions `ps`, used in this order, lead from `u` to `v`. -/
inductive Derivation : List Nat → List Production → List Nat → Prop where
  /-- Without a production nothing changes. -/
  | refl (u : List Nat) : Derivation u [] u
  /-- One more production. -/
  | tail {u v w : List Nat} {ps : List Production} {p : Production} (h : Derivation u ps v)
      (hp : p ∈ g.productions) (hr : p.Replaces v w) : Derivation u (ps ++ [p]) w

/-- `v` can be derived from `u`. -/
def Derives (u v : List Nat) : Prop := ∃ ps, g.Derivation u ps v

/-- `RightDerivation u ps v`: the productions `ps`, used in this order, lead from `u` to `v`, where
each of them replaces a nonterminal with only terminals behind it. -/
inductive RightDerivation : List Nat → List Production → List Nat → Prop where
  /-- Without a production nothing changes. -/
  | refl (u : List Nat) : RightDerivation u [] u
  /-- One more production. -/
  | tail {u before after : List Nat} {ps : List Production} {p : Production}
      (h : RightDerivation u ps (before ++ p.lhs :: after)) (hp : p ∈ g.productions)
      (hw : g.IsWord after) : RightDerivation u (ps ++ [p]) (before ++ (p.rhs ++ after))

/-- `LeftContext n d`: the nonterminal `n` may come next when `d` has been recognised.  What stands
before `n` in a production of `m` comes behind what may stand before `m`. -/
inductive LeftContext : Nat → List Nat → Prop where
  /-- The start symbol comes first. -/
  | start : LeftContext Grammar.start []
  /-- A nonterminal in a right-hand side comes behind what precedes it there. -/
  | step {p : Production} {d before after : List Nat} {n : Nat} (h : LeftContext p.lhs d)
      (hp : p ∈ g.productions) (hr : p.rhs = before ++ n :: after)
      (hn : g.isNonterminal n = true) : LeftContext n (d ++ before)

variable {g}

theorem Derivation.trans {u v w : List Nat} {ps qs : List Production} (h : g.Derivation u ps v)
    (h' : g.Derivation v qs w) : g.Derivation u (ps ++ qs) w := by
  induction h' with
  | refl => rwa [List.append_nil]
  | tail _ hp hr ih =>
    rw [← List.append_assoc]
    exact .tail ih hp hr

theorem Replaces.context {p : Production} {u v : List Nat} (h : p.Replaces u v)
    (before after : List Nat) : p.Replaces (before ++ u ++ after) (before ++ v ++ after) := by
  obtain ⟨b, a, rfl, rfl⟩ := h
  exact ⟨before ++ b, a ++ after, by simp, by simp⟩

theorem Derivation.context {u v : List Nat} {ps : List Production} (h : g.Derivation u ps v)
    (before after : List Nat) : g.Derivation (before ++ u ++ after) ps (before ++ v ++ after) := by
  induction h with
  | refl => exact .refl _
  | tail _ hp hr ih => exact .tail ih hp (Replaces.context hr before after)

/-- A derivation in which the last nonterminal is always replaced is a derivation. -/
theorem RightDerivation.derivation {u v : List Nat} {ps : List Production}
    (h : g.RightDerivation u ps v) : g.Derivation u ps v := by
  induction h with
  | refl => exact .refl _
  | tail _ hp _ ih => exact .tail ih hp ⟨_, _, rfl, rfl⟩

theorem Derives.refl (u : List Nat) : g.Derives u u := ⟨[], .refl u⟩

theorem Derives.trans {u v w : List Nat} (h : g.Derives u v) (h' : g.Derives v w) :
    g.Derives u w := by
  obtain ⟨ps, h⟩ := h
  obtain ⟨qs, h'⟩ := h'
  exact ⟨ps ++ qs, h.trans h'⟩

theorem Derives.context {u v : List Nat} (h : g.Derives u v) (before after : List Nat) :
    g.Derives (before ++ u ++ after) (before ++ v ++ after) := by
  obtain ⟨ps, h⟩ := h
  exact ⟨ps, h.context before after⟩

/-- A nonterminal derives each of its right-hand sides. -/
theorem derives_of_mem {p : Production} (hp : p ∈ g.productions) : g.Derives [p.lhs] p.rhs :=
  ⟨[p], .tail (.refl _) hp ⟨[], [], rfl, by simp⟩⟩

/-- What is derived from two parts is derived from them together. -/
theorem Derives.append {u u' v v' : List Nat} (h : g.Derives u v) (h' : g.Derives u' v') :
    g.Derives (u ++ u') (v ++ v') := by
  have h₁ := h.context [] u'
  have h₂ := h'.context v []
  simp only [List.nil_append, List.append_nil] at h₁ h₂
  exact h₁.trans h₂

end Grammar

end SimpleLR
