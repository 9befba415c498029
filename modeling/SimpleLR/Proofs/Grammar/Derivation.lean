import SimpleLR.Grammar.Derivation
import SimpleLR.Proofs.Analysis.Sets

/-!
# Right derivations

A derivation that always replaces the last nonterminal can be put behind any string and in front of
any word of terminals.  Every nonterminal in what it derives from the start symbol is preceded by
one of its left contexts.  If all nonterminals are productive the converse holds as well: whatever
is a left context of a nonterminal precedes it in something derived.

## Main Statements

* `Grammar.RightDerivation.leftContext` — what precedes a nonterminal is a left context
* `Grammar.Derives.exists_rightDerivation` — words that are derived at all have a right derivation
* `Grammar.yields_of_isProductive` — productive symbols derive words
* `Grammar.LeftContext.exists_rightDerivation` — left contexts occur
-/

namespace SimpleLR.Grammar

variable {g : Grammar}

/-! ### Words -/

theorem IsWord.append {u v : List Nat} (hu : g.IsWord u) (hv : g.IsWord v) : g.IsWord (u ++ v) := by
  intro x hx
  rcases List.mem_append.1 hx with h | h
  · exact hu x h
  · exact hv x h

theorem isWord_append_iff {u v : List Nat} : g.IsWord (u ++ v) ↔ g.IsWord u ∧ g.IsWord v :=
  ⟨fun h => ⟨fun x hx => h x (List.mem_append_left v hx),
    fun x hx => h x (List.mem_append_right u hx)⟩, fun h => h.1.append h.2⟩

theorem isWord_nil : g.IsWord [] := by simp [IsWord]

/-! ### Putting right derivations together -/

theorem RightDerivation.trans {u v w : List Nat} {ps qs : List Production}
    (h : g.RightDerivation u ps v) (h' : g.RightDerivation v qs w) :
    g.RightDerivation u (ps ++ qs) w := by
  induction h' with
  | refl => rwa [List.append_nil]
  | tail _ hp hw ih =>
    rw [← List.append_assoc]
    exact .tail ih hp hw

theorem RightDerivation.context {u v : List Nat} {ps : List Production}
    (h : g.RightDerivation u ps v) (before : List Nat) {after : List Nat} (ha : g.IsWord after) :
    g.RightDerivation (before ++ (u ++ after)) ps (before ++ (v ++ after)) := by
  induction h with
  | refl => exact .refl _
  | @tail b a ps p _ hp hw ih =>
    have hform : before ++ (b ++ p.lhs :: a ++ after) = (before ++ b) ++ p.lhs :: (a ++ after) := by
      simp
    have hreplaced : before ++ (b ++ (p.rhs ++ a) ++ after) =
        (before ++ b) ++ (p.rhs ++ (a ++ after)) := by
      simp
    rw [hform] at ih
    rw [hreplaced]
    exact .tail ih hp (hw.append ha)

/-- One more production, used first. -/
theorem RightDerivation.head {p : Production} {before after : List Nat} {ps : List Production}
    {w : List Nat} (h : g.RightDerivation (before ++ (p.rhs ++ after)) ps w)
    (hp : p ∈ g.productions) (ha : g.IsWord after) :
    g.RightDerivation (before ++ p.lhs :: after) (p :: ps) w := by
  have hfirst : g.RightDerivation (before ++ p.lhs :: after) ([] ++ [p])
      (before ++ (p.rhs ++ after)) :=
    .tail (.refl _) hp ha
  exact hfirst.trans h

/-! ### Left contexts in what is derived -/

/-- A symbol of two strings together is a symbol of the first one or of the second one. -/
theorem append_eq_append_cons {u v before after : List Nat} {x : Nat}
    (h : u ++ v = before ++ x :: after) :
    (∃ rest, u = before ++ x :: rest ∧ after = rest ++ v) ∨
      ∃ rest, v = rest ++ x :: after ∧ before = u ++ rest := by
  rcases List.append_eq_append_iff.1 h with ⟨rest, hb, hv⟩ | ⟨rest, hu, hx⟩
  · exact Or.inr ⟨rest, hv, hb⟩
  · rcases rest with _ | ⟨y, rest⟩
    · refine Or.inr ⟨[], hx.symm, ?_⟩
      rw [hu, List.append_nil, List.append_nil]
    · obtain ⟨rfl, ha⟩ := List.cons_eq_cons.1 hx
      exact Or.inl ⟨rest, hu, ha⟩

/-- **What precedes a nonterminal** in something that a right derivation derives from the start
symbol is a left context of it. -/
theorem RightDerivation.leftContext {ps : List Production} {form : List Nat}
    (h : g.RightDerivation [Grammar.start] ps form) {before after : List Nat} {n : Nat}
    (hf : form = before ++ n :: after) (hn : g.isNonterminal n = true) :
    g.LeftContext n before := by
  induction h generalizing before after n with
  | refl =>
    rcases List.append_eq_singleton_iff.1 hf.symm with ⟨rfl, hs⟩ | ⟨-, hs⟩
    · obtain ⟨rfl, -⟩ := List.cons_eq_cons.1 hs
      exact .start
    · cases hs
  | @tail b a ps p _ hp hw ih =>
    -- the nonterminal stands before what was replaced, or in it; behind it are only terminals
    rcases append_eq_append_cons hf with ⟨rest, rfl, -⟩ | ⟨rest, hrest, rfl⟩
    · exact ih (by rw [List.append_assoc, List.cons_append]) hn
    · rcases append_eq_append_cons hrest with ⟨rest', hr, -⟩ | ⟨rest', ha, -⟩
      · exact .step (ih rfl (g.isNonterminal_lhs hp)) hp hr hn
      · have hfalse := g.isNonterminal_eq_false (hw n (by simp [ha]))
        rw [hn] at hfalse
        cases hfalse

/-! ### Derivations of words -/

/-- A right derivation takes place in the two parts of a string separately. -/
theorem RightDerivation.split {u v w : List Nat} {ps : List Production}
    (h : g.RightDerivation (u ++ v) ps w) :
    ∃ qs rs u' v', w = u' ++ v' ∧ g.RightDerivation u qs u' ∧ g.RightDerivation v rs v' := by
  induction h with
  | refl => exact ⟨[], [], u, v, rfl, .refl u, .refl v⟩
  | @tail before after ps p _ hp hw ih =>
    obtain ⟨qs, rs, u', v', hform, hu, hv⟩ := ih
    rcases append_eq_append_cons hform.symm with ⟨rest, rfl, rfl⟩ | ⟨rest, rfl, rfl⟩
    · rw [isWord_append_iff] at hw
      exact ⟨qs ++ [p], rs, before ++ (p.rhs ++ rest), v', by simp, .tail hu hp hw.1, hv⟩
    · exact ⟨qs, rs ++ [p], u', rest ++ (p.rhs ++ after), by simp, hu, .tail hv hp hw⟩

/-- Replacing a nonterminal, wherever it stands, does not give more words: it can be replaced when
its turn comes. -/
theorem exists_rightDerivation_of_replaces {p : Production} (hp : p ∈ g.productions)
    {u v w : List Nat} {ps : List Production} (hr : p.Replaces u v) (hw : g.IsWord w)
    (h : g.RightDerivation v ps w) : ∃ qs, g.RightDerivation u qs w := by
  obtain ⟨before, after, rfl, rfl⟩ := hr
  obtain ⟨qs, rs, u', v', rfl, hbefore, hrest⟩ := h.split
  obtain ⟨qs', rs', x', a', rfl, hrhs, hafter⟩ := hrest.split
  rw [isWord_append_iff, isWord_append_iff] at hw
  -- first what stands behind the nonterminal, then the nonterminal, then what stands before it
  have hlast := hafter.context (before ++ [p.lhs]) isWord_nil
  have hreplaced := (hrhs.context before hw.2.2).head hp hw.2.2
  have hfirst := hbefore.context [] (hw.2.1.append hw.2.2)
  simp only [List.append_nil, List.nil_append, List.append_assoc, List.singleton_append]
    at hlast hreplaced hfirst
  exact ⟨_, (hlast.trans hreplaced).trans hfirst⟩

/-- **Words have right derivations**: a word that is derived at all is derived by always replacing
the last nonterminal. -/
theorem Derives.exists_rightDerivation {u w : List Nat} (h : g.Derives u w) (hw : g.IsWord w) :
    ∃ ps, g.RightDerivation u ps w := by
  obtain ⟨ps, h⟩ := h
  -- whatever right derivation there is from the last string, there is one from the first
  have hback : ∀ {z : List Nat} {qs : List Production}, g.IsWord z →
      g.RightDerivation w qs z → ∃ rs, g.RightDerivation u rs z := by
    clear hw
    induction h with
    | refl => exact fun _ hz => ⟨_, hz⟩
    | tail _ hp hr ih =>
      intro z qs hzw hz
      obtain ⟨rs, hrs⟩ := exists_rightDerivation_of_replaces hp hr hzw hz
      exact ih hzw hrs
  exact hback hw (.refl w)

/-! ### Productive symbols -/

/-- The symbol derives a word, by always replacing the last nonterminal. -/
def Yields (g : Grammar) (x : Nat) : Prop := ∃ ps w, g.IsWord w ∧ g.RightDerivation [x] ps w

theorem yields_of_isTerminal {x : Nat} (h : g.isTerminal x = true) : g.Yields x :=
  ⟨[], [x], by simpa [IsWord] using h, .refl _⟩

/-- If all symbols of a string derive words, then the string does: the last symbol goes first. -/
theorem exists_word_of_yields {u : List Nat} (h : ∀ x ∈ u, g.Yields x) :
    ∃ ps w, g.IsWord w ∧ g.RightDerivation u ps w := by
  induction u with
  | nil => exact ⟨[], [], isWord_nil, .refl _⟩
  | cons x u ih =>
    rw [List.forall_mem_cons] at h
    obtain ⟨ps, w, hw, hx⟩ := h.1
    obtain ⟨qs, v, hv, hu⟩ := ih h.2
    have hrest := hu.context [x] isWord_nil
    have hfirst := hx.context [] hv
    simp only [List.append_nil, List.nil_append, List.singleton_append] at hrest hfirst
    exact ⟨qs ++ ps, w ++ v, hw.append hv, hrest.trans hfirst⟩

theorem passedOn_yields : Property.PassedOn g .holds g.Yields := by
  intro p hp h
  have hrhs : ∀ x ∈ p.rhs, g.Yields x := by
    intro x hx
    rcases h x hx with ⟨-, hy⟩ | ⟨hn, -⟩
    · exact hy
    · exact yields_of_isTerminal (g.isTerminal_of_lt (g.lt_numSymbols_of_mem_rhs hp hx) hn)
  obtain ⟨ps, w, hw, hd⟩ := exists_word_of_yields hrhs
  refine ⟨p :: ps, w, hw, ?_⟩
  have hwhole : g.RightDerivation ([] ++ (p.rhs ++ [])) ps w := by
    rwa [List.nil_append, List.append_nil]
  exact hwhole.head hp isWord_nil

/-- **Productive symbols derive words.** -/
theorem yields_of_isProductive {x : Nat} (h : g.isProductive g.analyse x = true) :
    g.Yields x := by
  rw [isProductive, Bool.or_eq_true] at h
  rcases h with h | h
  · exact yields_of_isTerminal h
  · exact g.decisions_sound passedOn_yields h

/-- All nonterminals are productive. -/
def Productive (g : Grammar) : Prop :=
  ∀ n, g.isNonterminal n = true → g.isProductive g.analyse n = true

theorem Productive.yields (h : g.Productive) {x : Nat} (hx : x < g.numSymbols) : g.Yields x := by
  by_cases hn : g.isNonterminal x = true
  · exact yields_of_isProductive (h x hn)
  · exact yields_of_isTerminal (g.isTerminal_of_lt hx (by simpa using hn))

/-- A part of a right-hand side derives a word. -/
theorem Productive.exists_word (h : g.Productive) {p : Production} (hp : p ∈ g.productions)
    {u : List Nat} (hu : u ⊆ p.rhs) : ∃ ps w, g.IsWord w ∧ g.RightDerivation u ps w :=
  exists_word_of_yields fun _ hx => h.yields (g.lt_numSymbols_of_mem_rhs hp (hu hx))

/-- **Left contexts occur**: if all nonterminals are productive, then every left context of a
nonterminal precedes it in something that a right derivation derives. -/
theorem LeftContext.exists_rightDerivation (hg : g.Productive) {n : Nat} {context : List Nat}
    (h : g.LeftContext n context) :
    ∃ ps w, g.IsWord w ∧ g.RightDerivation [Grammar.start] ps (context ++ n :: w) := by
  induction h with
  | start => exact ⟨[], [], isWord_nil, .refl _⟩
  | @step p d before after n _ hp hr hn ih =>
    obtain ⟨ps, w, hw, hd⟩ := ih
    obtain ⟨qs, v, hv, ha⟩ := hg.exists_word hp (u := after) (by simp [hr])
    have hreplaced := RightDerivation.tail hd hp hw
    have hafter := ha.context (d ++ before ++ [n]) hw
    refine ⟨ps ++ [p] ++ qs, v ++ w, hv.append hw, ?_⟩
    have hform : d ++ (p.rhs ++ w) = d ++ before ++ [n] ++ (after ++ w) := by
      simp [hr]
    rw [hform] at hreplaced
    have hall := hreplaced.trans hafter
    rwa [List.append_assoc _ [n], List.singleton_append] at hall

end SimpleLR.Grammar
