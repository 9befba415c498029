import SimpleLR.Draft

/-!
# Refused declarations

Every declaration checks first and changes the draft last, so a refused one leaves the draft as it
was.  Of declarations that are made in turn, whatever becomes of them, the granted ones alone
therefore lead to the same draft, and each of them hands out what it handed out before.

## Main Definitions

* `Draft.Declares` — the symbols that a draft has declared
* `Draft.Grants` — what a draft asks of each declaration, what it hands out and what it becomes
* `Log`, `Draft.granted` — the granted ones of many declarations, with what they hand out

## Main Results

* `Draft.attempt_cases` — a declaration is refused and changes nothing, or is granted
* `Draft.granted_induction` — what granted declarations preserve holds after any declarations
* `Grammar.define_granted` — the granted declarations alone draft the same grammar
-/

namespace SimpleLR

/-- Declarations that were granted, each with what it handed out. -/
abbrev Log := List (Call × Reply)

namespace Draft

/-! ### One declaration -/

/-- The symbol has been declared, or is the end of the input. -/
def Declares (d : Draft) : Elem → Prop
  | .nonterminal n => n.number < d.nonterminals.length
  | .terminal t => t.number ≤ d.terminals.length

theorem nameFault?_eq_none_iff {d : Draft} {name : String} :
    d.nameFault? name = none ↔ d.isTaken name = false := by
  simp [nameFault?]

theorem nonterminalFault?_eq_none_iff {d : Draft} {n : NonterminalRef} :
    d.nonterminalFault? n = none ↔ d.Declares (.nonterminal n) := by
  simp [nonterminalFault?, declaresNonterminal, Declares]

theorem elemFault?_eq_none_iff {d : Draft} {x : Elem} : d.elemFault? x = none ↔ d.Declares x := by
  cases x with
  | nonterminal n => exact nonterminalFault?_eq_none_iff
  | terminal t => simp [elemFault?, declaresTerminal, Declares]

theorem repetitionFault?_eq_none_iff {d : Draft} {lhs : NonterminalRef} {rhs : List Elem} :
    d.repetitionFault? lhs rhs = none ↔ ∀ r ∈ d.rules, r.lhs = lhs → r.rhs ≠ rhs := by
  simp [repetitionFault?]

/-- What a draft asks of a declaration, what it hands out then, and what becomes of the draft. -/
inductive Grants (d : Draft) : Call → Reply → Draft → Prop
  | terminal {name : String} {precedence : Option Precedence} (fresh : d.isTaken name = false) :
    Grants d (.terminal name precedence) (.terminal ⟨d.terminals.length + 1⟩)
      { d with terminals := d.terminals ++ [⟨name, precedence⟩] }
  | nonterminal {name : String} (fresh : d.isTaken name = false) :
    Grants d (.nonterminal name) (.nonterminal ⟨d.nonterminals.length⟩)
      { d with nonterminals := d.nonterminals ++ [name] }
  | endOfInput : Grants d .endOfInput (.terminal .endOfInput) d
  | rule {lhs : NonterminalRef} {rhs : List Elem} {precedence : Option Precedence}
    (lhs_declared : d.Declares (.nonterminal lhs)) (rhs_declared : ∀ x ∈ rhs, d.Declares x)
    (new : ∀ r ∈ d.rules, r.lhs = lhs → r.rhs ≠ rhs) :
    Grants d (.rule lhs rhs precedence) .done
      { d with rules := d.rules ++ [⟨lhs, rhs, precedence⟩] }
  | chooseStart {n : NonterminalRef} (declared : d.Declares (.nonterminal n)) :
    Grants d (.chooseStart n) .done { d with start := some n }

/-- The symbols of a right-hand side are checked in turn, and the checks change nothing. -/
theorem carryOut_forM_require (d : Draft) (rhs : List Elem) :
    d.carryOut (forM rhs fun x => require (·.elemFault? x)) =
      match rhs.findSome? d.elemFault? with
      | some e => (.error e, d)
      | none => (.ok (), d) := by
  induction rhs with
  | nil => rfl
  | cons x rhs ih =>
    rw [List.forM_cons, carryOut_bind, carryOut_require, List.findSome?_cons]
    cases d.elemFault? x with
    | some e => rfl
    | none => exact ih

/-- A declaration is refused and leaves the draft as it was, or it is granted. -/
theorem attempt_cases (d : Draft) (c : Call) :
    (∃ e, d.attempt c = (.error e, d)) ∨ ∃ r d', d.attempt c = (.ok r, d') ∧ d.Grants c r d' := by
  cases c with
  | terminal name precedence =>
    simp only [attempt, Call.perform, terminal, carryOut_map, carryOut_bind, carryOut_require]
    cases h : d.nameFault? name with
    | some e => exact .inl ⟨e, rfl⟩
    | none => exact .inr ⟨_, _, rfl, .terminal (nameFault?_eq_none_iff.1 h)⟩
  | nonterminal name =>
    simp only [attempt, Call.perform, nonterminal, carryOut_map, carryOut_bind, carryOut_require]
    cases h : d.nameFault? name with
    | some e => exact .inl ⟨e, rfl⟩
    | none => exact .inr ⟨_, _, rfl, .nonterminal (nameFault?_eq_none_iff.1 h)⟩
  | endOfInput => exact .inr ⟨_, _, rfl, .endOfInput⟩
  | rule lhs rhs precedence =>
    simp only [attempt, Call.perform, rule, carryOut_map, carryOut_bind, carryOut_require,
      carryOut_forM_require]
    cases hl : d.nonterminalFault? lhs with
    | some e => exact .inl ⟨e, rfl⟩
    | none =>
      dsimp only
      cases hr : rhs.findSome? d.elemFault? with
      | some e => exact .inl ⟨e, rfl⟩
      | none =>
        dsimp only
        cases hd : d.repetitionFault? lhs rhs with
        | some e => exact .inl ⟨e, rfl⟩
        | none =>
          refine .inr ⟨_, _, rfl, .rule (nonterminalFault?_eq_none_iff.1 hl) (fun x hx => ?_)
            (repetitionFault?_eq_none_iff.1 hd)⟩
          exact elemFault?_eq_none_iff.1 (List.findSome?_eq_none_iff.1 hr x hx)
  | chooseStart n =>
    simp only [attempt, Call.perform, chooseStart, carryOut_map, carryOut_bind, carryOut_require]
    cases h : d.nonterminalFault? n with
    | some e => exact .inl ⟨e, rfl⟩
    | none => exact .inr ⟨_, _, rfl, .chooseStart (nonterminalFault?_eq_none_iff.1 h)⟩

theorem grants_of_attempt {d d' : Draft} {c : Call} {r : Reply}
    (h : d.attempt c = (.ok r, d')) : d.Grants c r d' := by
  rcases d.attempt_cases c with ⟨e, he⟩ | ⟨r', d'', hr, hg⟩
  · simp [he] at h
  · obtain ⟨rfl, rfl⟩ : r' = r ∧ d'' = d' := by simpa [hr] using h
    exact hg

/-! ### Many declarations -/

/-- The declarations among `cs` that are granted when all of them are made in turn, each with what
it hands out. -/
def granted (d : Draft) (cs : List Call) : Log :=
  (cs.zip (d.attemptAll cs).1).filterMap fun x => x.2.toOption.map (x.1, ·)

theorem granted_cons_of_ok {d d' : Draft} {c : Call} {r : Reply} (h : d.attempt c = (.ok r, d'))
    (cs : List Call) : d.granted (c :: cs) = (c, r) :: d'.granted cs := by
  simp [granted, attemptAll, h, Except.toOption]

theorem granted_cons_of_error {d d' : Draft} {c : Call} {e : GrammarError}
    (h : d.attempt c = (.error e, d')) (cs : List Call) :
    d.granted (c :: cs) = d'.granted cs := by
  simp [granted, attemptAll, h, Except.toOption]

/-- What every granted declaration preserves of the draft and the record of what was granted holds
after any declarations. -/
theorem granted_induction {P : Log → Draft → Prop} {d : Draft} (nil : P [] d)
    (step : ∀ {log d c r d'}, P log d → d.attempt c = (.ok r, d') → P (log ++ [(c, r)]) d')
    (cs : List Call) : P (d.granted cs) (d.attemptAll cs).2 := by
  suffices h : ∀ log, P log d → P (log ++ d.granted cs) (d.attemptAll cs).2 from h [] nil
  clear nil
  induction cs generalizing d with
  | nil => simp [granted, attemptAll]
  | cons c cs ih =>
    intro log h
    rcases d.attempt_cases c with ⟨e, he⟩ | ⟨r, d', hr, -⟩
    · rw [granted_cons_of_error he, attemptAll, he]
      exact ih log h
    · rw [granted_cons_of_ok hr, attemptAll, hr, List.append_cons]
      exact ih _ (step h hr)

/-- Going on after refusals comes to making all declarations in turn. -/
theorem carryOut_persist (d : Draft) (cs : List Call) :
    d.carryOut (Call.persist cs) = (.ok (d.attemptAll cs).1, (d.attemptAll cs).2) := by
  induction cs generalizing d with
  | nil => rfl
  | cons c cs ih =>
    have ih := ih (d.attempt c).2
    rw [Call.persist] at ih ⊢
    simp only [List.mapM_cons, carryOut_bind, carryOut_observing]
    rw [← attempt, ih]
    rfl

/-- One more declaration that is granted. -/
theorem carryOut_insist_concat {d₀ d d' : Draft} {cs : List Call} {rs : List Reply} {c : Call}
    {r : Reply} (h : d₀.carryOut (Call.insist cs) = (.ok rs, d)) (hc : d.attempt c = (.ok r, d')) :
    d₀.carryOut (Call.insist (cs ++ [c])) = (.ok (rs ++ [r]), d') := by
  rw [Call.insist] at h ⊢
  rw [attempt] at hc
  simp only [List.mapM_append, List.mapM_cons, List.mapM_nil, carryOut_bind, h, hc, carryOut_pure]

/-- The granted declarations alone are all granted again, hand out the same and lead to the same
draft. -/
theorem carryOut_insist_granted (d : Draft) (cs : List Call) :
    d.carryOut (Call.insist ((d.granted cs).map Prod.fst)) =
      (.ok ((d.granted cs).map Prod.snd), (d.attemptAll cs).2) := by
  refine granted_induction (P := fun log d' =>
    d.carryOut (Call.insist (log.map Prod.fst)) = (.ok (log.map Prod.snd), d')) rfl ?_ cs
  intro log d₁ c r d' h hc
  simpa using carryOut_insist_concat h hc

end Draft

namespace Grammar

theorem define_discard {α : Type} {program : DraftM α} {a : α} {d : Draft}
    (h : ({} : Draft).carryOut program = (.ok a, d)) : define (discard program) = d.finish := by
  rw [define, discard, map_const, Function.comp_apply, Draft.carryOut_map, h]
  rfl

/-- **Refused declarations leave no trace.**  Make any declarations in turn and go on after those
that are refused.  The granted ones alone are all granted again, each hands out what it handed out
before, and they draft the same grammar or come to the same error. -/
theorem define_granted (cs : List Call) :
    let run := ({} : Draft).attemptAll cs
    let granted := ({} : Draft).granted cs
    ({} : Draft).carryOut (Call.persist cs) = (.ok run.1, run.2) ∧
      ({} : Draft).carryOut (Call.insist (granted.map Prod.fst)) =
        (.ok (granted.map Prod.snd), run.2) ∧
      define (discard (Call.persist cs)) =
        define (discard (Call.insist (granted.map Prod.fst))) := by
  have hp := Draft.carryOut_persist {} cs
  have hi := Draft.carryOut_insist_granted {} cs
  refine ⟨hp, hi, ?_⟩
  rw [define_discard hp, define_discard hi]

end Grammar

end SimpleLR
