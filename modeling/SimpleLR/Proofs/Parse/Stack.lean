import SimpleLR.Proofs.Parse.Effect

/-!
# The stack is a path of moves

Whatever the table, the stack records how the parser came to its state: from the initial state by
moves that the table has, one for each symbol.  A frame holds the state *before* its symbol, so
taking symbols off the stack means to return to the state in the lowest frame that goes, and the
frames below it lead to just that state.  This holds for tables that make no sense as well, and when
a left-hand side has no next state.

A left-hand side is pending only after a terminal has been looked at, which waits until the
left-hand side has been put on the stack.

## Main Definitions

* `ParseTable.Moves` — the moves that a table has
* `ParseTable.Leads` — the stack is a path of moves
* `Configuration.Orderly` — the invariant

## Main Statements

* `Configuration.Effect.orderly` — one step
* `Configuration.orderly_of_after?` — any number of steps
* `ParseTable.stack_leads_to_state` — both properties, for a parser that has just been started
-/

namespace SimpleLR

variable {σ α : Type}

namespace ParseTable

variable (t : ParseTable σ α)

/-- The table moves from state `s` over the symbol `x` to the state `next`: it has this next state
for `x`, or shifts the terminal `x` to it. -/
def Moves (s : σ) (x : α) (next : σ) : Prop :=
  t.goto? s x = some (some next) ∨
    t.isNonterminal x = false ∧ t.action? s x = some (.shift next)

/-- The stack is a path of moves from the initial state to the state `s`. -/
def Leads : List (Frame σ α) → σ → Prop
  | [], s => s = t.initial
  | f :: stack, s => Leads stack f.state ∧ t.Moves f.state f.symbol s

variable {t}

/-- Below a frame the stack leads to the state in the frame. -/
theorem Leads.drop {stack : List (Frame σ α)} {s : σ} {n : Nat} {f : Frame σ α}
    (h : t.Leads stack s) (hf : stack[n]? = some f) : t.Leads (stack.drop (n + 1)) f.state := by
  induction stack generalizing s n with
  | nil => simp at hf
  | cons top stack ih =>
    rw [List.drop_succ_cons]
    cases n with
    | zero =>
      obtain rfl : top = f := by simpa using hf
      exact h.1
    | succ n => exact ih h.1 (by simpa using hf)

/-- Taking symbols off the stack leads back along the path. -/
theorem Leads.pop? {c d : Configuration σ α} {n : Nat} (h : t.Leads c.stack c.state)
    (hd : c.pop? n = some d) : t.Leads d.stack d.state := by
  cases n with
  | zero =>
    obtain rfl : c = d := Option.some.inj hd
    exact h
  | succ n =>
    obtain ⟨f, hf, rfl⟩ := Option.map_eq_some_iff.1 hd
    exact h.drop hf

end ParseTable

namespace Configuration

variable {t : ParseTable σ α} {c c' : Configuration σ α} {o : Outcome}

/-- The stack is a path of moves to the state of the parser, and if a left-hand side is pending then
a terminal is waiting and the input has not been accepted. -/
structure Orderly (t : ParseTable σ α) (c : Configuration σ α) : Prop where
  leads : t.Leads c.stack c.state
  pending : ∀ lhs, c.pending = some lhs →
    c.accepted = false ∧ ∃ x, c.lookahead = some x ∧ t.isNonterminal x = false

/-- Where nothing is pending only the stack matters. -/
theorem Orderly.of_leads (h : t.Leads c.stack c.state) (hp : c.pending = none) : Orderly t c := by
  refine ⟨h, fun lhs hlhs => ?_⟩
  rw [hp] at hlhs
  cases hlhs

/-- **One step.** -/
theorem Effect.orderly (he : Effect t c o c') (h : Orderly t c) : Orderly t c' := by
  cases he with
  | rest => exact h
  | settle _ _ hg => exact .of_leads ⟨h.leads, Or.inl hg⟩ rfl
  | strand => exact h
  | splice _ hp _ _ hg => exact .of_leads ⟨h.leads, Or.inl hg⟩ hp
  | shift _ hp _ hx hs => exact .of_leads ⟨h.leads, Or.inr ⟨hx, hs⟩⟩ hp
  | @reduce x lhs xs length d ha _ _ hx _ hd =>
    have hleads : t.Leads d.stack d.state :=
      ParseTable.Leads.pop? (c := { c with lookahead := some x, input := xs }) h.leads hd
    refine ⟨hleads, fun _ _ => ?_⟩
    rw [(pop?_eq_some hd).2]
    exact ⟨ha, x, rfl, hx⟩
  | accept _ hp => exact .of_leads h.leads hp
  | refuse _ hp => exact .of_leads h.leads hp

theorem orderly_start (t : ParseTable σ α) (input : List α) : Orderly t (start t input) :=
  .of_leads rfl rfl

/-- **Any number of steps.** -/
theorem orderly_of_after? {input : List α} {n : Nat} (hn : (start t input).after? t n = some c) :
    Orderly t c :=
  after?_inv (fun _ _ _ he h => he.orderly h) (orderly_start t input) hn

/-- A left-hand side that is pending is put on the stack in the next step, or the parser stays where
it is. -/
theorem step?_of_pending_cases (ha : c.accepted = false) {lhs : α} (hp : c.pending = some lhs) :
    (∃ next, c.step? t = some (.goto, { c.push lhs next with pending := none })) ∨
      ∀ m d, c.after? t m = some d → d = c := by
  by_cases hg : ∃ next, t.goto? c.state lhs = some (some next)
  · obtain ⟨next, hg⟩ := hg
    refine Or.inl ⟨next, ?_⟩
    rw [step?_of_pending ha hp, goto?, hg]
    rfl
  · refine Or.inr fun m d hd => ?_
    refine after?_inv (I := fun e => e = c) ?_ rfl hd
    rintro e o e' he rfl
    cases he with
    | rest => rfl
    | strand => rfl
    | settle _ hp' hg' =>
      rw [Option.some.inj (hp'.symm.trans hp)] at hg'
      exact absurd ⟨_, hg'⟩ hg
    | splice _ hp' => cases hp'.symm.trans hp
    | shift _ hp' => cases hp'.symm.trans hp
    | reduce _ hp' => cases hp'.symm.trans hp
    | accept _ hp' => cases hp'.symm.trans hp
    | refuse _ hp' => cases hp'.symm.trans hp

end Configuration

/-- **The stack leads to the state.**  Let a parser be started with any table on any input.  If all
look-ups are defined then so is any number of steps.  After any number of steps that are defined,
the stack is a path of moves of the table from the initial state to the state of the parser.  If a
left-hand side is pending then, a terminal has been read and is waiting.  Either the left-hand side
is put on the stack in the next step, which leaves the terminal waiting, or the configuration stays
as it is for ever. -/
theorem ParseTable.stack_leads_to_state (t : ParseTable σ α) (input : List α) (n : Nat) :
    (t.Total → ∃ c, (Configuration.start t input).after? t n = some c) ∧
    ∀ c, (Configuration.start t input).after? t n = some c →
      t.Leads c.stack c.state ∧
      ∀ lhs, c.pending = some lhs →
        ∃ x, c.lookahead = some x ∧ t.isNonterminal x = false ∧
          ((∃ next, c.step? t = some (.goto, { c.push lhs next with pending := none })) ∨
            ∀ m d, c.after? t m = some d → d = c) := by
  refine ⟨fun ht => Configuration.exists_after?_of_total ht n _, fun c hn => ?_⟩
  have hc := Configuration.orderly_of_after? hn
  refine ⟨hc.leads, fun lhs hp => ?_⟩
  obtain ⟨ha, x, hx, hterm⟩ := hc.pending lhs hp
  exact ⟨x, hx, hterm, Configuration.step?_of_pending_cases ha hp⟩

/-- A table for the word `1`, which is reduced to `0` on the end of the input `2`.  It has a reduce
in the initial state too, of more symbols than there can be on the stack. -/
def ExplicitTable.single : ExplicitTable where
  initial := 0
  endOfInput := 2
  nonterminals := [0]
  actions := [((0, 1), .shift 1), ((0, 2), .reduce 0 1), ((1, 2), .reduce 0 1), ((2, 2), .accept)]
  gotos := [((0, 0), 2)]

/-- After two steps on the word `1` the left-hand side is pending and the end of the input is
waiting; it still waits when the left-hand side is on the stack. -/
theorem ParseTable.stack_leads_to_state_single :
    ∃ c, (Configuration.start ExplicitTable.single.parseTable [1]).after?
        ExplicitTable.single.parseTable 2 = some c ∧
      ExplicitTable.single.parseTable.Leads c.stack c.state ∧ c.pending = some 0 ∧
      c.lookahead = some 2 ∧
      ∃ c', c.step? ExplicitTable.single.parseTable = some (.goto, c') ∧ c'.lookahead = some 2 := by
  obtain ⟨htotal, hall⟩ := stack_leads_to_state ExplicitTable.single.parseTable [1] 2
  obtain ⟨c, hn⟩ := htotal ExplicitTable.single.total
  obtain ⟨hleads, hpending⟩ := hall c hn
  have hc : ((Configuration.start ExplicitTable.single.parseTable [1]).after?
      ExplicitTable.single.parseTable 2).map (fun c => (c.pending, c.lookahead,
        (c.step? ExplicitTable.single.parseTable).map (·.1))) =
      some (some 0, some 2, some .goto) := by
    decide +kernel
  rw [hn, Option.map_some, Option.some.injEq, Prod.mk.injEq, Prod.mk.injEq] at hc
  obtain ⟨hp, hlookahead, hgoto⟩ := hc
  obtain ⟨x, -, -, ⟨next, hstep⟩ | hstays⟩ := hpending 0 hp
  · exact ⟨c, hn, hleads, hp, hlookahead, _, hstep, hlookahead⟩
  · obtain ⟨⟨o, c'⟩, hstep, rfl⟩ := Option.map_eq_some_iff.1 hgoto
    have hsame := hstays 1 c' (by rw [Configuration.after?_succ, hstep]; rfl)
    rw [hsame] at hstep
    exact ⟨c, hn, hleads, hp, hlookahead, c, hstep, hlookahead⟩

end SimpleLR
