import Mathlib.Data.List.Nodup
import Mathlib.Data.List.Perm.Basic
import Mathlib.Data.Set.Function
import SimpleLR.Proofs.Draft.Refusal

/-!
# The numbering of a drafted grammar

Three numberings meet in a drafted grammar: nonterminals and terminals are handed out with numbers
of their own, terminals counted from one, and the grammar numbers all symbols together with the
start symbol in front.  Here the grammar is described by the granted declarations alone.  Put the
start symbol first, then the other nonterminals and the terminals as they were declared, and last
the end of the input: the number of a symbol is its place in this order, and the productions of a
nonterminal are its rules with every symbol replaced by its number.

## Main Definitions

* `Log.start?`, `Log.roster`, `Log.number` — the start symbol, the order of the grammar and the
  number of a symbol, from the granted declarations
* `Log.Renders` — what a grammar has to be for these declarations
* `Draft.Accounts`, `Draft.Sound` — the draft against the granted declarations, and in itself

## Main Results

* `Draft.Accounts.concat`, `Draft.Sound.grants` — a granted declaration preserves both
* `Draft.accounts_granted`, `Draft.sound_attemptAll` — both hold after any declarations
* `Draft.Accounts.number_eq` — the numbers that a draft gives to its symbols are the places in the
  roster
* `Grammar.define_renders` — the grammar that is drafted renders the granted declarations
-/

namespace SimpleLR

namespace Log

/-! ### The grammar of granted declarations -/

/-- The nonterminals in the order of declaration. -/
def nonterminals (log : Log) : List NonterminalRef :=
  log.filterMap fun
    | (.nonterminal _, .nonterminal n) => some n
    | _ => none

/-- The terminals in the order of declaration. -/
def terminals (log : Log) : List TerminalRef :=
  log.filterMap fun
    | (.terminal _ _, .terminal t) => some t
    | _ => none

/-- The rules in the order in which they were added. -/
def rules (log : Log) : List DraftRule :=
  log.filterMap fun
    | (.rule lhs rhs precedence, _) => some ⟨lhs, rhs, precedence⟩
    | _ => none

/-- The start symbols that were chosen, the last one counts. -/
def choices (log : Log) : List NonterminalRef :=
  log.filterMap fun
    | (.chooseStart n, _) => some n
    | _ => none

/-- The start symbol: the one chosen last, or else the nonterminal declared first. -/
def start? (log : Log) : Option NonterminalRef :=
  log.choices.getLast?.or log.nonterminals.head?

/-- The declared nonterminals, the declared terminals and the end of the input. -/
def symbols (log : Log) : List Elem :=
  log.nonterminals.map .nonterminal ++ log.terminals.map .terminal ++ [.terminal .endOfInput]

/-- The symbols in the order of the grammar: the start symbol moves to the front. -/
def roster (log : Log) (start : NonterminalRef) : List Elem :=
  .nonterminal start :: log.symbols.erase (.nonterminal start)

/-- The number of a symbol in the grammar. -/
def number (log : Log) (start : NonterminalRef) (x : Elem) : Nat := (log.roster start).idxOf x

/-- The grammar has the declared symbols in the order of the roster, and the added rules. -/
structure Renders (log : Log) (start : NonterminalRef) (g : Grammar) : Prop where
  /-- No symbol is handed out twice, and none is the end of the input. -/
  symbols_nodup : log.symbols.Nodup
  /-- The numbers of the declared symbols and the end of the input are those of the grammar. -/
  number_bijOn : Set.BijOn (log.number start) {x | x ∈ log.symbols} {i | i < g.numSymbols}
  /-- The start symbol has the number of the start. -/
  number_start : log.number start (.nonterminal start) = Grammar.start
  /-- As many nonterminals as were declared. -/
  numNonterminals_eq : g.numNonterminals = log.nonterminals.length
  /-- A nonterminal has the name that was given to it. -/
  symbol?_nonterminal : ∀ {name n}, (Call.nonterminal name, Reply.nonterminal n) ∈ log →
    g.symbol? (log.number start (.nonterminal n)) = some ⟨name, none⟩
  /-- A terminal has the name and the precedence that were given to it. -/
  symbol?_terminal : ∀ {name precedence t},
    (Call.terminal name precedence, Reply.terminal t) ∈ log →
      g.symbol? (log.number start (.terminal t)) = some ⟨name, precedence⟩
  /-- The end of the input has the last number. -/
  number_endOfInput : log.number start (.terminal .endOfInput) = g.endOfInput
  /-- It has the reserved name. -/
  symbol?_endOfInput : g.symbol? g.endOfInput = some ⟨endOfInputName, none⟩
  /-- All names are different. -/
  names_nodup : (g.symbols.map (·.name)).Nodup
  /-- So every symbol is found by its name. -/
  lookup?_name : ∀ {x s}, g.symbol? x = some s → g.lookup? s.name = some x
  /-- The added rules are made of declared symbols. -/
  rules_declared : ∀ r ∈ log.rules, r.lhs ∈ log.nonterminals ∧ ∀ x ∈ r.rhs, x ∈ log.symbols
  /-- The productions of a nonterminal are its rules in the order in which they were added. -/
  productionsOf_eq : ∀ n ∈ log.nonterminals,
    (g.productionsOf (log.number start (.nonterminal n))).map (fun p => (p.rhs, p.precedence)) =
      (log.rules.filter (·.lhs = n)).map fun r => (r.rhs.map (log.number start), r.precedence)
  /-- No two of them have the same right-hand side. -/
  rhs_nodup : ∀ n ∈ log.nonterminals,
    ((g.productionsOf (log.number start (.nonterminal n))).map (·.rhs)).Nodup

end Log

namespace Draft

/-! ### What declarations preserve -/

/-- The draft is what the granted declarations say. -/
structure Accounts (log : Log) (d : Draft) : Prop where
  nonterminals : log.nonterminals = (List.range d.nonterminals.length).map .mk
  terminals : log.terminals = (List.range d.terminals.length).map fun i => ⟨i + 1⟩
  nonterminal : ∀ {name n}, (Call.nonterminal name, Reply.nonterminal n) ∈ log →
    d.nonterminals[n.number]? = some name
  terminal : ∀ {name precedence t}, (Call.terminal name precedence, Reply.terminal t) ∈ log →
    t.number ≠ 0 ∧ d.terminals[t.number - 1]? = some ⟨name, precedence⟩
  rules : log.rules = d.rules
  start : log.choices.getLast? = d.start

/-- The symbols of a draft in the order of declaration, nonterminals first. -/
def table (d : Draft) : List Symbol :=
  d.nonterminals.map (⟨·, none⟩) ++ d.terminals ++ [⟨endOfInputName, none⟩]

/-- What the checks of the declarations are for. -/
structure Sound (d : Draft) : Prop where
  names_nodup : (d.table.map (·.name)).Nodup
  rules_declared : ∀ r ∈ d.rules, d.Declares (.nonterminal r.lhs) ∧ ∀ x ∈ r.rhs, d.Declares x
  rules_distinct : d.rules.Pairwise fun r r' => r.lhs = r'.lhs → r.rhs ≠ r'.rhs
  start_declared : ∀ n ∈ d.start, d.Declares (.nonterminal n)

theorem accounts_nil : Accounts [] {} := by
  constructor <;> simp [Log.nonterminals, Log.terminals, Log.rules, Log.choices]

theorem sound_empty : Sound {} := by
  constructor <;> simp [table]

variable {log : Log} {d d' : Draft} {c : Call} {r : Reply}

theorem Accounts.concat (h : Accounts log d) (hg : d.Grants c r d') :
    Accounts (log ++ [(c, r)]) d' where
  nonterminals := by
    rw [Log.nonterminals, List.filterMap_append, ← Log.nonterminals, h.nonterminals]
    cases hg with
    | nonterminal fresh => simp [List.range_succ]
    | _ => exact List.append_nil _
  terminals := by
    rw [Log.terminals, List.filterMap_append, ← Log.terminals, h.terminals]
    cases hg with
    | terminal fresh => simp [List.range_succ]
    | _ => exact List.append_nil _
  nonterminal := by
    intro name n mem
    rcases List.mem_append.1 mem with hn | hn
    · replace hn := h.nonterminal hn
      cases hg with
      | nonterminal fresh =>
        rwa [List.getElem?_append_left (List.getElem?_eq_some_iff.1 hn).1]
      | _ => exact hn
    · cases hg with
      | nonterminal fresh =>
        obtain ⟨rfl, rfl⟩ : name = _ ∧ n = _ := by simpa using hn
        exact List.getElem?_concat_length
      | _ => simp at hn
  terminal := by
    intro name precedence t mem
    rcases List.mem_append.1 mem with ht | ht
    · obtain ⟨h₀, ht⟩ := h.terminal ht
      refine ⟨h₀, ?_⟩
      cases hg with
      | terminal fresh =>
        rwa [List.getElem?_append_left (List.getElem?_eq_some_iff.1 ht).1]
      | _ => exact ht
    · cases hg with
      | terminal fresh =>
        obtain ⟨⟨rfl, rfl⟩, rfl⟩ : (name = _ ∧ precedence = _) ∧ t = _ := by simpa using ht
        exact ⟨Nat.succ_ne_zero _, List.getElem?_concat_length⟩
      | _ => simp at ht
  rules := by
    rw [Log.rules, List.filterMap_append, ← Log.rules, h.rules]
    cases hg with
    | rule lhs_declared rhs_declared new => rfl
    | _ => exact List.append_nil _
  start := by
    rw [Log.choices, List.filterMap_append, ← Log.choices]
    cases hg with
    | chooseStart declared => exact List.getLast?_concat
    | _ => exact (congrArg List.getLast? (List.append_nil _)).trans h.start

theorem names_table (d : Draft) :
    d.table.map (·.name) = d.nonterminals ++ (d.terminals.map (·.name) ++ [endOfInputName]) := by
  simp [table, Function.comp_def]

theorem isTaken_eq_false_iff {d : Draft} {name : String} :
    d.isTaken name = false ↔ name ∉ d.table.map (·.name) := by
  rw [names_table]
  grind [isTaken]

theorem Declares.mono {x : Elem} (h : d.Declares x) (hg : d.Grants c r d') : d'.Declares x := by
  cases hg <;> cases x <;> simp only [Declares, List.length_append] at * <;> omega

theorem Sound.grants (h : d.Sound) (hg : d.Grants c r d') : d'.Sound where
  names_nodup := by
    cases hg with
    | terminal fresh =>
      have := List.nodup_cons.2 ⟨isTaken_eq_false_iff.1 fresh, h.names_nodup⟩
      rw [names_table, ← List.append_assoc] at this
      simpa [names_table] using List.nodup_middle.2 this
    | nonterminal fresh =>
      have := List.nodup_cons.2 ⟨isTaken_eq_false_iff.1 fresh, h.names_nodup⟩
      rw [names_table] at this
      simpa [names_table] using List.nodup_middle.2 this
    | _ => exact h.names_nodup
  rules_declared := by
    have declared r (hr : r ∈ d.rules) :
        d'.Declares (.nonterminal r.lhs) ∧ ∀ x ∈ r.rhs, d'.Declares x :=
      (h.rules_declared r hr).imp (·.mono hg) fun hr x hx => (hr x hx).mono hg
    cases hg with
    | rule lhs_declared rhs_declared new =>
      intro r hr
      rcases List.mem_append.1 hr with hr | hr
      · exact declared r hr
      · obtain rfl := List.mem_singleton.1 hr
        exact ⟨lhs_declared, rhs_declared⟩
    | _ => exact declared
  rules_distinct := by
    have := h.rules_distinct
    cases hg with
    | rule lhs_declared rhs_declared new =>
      refine List.pairwise_append.2 ⟨this, List.pairwise_singleton _ _, fun r hr r' hr' => ?_⟩
      obtain rfl := List.mem_singleton.1 hr'
      exact new r hr
    | _ => exact this
  start_declared := by
    have declared n (hn : n ∈ d.start) := (h.start_declared n hn).mono hg
    cases hg with
    | chooseStart start_declared =>
      rintro n ⟨⟩
      exact start_declared
    | _ => exact declared

theorem accounts_granted (cs : List Call) :
    Accounts (({} : Draft).granted cs) (({} : Draft).attemptAll cs).2 :=
  granted_induction accounts_nil (fun h hc => h.concat (grants_of_attempt hc)) cs

theorem sound_attemptAll (cs : List Call) : (({} : Draft).attemptAll cs).2.Sound :=
  granted_induction (P := fun _ d => d.Sound) sound_empty
    (fun h hc => h.grants (grants_of_attempt hc)) cs

/-! ### The order of declaration and the order of the grammar -/

/-- The place of a symbol in the order of declaration. -/
def place (d : Draft) : Elem → Nat
  | .nonterminal n => n.number
  | .terminal t =>
    if t.number = 0 then d.nonterminals.length + d.terminals.length
    else d.nonterminals.length + (t.number - 1)

variable {start n : NonterminalRef}

theorem nonterminalId_injective (start : NonterminalRef) :
    Function.Injective (nonterminalId start) := by
  rcases start with ⟨s⟩
  rintro ⟨i⟩ ⟨j⟩ h
  grind [nonterminalId]

/-- Moving the start symbol to the front takes every place to its number. -/
theorem getElem?_moved {α : Type} {l : List α} {a : α} (h : l[start.number]? = some a) :
    (a :: l.eraseIdx start.number)[nonterminalId start n]? = l[n.number]? := by
  rcases start with ⟨s⟩
  rcases n with ⟨i⟩
  rw [nonterminalId]
  grind

theorem elemId_eq_nonterminalId (hs : d.Declares (.nonterminal start)) (x : Elem) :
    d.elemId start x = nonterminalId start ⟨d.place x⟩ := by
  cases x with
  | nonterminal n => rfl
  | terminal t =>
    -- a terminal has its place behind the start symbol and keeps it
    rw [Declares] at hs
    grind [elemId, nonterminalId, place]

theorem symbolTable_eq (hs : d.Declares (.nonterminal start)) :
    ∃ s, d.table[start.number]? = some s ∧
      d.symbolTable start = s :: d.table.eraseIdx start.number := by
  rw [Declares] at hs
  refine ⟨⟨d.nonterminalName start, none⟩, ?_, ?_⟩
  · rw [table, List.append_assoc, List.getElem?_append_left (by simpa using hs)]
    simp [nonterminalName, hs]
  · simp [table, symbolTable, hs, List.eraseIdx_append_of_lt_length, List.eraseIdx_map]

theorem symbolTable_perm (hs : d.Declares (.nonterminal start)) :
    (d.symbolTable start).Perm d.table := by
  obtain ⟨s, hs, e⟩ := symbolTable_eq hs
  obtain ⟨hlt, rfl⟩ := List.getElem?_eq_some_iff.1 hs
  exact e ▸ List.getElem_cons_eraseIdx_perm hlt

/-- The symbol at the number of a symbol is the one that was declared in its place. -/
theorem getElem?_symbolTable (hs : d.Declares (.nonterminal start)) (x : Elem) :
    (d.symbolTable start)[d.elemId start x]? = d.table[d.place x]? := by
  obtain ⟨s, h, e⟩ := symbolTable_eq hs
  rw [e, elemId_eq_nonterminalId hs, getElem?_moved h]

section Place

-- Any list that goes with the symbols in the order of declaration.
variable {α : Type} {ns ts : List α} {a : α} (hn : ns.length = d.nonterminals.length)
  (ht : ts.length = d.terminals.length)
include hn

theorem getElem?_place_nonterminal (h : d.Declares (.nonterminal n)) :
    (ns ++ ts ++ [a])[d.place (.nonterminal n)]? = ns[n.number]? := by
  have h : n.number < ns.length := hn ▸ h
  rw [place, List.append_assoc, List.getElem?_append_left h]

include ht

theorem getElem?_place_terminal {t : TerminalRef} (h₀ : t.number ≠ 0)
    (h : d.Declares (.terminal t)) :
    (ns ++ ts ++ [a])[d.place (.terminal t)]? = ts[t.number - 1]? := by
  have h : t.number ≤ ts.length := ht ▸ h
  rw [place, if_neg h₀, ← hn, List.append_assoc, List.getElem?_append_right (by omega),
    Nat.add_sub_cancel_left, List.getElem?_append_left (by omega)]

theorem getElem?_place_endOfInput :
    (ns ++ ts ++ [a])[d.place (.terminal .endOfInput)]? = some a := by
  have e : d.place (.terminal .endOfInput) = (ns ++ ts).length := by
    rw [List.length_append, hn, ht]
    rfl
  rw [e, List.getElem?_concat_length]

end Place

namespace Accounts

theorem mem_symbols_iff (h : Accounts log d) {x : Elem} : x ∈ log.symbols ↔ d.Declares x := by
  rw [Log.symbols, h.nonterminals, h.terminals]
  simp only [List.mem_append, List.mem_map, List.mem_range, List.mem_singleton]
  rcases x with ⟨⟨_ | t⟩⟩ | ⟨⟨n⟩⟩
  · simp [Declares, TerminalRef.endOfInput]
  · change _ ↔ t < d.terminals.length
    simp [TerminalRef.endOfInput]
  · simp [Declares]

theorem mem_nonterminals_iff (h : Accounts log d) :
    n ∈ log.nonterminals ↔ d.Declares (.nonterminal n) := by
  rw [← h.mem_symbols_iff, Log.symbols]
  simp

theorem length_symbols (h : Accounts log d) : log.symbols.length = d.table.length := by
  simp [Log.symbols, table, h.nonterminals, h.terminals]

theorem getElem?_symbols (h : Accounts log d) {x : Elem} (hx : d.Declares x) :
    log.symbols[d.place x]? = some x := by
  have hn : (log.nonterminals.map Elem.nonterminal).length = d.nonterminals.length := by
    simp [h.nonterminals]
  have ht : (log.terminals.map Elem.terminal).length = d.terminals.length := by
    simp [h.terminals]
  rcases x with ⟨⟨_ | t⟩⟩ | ⟨⟨n⟩⟩
  · exact getElem?_place_endOfInput hn ht
  · have hlt : t < d.terminals.length := hx
    rw [Log.symbols, getElem?_place_terminal hn ht (Nat.succ_ne_zero t) hx, h.terminals]
    simp [hlt]
  · have hlt : n < d.nonterminals.length := hx
    rw [Log.symbols, getElem?_place_nonterminal hn hx, h.nonterminals]
    simp [hlt]

theorem nodup_symbols (h : Accounts log d) : log.symbols.Nodup := by
  have hn : ((List.range d.nonterminals.length).map NonterminalRef.mk).Nodup :=
    List.nodup_range.map fun _ _ => NonterminalRef.mk.inj
  have ht : ((List.range d.terminals.length).map fun i => TerminalRef.mk (i + 1)).Nodup :=
    List.nodup_range.map fun i j e => by simpa using e
  have hn := hn.map fun _ _ => Elem.nonterminal.inj
  have ht := ht.map fun _ _ => Elem.terminal.inj
  rw [Log.symbols, h.nonterminals, h.terminals]
  refine (hn.append ht ?_).append (List.nodup_singleton _) ?_
  · simp [List.disjoint_left]
  · simp [TerminalRef.endOfInput]

end Accounts

section Order

variable (h : Accounts log d) (hs : d.Declares (.nonterminal start))
include h hs

theorem Accounts.roster_eq :
    log.roster start = .nonterminal start :: log.symbols.eraseIdx start.number := by
  obtain ⟨hlt, e⟩ := List.getElem?_eq_some_iff.1 (h.getElem?_symbols hs)
  rw [Log.roster, ← e, h.nodup_symbols.erase_getElem]
  rfl

theorem Accounts.roster_perm : log.symbols.Perm (log.roster start) :=
  List.perm_cons_erase (h.mem_symbols_iff.2 hs)

theorem Accounts.nodup_roster : (log.roster start).Nodup :=
  (h.roster_perm hs).nodup_iff.1 h.nodup_symbols

/-- The numbers that the draft gives out are the places in the roster. -/
theorem Accounts.number_eq {x : Elem} (hx : d.Declares x) :
    log.number start x = d.elemId start x := by
  -- roster and symbol table both come about by moving the start symbol from its place to the front
  have hx : (log.roster start)[d.elemId start x]? = some x := by
    rw [h.roster_eq hs, elemId_eq_nonterminalId hs, getElem?_moved (h.getElem?_symbols hs),
      h.getElem?_symbols hx]
  obtain ⟨hlt, hx⟩ := List.getElem?_eq_some_iff.1 hx
  calc log.number start x
      = (log.roster start).idxOf ((log.roster start)[d.elemId start x]) := by rw [hx, Log.number]
    _ = d.elemId start x := (h.nodup_roster hs).idxOf_getElem _ hlt

theorem Accounts.number_bijOn :
    Set.BijOn (log.number start) {x | x ∈ log.symbols} {i | i < log.symbols.length} := by
  have perm := h.roster_perm hs
  rw [perm.length_eq]
  refine ⟨fun x hx => ?_, fun x hx y _ e => ?_, fun i hi => ?_⟩
  · exact List.idxOf_lt_length_of_mem (perm.mem_iff.1 hx)
  · exact (List.idxOf_inj (perm.mem_iff.1 hx)).1 e
  · exact ⟨_, perm.mem_iff.2 (List.getElem_mem hi), (h.nodup_roster hs).idxOf_getElem i hi⟩

end Order

/-- Symbols can be read back from their numbers. -/
theorem eq_of_map_number_eq {xs ys : List Elem} (hx : ∀ x ∈ xs, x ∈ log.roster start)
    (hy : ∀ y ∈ ys, y ∈ log.roster start)
    (h : xs.map (log.number start) = ys.map (log.number start)) : xs = ys := by
  have back {xs : List Elem} (hx : ∀ x ∈ xs, x ∈ log.roster start) :
      (xs.map (log.number start)).map ((log.roster start)[·]?) = xs.map some := by
    rw [List.map_map]
    exact List.map_congr_left fun x h => List.getElem?_idxOf (hx x h)
  have h := congrArg (List.map ((log.roster start)[·]?)) h
  rw [back hx, back hy] at h
  exact List.map_injective_iff.2 (Option.some_injective _) h

/-! ### The finished grammar -/

theorem Accounts.start?_eq (h : Accounts log d) : log.start? = d.startSymbol? := by
  rw [Log.start?, h.start, h.nonterminals, startSymbol?]
  cases d.start with
  | some n => rfl
  | none => cases d.nonterminals <;> simp [List.range_succ_eq_map]

theorem Sound.declares_start (h : d.Sound) (hs : d.startSymbol? = some start) :
    d.Declares (.nonterminal start) := by
  rw [startSymbol?] at hs
  split at hs
  · rename_i n hn
    obtain rfl := Option.some.inj hs
    exact h.start_declared n hn
  · rename_i hn
    obtain rfl := Option.some.inj hs
    simp [Declares, hn]
  · simp at hs

/-- The rules of one nonterminal have different right-hand sides. -/
theorem Sound.nodup_rhs (h : d.Sound) (n : NonterminalRef) :
    ((d.rules.filter (·.lhs = n)).map (·.rhs)).Nodup := by
  rw [List.Nodup, List.pairwise_map]
  refine (h.rules_distinct.filter _).imp_of_mem fun {r r'} hr hr' hne => hne ?_
  have hr := List.of_mem_filter hr
  have hr' := List.of_mem_filter hr'
  simp_all

/-- The alternatives at the number of a nonterminal are its rules. -/
theorem alternatives_nonterminalId (d : Draft) (start n : NonterminalRef) :
    d.alternatives start (nonterminalId start n) =
      (d.rules.filter (·.lhs = n)).map fun r => ⟨r.rhs.map (d.elemId start), r.precedence⟩ := by
  rw [alternatives]
  congr 1
  refine List.filter_congr fun r _ => ?_
  rw [Bool.eq_iff_iff, beq_iff_eq, decide_eq_true_iff]
  exact (nonterminalId_injective start).eq_iff

/-- What the grammar of a draft is made of. -/
structure Finishes (d : Draft) (start : NonterminalRef) (g : Grammar) : Prop where
  start_eq : d.startSymbol? = some start
  symbols_eq : g.symbols = d.symbolTable start
  numNonterminals_eq : g.numNonterminals = d.nonterminals.length
  rules_eq : g.rules =
    numberRules 0 0 ((List.range d.nonterminals.length).map (d.alternatives start))

theorem finishes_of_finish {g : Grammar} (h : d.finish = .ok g) : ∃ start, d.Finishes start g := by
  rw [finish] at h
  split at h
  · simp at h
  · rename_i start hs
    obtain ⟨hsymbols, hn, hrules⟩ := Grammar.eq_of_ofAlternatives h
    exact ⟨start, hs, hsymbols, hn, hrules⟩

theorem Finishes.map_productionsOf {g : Grammar} (hg : d.Finishes start g)
    (hs : d.Declares (.nonterminal start)) (hn : d.Declares (.nonterminal n)) :
    (g.productionsOf (nonterminalId start n)).map (fun p => (p.rhs, p.precedence)) =
      (d.rules.filter (·.lhs = n)).map fun r => (r.rhs.map (d.elemId start), r.precedence) := by
  have hlt : nonterminalId start n < d.nonterminals.length := by
    grind [Declares, nonterminalId]
  rw [Grammar.productionsOf, hg.rules_eq, getElem?_numberRules, List.getElem?_map,
    List.getElem?_range hlt, Option.map_some, Option.map_some, Option.getD_some,
    map_numberAlternatives, alternatives_nonterminalId, List.map_map]
  rfl

section Finished

variable {g : Grammar} (h : Accounts log d) (sound : d.Sound) (hg : d.Finishes start g)
include h sound

theorem Accounts.rules_declared :
    ∀ r ∈ log.rules, r.lhs ∈ log.nonterminals ∧ ∀ x ∈ r.rhs, x ∈ log.symbols := by
  intro r hr
  obtain ⟨hl, hr⟩ := sound.rules_declared r (h.rules ▸ hr)
  exact ⟨h.mem_nonterminals_iff.2 hl, fun x hx => h.mem_symbols_iff.2 (hr x hx)⟩

include hg

theorem Accounts.symbol?_number {x : Elem} (hx : d.Declares x) :
    g.symbol? (log.number start x) = d.table[d.place x]? := by
  have hs := sound.declares_start hg.start_eq
  rw [Grammar.symbol?, hg.symbols_eq, h.number_eq hs hx, getElem?_symbolTable hs]

theorem Accounts.map_productionsOf (hn : n ∈ log.nonterminals) :
    (g.productionsOf (log.number start (.nonterminal n))).map (fun p => (p.rhs, p.precedence)) =
      (log.rules.filter (·.lhs = n)).map fun r => (r.rhs.map (log.number start), r.precedence) := by
  have hs := sound.declares_start hg.start_eq
  have hn := h.mem_nonterminals_iff.1 hn
  rw [h.number_eq hs hn, elemId, hg.map_productionsOf hs hn, h.rules]
  refine List.map_congr_left fun r hr => ?_
  have hr := (sound.rules_declared r (List.mem_of_mem_filter hr)).2
  rw [List.map_congr_left fun x hx => h.number_eq hs (hr x hx)]

theorem Accounts.nodup_rhs (hn : n ∈ log.nonterminals) :
    ((g.productionsOf (log.number start (.nonterminal n))).map (·.rhs)).Nodup := by
  have e : (g.productionsOf (log.number start (.nonterminal n))).map (·.rhs) =
      ((log.rules.filter (·.lhs = n)).map (·.rhs)).map (List.map (log.number start)) := by
    simpa [Function.comp_def] using congrArg (List.map Prod.fst) (h.map_productionsOf sound hg hn)
  have declared rhs (hrhs : rhs ∈ (log.rules.filter (·.lhs = n)).map (·.rhs)) x (hx : x ∈ rhs) :
      x ∈ log.roster start := by
    obtain ⟨r, hr, rfl⟩ := List.mem_map.1 hrhs
    have hs := sound.declares_start hg.start_eq
    have hr := h.rules_declared sound r (List.mem_of_mem_filter hr)
    exact (h.roster_perm hs).mem_iff.1 (hr.2 x hx)
  rw [e]
  refine List.Nodup.map_on ?_ (h.rules ▸ sound.nodup_rhs n)
  exact fun rhs hr rhs' hr' => eq_of_map_number_eq (declared rhs hr) (declared rhs' hr')

/-- A sound draft that is what the granted declarations say finishes as a grammar that renders
them. -/
theorem Accounts.renders : log.Renders start g := by
  have hs := sound.declares_start hg.start_eq
  have perm : g.symbols.Perm d.table := hg.symbols_eq ▸ symbolTable_perm hs
  have names : (g.symbols.map (·.name)).Nodup := (perm.map _).nodup_iff.2 sound.names_nodup
  have length : g.numSymbols = log.symbols.length := perm.length_eq.trans h.length_symbols.symm
  have eoi : d.Declares (.terminal .endOfInput) := Nat.zero_le _
  have last : log.number start (.terminal .endOfInput) = g.endOfInput := by
    rw [h.number_eq hs eoi, Grammar.endOfInput, perm.length_eq]
    simp [elemId, table, TerminalRef.endOfInput]
  exact {
    symbols_nodup := h.nodup_symbols
    number_bijOn := length ▸ h.number_bijOn hs
    number_start := List.idxOf_cons_self
    numNonterminals_eq := by simp [hg.numNonterminals_eq, h.nonterminals]
    symbol?_nonterminal := by
      intro name n hn
      have hn := h.nonterminal hn
      have hlt : d.Declares (.nonterminal n) := (List.getElem?_eq_some_iff.1 hn).1
      rw [h.symbol?_number sound hg hlt, table, getElem?_place_nonterminal (by simp) hlt]
      simp [hn]
    symbol?_terminal := by
      intro name precedence t ht
      obtain ⟨ht₀, ht⟩ := h.terminal ht
      have hlt : d.Declares (.terminal t) := by
        have := (List.getElem?_eq_some_iff.1 ht).1
        rw [Declares]
        omega
      rw [h.symbol?_number sound hg hlt, table, getElem?_place_terminal (by simp) rfl ht₀ hlt, ht]
    number_endOfInput := last
    symbol?_endOfInput := by
      rw [← last, h.symbol?_number sound hg eoi, table, getElem?_place_endOfInput (by simp) rfl]
    names_nodup := names
    lookup?_name := g.lookup?_of_nodup names
    rules_declared := h.rules_declared sound
    productionsOf_eq := fun n hn => h.map_productionsOf sound hg hn
    rhs_nodup := fun n hn => h.nodup_rhs sound hg hn }

end Finished

end Draft

namespace Grammar

/-- **Drafting is faithful.**  Make any declarations in turn, whatever becomes of them, and let
them draft a grammar.  The grammar renders the granted ones: it numbers the declared symbols and
the end of the input, beginning with the start symbol, and its productions are the added rules. -/
theorem define_renders {cs : List Call} {g : Grammar}
    (h : define (discard (Call.persist cs)) = .ok g) :
    ∃ start, (({} : Draft).granted cs).start? = some start ∧
      (({} : Draft).granted cs).Renders start g := by
  rw [define_discard (Draft.carryOut_persist {} cs)] at h
  have accounts := Draft.accounts_granted cs
  obtain ⟨start, hg⟩ := Draft.finishes_of_finish h
  exact ⟨start, accounts.start?_eq.trans hg.start_eq,
    accounts.renders (Draft.sound_attemptAll cs) hg⟩

/-- Declarations of a grammar whose start symbol is its second nonterminal, with a name that is in
use, the reserved name, a rule of an undeclared nonterminal and a repeated rule among them. -/
def secondStart : List Call :=
  [.nonterminal "List", .terminal "item" (some ⟨1, .left⟩), .nonterminal "Text",
    .terminal "List" none, .nonterminal "$end",
    .rule ⟨1⟩ [.nonterminal ⟨0⟩, .terminal ⟨0⟩] none, .rule ⟨2⟩ [] none, .rule ⟨0⟩ [] none,
    .rule ⟨0⟩ [.nonterminal ⟨0⟩, .terminal ⟨1⟩] (some ⟨2, .right⟩),
    .rule ⟨0⟩ [] (some ⟨0, .left⟩), .chooseStart ⟨1⟩]

theorem define_renders_secondStart :
    ∃ g, define (discard (Call.persist secondStart)) = .ok g ∧
      (({} : Draft).granted secondStart).length = 7 ∧
      (({} : Draft).granted secondStart).Renders ⟨1⟩ g := by
  have ok : (define (discard (Call.persist secondStart))).isOk = true := by decide
  rcases h : define (discard (Call.persist secondStart)) with e | g
  · simp [h, Except.isOk, Except.toBool] at ok
  · obtain ⟨start, hs, renders⟩ := define_renders h
    have e : (({} : Draft).granted secondStart).start? = some ⟨1⟩ := by decide
    obtain rfl : ⟨1⟩ = start := Option.some.inj (e.symm.trans hs)
    exact ⟨g, rfl, by decide, renders⟩

end Grammar

end SimpleLR
