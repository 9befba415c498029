import SimpleLR.Proofs.Draft.Numbering

/-!
# Putting a drafted grammar together

The finished grammar of a draft is described by formulas: the number that a nonterminal has once the
start symbol has moved to the front, and the rules that have it on their left-hand side.  The
grammar can be put together without them.  Push the start symbol, and then the nonterminals in the
order of declaration, skipping the start symbol and keeping for each of the others the number of
symbols that were there before it.  Then go through the rules and add each of them to the
alternatives of its left-hand side.

Numbers are looked up where they were kept, so this works only for symbols that have been declared.
The declarations see to that.

## Main Definitions

* `Assembly` — the symbols that have been pushed, and the numbers that have been kept
* `Draft.assemble` — the grammar that is put together

## Main Results

* `Assembly.pushAll_after` — the numbers kept for the nonterminals, and the symbols pushed with them
* `Draft.foldl_fileRule` — the alternatives after all rules have been filed
* `Draft.assemble_attemptAll` — the grammar that is put together is the finished one
-/

namespace SimpleLR

/-- The symbols pushed so far, and the numbers kept for the declared nonterminals. -/
structure Assembly where
  /-- The number of each nonterminal, zero until it is pushed. -/
  numbers : List Nat
  /-- The symbols in the order of the grammar. -/
  symbols : List Symbol

namespace Assembly

/-- Push the nonterminal that was declared as number `raw`, unless it is the start symbol. -/
def push (start : NonterminalRef) (a : Assembly) (raw : Nat) (name : String) : Assembly :=
  if raw = start.number then a
  else ⟨a.numbers.set raw a.symbols.length, a.symbols ++ [⟨name, none⟩]⟩

/-- Push nonterminals in turn, the first of which was declared as number `raw`. -/
def pushAll (start : NonterminalRef) : Nat → List String → Assembly → Assembly
  | _, [], a => a
  | raw, name :: names, a => pushAll start (raw + 1) names (a.push start raw name)

/-- The number kept for a nonterminal. -/
def numberOf (a : Assembly) (n : NonterminalRef) : Nat := a.numbers[n.number]?.getD 0

/-- The number of a symbol, once all symbols have been pushed. -/
def resolve (a : Assembly) : Elem → Nat
  | .nonterminal n => a.numberOf n
  | .terminal t =>
    if t.number = 0 then a.symbols.length - 1 else a.numbers.length + (t.number - 1)

/-- Add a rule to the alternatives of its left-hand side. -/
def fileRule (a : Assembly) (rules : List (List Alternative)) (r : DraftRule) :
    List (List Alternative) :=
  rules.modify (a.numberOf r.lhs) (· ++ [⟨r.rhs.map a.resolve, r.precedence⟩])

end Assembly

namespace Draft

/-- All symbols of a draft, pushed in the order of the grammar. -/
def assembly (d : Draft) (start : NonterminalRef) : Assembly :=
  let a := Assembly.pushAll start 0 d.nonterminals
    ⟨List.replicate d.nonterminals.length 0, [⟨d.nonterminalName start, none⟩]⟩
  { a with symbols := a.symbols ++ d.terminals ++ [⟨endOfInputName, none⟩] }

/-- The grammar of a draft, put together from its symbols and its rules. -/
def assemble (d : Draft) : Except GrammarError Grammar :=
  match d.startSymbol? with
  | none => .error .noNonterminals
  | some start =>
    let a := d.assembly start
    Grammar.ofAlternatives a.symbols d.nonterminals.length
      (d.rules.foldl a.fileRule (List.replicate d.nonterminals.length []))

end Draft

namespace Assembly

/-! ### Symbols -/

/-- What has been pushed when the nonterminals in `before` have been gone through and `rest` more
are to come. -/
def after (start : NonterminalRef) (first : Symbol) (before : List String) (rest : Nat) :
    Assembly where
  numbers := (List.range before.length).map (fun i => Draft.nonterminalId start ⟨i⟩) ++
    List.replicate rest 0
  symbols := first :: (before.eraseIdx start.number).map (⟨·, none⟩)

variable {start : NonterminalRef} {first : Symbol}

theorem nonterminalId_start_number {raw : Nat} (h : raw = start.number) :
    Draft.nonterminalId start ⟨raw⟩ = 0 := by
  subst h
  exact if_pos rfl

/-- The number of a nonterminal is the number of symbols that are pushed before it. -/
theorem length_symbols_after {before : List String} (h : before.length ≠ start.number)
    (rest : Nat) :
    (after start first before rest).symbols.length =
      Draft.nonterminalId start ⟨before.length⟩ := by
  have hne : (⟨before.length⟩ : NonterminalRef) ≠ start := fun e => h (congrArg (·.number) e)
  rw [after, List.length_cons, List.length_map, List.length_eraseIdx, Draft.nonterminalId,
    if_neg hne]
  dsimp only
  split <;> split <;> omega

/-- The symbols without the start symbol, with one more nonterminal. -/
theorem eraseIdx_concat (before : List String) (name : String) (i : Nat) :
    (before ++ [name]).eraseIdx i =
      before.eraseIdx i ++ if before.length = i then [] else [name] := by
  rcases Nat.lt_trichotomy before.length i with hlt | heq | hlt
  · have hlt' : (before ++ [name]).length ≤ i := by simpa using Nat.succ_le_of_lt hlt
    rw [if_neg (Nat.ne_of_lt hlt), List.eraseIdx_of_length_le hlt',
      List.eraseIdx_of_length_le (Nat.le_of_lt hlt)]
  · subst heq
    simp [List.eraseIdx_append_of_length_le, List.eraseIdx_of_length_le]
  · rw [if_neg (Nat.ne_of_gt hlt), List.eraseIdx_append_of_lt_length hlt]

theorem map_range_concat (f : Nat → Nat) (before : List String) (name : String) :
    (List.range (before ++ [name]).length).map f =
      (List.range before.length).map f ++ [f before.length] := by
  rw [List.length_append, List.length_singleton, List.range_succ, List.map_append]
  rfl

/-- **One more nonterminal**: it keeps the number of symbols before it, or zero if it is the start
symbol. -/
theorem push_after (before : List String) (rest : Nat) (name : String) :
    (after start first before (rest + 1)).push start before.length name =
      after start first (before ++ [name]) rest := by
  rw [push]
  by_cases heq : before.length = start.number
  · rw [if_pos heq, after, after, map_range_concat, eraseIdx_concat, if_pos heq, List.append_nil,
      nonterminalId_start_number heq, List.append_assoc]
    rfl
  · -- the number is kept at the first place that has none yet
    have hkept : ∀ ns : List Nat, ns.length = before.length → ∀ k,
        (ns ++ List.replicate (rest + 1) 0).set before.length k =
          ns ++ [k] ++ List.replicate rest 0 := by
      intro ns hns k
      rw [List.set_append_right _ _ (Nat.le_of_eq hns), hns, Nat.sub_self, List.replicate_succ,
        List.set_cons_zero, List.append_assoc, List.singleton_append]
    rw [if_neg heq, length_symbols_after heq, after, after, hkept _ (by simp), map_range_concat,
      eraseIdx_concat, if_neg heq, List.map_append]
    rfl

variable (start first) in
/-- **All nonterminals**: those in `names` after those in `before`. -/
theorem pushAll_after (before names : List String) :
    pushAll start before.length names (after start first before names.length) =
      after start first (before ++ names) 0 := by
  induction names generalizing before with
  | nil => rw [List.append_nil]; rfl
  | cons name names ih =>
    have hrest := ih (before ++ [name])
    rw [List.length_append, List.length_singleton, List.append_assoc] at hrest
    rw [pushAll, List.length_cons, push_after, hrest, List.singleton_append]

end Assembly

namespace Draft

variable {d : Draft} {start : NonterminalRef}

/-- The numbers kept and the symbols pushed are those of the formulas. -/
theorem assembly_eq (d : Draft) (start : NonterminalRef) :
    d.assembly start = ⟨(List.range d.nonterminals.length).map fun i => nonterminalId start ⟨i⟩,
      d.symbolTable start⟩ := by
  have hpush := Assembly.pushAll_after start ⟨d.nonterminalName start, none⟩ [] d.nonterminals
  rw [List.nil_append] at hpush
  have hbegin : Assembly.after start ⟨d.nonterminalName start, none⟩ [] d.nonterminals.length =
      ⟨List.replicate d.nonterminals.length 0, [⟨d.nonterminalName start, none⟩]⟩ := by
    simp [Assembly.after]
  rw [hbegin, List.length_nil] at hpush
  rw [assembly, hpush]
  simp [Assembly.after, symbolTable]

theorem numberOf_assembly {n : NonterminalRef} (hn : d.Declares (.nonterminal n)) :
    (d.assembly start).numberOf n = nonterminalId start n := by
  have hlt : n.number < d.nonterminals.length := hn
  rw [Assembly.numberOf, assembly_eq, List.getElem?_map, List.getElem?_range hlt]
  rfl

theorem resolve_assembly (hs : d.Declares (.nonterminal start)) {x : Elem} (hx : d.Declares x) :
    (d.assembly start).resolve x = d.elemId start x := by
  cases x with
  | nonterminal n => exact numberOf_assembly hx
  | terminal t =>
    have hlength : (d.symbolTable start).length =
        d.nonterminals.length + d.terminals.length + 1 := by
      rw [(symbolTable_perm hs).length_eq, table]
      simp [Nat.add_assoc]
    rw [Assembly.resolve, assembly_eq, elemId, hlength, List.length_map, List.length_range]
    rfl

/-! ### Rules -/

/-- The alternatives after some of the rules have been filed. -/
def filed (d : Draft) (start : NonterminalRef) (rules : List DraftRule) :
    List (List Alternative) :=
  (List.range d.nonterminals.length).map fun i =>
    (rules.filter fun r => nonterminalId start r.lhs == i).map fun r =>
      ⟨r.rhs.map (d.elemId start), r.precedence⟩

/-- **One more rule** is the last alternative of its left-hand side. -/
theorem fileRule_filed (hs : d.Declares (.nonterminal start)) {rules : List DraftRule}
    {r : DraftRule} (hl : d.Declares (.nonterminal r.lhs)) (hr : ∀ x ∈ r.rhs, d.Declares x) :
    (d.assembly start).fileRule (d.filed start rules) r = d.filed start (rules ++ [r]) := by
  have hrhs : r.rhs.map (d.assembly start).resolve = r.rhs.map (d.elemId start) :=
    List.map_congr_left fun x hx => resolve_assembly hs (hr x hx)
  rw [Assembly.fileRule, hrhs, numberOf_assembly hl]
  apply List.ext_getElem?
  intro i
  rw [List.getElem?_modify, filed, filed, List.getElem?_map, List.getElem?_map]
  by_cases hlt : i < d.nonterminals.length
  · rw [List.getElem?_range hlt]
    by_cases hi : nonterminalId start r.lhs = i <;> simp [hi]
  · rw [List.getElem?_eq_none (by simpa using hlt)]
    rfl

theorem foldl_fileRule (hs : d.Declares (.nonterminal start)) {rules done : List DraftRule}
    (h : ∀ r ∈ rules, d.Declares (.nonterminal r.lhs) ∧ ∀ x ∈ r.rhs, d.Declares x) :
    rules.foldl (d.assembly start).fileRule (d.filed start done) =
      d.filed start (done ++ rules) := by
  induction rules generalizing done with
  | nil => rw [List.append_nil]; rfl
  | cons r rules ih =>
    obtain ⟨⟨hl, hr⟩, h⟩ := List.forall_mem_cons.1 h
    rw [List.foldl_cons, fileRule_filed hs hl hr, ih h, List.append_assoc, List.singleton_append]

theorem Sound.assemble_eq (h : d.Sound) : d.assemble = d.finish := by
  rw [assemble, finish]
  cases hstart : d.startSymbol? with
  | none => rfl
  | some start =>
    have hs := h.declares_start hstart
    have hbegin : List.replicate d.nonterminals.length [] = d.filed start [] := by
      simp [filed]
    have hfiled : d.rules.foldl (d.assembly start).fileRule (d.filed start []) =
        d.filed start d.rules :=
      foldl_fileRule hs h.rules_declared
    dsimp only
    rw [hbegin, hfiled, assembly_eq]
    rfl

/-- **The grammar that is put together is the finished one**, whatever declarations have been made
and whatever has become of them. -/
theorem assemble_attemptAll (cs : List Call) :
    (({} : Draft).attemptAll cs).2.assemble = (({} : Draft).attemptAll cs).2.finish :=
  (sound_attemptAll cs).assemble_eq

end Draft

end SimpleLR
