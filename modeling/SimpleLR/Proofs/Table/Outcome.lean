import SimpleLR.Proofs.Table.Conflicts

/-!
# What is in a slot in the end

Where nothing but reduces compete for a slot, it goes to the one whose production comes first in the
grammar, in whatever order they are entered, and every other reduce leaves a conflict on record.
Where there is a shift, it stays as long as every reduce defers to it: because a precedence is
missing, which is recorded, or because precedences say so, which is not.

A slot in which a reduce has replaced the shift, or from which the two have removed each other, does
not show that there ever was a shift.  From then on the reduces compete among themselves.

## Main Definitions

* `Preference.DueTo`, `Automaton.Prefers` — what precedences say, by priority and associativity
* `Automaton.Defers` — a reduce that leaves a shift in its slot
* `Automaton.Before`, `Automaton.Earliest` — the order of the productions of reduces
* `Automaton.Victor` — what reduces leave in an empty slot

## Main Statements

* `compare?_eq_some_iff` — comparing two precedences
* `Automaton.History.split` — a history goes on where it was interrupted
* `Automaton.History.victor` — reduces that compete among themselves
* `Automaton.History.last_eq_shift_iff`, `Automaton.History.recorded_of_last_eq_shift` — reduces
  that compete with a shift
* `Automaton.History.victor_of_replaced`, `Automaton.History.victor_of_removed` — after the shift
* `Grammar.reduces_distinct` — no two reduces of a state are by the same production
* `Grammar.slot_resolved` — the slots of the tables
-/

namespace SimpleLR

/-! ### Comparing precedences -/

/-- The preference that the precedence `x` of a terminal and the precedence `y` of a production give
rise to: the higher priority wins, and between equal ones the associativity of the terminal
decides. -/
def Preference.DueTo (x y : Precedence) : Preference → Prop
  | .shift => y.priority < x.priority ∨ y.priority = x.priority ∧ x.assoc = .right
  | .reduce => x.priority < y.priority ∨ y.priority = x.priority ∧ x.assoc = .left
  | .neither => y.priority = x.priority ∧ x.assoc = .nonassoc

/-- Two precedences give rise to a preference. -/
theorem exists_dueTo (x y : Precedence) : ∃ preference : Preference, preference.DueTo x y := by
  rcases Nat.lt_trichotomy y.priority x.priority with hlt | heq | hgt
  · exact ⟨.shift, Or.inl hlt⟩
  · cases hassoc : x.assoc with
    | left => exact ⟨.reduce, Or.inr ⟨heq, hassoc⟩⟩
    | right => exact ⟨.shift, Or.inr ⟨heq, hassoc⟩⟩
    | nonassoc => exact ⟨.neither, heq, hassoc⟩
  · exact ⟨.reduce, Or.inl hgt⟩

/-- The preference is found by comparing the precedences. -/
theorem Preference.DueTo.compare?_eq {x y : Precedence} {preference : Preference}
    (h : preference.DueTo x y) : compare? (some x) (some y) = some preference := by
  rw [compare?]
  cases preference with
  | shift =>
    rcases h with hlt | ⟨heq, hassoc⟩
    · rw [if_pos hlt]
    · rw [if_neg (by omega), if_neg (by omega), hassoc]
  | reduce =>
    rcases h with hlt | ⟨heq, hassoc⟩
    · rw [if_neg (by omega), if_pos hlt]
    · rw [if_neg (by omega), if_neg (by omega), hassoc]
  | neither =>
    obtain ⟨heq, hassoc⟩ := h
    rw [if_neg (by omega), if_neg (by omega), hassoc]

theorem compare?_eq_some_iff {u v : Option Precedence} {preference : Preference} :
    compare? u v = some preference ↔
      ∃ x y, u = some x ∧ v = some y ∧ preference.DueTo x y := by
  constructor
  · intro h
    obtain ⟨hu, hv⟩ := compare?_eq_some h
    obtain ⟨x, rfl⟩ := Option.isSome_iff_exists.1 hu
    obtain ⟨y, rfl⟩ := Option.isSome_iff_exists.1 hv
    obtain ⟨preference', hdue⟩ := exists_dueTo x y
    obtain rfl : preference' = preference := Option.some.inj (hdue.compare?_eq.symm.trans h)
    exact ⟨x, y, rfl, rfl, hdue⟩
  · rintro ⟨x, y, rfl, rfl, hdue⟩
    exact hdue.compare?_eq

namespace Automaton

variable {g : Grammar}

/-- What the precedences of the terminal `t` and of the production of reduce `r` of state `s` say
about shifting and reducing. -/
def Prefers (a : Automaton g) (s t r : Nat) (preference : Preference) : Prop :=
  ∃ p x y, a.reduceProduction? s r = some p ∧ g.symbolPrecedence t = some x ∧
    g.precedenceOf p = some y ∧ preference.DueTo x y

/-- A reduce that leaves a shift in its slot: a precedence is missing, or the shift is preferred. -/
def Defers (a : Automaton g) (s t r : Nat) : Prop := ¬ a.Ranked s t r ∨ a.Prefers s t r .shift

/-- The production of reduce `r` comes before that of reduce `r'` in the grammar. -/
def Before (a : Automaton g) (s r r' : Nat) : Prop :=
  ∃ p q, a.reduceProduction? s r = some p ∧ a.reduceProduction? s r' = some q ∧ p.seq < q.seq

/-- The reduce is one of the given ones, and its production comes before those of all others. -/
def Earliest (a : Automaton g) (s : Nat) (reduces : List Nat) (r : Nat) : Prop :=
  r ∈ reduces ∧ ∀ r' ∈ reduces, r' = r ∨ a.Before s r r'

/-- What reduces leave in an empty slot: the earliest of them, and nothing if there are none. -/
def Victor (a : Automaton g) (s : Nat) (reduces : List Nat) (action : Action) : Prop :=
  reduces = [] ∧ action = .reject ∨ ∃ r, action = .reduce r ∧ a.Earliest s reduces r

/-- No two reduces of the state are by the same production. -/
def Distinct (a : Automaton g) (s : Nat) : Prop :=
  ∀ r r' p q, a.reduceProduction? s r = some p → a.reduceProduction? s r' = some q →
    p.seq = q.seq → r = r'

variable {a : Automaton g} {s t r r' : Nat} {first held last : Action} {reduces : List Nat}
  {recorded : List Conflict} {preference : Preference}

theorem prefers_iff : a.Prefers s t r preference ↔
    ∃ p, a.reduceProduction? s r = some p ∧
      compare? (g.symbolPrecedence t) (g.precedenceOf p) = some preference := by
  simp only [Prefers, compare?_eq_some_iff, exists_and_left]

/-- Whether precedences can decide is found by looking at them. -/
instance : Decidable (a.Ranked s t r) :=
  decidable_of_iff ((a.reduceProduction? s r).any fun p =>
      (g.symbolPrecedence t).isSome && (g.precedenceOf p).isSome) (by
    rw [Option.any_eq_true, Ranked]
    simp only [Bool.and_eq_true])

/-- What precedences say is found by comparing them. -/
instance : Decidable (a.Prefers s t r preference) :=
  decidable_of_iff ((a.reduceProduction? s r).bind
      (fun p => compare? (g.symbolPrecedence t) (g.precedenceOf p)) = some preference) (by
    rw [prefers_iff, Option.bind_eq_some_iff])

/-- The order of two productions is found by their numbers. -/
instance : Decidable (a.Before s r r') :=
  decidable_of_iff ((a.reduceProduction? s r).any fun p =>
      (a.reduceProduction? s r').any fun q => decide (p.seq < q.seq)) (by
    simp only [Option.any_eq_true, decide_eq_true_eq, Before, exists_and_left])

instance : Decidable (a.Earliest s reduces r) :=
  inferInstanceAs (Decidable (_ ∧ ∀ r' ∈ reduces, _))

theorem Prefers.ranked (h : a.Prefers s t r preference) : a.Ranked s t r := by
  obtain ⟨p, hp, hc⟩ := prefers_iff.1 h
  exact ⟨p, hp, compare?_eq_some hc⟩

theorem Ranked.exists_prefers (h : a.Ranked s t r) : ∃ preference, a.Prefers s t r preference := by
  obtain ⟨p, hp, hterminal, hproduction⟩ := h
  obtain ⟨x, hx⟩ := Option.isSome_iff_exists.1 hterminal
  obtain ⟨y, hy⟩ := Option.isSome_iff_exists.1 hproduction
  obtain ⟨preference, hdue⟩ := exists_dueTo x y
  exact ⟨preference, p, x, y, hp, hx, hy, hdue⟩

/-- Precedences say one thing only. -/
theorem Prefers.unique {preference' : Preference} (h : a.Prefers s t r preference)
    (h' : a.Prefers s t r preference') : preference = preference' := by
  obtain ⟨p, hp, hc⟩ := prefers_iff.1 h
  obtain ⟨q, hq, hc'⟩ := prefers_iff.1 h'
  obtain rfl : p = q := Option.some.inj (hp.symm.trans hq)
  exact Option.some.inj (hc.symm.trans hc')

/-- A reduce defers to a shift, or replaces it, or the two remove each other. -/
theorem defers_or_prefers (a : Automaton g) (s t r : Nat) :
    a.Defers s t r ∨ a.Prefers s t r .reduce ∨ a.Prefers s t r .neither := by
  by_cases hranked : a.Ranked s t r
  · obtain ⟨preference, h⟩ := hranked.exists_prefers
    cases preference with
    | shift => exact Or.inl (Or.inr h)
    | reduce => exact Or.inr (Or.inl h)
    | neither => exact Or.inr (Or.inr h)
  · exact Or.inl (Or.inl hranked)

/-- A reduce that defers to the shift has no other preference. -/
theorem Defers.eq_shift (h : a.Defers s t r) (hp : a.Prefers s t r preference) :
    preference = .shift := by
  rcases h with hunranked | hshift
  · exact absurd hp.ranked hunranked
  · exact hp.unique hshift

/-! ### The order of productions -/

theorem Before.trans {r'' : Nat} (h : a.Before s r r') (h' : a.Before s r' r'') :
    a.Before s r r'' := by
  obtain ⟨p, q, hp, hq, hlt⟩ := h
  obtain ⟨q', o, hq', ho, hlt'⟩ := h'
  obtain rfl : q = q' := Option.some.inj (hq.symm.trans hq')
  exact ⟨p, o, hp, ho, Nat.lt_trans hlt hlt'⟩

theorem Before.asymm (h : a.Before s r r') : ¬ a.Before s r' r := by
  intro h'
  obtain ⟨p, q, hp, hq, hlt⟩ := h.trans h'
  obtain rfl : p = q := Option.some.inj (hp.symm.trans hq)
  exact Nat.lt_irrefl _ hlt

/-- There is no more than one earliest reduce. -/
theorem Earliest.unique (h : a.Earliest s reduces r) (h' : a.Earliest s reduces r') : r = r' := by
  rcases h.2 r' h'.1 with heq | hbefore
  · exact heq.symm
  · rcases h'.2 r h.1 with heq | hbefore'
    · exact heq
    · exact absurd hbefore' hbefore.asymm

/-- One more reduce that comes before the earliest one. -/
theorem Earliest.concat_of_before (h : a.Earliest s reduces r') (hb : a.Before s r r') :
    a.Earliest s (reduces ++ [r]) r := by
  refine ⟨by simp, ?_⟩
  intro o ho
  rcases List.mem_append.1 ho with hold | hnew
  · rcases h.2 o hold with rfl | hbefore
    · exact Or.inr hb
    · exact Or.inr (hb.trans hbefore)
  · exact Or.inl (List.mem_singleton.1 hnew)

/-- One more reduce that does not come before the earliest one. -/
theorem Earliest.concat (h : a.Earliest s reduces r') (hb : r = r' ∨ a.Before s r' r) :
    a.Earliest s (reduces ++ [r]) r' := by
  refine ⟨List.mem_append_left _ h.1, ?_⟩
  intro o ho
  rcases List.mem_append.1 ho with hold | hnew
  · exact h.2 o hold
  · rw [List.mem_singleton.1 hnew]
    exact hb

/-! ### Interrupting a history -/

/-- Without a reduce nothing happens. -/
theorem History.nil_cases (h : a.History s t first [] last recorded) :
    last = first ∧ recorded = [] := by
  generalize hall : [] = all at h
  cases h with
  | nil => exact ⟨rfl, rfl⟩
  | concat => simp at hall

/-- The last reduce of a history. -/
theorem History.concat_cases (h : a.History s t first (reduces ++ [r]) last recorded) :
    ∃ held earlier more, a.History s t first reduces held earlier ∧ a.Entry s t r held last more ∧
      recorded = earlier ++ more := by
  generalize hall : reduces ++ [r] = all at h
  cases h with
  | nil => simp at hall
  | concat h he =>
    obtain ⟨rfl, hr⟩ := List.append_inj' hall rfl
    obtain rfl := List.singleton_inj.1 hr
    exact ⟨_, _, _, h, he, rfl⟩

/-- **A history goes on where it was interrupted**, with what the slot holds there. -/
theorem History.split {rest : List Nat} (h : a.History s t first (reduces ++ rest) last recorded) :
    ∃ held earlier later, a.History s t first reduces held earlier ∧
      a.History s t held rest last later ∧ recorded = earlier ++ later := by
  induction rest using List.reverseRecOn generalizing last recorded with
  | nil =>
    rw [List.append_nil] at h
    exact ⟨last, recorded, [], h, .nil, (List.append_nil _).symm⟩
  | append_singleton rest r ih =>
    rw [← List.append_assoc] at h
    obtain ⟨held, earlier, more, hshort, he, rfl⟩ := h.concat_cases
    obtain ⟨held', earlier', later, hfirst, hrest, rfl⟩ := ih hshort
    exact ⟨held', earlier', later ++ more, hfirst, hrest.concat he, List.append_assoc _ _ _⟩

/-- The first reduce of a history. -/
theorem History.cons_cases (h : a.History s t first (r :: reduces) last recorded) :
    ∃ held more later, a.Entry s t r first held more ∧ a.History s t held reduces last later ∧
      recorded = more ++ later := by
  have hwhole : a.History s t first ([] ++ [r] ++ reduces) last recorded := h
  obtain ⟨held, done, later, hone, hrest, rfl⟩ := hwhole.split
  obtain ⟨held', earlier, more, hnil, he, rfl⟩ := hone.concat_cases
  obtain ⟨rfl, rfl⟩ := hnil.nil_cases
  exact ⟨held, more, later, he, hrest, rfl⟩

/-! ### Reduces among themselves -/

/-- A reduce that finds another one in the slot: the earlier one of the two stays. -/
theorem Entry.of_reduce (hd : a.Distinct s) (h : a.Entry s t r (.reduce r') last recorded) :
    (last = .reduce r ∧ a.Before s r r' ∨ last = .reduce r' ∧ (r = r' ∨ a.Before s r' r)) ∧
      recorded.length = 1 ∧ ∀ c ∈ recorded, c.kind = .reduceReduce := by
  cases h with
  | earlier hp hq hlt => exact ⟨Or.inl ⟨rfl, _, _, hp, hq, hlt⟩, rfl, by simp⟩
  | later hp hq hle =>
    refine ⟨Or.inr ⟨rfl, ?_⟩, rfl, by simp⟩
    rcases Nat.lt_or_eq_of_le hle with hlt | heq
    · exact Or.inr ⟨_, _, hq, hp, hlt⟩
    · exact Or.inl (hd _ _ _ _ hp hq heq.symm)

/-- **Reduces among themselves**: the earliest one is in the slot in the end, and each of the others
has left a conflict on record. -/
theorem History.victor (hd : a.Distinct s) (h : a.History s t .reject reduces last recorded) :
    a.Victor s reduces last ∧ recorded.length = reduces.length - 1 ∧
      ∀ c ∈ recorded, c.kind = .reduceReduce := by
  induction h with
  | nil => exact ⟨Or.inl ⟨rfl, rfl⟩, rfl, by simp⟩
  | @concat reduces r held last recorded more _ he ih =>
    obtain ⟨hvictor, hlength, hkind⟩ := ih
    rcases hvictor with ⟨rfl, rfl⟩ | ⟨r', rfl, hearliest⟩
    · cases he with
      | vacant =>
        refine ⟨Or.inr ⟨r, rfl, by simp, ?_⟩, by simpa using hlength, by simpa using hkind⟩
        intro r' hr'
        exact Or.inl (by simpa using hr')
    · obtain ⟨hlast, hone, hkind'⟩ := he.of_reduce hd
      refine ⟨Or.inr ?_, ?_, ?_⟩
      · rcases hlast with ⟨rfl, hbefore⟩ | ⟨rfl, hbefore⟩
        · exact ⟨r, rfl, hearliest.concat_of_before hbefore⟩
        · exact ⟨r', rfl, hearliest.concat hbefore⟩
      · have hpos := List.length_pos_of_mem hearliest.1
        rw [List.length_append, List.length_append, List.length_singleton, hlength, hone]
        omega
      · intro c hc
        rcases List.mem_append.1 hc with hold | hnew
        · exact hkind c hold
        · exact hkind' c hnew

/-- A slot that holds a reduce is one that was empty when the reduce was entered. -/
theorem History.cons (h : a.History s t (.reduce r) reduces last recorded) :
    a.History s t .reject (r :: reduces) last recorded := by
  induction h with
  | nil => exact .concat .nil .vacant
  | concat _ he ih => exact .concat ih he

/-! ### Reduces against a shift -/

/-- The conflict that is recorded if a precedence is missing and so the shift stays. -/
def unrankedConflict (s t next r : Nat) : Conflict :=
  ⟨s, t, .shiftReduce, .shift next, .reduce r⟩

/-- A reduce that finds a shift in the slot. -/
theorem Entry.of_shift {next : Nat} (h : a.Entry s t r (.shift next) last recorded) :
    ¬ a.Ranked s t r ∧ last = .shift next ∧ recorded = [unrankedConflict s t next r] ∨
      ∃ preference, a.Prefers s t r preference ∧
        last = preference.outcome (.shift next) (.reduce r) ∧ recorded = [] := by
  cases h with
  | @ranked _ p preference hp hc => exact Or.inr ⟨preference, prefers_iff.2 ⟨p, hp, hc⟩, rfl, rfl⟩
  | @unranked _ p hp hc =>
    refine Or.inl ⟨?_, rfl, rfl⟩
    intro hranked
    obtain ⟨preference, hprefers⟩ := hranked.exists_prefers
    obtain ⟨q, hq, hc'⟩ := prefers_iff.1 hprefers
    obtain rfl : p = q := Option.some.inj (hp.symm.trans hq)
    rw [hc] at hc'
    cases hc'

/-- A reduce brings no shift into a slot. -/
theorem Entry.held_eq_shift {next : Nat} (h : a.Entry s t r held last recorded)
    (hlast : last = .shift next) : held = .shift next := by
  rcases h.last_cases with heq | heq | heq
  · exact heq.symm.trans hlast
  · cases heq.symm.trans hlast
  · cases heq.symm.trans hlast

/-- A shift stays in the slot just if the reduce defers to it, and then a missing precedence is
recorded. -/
theorem Entry.last_eq_shift_iff {next : Nat} (h : a.Entry s t r (.shift next) last recorded) :
    (last = .shift next ↔ a.Defers s t r) ∧
      (last = .shift next → recorded =
        ([r].filter fun r => ¬ a.Ranked s t r).map (unrankedConflict s t next)) := by
  rcases h.of_shift with ⟨hunranked, rfl, rfl⟩ | ⟨preference, hprefers, rfl, rfl⟩
  · refine ⟨iff_of_true rfl (Or.inl hunranked), fun _ => ?_⟩
    rw [List.filter_cons_of_pos (by simpa using hunranked)]
    rfl
  · refine ⟨?_, fun _ => ?_⟩
    · constructor
      · intro hlast
        cases preference with
        | shift => exact Or.inr hprefers
        | reduce => cases hlast
        | neither => cases hlast
      · intro hdefers
        rw [hdefers.eq_shift hprefers]
        rfl
    · rw [List.filter_cons_of_neg (by simpa using hprefers.ranked)]
      rfl

/-- **Reduces against a shift**: the shift is in the slot in the end just if all reduces defer to
it. -/
theorem History.last_eq_shift_iff {next : Nat}
    (h : a.History s t (.shift next) reduces last recorded) :
    last = .shift next ↔ ∀ r ∈ reduces, a.Defers s t r := by
  induction h with
  | nil => simp
  | @concat reduces r held last recorded more _ he ih =>
    rw [List.forall_mem_append, ← ih, List.forall_mem_singleton]
    constructor
    · intro hlast
      obtain rfl := he.held_eq_shift hlast
      exact ⟨rfl, he.last_eq_shift_iff.1.1 hlast⟩
    · rintro ⟨rfl, hdefers⟩
      exact he.last_eq_shift_iff.1.2 hdefers

/-- **What is recorded if a shift stays**: the reduces that precedences cannot decide about, in the
order in which they are entered. -/
theorem History.recorded_of_last_eq_shift {next : Nat}
    (h : a.History s t (.shift next) reduces last recorded) (hlast : last = .shift next) :
    recorded = (reduces.filter fun r => ¬ a.Ranked s t r).map (unrankedConflict s t next) := by
  induction h with
  | nil => rfl
  | @concat reduces r held last recorded more _ he ih =>
    have hheld := he.held_eq_shift hlast
    rw [hheld] at he
    rw [List.filter_append, List.map_append, ← ih hheld, ← he.last_eq_shift_iff.2 hlast]

/-! ### After the shift -/

variable {before after : List Nat} {next : Nat}

/-- **The first reduce that does not defer to the shift** finds the shift in the slot.  Those behind
it do not, and compete with what it leaves there. -/
theorem History.of_first (h : a.History s t (.shift next) (before ++ r :: after) last recorded)
    (hbefore : ∀ r' ∈ before, a.Defers s t r') (hr : a.Prefers s t r preference) :
    ∃ later, a.History s t (preference.outcome (.shift next) (.reduce r)) after last later := by
  obtain ⟨held, _, _, hfirst, hrest, -⟩ := h.split
  obtain rfl := hfirst.last_eq_shift_iff.2 hbefore
  obtain ⟨held', _, later, he, hafter, -⟩ := hrest.cons_cases
  rcases he.of_shift with ⟨hunranked, -, -⟩ | ⟨preference', hprefers, rfl, -⟩
  · exact absurd hr.ranked hunranked
  · rw [hr.unique hprefers]
    exact ⟨later, hafter⟩

/-- A reduce that replaces the shift competes with those behind it. -/
theorem History.victor_of_replaced (hd : a.Distinct s)
    (h : a.History s t (.shift next) (before ++ r :: after) last recorded)
    (hbefore : ∀ r' ∈ before, a.Defers s t r') (hr : a.Prefers s t r .reduce) :
    a.Victor s (r :: after) last := by
  obtain ⟨later, hafter⟩ := h.of_first hbefore hr
  exact (hafter.cons.victor hd).1

/-- If a reduce and the shift remove each other, those behind it compete for an empty slot. -/
theorem History.victor_of_removed (hd : a.Distinct s)
    (h : a.History s t (.shift next) (before ++ r :: after) last recorded)
    (hbefore : ∀ r' ∈ before, a.Defers s t r') (hr : a.Prefers s t r .neither) :
    a.Victor s after last := by
  obtain ⟨later, hafter⟩ := h.of_first hbefore hr
  exact (hafter.victor hd).1

end Automaton

namespace Grammar

open Automaton

variable {g : Grammar} {s t r : Nat} {state : State} {mode : Mode}

/-! ### The reduces of a state -/

/-- The item of an empty production is in no kernel: the dot of a kernel item has been moved. -/
theorem notMem_kernel_of_empty (hs : g.automaton.state? s = some state) {p : Production}
    (hp : p ∈ g.productions) {i : Nat} (hid : g.itemTable.itemId? p 0 = some i) :
    i ∉ state.kernel := by
  intro hi
  by_cases hne : s = initial
  · obtain ⟨first, hfirst, hkernel⟩ := g.state?_initial
    rw [hne] at hs
    obtain rfl : first = state := Option.some.inj (hfirst.symm.trans hs)
    rw [hkernel, IdSet.mem_singleton] at hi
    exact (itemId?_ne_augmenting hp hid).1 hi
  · obtain ⟨s', state', x, -, hs', hnext⟩ := exists_next?_eq hs hne
    rw [kernel_of_next? hs' hs hnext, mem_targetsOn_iff] at hi
    rcases mem_moves_iff.1 hi with ⟨-, -, haccept⟩ | ⟨q, hq, k, -, -, -, -, hid'⟩ |
      ⟨q, hq, -, -, hid'⟩
    · exact (itemId?_ne_augmenting hp hid).2 haccept
    · exact absurd (itemId?_inj hp hq hid hid').2 (by omega)
    · exact absurd (itemId?_inj hp hq hid hid').2 (by omega)

/-- No item is twice in a state. -/
theorem nodup_items_of_state? (hs : g.automaton.state? s = some state) : state.items.Nodup := by
  rw [State.items, empties_eq hs, List.nodup_append']
  refine ⟨state.kernel.nodup_toList, nodup_emptyItems _, ?_⟩
  intro i hi hempty
  obtain ⟨p, hp, -, -, hid⟩ := mem_emptyItems_iff.1 hempty
  exact notMem_kernel_of_empty hs hp hid hi

/-- **No two reduces of a state are by the same production.** -/
theorem reduces_distinct (hs : g.automaton.state? s = some state) : g.automaton.Distinct s := by
  intro r r' p q hp hq hseq
  obtain ⟨place, i, hplace, hi, hitem⟩ := (reduceProduction?_eq_some_iff hs).1 hp
  obtain ⟨place', i', hplace', hi', hitem'⟩ := (reduceProduction?_eq_some_iff hs).1 hq
  obtain ⟨hmem, hid⟩ := mem_productions_of_item? hitem
  obtain ⟨hmem', hid'⟩ := mem_productions_of_item? hitem'
  have hpq : g.production? p.seq = some q := by
    rw [hseq]
    exact g.production?_seq hmem'
  obtain rfl : p = q := Option.some.inj ((g.production?_seq hmem).symm.trans hpq)
  obtain rfl : i = i' := Option.some.inj (hid.symm.trans hid')
  obtain rfl : place = place' :=
    (List.getElem?_inj (List.getElem?_eq_some_iff.1 hi).1 (nodup_items_of_state? hs)).1
      (hi.trans hi'.symm)
  have hnodup : state.reduces.Nodup := by
    rw [reduces_eq hs]
    exact List.nodup_range.filter _
  exact (List.getElem?_inj (List.getElem?_eq_some_iff.1 hplace).1 hnodup).1
    (hplace.trans hplace'.symm)

/-! ### The slots -/

/-- There is nothing in a slot before the reduces if it gets neither a shift nor the accept
action. -/
theorem earlySlot_eq_reject (hs : g.automaton.state? s = some state) (ht : g.isTerminal t = true)
    (hshifts : g.automaton.shiftsOn state t = [])
    (haccept : ¬ (g.automaton.acceptsIn state = true ∧ t = g.endOfInput)) :
    g.earlySlot s t = .reject := by
  rw [shiftsOn_eq hs ht, Option.toList_eq_nil_iff] at hshifts
  unfold earlySlot
  rw [hshifts, hs, Option.any_some]
  exact if_neg (by simpa using haccept)

/-- **What the slots hold in the end** if contests are decided by precedence, and what is recorded.
Where there is neither a shift nor the accept action, the slot goes to the reduce whose production
comes first in the grammar, and is empty if there is none; all other reduces leave a conflict on
record.  A shift is in its slot just if no reduce is preferred to it, and none removes it; then the
reduces that precedences cannot decide about are on record, and no others. -/
theorem slot_resolved (g : Grammar) (mode : Mode) :
    ∃ T conflicts, g.automaton.tables? mode g.automaton.byPrecedence [] = some (T, conflicts) ∧
      ∀ s state t, g.automaton.state? s = some state → g.isTerminal t = true →
        (g.automaton.shiftsOn state t = [] →
          ¬ (g.automaton.acceptsIn state = true ∧ t = g.endOfInput) →
          (reducesOn (g.automaton.lookahead mode) s state t = [] ∧ T.slot? s t = some .reject ∨
            ∃ r, T.slot? s t = some (.reduce r) ∧ ∀ r', g.automaton.Earliest s
              (reducesOn (g.automaton.lookahead mode) s state t) r' ↔ r' = r) ∧
          (conflicts.filter (·.isAt s t)).length =
            (reducesOn (g.automaton.lookahead mode) s state t).length - 1 ∧
          ∀ c ∈ conflicts, c.isAt s t = true → c.kind = .reduceReduce) ∧
        ∀ next ∈ g.automaton.shiftsOn state t,
          (T.slot? s t = some (.shift next) ↔
            ∀ r ∈ reducesOn (g.automaton.lookahead mode) s state t,
              ¬ g.automaton.Ranked s t r ∨ g.automaton.Prefers s t r .shift) ∧
          (T.slot? s t = some (.shift next) →
            conflicts.filter (·.isAt s t) =
              ((reducesOn (g.automaton.lookahead mode) s state t).filter
                fun r => ¬ g.automaton.Ranked s t r).map
                  fun r => ⟨s, t, .shiftReduce, .shift next, .reduce r⟩) := by
  obtain ⟨T, conflicts, htables, hT⟩ := g.exists_chronicled_tables mode []
  refine ⟨T, conflicts, htables, ?_⟩
  intro s state t hs ht
  obtain ⟨action, hslot, hhistory⟩ := hT.slot hs ht
  rw [hslot]
  constructor
  · intro hshifts haccept
    rw [earlySlot_eq_reject hs ht hshifts haccept] at hhistory
    obtain ⟨hvictor, hlength, hkind⟩ := hhistory.victor (reduces_distinct hs)
    refine ⟨?_, hlength, fun c hc hat => hkind c (List.mem_filter.2 ⟨hc, hat⟩)⟩
    rcases hvictor with ⟨hnone, rfl⟩ | ⟨r, rfl, hearliest⟩
    · exact Or.inl ⟨hnone, rfl⟩
    · refine Or.inr ⟨r, rfl, fun r' => ?_⟩
      constructor
      · intro hr'
        exact hr'.unique hearliest
      · rintro rfl
        exact hearliest
  · intro next hnext
    rw [earlySlot_of_mem_shiftsOn hs ht hnext] at hhistory
    rw [Option.some.injEq]
    exact ⟨hhistory.last_eq_shift_iff, hhistory.recorded_of_last_eq_shift⟩

/-- Comparisons, each of which can be read in two ways, where `<` has the given precedence:
`S → S < S`, `S → A`, `S → x` and `A → S < S`. -/
def comparisons (precedence : Option Precedence) : Grammar :=
  ofWellFormed [⟨"S", none⟩, ⟨"A", none⟩, ⟨"<", precedence⟩, ⟨"x", none⟩, ⟨"$end", none⟩] 2
    [[⟨[0, 2, 0], none⟩, ⟨[1], none⟩, ⟨[3], none⟩], [⟨[0, 2, 0], none⟩]]
    ⟨by simp [maxSymbols], by simp, by simp, by simp, by simp, by simp⟩

/-- Behind `S < S` there are two reduces, by `S → S < S` and by `A → S < S`.  Without a precedence
both defer to the shift of `<`, and both are on record.  At the end of the input there is no shift,
and the reduce by `S → S < S` wins. -/
theorem slot_resolved_comparisons :
    ∃ T conflicts, (comparisons none).automaton.tables? .slr
        (comparisons none).automaton.byPrecedence [] = some (T, conflicts) ∧
      ∃ state, (comparisons none).automaton.state? 5 = some state ∧
        (4 ∈ (comparisons none).automaton.shiftsOn state 2 ∧
          T.slot? 5 2 = some (.shift 4) ∧
          conflicts.filter (·.isAt 5 2) =
            [⟨5, 2, .shiftReduce, .shift 4, .reduce 0⟩,
              ⟨5, 2, .shiftReduce, .shift 4, .reduce 1⟩]) ∧
        (comparisons none).automaton.shiftsOn state 4 = [] ∧
        (comparisons none).automaton.acceptsIn state = false ∧
        T.slot? 5 4 = some (.reduce 0) ∧
        (conflicts.filter (·.isAt 5 4)).length = 1 := by
  obtain ⟨T, conflicts, htables, hslots⟩ := slot_resolved (comparisons none) .slr
  have hvalues : ((comparisons none).automaton.state? 5).map (fun state =>
      ((comparisons none).automaton.shiftsOn state 2, (comparisons none).automaton.shiftsOn state 4,
        (comparisons none).automaton.acceptsIn state,
        reducesOn ((comparisons none).automaton.lookahead .slr) 5 state 2,
        reducesOn ((comparisons none).automaton.lookahead .slr) 5 state 4)) =
      some ([4], [], false, [0, 1], [0, 1]) := by
    decide +kernel
  obtain ⟨state, hs, hlists⟩ := Option.map_eq_some_iff.1 hvalues
  simp only [Prod.mk.injEq] at hlists
  obtain ⟨hshift, hnoShift, haccept, hon, hend⟩ := hlists
  have hunranked : ∀ r ∈ [0, 1], ¬ (comparisons none).automaton.Ranked 5 2 r := by
    decide +kernel
  obtain ⟨-, hless⟩ := hslots 5 state 2 hs (by decide)
  obtain ⟨hkept, hrecorded⟩ := hless 4 (by simp [hshift])
  rw [hon] at hkept hrecorded
  have hslot := hkept.2 fun r hr => Or.inl (hunranked r hr)
  have hfilter : [0, 1].filter (fun r => ¬ (comparisons none).automaton.Ranked 5 2 r) = [0, 1] :=
    List.filter_eq_self.2 fun r hr => by simpa using hunranked r hr
  have hlog := hrecorded hslot
  rw [hfilter] at hlog
  obtain ⟨hsettled, hlength, -⟩ := (hslots 5 state 4 hs (by decide)).1 hnoShift (by simp [haccept])
  rw [hend] at hsettled hlength
  have hfirst : (comparisons none).automaton.Earliest 5 [0, 1] 0 := by
    decide +kernel
  have hwins : T.slot? 5 4 = some (.reduce 0) := by
    rcases hsettled with ⟨hnone, -⟩ | ⟨r, hr, hearliest⟩
    · cases hnone
    · rw [hr, (hearliest 0).1 hfirst]
  exact ⟨T, conflicts, htables, state, hs, ⟨by simp [hshift], hslot, hlog⟩, hnoShift, haccept,
    hwins, hlength⟩

end Grammar

end SimpleLR
