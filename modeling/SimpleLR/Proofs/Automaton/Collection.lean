import Mathlib.Data.Finset.Powerset
import SimpleLR.Automaton.Path
import SimpleLR.Proofs.Automaton.Closure
import SimpleLR.Table.Candidates

/-!
# The collection of states is complete

Exploring the states meets kernels and numbers them.  A kernel that has been met keeps its number,
and no two numbers have the same kernel.  As there are no more kernels than sets of items, the bound
on the exploration is never reached: in the end every kernel that has been met has been turned into
a state, with all its transitions.

## Main Statements

* `Automaton.Linked`, `Automaton.link_spec` — transitions lead to the kernels behind the symbols
* `Automaton.exploreFrom_spec` — the states are those of all kernels that are met
* `Grammar.next?_spec`, `Grammar.exists_move_of_next?` — the next state on a symbol has the kernel
  that is moved to over it, and there is none if there is no such move
* `Grammar.kernel_inj`, `Grammar.exists_next?_eq` — states are told apart by their kernels, and all
  but the initial one are next states of states with lower numbers
* `Grammar.shiftsOn_eq`, `Grammar.goto?_eq` — shifts and gotos are the next states
-/

namespace SimpleLR

namespace Automaton

variable {g : Grammar}

/-! ### Counting kernels -/

/-- There are no more different kernels than sets of items. -/
theorem length_le_two_pow {cores : List Core} {size : Nat} (hn : (cores.map (·.kernel)).Nodup)
    (hb : ∀ core ∈ cores, ∀ i ∈ core.kernel, i < size) : cores.length ≤ 2 ^ size := by
  have hinj : ∀ s t : IdSet, s.toList.toFinset = t.toList.toFinset → s = t := by
    intro s t h
    refine IdSet.ext_mem fun z => ?_
    rw [IdSet.mem_def, IdSet.mem_def, ← List.mem_toFinset, h, List.mem_toFinset]
  have hnodup : ((cores.map (·.kernel)).map fun s => s.toList.toFinset).Nodup :=
    hn.map fun s t h => hinj s t h
  have hsub : ((cores.map (·.kernel)).map fun s => s.toList.toFinset).toFinset ⊆
      (Finset.range size).powerset := by
    intro S hS
    rw [List.mem_toFinset, List.map_map, List.mem_map] at hS
    obtain ⟨core, hcore, rfl⟩ := hS
    rw [Finset.mem_powerset]
    intro i hi
    exact Finset.mem_range.2 (hb core hcore i (List.mem_toFinset.1 hi))
  have hcard := Finset.card_le_card hsub
  rw [List.toFinset_card_of_nodup hnodup, Finset.card_powerset, Finset.card_range] at hcard
  simpa using hcard

/-! ### Linking successors -/

/-- Transitions on the symbols of the successors, to the numbers of their kernels. -/
def Linked (cores : List Core) : List (Nat × IdSet) → List (Nat × Nat) → Prop :=
  List.Forall₂ fun successor t =>
    successor.1 = t.1 ∧ ∃ core, cores[t.2]? = some core ∧ core.kernel = successor.2

/-- Kernels that have been met keep their numbers. -/
theorem Linked.mono {cores cores' : List Core} (h : cores <+: cores') {succs : List (Nat × IdSet)}
    {ts : List (Nat × Nat)} (hl : Linked cores succs ts) : Linked cores' succs ts := by
  obtain ⟨new, rfl⟩ := h
  refine List.Forall₂.imp ?_ hl
  rintro s t ⟨hx, core, hc, hk⟩
  refine ⟨hx, core, ?_, hk⟩
  rw [List.getElem?_append_left (List.getElem?_eq_some_iff.1 hc).1]
  exact hc

theorem Linked.map_fst {cores : List Core} {succs : List (Nat × IdSet)} {ts : List (Nat × Nat)}
    (h : Linked cores succs ts) : ts.map (·.1) = succs.map (·.1) := by
  induction h with
  | nil => rfl
  | cons hst _ ih => rw [List.map_cons, List.map_cons, ih, hst.1]

theorem Linked.exists_of_mem {cores : List Core} {succs : List (Nat × IdSet)}
    {ts : List (Nat × Nat)} (h : Linked cores succs ts) {x next : Nat} (ht : (x, next) ∈ ts) :
    ∃ core, cores[next]? = some core ∧ (x, core.kernel) ∈ succs := by
  induction h with
  | nil => simp at ht
  | @cons successor t succs ts hst _ ih =>
    rcases List.mem_cons.1 ht with rfl | ht
    · obtain ⟨hx, core, hc, hk⟩ := hst
      have he : successor = (x, core.kernel) := Prod.ext hx hk.symm
      exact ⟨core, hc, he ▸ List.mem_cons_self⟩
    · obtain ⟨core, hc, hk⟩ := ih ht
      exact ⟨core, hc, List.mem_cons_of_mem _ hk⟩

/-- Every new core is met on one of the symbols. -/
def Met (succs : List (Nat × IdSet)) (core : Core) : Prop :=
  ∃ x, core.entry = some x ∧ (x, core.kernel) ∈ succs

theorem link_spec {cores : List Core} (hn : (cores.map (·.kernel)).Nodup)
    (succs : List (Nat × IdSet)) :
    Linked (link cores succs).1 succs (link cores succs).2 ∧
      ((link cores succs).1.map (·.kernel)).Nodup ∧
      ∃ new, (link cores succs).1 = cores ++ new ∧ ∀ core ∈ new, Met succs core := by
  induction succs generalizing cores with
  | nil => exact ⟨.nil, hn, [], by simp [link], by simp⟩
  | cons s succs ih =>
    obtain ⟨x, kernel⟩ := s
    rw [link]
    split
    · -- the kernel has been met before
      rename_i found hfound
      obtain ⟨hlink, hnodup, new, hnew, hmet⟩ := ih hn
      obtain ⟨hlt, hk, -⟩ := List.findIdx?_eq_some_iff_getElem.1 hfound
      refine ⟨.cons ⟨rfl, cores[found], ?_, by simpa using hk⟩ hlink, hnodup, new, hnew, ?_⟩
      · rw [hnew, List.getElem?_append_left hlt, List.getElem?_eq_getElem hlt]
      · intro core hcore
        obtain ⟨y, hy, hm⟩ := hmet core hcore
        exact ⟨y, hy, List.mem_cons_of_mem _ hm⟩
    · rename_i hfound
      have hfresh : kernel ∉ cores.map (·.kernel) := by
        rw [List.findIdx?_eq_none_iff] at hfound
        rw [List.mem_map]
        rintro ⟨core, hcore, rfl⟩
        simpa using hfound core hcore
      have hn' : ((cores ++ [Core.mk kernel (some x)]).map (·.kernel)).Nodup := by
        rw [List.map_append, List.nodup_append_comm]
        exact List.nodup_cons.2 ⟨by simpa using hfresh, by simpa using hn⟩
      obtain ⟨hlink, hnodup, new, hnew, hmet⟩ := ih hn'
      rw [List.append_assoc, List.singleton_append] at hnew
      refine ⟨.cons ⟨rfl, ⟨kernel, some x⟩, ?_, rfl⟩ hlink, hnodup, _, hnew, ?_⟩
      · rw [hnew]
        simp
      · refine List.forall_mem_cons.2 ⟨⟨x, rfl, List.mem_cons_self⟩, fun core hcore => ?_⟩
        obtain ⟨y, hy, hm⟩ := hmet core hcore
        exact ⟨y, hy, List.mem_cons_of_mem _ hm⟩

/-! ### Exploring all kernels -/

/-- The state of a core, where `cores` are all cores. -/
structure Expanded (g : Grammar) (cores : List Core) (core : Core) (state : State) : Prop where
  kernel : state.kernel = core.kernel
  entry : state.entry = core.entry
  empties : state.empties = g.emptyItems core.kernel
  reduces : state.reduces = reducePlaces g.itemTable state.items
  transitions : ∃ ts, Linked cores (g.successors core.kernel) ts ∧
    state.shifts = (ts.filter fun t => g.isTerminal t.1).map (·.2) ∧
    state.gotos = (ts.filter fun t => !g.isTerminal t.1).map (·.2)

/-- All cores are different, have items of the grammar only, and from number `first` on are met as
successors of one with a lower number. -/
structure Proper (g : Grammar) (first : Nat) (cores : List Core) : Prop where
  nodup : (cores.map (·.kernel)).Nodup
  lt : ∀ core ∈ cores, ∀ i ∈ core.kernel, i < g.itemTable.size
  met : ∀ s core, first ≤ s → cores[s]? = some core →
    ∃ s' source, s' < s ∧ cores[s']? = some source ∧ Met (g.successors source.kernel) core

theorem Proper.link {cores : List Core} {first : Nat} (h : Proper g first cores) {core : Core}
    (hcore : core ∈ cores) :
    Proper g first (link cores (g.successors core.kernel)).1 := by
  obtain ⟨-, hnodup, new, hnew, hmet⟩ := link_spec h.nodup (g.successors core.kernel)
  refine ⟨hnodup, ?_, ?_⟩
  · rw [hnew]
    intro c hc i hi
    rcases List.mem_append.1 hc with hc | hc
    · exact h.lt c hc i hi
    · obtain ⟨x, -, hx⟩ := hmet c hc
      rw [(Grammar.mem_successors_iff.1 hx).2] at hi
      exact Grammar.lt_size_of_mem_moves (Grammar.mem_targetsOn_iff.1 hi)
  · rw [hnew]
    intro s c hs hc
    by_cases hlt : s < cores.length
    · rw [List.getElem?_append_left hlt] at hc
      obtain ⟨s', source, hs', hsource, hm⟩ := h.met s c hs hc
      exact ⟨s', source, hs', List.getElem?_append_left (hs'.trans hlt) ▸ hsource, hm⟩
    · -- a core that is new comes after all cores, also after the one whose successors are linked
      obtain ⟨s', hs'⟩ := List.mem_iff_getElem?.1 hcore
      have hlt' := (List.getElem?_eq_some_iff.1 hs').1
      rw [List.getElem?_append_right (Nat.le_of_not_lt hlt)] at hc
      exact ⟨s', core, hlt'.trans_le (Nat.le_of_not_lt hlt),
        List.getElem?_append_left hlt' ▸ hs', hmet c (List.mem_of_getElem? hc)⟩

/-- **Exploration is complete**: there are cores, among them those at the beginning, such that the
states are those of all these cores. -/
theorem exploreFrom_spec {first bound s : Nat} {cores : List Core} (h : Proper g first cores)
    (hs : s ≤ cores.length) (hb : 2 ^ g.itemTable.size ≤ bound + s) :
    ∃ all, cores <+: all ∧ Proper g first all ∧
      s + (exploreFrom g g.analyse.left g.itemTable bound s cores).length = all.length ∧
      ∀ i state, (exploreFrom g g.analyse.left g.itemTable bound s cores)[i]? = some state →
        ∃ core, all[s + i]? = some core ∧ Expanded g all core state := by
  induction bound generalizing s cores with
  | zero =>
    -- all kernels that there can be have been expanded
    have hle := length_le_two_pow h.nodup h.lt
    refine ⟨cores, List.prefix_rfl, h, ?_, by simp [exploreFrom]⟩
    rw [exploreFrom, List.length_nil]
    omega
  | succ bound ih =>
    rw [exploreFrom]
    split
    · rename_i hnone
      have hle := List.getElem?_eq_none_iff.1 hnone
      exact ⟨cores, List.prefix_rfl, h, by rw [List.length_nil]; omega, by simp⟩
    · rename_i core hcore
      have hmem := List.mem_of_getElem? hcore
      have hlt := (List.getElem?_eq_some_iff.1 hcore).1
      obtain ⟨hlink, -, new, hnew, -⟩ := link_spec h.nodup (g.successors core.kernel)
      have hprefix : cores <+: (link cores (g.successors core.kernel)).1 := ⟨new, hnew.symm⟩
      obtain ⟨all, hall, hproper, hlen, hstates⟩ := ih (h.link hmem) (s := s + 1)
        (Nat.le_trans hlt hprefix.length_le) (by omega)
      refine ⟨all, hprefix.trans hall, hproper, ?_, ?_⟩
      · rw [List.length_cons]
        have hlen' : s + 1 + (exploreFrom g g.analyse.left g.itemTable bound (s + 1)
            (expand g g.analyse.left g.itemTable cores core).1).length = all.length := hlen
        omega
      · intro i state hi
        cases i with
        | zero =>
          obtain rfl := Option.some.inj hi
          refine ⟨core, ?_, rfl, rfl, rfl, rfl, _, hlink.mono hall, rfl, rfl⟩
          obtain ⟨rest, rfl⟩ := hprefix.trans hall
          rw [Nat.add_zero, List.getElem?_append_left hlt]
          exact hcore
        | succ i =>
          obtain ⟨c, hc, he⟩ := hstates i state hi
          exact ⟨c, by rw [← hc]; congr 1; omega, he⟩

end Automaton

namespace Grammar

open Automaton

variable {g : Grammar}

/-! ### The automaton of a grammar -/

/-- At the beginning the kernel of the initial state has been met. -/
theorem proper_initial (g : Grammar) : Proper g 1 [initialCore] := by
  refine ⟨by simp, ?_, ?_⟩
  · intro core hcore i hi
    rw [List.mem_singleton.1 hcore, initialCore, IdSet.mem_singleton] at hi
    rw [hi]
    exact lt_size_of_item? item?_start
  · intro s core hs hc
    rw [List.getElem?_eq_none (by simpa using hs)] at hc
    simp at hc

theorem automaton_spec (g : Grammar) :
    ∃ cores, cores[initial]? = some initialCore ∧ Proper g 1 cores ∧
      g.automaton.states.length = cores.length ∧
      ∀ s state, g.automaton.state? s = some state →
        ∃ core, cores[s]? = some core ∧ Expanded g cores core state := by
  obtain ⟨all, ⟨rest, hall⟩, hproper, hlen, hstates⟩ :=
    @exploreFrom_spec g 1 (2 ^ g.itemTable.size) initial _ g.proper_initial (Nat.zero_le _)
      (Nat.le_refl _)
  refine ⟨all, ?_, hproper, by rw [← hlen, initial, Nat.zero_add]; rfl, fun s state hs => ?_⟩
  · rw [← hall]
    rfl
  · obtain ⟨core, hc, he⟩ := hstates s state hs
    exact ⟨core, by rw [← hc, initial, Nat.zero_add], he⟩

theorem state?_initial (g : Grammar) :
    ∃ state, g.automaton.state? initial = some state ∧
      state.kernel = IdSet.singleton startItem := by
  obtain ⟨cores, hc, -, hlen, hstates⟩ := g.automaton_spec
  have hlt : initial < g.automaton.states.length :=
    hlen ▸ (List.getElem?_eq_some_iff.1 hc).1
  obtain ⟨core, hcore, he⟩ := hstates initial _ (List.getElem?_eq_getElem hlt)
  obtain rfl : core = initialCore := Option.some.inj (hcore.symm.trans hc)
  exact ⟨_, List.getElem?_eq_getElem hlt, he.kernel⟩

theorem empties_eq {s : Nat} {state : State} (h : g.automaton.state? s = some state) :
    state.empties = g.emptyItems state.kernel := by
  obtain ⟨cores, -, -, -, hstates⟩ := g.automaton_spec
  obtain ⟨core, -, he⟩ := hstates s state h
  rw [he.empties, he.kernel]

theorem reduces_eq {s : Nat} {state : State} (h : g.automaton.state? s = some state) :
    state.reduces = reducePlaces g.itemTable state.items := by
  obtain ⟨cores, -, -, -, hstates⟩ := g.automaton_spec
  obtain ⟨core, -, he⟩ := hstates s state h
  exact he.reduces

/-- The transitions of a state: on each symbol that can be moved over one, to a state that has the
symbol as its entry and the kernel that is moved to. -/
structure Transitions (g : Grammar) (state : State) (ts : List (Nat × Nat)) : Prop where
  symbols : ts.map (·.1) = (g.successors state.kernel).map (·.1)
  shifts : state.shifts = (ts.filter fun t => g.isTerminal t.1).map (·.2)
  gotos : state.gotos = (ts.filter fun t => !g.isTerminal t.1).map (·.2)
  target : ∀ x next, (x, next) ∈ ts → ∃ state', g.automaton.state? next = some state' ∧
    state'.entry = some x ∧ state'.kernel = targetsOn (g.moves state.kernel) x

theorem exists_transitions {s : Nat} {state : State} (h : g.automaton.state? s = some state) :
    ∃ ts, Transitions g state ts := by
  obtain ⟨cores, hinit, hproper, hlen, hstates⟩ := g.automaton_spec
  obtain ⟨core, -, he⟩ := hstates s state h
  obtain ⟨ts, hlinked, hshifts, hgotos⟩ := he.transitions
  rw [← he.kernel] at hlinked
  refine ⟨ts, hlinked.map_fst, hshifts, hgotos, fun x next ht => ?_⟩
  obtain ⟨core', hcore', hsucc⟩ := hlinked.exists_of_mem ht
  have hlt : next < g.automaton.states.length := hlen ▸ (List.getElem?_eq_some_iff.1 hcore').1
  obtain ⟨_, hc, he'⟩ := hstates next _ (List.getElem?_eq_getElem hlt)
  obtain rfl := Option.some.inj (hc.symm.trans hcore')
  refine ⟨_, List.getElem?_eq_getElem hlt, ?_, ?_⟩
  · -- the core was first met on the same symbol, because its kernel determines the symbol
    have hnext : 1 ≤ next := by
      refine Nat.one_le_iff_ne_zero.2 fun hzero => ?_
      rw [hzero] at hcore'
      obtain rfl := Option.some.inj (hcore'.symm.trans hinit)
      exact startItem_notMem_of_mem_successors hsucc (IdSet.mem_singleton.2 rfl)
    obtain ⟨-, source, -, -, y, hy, hmet⟩ := hproper.met next _ hnext hcore'
    rw [he'.entry, hy, eq_of_mem_successors hmet hsucc]
  · rw [he'.kernel]
    exact (mem_successors_iff.1 hsucc).2

/-! ### The next state -/

/-- A list in which keys occur once has one entry for a key. -/
theorem filter_eq_singleton {ts : List (Nat × Nat)} (hn : (ts.map (·.1)).Nodup) {x next : Nat}
    (ht : (x, next) ∈ ts) : ts.filter (fun t => t.1 == x) = [(x, next)] := by
  induction ts with
  | nil => simp at ht
  | cons t ts ih =>
    rw [List.map_cons, List.nodup_cons] at hn
    rcases List.mem_cons.1 ht with rfl | ht
    · have hrest : ts.filter (fun t => t.1 == x) = [] := by
        rw [List.filter_eq_nil_iff]
        intro t' ht' hx
        exact hn.1 (List.mem_map.2 ⟨t', ht', by simpa using hx⟩)
      rw [List.filter_cons_of_pos (by simp), hrest]
    · have hne : t.1 ≠ x := by
        rintro rfl
        exact hn.1 (List.mem_map.2 ⟨(t.1, next), ht, rfl⟩)
      rw [List.filter_cons_of_neg (by simpa using hne), ih hn.2 ht]

namespace Transitions

variable {s : Nat} {state : State} {ts : List (Nat × Nat)} (h : Transitions g state ts)

include h

theorem nodup : (ts.map (·.1)).Nodup := h.symbols ▸ nodup_successors state.kernel

theorem entryOf {x next : Nat} (ht : (x, next) ∈ ts) :
    g.automaton.entryOf next = some x := by
  obtain ⟨state', hs, he, -⟩ := h.target x next ht
  rw [Automaton.entryOf, hs, Option.bind_some, he]

theorem exists_of_mem_moves {x j : Nat} (hj : (x, j) ∈ g.moves state.kernel) :
    ∃ next, (x, next) ∈ ts := by
  have hx : x ∈ ts.map (·.1) := by
    rw [h.symbols, List.mem_map]
    exact ⟨(x, targetsOn (g.moves state.kernel) x), mem_successors_iff.2 ⟨⟨j, hj⟩, rfl⟩, rfl⟩
  obtain ⟨t, ht, rfl⟩ := List.mem_map.1 hx
  exact ⟨t.2, ht⟩

theorem exists_move {x next : Nat} (ht : (x, next) ∈ ts) :
    ∃ j, (x, j) ∈ g.moves state.kernel := by
  have hx : x ∈ (g.successors state.kernel).map (·.1) :=
    h.symbols ▸ List.mem_map.2 ⟨(x, next), ht, rfl⟩
  obtain ⟨⟨y, target⟩, hy, rfl⟩ := List.mem_map.1 hx
  exact (mem_successors_iff.1 hy).1

/-- Filtering next states by their entry is filtering transitions by their symbol. -/
theorem filter_entry {p : Nat × Nat → Bool} {x : Nat} :
    ((ts.filter p).map (·.2)).filter (fun next => g.automaton.entryOf next == some x) =
      ((ts.filter fun t => t.1 == x).filter p).map (·.2) := by
  rw [List.filter_map, List.filter_filter, List.filter_filter]
  refine congrArg (List.map _) (List.filter_congr fun t ht => ?_)
  rw [Function.comp_apply, h.entryOf (x := t.1) ht, Bool.and_comm]
  simp

end Transitions

/-- The next state is the target of the transition on the symbol. -/
theorem next?_eq_some_iff {s : Nat} {state : State} (hs : g.automaton.state? s = some state)
    {ts : List (Nat × Nat)} (h : Transitions g state ts) {x next : Nat} :
    g.automaton.next? s x = some next ↔ (x, next) ∈ ts := by
  have hfind : g.automaton.next? s x = (state.shifts ++ state.gotos).find? fun next =>
      g.automaton.entryOf next == some x := by
    rw [next?, hs, Option.bind_some]
  rw [hfind]
  constructor
  · intro hn
    have hentry := List.find?_some hn
    have hmem := List.mem_of_find?_eq_some hn
    rw [h.shifts, h.gotos, ← List.map_append, List.mem_map] at hmem
    obtain ⟨⟨y, n⟩, hy, rfl⟩ := hmem
    have hy : (y, n) ∈ ts := by
      rcases List.mem_append.1 hy with hy | hy
      · exact (List.mem_filter.1 hy).1
      · exact (List.mem_filter.1 hy).1
    rw [h.entryOf hy] at hentry
    obtain rfl : y = x := by simpa using hentry
    exact hy
  · intro ht
    -- of all next states only this one has the entry `x`
    have hunique := filter_eq_singleton h.nodup ht
    have hfilter : (state.shifts ++ state.gotos).filter
        (fun next => g.automaton.entryOf next == some x) = [next] := by
      rw [List.filter_append, h.shifts, h.gotos, h.filter_entry, h.filter_entry, hunique]
      by_cases hx : g.isTerminal x = true
      · simp [hx]
      · simp [hx]
    rw [← List.head?_filter, hfilter]
    rfl

/-- **The next state** on a symbol that can be moved over has the kernel that is moved to. -/
theorem next?_spec {s : Nat} {state : State} (hs : g.automaton.state? s = some state) {x j : Nat}
    (hj : (x, j) ∈ g.moves state.kernel) :
    ∃ next state', g.automaton.next? s x = some next ∧ g.automaton.state? next = some state' ∧
      state'.kernel = targetsOn (g.moves state.kernel) x := by
  obtain ⟨ts, h⟩ := exists_transitions hs
  obtain ⟨next, ht⟩ := h.exists_of_mem_moves hj
  obtain ⟨state', hs', -, hk⟩ := h.target x next ht
  exact ⟨next, state', (next?_eq_some_iff hs h).2 ht, hs', hk⟩

theorem exists_move_of_next? {s : Nat} {state : State} (hs : g.automaton.state? s = some state)
    {x next : Nat} (hn : g.automaton.next? s x = some next) :
    ∃ j, (x, j) ∈ g.moves state.kernel := by
  obtain ⟨ts, h⟩ := exists_transitions hs
  exact h.exists_move ((next?_eq_some_iff hs h).1 hn)

/-- The next state has the kernel that is moved to. -/
theorem kernel_of_next? {s next x : Nat} {state state' : State}
    (hs : g.automaton.state? s = some state) (hs' : g.automaton.state? next = some state')
    (hn : g.automaton.next? s x = some next) :
    state'.kernel = targetsOn (g.moves state.kernel) x := by
  obtain ⟨j, hj⟩ := exists_move_of_next? hs hn
  obtain ⟨next', target, hn', htarget, hk⟩ := next?_spec hs hj
  obtain rfl : next' = next := Option.some.inj (hn'.symm.trans hn)
  obtain rfl : target = state' := Option.some.inj (htarget.symm.trans hs')
  exact hk

/-- No two states have the same kernel. -/
theorem kernel_inj {s s' : Nat} {state state' : State} (hs : g.automaton.state? s = some state)
    (hs' : g.automaton.state? s' = some state') (hk : state.kernel = state'.kernel) : s = s' := by
  obtain ⟨cores, -, hproper, -, hstates⟩ := g.automaton_spec
  obtain ⟨core, hc, he⟩ := hstates s state hs
  obtain ⟨core', hc', he'⟩ := hstates s' state' hs'
  have hlt := (List.getElem?_eq_some_iff.1 hc).1
  refine (List.getElem?_inj (by simpa using hlt) hproper.nodup).1 ?_
  rw [List.getElem?_map, List.getElem?_map, hc, hc', Option.map_some, Option.map_some, ← he.kernel,
    ← he'.kernel, hk]

/-- Every state is the next state of one with a lower number, unless it is the initial one. -/
theorem exists_next?_eq {s : Nat} {state : State} (hs : g.automaton.state? s = some state)
    (hne : s ≠ initial) :
    ∃ s' state' x, s' < s ∧ g.automaton.state? s' = some state' ∧
      g.automaton.next? s' x = some s := by
  obtain ⟨cores, -, hproper, hlen, hstates⟩ := g.automaton_spec
  obtain ⟨core, hc, he⟩ := hstates s state hs
  obtain ⟨s', source, hlower, hs', x, -, hmet⟩ :=
    hproper.met s core (Nat.one_le_iff_ne_zero.2 hne) hc
  obtain ⟨⟨j, hj⟩, htarget⟩ := mem_successors_iff.1 hmet
  -- the source is the core of a state, and the kernel that is moved to is that of `s`
  have hlt : s' < g.automaton.states.length := hlen ▸ (List.getElem?_eq_some_iff.1 hs').1
  have hstate' := List.getElem?_eq_getElem hlt
  obtain ⟨core', hc', he'⟩ := hstates s' _ hstate'
  obtain rfl : core' = source := Option.some.inj (hc'.symm.trans hs')
  rw [← he'.kernel] at hj htarget
  obtain ⟨next, state'', hnext, hs'', hk⟩ := next?_spec hstate' hj
  obtain rfl := kernel_inj hs'' hs (by rw [hk, he.kernel, htarget])
  exact ⟨s', _, x, hlower, hstate', hnext⟩

/-- The shift on a terminal is the next state. -/
theorem shiftsOn_eq {s : Nat} {state : State} (hs : g.automaton.state? s = some state) {x : Nat}
    (hx : g.isTerminal x = true) :
    g.automaton.shiftsOn state x = (g.automaton.next? s x).toList := by
  obtain ⟨ts, h⟩ := exists_transitions hs
  rw [shiftsOn, h.shifts, h.filter_entry]
  rcases hn : g.automaton.next? s x with _ | next
  · have hnone : (ts.filter fun t => t.1 == x) = [] := by
      rw [List.filter_eq_nil_iff]
      rintro ⟨y, n⟩ ht hy
      obtain rfl : y = x := by simpa using hy
      rw [(next?_eq_some_iff hs h).2 ht] at hn
      simp at hn
    rw [hnone]
    rfl
  · rw [filter_eq_singleton h.nodup ((next?_eq_some_iff hs h).1 hn)]
    simp [hx]

/-- The goto on a nonterminal is the next state. -/
theorem goto?_eq {s : Nat} {state : State} (hs : g.automaton.state? s = some state) {x : Nat}
    (hx : g.isTerminal x = false) :
    g.automaton.goto? s x = some (g.automaton.next? s x) := by
  obtain ⟨ts, h⟩ := exists_transitions hs
  have hshifts : state.shifts.find? (fun next => g.automaton.entryOf next == some x) = none := by
    rw [List.find?_eq_none, h.shifts]
    intro next hnext hentry
    obtain ⟨⟨y, n⟩, ht, rfl⟩ := List.mem_map.1 hnext
    obtain ⟨ht, hy⟩ := List.mem_filter.1 ht
    rw [h.entryOf ht] at hentry
    obtain rfl : y = x := by simpa using hentry
    simp [hx] at hy
  rw [goto?, next?, hs, Option.map_some, Option.bind_some, List.find?_append, hshifts,
    Option.none_or]

end Grammar

end SimpleLR
