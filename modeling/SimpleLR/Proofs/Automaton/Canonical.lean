import Mathlib.Logic.Relation
import SimpleLR.Grammar.Validation
import SimpleLR.Proofs.Automaton.Collection

/-!
# The canonical collection

The states can be found with a queue.  The kernel at the front of the queue is turned into a state,
and those of its successors that have not been met before get the next free numbers and go to the
end of the queue.  Exploring the kernels in the order of their numbers, as the automaton does, is
this loop without the queue: what is in the queue is always the part of the kernels met that has no
states yet.  So the loop ends because the exploration does, and the state that is made next always
has the number of the states made so far.

The closure of a kernel is described here by its items: those of the kernel, and the productions of
each nonterminal that comes next in one of them with the dot in front.  The automaton has no such
items, and looks up left corners instead.

## Main Definitions

* `Automaton.Worklist`, `Automaton.Worklist.next?` — the states made so far and the queue, and one
  turn of the loop
* `Grammar.InClosure`, `Grammar.MovesTo` — the items of a closure, and the items behind a symbol
* `Grammar.Canonical` — what kernel and transitions of a state satisfy

## Main Statements

* `Automaton.Worklist.Sound.next?`, `Automaton.Worklist.Sound.exists_done` — what one turn keeps,
  and the end of the loop
* `Grammar.inClosure_iff`, `Grammar.mem_moves_iff_movesTo` — left corners find the closure
* `Grammar.canonical_collection` — the states are the canonical collection
-/

namespace SimpleLR

namespace Automaton

/-! ### The loop with a queue -/

/-- The exploration under way. -/
structure Worklist where
  /-- The states that have been made. -/
  states : List State
  /-- The kernels that have been met, in the order of their numbers. -/
  cores : List Core
  /-- The kernels that have no state yet, each with its number. -/
  pending : List (Core × Nat)

namespace Worklist

/-- In the beginning the kernel of the initial state is in the queue. -/
def start : Worklist := ⟨[], [initialCore], [(initialCore, initial)]⟩

/-- Make the state of the first kernel in the queue, if there is one.  The kernels that are met by
it are numbered and go to the end of the queue. -/
def next? (g : Grammar) (w : Worklist) : Option Worklist :=
  match w.pending with
  | [] => none
  | (core, _) :: rest =>
    let r := expand g g.analyse.left g.itemTable w.cores core
    some ⟨w.states ++ [r.2], r.1, rest ++ (r.1.drop w.cores.length).zipIdx w.cores.length⟩

/-- The loop comes from `w` to `w'` in some number of turns. -/
def Leads (g : Grammar) : Worklist → Worklist → Prop :=
  Relation.ReflTransGen fun w w' => w.next? g = some w'

/-- What every turn keeps: the queue has the kernels without a state, and exploring from here on
makes the states that are still missing. -/
structure Sound (g : Grammar) (w : Worklist) : Prop where
  proper : Proper g 1 w.cores
  length_le : w.states.length ≤ w.cores.length
  pending : w.pending = (w.cores.drop w.states.length).zipIdx w.states.length
  rest : w.states ++ exploreFrom g g.analyse.left g.itemTable
    (2 ^ g.itemTable.size - w.states.length) w.states.length w.cores = g.automaton.states

variable {g : Grammar} {w w' : Worklist}

theorem sound_start (g : Grammar) : Sound g start where
  proper := g.proper_initial
  length_le := Nat.zero_le _
  pending := rfl
  rest := rfl

theorem Sound.length_cores_le (h : Sound g w) : w.cores.length ≤ 2 ^ g.itemTable.size :=
  length_le_two_pow h.proper.nodup h.proper.lt

/-- The kernel at the front of the queue has the number of the states made so far, and is the first
one that is explored from here on. -/
theorem Sound.front (h : Sound g w) {core : Core} {s : Nat} {rest : List (Core × Nat)}
    (hw : w.pending = (core, s) :: rest) :
    s = w.states.length ∧ w.cores[s]? = some core ∧ rest = (w.cores.drop (s + 1)).zipIdx (s + 1) ∧
      w.states ++ (expand g g.analyse.left g.itemTable w.cores core).2 ::
        exploreFrom g g.analyse.left g.itemTable (2 ^ g.itemTable.size - (s + 1)) (s + 1)
          (expand g g.analyse.left g.itemTable w.cores core).1 = g.automaton.states := by
  have hpending := h.pending
  rw [hw] at hpending
  rcases hdrop : w.cores.drop w.states.length with _ | ⟨first, tail⟩
  · rw [hdrop] at hpending
    cases hpending
  · rw [hdrop, List.zipIdx_cons] at hpending
    obtain ⟨hfirst, rfl⟩ := List.cons.inj hpending
    obtain ⟨rfl, rfl⟩ := Prod.mk.inj hfirst
    have hcore : w.cores[w.states.length]? = some core := by
      rw [← List.head?_drop, hdrop]
      rfl
    have htail : w.cores.drop (w.states.length + 1) = tail := by
      rw [← List.drop_drop, hdrop, List.drop_one, List.tail_cons]
    have hlt := (List.getElem?_eq_some_iff.1 hcore).1
    refine ⟨rfl, hcore, by rw [htail], ?_⟩
    -- there is room for one more state
    have hroom : 2 ^ g.itemTable.size - w.states.length =
        2 ^ g.itemTable.size - (w.states.length + 1) + 1 := by
      have := h.length_cores_le
      omega
    have hrest := h.rest
    rw [hroom, exploreFrom, hcore] at hrest
    exact hrest

/-- **What one turn keeps.** -/
theorem Sound.next? (h : Sound g w) (hw : w.next? g = some w') :
    Sound g w' ∧ w'.states.length = w.states.length + 1 := by
  unfold Worklist.next? at hw
  split at hw
  · cases hw
  · next core s rest hpending =>
    obtain ⟨rfl, hcore, rfl, hstates⟩ := h.front hpending
    obtain rfl := Option.some.inj hw
    have hlt := (List.getElem?_eq_some_iff.1 hcore).1
    obtain ⟨-, -, new, hnew, -⟩ := link_spec h.proper.nodup (g.successors core.kernel)
    have hcores : (expand g g.analyse.left g.itemTable w.cores core).1 = w.cores ++ new := hnew
    refine ⟨⟨?_, ?_, ?_, ?_⟩, List.length_append⟩
    · exact h.proper.link (List.mem_of_getElem? hcore)
    · show (w.states ++ [_]).length ≤ (expand _ _ _ _ _).1.length
      rw [hcores, List.length_append, List.length_append, List.length_singleton]
      omega
    · -- the queue without its front, and behind it the kernels that are new
      show _ ++ _ = ((expand _ _ _ _ _).1.drop (w.states ++ [_]).length).zipIdx
        (w.states ++ [_]).length
      rw [hcores, List.drop_left, List.length_append, List.length_singleton,
        List.drop_append_of_le_length hlt, List.zipIdx_append, List.length_drop,
        Nat.add_sub_cancel' hlt]
    · show (w.states ++ [_]) ++ exploreFrom _ _ _ (_ - (w.states ++ [_]).length)
        (w.states ++ [_]).length _ = _
      rw [List.length_append, List.length_singleton, List.append_assoc, List.singleton_append]
      exact hstates

theorem Sound.leads (h : Sound g w) (hw : Leads g w w') : Sound g w' := by
  induction hw with
  | refl => exact h
  | tail _ hnext ih => exact (ih.next? hnext).1

/-- When the queue is empty all states have been made. -/
theorem Sound.states_eq (h : Sound g w) (hw : w.pending = []) : w.states = g.automaton.states := by
  have hpending := h.pending
  rw [hw, eq_comm, List.zipIdx_eq_nil_iff, List.drop_eq_nil_iff] at hpending
  have hnone : exploreFrom g g.analyse.left g.itemTable
      (2 ^ g.itemTable.size - w.states.length) w.states.length w.cores = [] := by
    cases 2 ^ g.itemTable.size - w.states.length with
    | zero => rfl
    | succ bound => rw [exploreFrom, List.getElem?_eq_none hpending]
  have hrest := h.rest
  rwa [hnone, List.append_nil] at hrest

/-- **The loop ends.**  Every turn makes a state, and there are no more states than sets of
items. -/
theorem Sound.exists_done (h : Sound g w) : ∃ w', Leads g w w' ∧ w'.pending = [] := by
  induction hn : 2 ^ g.itemTable.size - w.states.length generalizing w with
  | zero =>
    refine ⟨w, .refl, ?_⟩
    have hle := h.length_cores_le
    rw [h.pending, List.zipIdx_eq_nil_iff, List.drop_eq_nil_iff]
    omega
  | succ n ih =>
    cases hw : w.next? g with
    | none =>
      refine ⟨w, .refl, ?_⟩
      unfold Worklist.next? at hw
      split at hw
      · assumption
      · cases hw
    | some w₁ =>
      obtain ⟨hsound, hlength⟩ := h.next? hw
      obtain ⟨w₂, hleads, hdone⟩ := ih hsound (by omega)
      exact ⟨w₂, .head hw hleads, hdone⟩

end Worklist

end Automaton

namespace Grammar

open Automaton

variable {g : Grammar} {kernel : IdSet}

/-! ### The closure by its items -/

/-- The symbol after a place of the dot, if the dot can be moved over it. -/
def ahead? (dot : Option Production × Nat) : Option Nat :=
  match dot.1 with
  | some p => p.rhs[dot.2]?
  | none => if dot.2 = 0 then some start else none

/-- The places of the dot in the closure of a kernel. -/
inductive InClosure (g : Grammar) (kernel : IdSet) : Option Production × Nat → Prop where
  /-- The items of the kernel are in its closure. -/
  | kernel {i : Nat} {item : Item} (hi : i ∈ kernel) (hitem : g.itemTable.item? i = some item) :
      InClosure g kernel (item.production, item.position)
  /-- Where a nonterminal comes next, any of its productions may begin. -/
  | begins {dot : Option Production × Nat} {p : Production} (hdot : InClosure g kernel dot)
      (hp : p ∈ g.productions) (hnext : ahead? dot = some p.lhs) : InClosure g kernel (some p, 0)

/-- The symbol `x` follows a dot in the closure of the kernel. -/
def Awaits (g : Grammar) (kernel : IdSet) (x : Nat) : Prop :=
  ∃ dot, g.InClosure kernel dot ∧ ahead? dot = some x

/-- The item `j` is obtained by moving the dot over `x` in the closure of the kernel. -/
def MovesTo (g : Grammar) (kernel : IdSet) (x j : Nat) : Prop :=
  ∃ production k, g.InClosure kernel (production, k) ∧ ahead? (production, k) = some x ∧
    g.itemTable.item? j = some ⟨j, production, k + 1⟩

theorem Awaits.of_expects {x : Nat} (h : g.Expects kernel x) : g.Awaits kernel x := by
  obtain ⟨i, hi, item, hitem, hx⟩ := h
  exact ⟨_, .kernel hi hitem, hx⟩

/-- What begins a right-hand side of a nonterminal that is awaited is awaited. -/
theorem Awaits.beginsWith {n m : Nat} (h : g.Awaits kernel n) (hm : g.BeginsWith n m) :
    g.Awaits kernel m := by
  obtain ⟨dot, hdot, hn⟩ := h
  obtain ⟨-, p, hp, rest, hr⟩ := hm
  obtain ⟨hmem, rfl⟩ := g.mem_productionsOf.1 hp
  exact ⟨_, .begins hdot hmem hn, by simp [ahead?, hr]⟩

theorem Awaits.leftCorner {n m : Nat} (h : g.Awaits kernel n) (hm : g.LeftCorner n m) :
    g.Awaits kernel m := by
  induction hm with
  | refl => exact h
  | tail _ hbegins ih => exact ih.beginsWith hbegins

/-- **Left corners find the closure**: its items are those of the kernel and the productions of the
nonterminals that may begin. -/
theorem inClosure_iff {production : Option Production} {k : Nat} :
    g.InClosure kernel (production, k) ↔
      (∃ i ∈ kernel, g.itemTable.item? i = some ⟨i, production, k⟩) ∨
      ∃ p ∈ g.productions, p.lhs ∈ g.closure kernel ∧ production = some p ∧ k = 0 := by
  constructor
  · intro h
    generalize hdot : (production, k) = dot at h
    induction h generalizing production k with
    | @kernel i item hi hitem =>
      obtain ⟨rfl, rfl⟩ := Prod.mk.inj hdot
      have hid := id_of_item? hitem
      subst hid
      exact Or.inl ⟨_, hi, hitem⟩
    | @begins dot p _ hp hnext ih =>
      obtain ⟨rfl, rfl⟩ := Prod.mk.inj hdot
      refine Or.inr ⟨p, hp, mem_closure_iff.2 ?_, rfl, rfl⟩
      have hlhs := g.isNonterminal_lhs hp
      rcases ih rfl with ⟨i, hi, hitem⟩ | ⟨q, hq, hclosure, hproduction, hk⟩
      · exact ⟨p.lhs, ⟨i, hi, _, hitem, hnext⟩, hlhs, .refl⟩
      · -- the production that awaits it begins with it
        obtain ⟨m, hm, hnonterminal, hcorner⟩ := mem_closure_iff.1 hclosure
        refine ⟨m, hm, hnonterminal, hcorner.tail ⟨hlhs, q, g.mem_productionsOf.2 ⟨hq, rfl⟩, ?_⟩⟩
        obtain ⟨production, k⟩ := dot
        obtain rfl : production = some q := hproduction
        obtain rfl : k = 0 := hk
        rcases hr : q.rhs with _ | ⟨x, rest⟩
        · simp [ahead?, hr] at hnext
        · obtain rfl : x = p.lhs := by simpa [ahead?, hr] using hnext
          exact ⟨rest, rfl⟩
  · rintro (⟨i, hi, hitem⟩ | ⟨p, hp, hclosure, rfl, rfl⟩)
    · exact .kernel hi hitem
    · obtain ⟨m, hm, -, hcorner⟩ := mem_closure_iff.1 hclosure
      obtain ⟨dot, hdot, hnext⟩ := (Awaits.of_expects hm).leftCorner hcorner
      exact .begins hdot hp hnext

/-- **The moves of a kernel** are those over the symbols that follow a dot in its closure. -/
theorem mem_moves_iff_movesTo {x j : Nat} :
    (x, j) ∈ g.moves kernel ↔ g.MovesTo kernel x j := by
  rw [mem_moves_iff]
  constructor
  · rintro (⟨hi, rfl, rfl⟩ | ⟨p, hp, k, i, hi, hid, hx, hj⟩ | ⟨p, hp, hclosure, ⟨rest, hr⟩, hj⟩)
    · exact ⟨none, 0, .kernel hi item?_start, rfl, item?_accept⟩
    · exact ⟨some p, k, .kernel hi (item?_of_itemId? hp hid), hx, item?_of_itemId? hp hj⟩
    · refine ⟨some p, 0, inClosure_iff.2 (Or.inr ⟨p, hp, hclosure, rfl, rfl⟩), ?_,
        item?_of_itemId? hp hj⟩
      simp [ahead?, hr]
  · rintro ⟨production, k, hdot, hx, hj⟩
    rcases inClosure_iff.1 hdot with ⟨i, hi, hitem⟩ | ⟨p, hp, hclosure, rfl, rfl⟩
    · cases production with
      | none =>
        -- of the two augmenting items only the first can be moved on
        obtain rfl : k = 0 := by
          by_contra hk
          simp [ahead?, hk] at hx
        rcases item?_cases hj with ⟨-, h⟩ | ⟨rfl, -⟩ | ⟨p, -, l, -, h⟩
        · simp at h
        · rcases item?_cases hitem with ⟨rfl, -⟩ | ⟨-, h⟩ | ⟨p, -, l, -, h⟩
          · exact Or.inl ⟨hi, (Option.some.inj hx).symm, rfl⟩
          · simp at h
          · simp at h
        · simp at h
      | some p =>
        obtain ⟨hp, hid⟩ := mem_productions_of_item? hitem
        exact Or.inr (Or.inl ⟨p, hp, k, i, hi, hid, hx, (mem_productions_of_item? hj).2⟩)
    · refine Or.inr (Or.inr ⟨p, hp, hclosure, ?_, (mem_productions_of_item? hj).2⟩)
      rcases hr : p.rhs with _ | ⟨y, rest⟩
      · simp [ahead?, hr] at hx
      · obtain rfl : y = x := by simpa [ahead?, hr] using hx
        exact ⟨rest, rfl⟩

theorem InClosure.mem_productions {p : Production} {k : Nat} (h : g.InClosure kernel (some p, k)) :
    p ∈ g.productions := by
  rcases inClosure_iff.1 h with ⟨i, -, hitem⟩ | ⟨q, hq, -, hproduction, -⟩
  · exact (mem_productions_of_item? hitem).1
  · exact Option.some.inj hproduction ▸ hq

/-- Whatever follows a dot can be moved over. -/
theorem awaits_iff {x : Nat} : g.Awaits kernel x ↔ ∃ j, g.MovesTo kernel x j := by
  constructor
  · rintro ⟨⟨_ | p, k⟩, hdot, hx⟩
    · obtain rfl : k = 0 := by
        by_contra hk
        simp [ahead?, hk] at hx
      exact ⟨acceptItem, none, 0, hdot, hx, item?_accept⟩
    · -- the place behind the symbol has an item
      have hlt : k < p.rhs.length := (List.getElem?_eq_some_iff.1 hx).1
      obtain ⟨j, hj⟩ := Option.isSome_iff_exists.1
        (itemId?_isSome_iff (g := g).2 (Or.inr ⟨Nat.le_add_left 1 k, hlt⟩))
      exact ⟨j, some p, k, hdot, hx, item?_of_itemId? hdot.mem_productions hj⟩
  · rintro ⟨j, production, k, hdot, hx, -⟩
    exact ⟨_, hdot, hx⟩

/-! ### The states -/

/-- Moving over `x` from a kernel leads to the state `next`: its entry is `x`, and its kernel has
the items that are moved to and no others. -/
def LeadsTo (g : Grammar) (kernel : IdSet) (x next : Nat) : Prop :=
  ∃ target, g.automaton.state? next = some target ∧ target.entry = some x ∧
    ∀ j, j ∈ target.kernel ↔ g.MovesTo kernel x j

/-- Those of the given states whose entry is `x`. -/
def enteredOn (g : Grammar) (x : Nat) (targets : List Nat) : List Nat :=
  targets.filter fun next => g.automaton.entryOf next == some x

/-- What holds of the state with number `s`. -/
structure Canonical (g : Grammar) (s : Nat) (state : State) : Prop where
  /-- The kernel has items. -/
  kernel_ne_nil : state.kernel.toList ≠ []
  /-- They are in strictly ascending order. -/
  ascending : state.kernel.toList.Pairwise (· < ·)
  /-- No other state has the same kernel. -/
  unique : ∀ s' state', g.automaton.state? s' = some state' → state'.kernel = state.kernel → s' = s
  /-- There is a transition into the state from one with a lower number, unless it is the initial
  state. -/
  reached : s ≠ initial → ∃ s' state', s' < s ∧ g.automaton.state? s' = some state' ∧
    s ∈ state'.shifts ++ state'.gotos
  /-- There is no transition into the initial state. -/
  initial_notMem : initial ∉ state.shifts ++ state.gotos
  /-- Every shift is on a terminal that follows a dot in the closure. -/
  shifts : ∀ next ∈ state.shifts, ∃ x, g.isTerminal x = true ∧ g.Awaits state.kernel x ∧
    g.LeadsTo state.kernel x next
  /-- Every goto is on a nonterminal that follows a dot in the closure. -/
  gotos : ∀ next ∈ state.gotos, ∃ x, g.isNonterminal x = true ∧ g.Awaits state.kernel x ∧
    g.LeadsTo state.kernel x next
  /-- There is one transition for each symbol that follows a dot: a shift if it is a terminal, and a
  goto, which is found when it is looked up, if it is a nonterminal. -/
  successor : ∀ x, g.Awaits state.kernel x → ∃ next, g.LeadsTo state.kernel x next ∧
    (g.isTerminal x = true ∧ g.enteredOn x state.shifts = [next] ∧ g.enteredOn x state.gotos = [] ∨
      g.isNonterminal x = true ∧ g.enteredOn x state.shifts = [] ∧
        g.enteredOn x state.gotos = [next] ∧ g.automaton.goto? s x = some (some next))

variable {s : Nat} {state : State} {ts : List (Nat × Nat)}

/-- Whatever follows a dot is a symbol of the grammar. -/
theorem Awaits.isTerminal_or {x : Nat} (h : g.Awaits kernel x) :
    g.isTerminal x = true ∨ g.isNonterminal x = true := by
  obtain ⟨⟨_ | p, k⟩, hdot, hx⟩ := h
  · have hstart : x = start := by
      by_contra hne
      by_cases hk : k = 0
      · exact hne (by simpa [ahead?, hk, eq_comm] using hx)
      · simp [ahead?, hk] at hx
    exact Or.inr (hstart ▸ g.isNonterminal_start)
  · have hmem : x ∈ p.rhs := List.mem_of_getElem? hx
    by_cases hn : g.isNonterminal x = true
    · exact Or.inr hn
    · exact Or.inl (g.isTerminal_of_mem_rhs hdot.mem_productions hmem (by simpa using hn))

namespace Transitions

variable (h : Transitions g state ts)

include h

theorem leadsTo {x next : Nat} (ht : (x, next) ∈ ts) : g.LeadsTo state.kernel x next := by
  obtain ⟨target, htarget, hentry, hkernel⟩ := h.target x next ht
  refine ⟨target, htarget, hentry, fun j => ?_⟩
  rw [hkernel, mem_targetsOn_iff, mem_moves_iff_movesTo]

theorem awaits {x next : Nat} (ht : (x, next) ∈ ts) : g.Awaits state.kernel x := by
  obtain ⟨j, hj⟩ := h.exists_move ht
  exact awaits_iff.2 ⟨j, mem_moves_iff_movesTo.1 hj⟩

theorem exists_of_awaits {x : Nat} (hx : g.Awaits state.kernel x) : ∃ next, (x, next) ∈ ts := by
  obtain ⟨j, hj⟩ := awaits_iff.1 hx
  exact h.exists_of_mem_moves (mem_moves_iff_movesTo.2 hj)

/-- The first augmenting item is never moved to, so no transition leads to the initial state. -/
theorem ne_initial {x next : Nat} (ht : (x, next) ∈ ts) : next ≠ initial := by
  rintro rfl
  obtain ⟨first, hfirst, hkernel⟩ := g.state?_initial
  obtain ⟨target, htarget, -, hk⟩ := h.target x initial ht
  obtain rfl : first = target := Option.some.inj (hfirst.symm.trans htarget)
  have hsuccessor : (x, first.kernel) ∈ g.successors state.kernel :=
    mem_successors_iff.2 ⟨h.exists_move ht, hk⟩
  apply startItem_notMem_of_mem_successors hsuccessor
  rw [hkernel, IdSet.mem_singleton]

theorem mem_shifts {next : Nat} (hnext : next ∈ state.shifts) :
    ∃ x, g.isTerminal x = true ∧ (x, next) ∈ ts := by
  rw [h.shifts, List.mem_map] at hnext
  obtain ⟨⟨x, _⟩, ht, rfl⟩ := hnext
  obtain ⟨hmem, hx⟩ := List.mem_filter.1 ht
  exact ⟨x, hx, hmem⟩

theorem mem_gotos {next : Nat} (hnext : next ∈ state.gotos) :
    ∃ x, g.isNonterminal x = true ∧ (x, next) ∈ ts := by
  rw [h.gotos, List.mem_map] at hnext
  obtain ⟨⟨x, _⟩, ht, rfl⟩ := hnext
  obtain ⟨hmem, hx⟩ := List.mem_filter.1 ht
  refine ⟨x, (h.awaits hmem).isTerminal_or.resolve_left ?_, hmem⟩
  simpa using hx

/-- Of the transitions the one on `x` is entered on `x`: a shift if `x` is a terminal, and a goto if
it is not. -/
theorem enteredOn_eq {x next : Nat} (ht : (x, next) ∈ ts) :
    g.enteredOn x state.shifts = (if g.isTerminal x = true then [next] else []) ∧
      g.enteredOn x state.gotos = if g.isTerminal x = true then [] else [next] := by
  have hunique := filter_eq_singleton h.nodup ht
  unfold enteredOn
  rw [h.shifts, h.gotos, h.filter_entry, h.filter_entry, hunique]
  by_cases hx : g.isTerminal x = true
  · simp [hx]
  · simp [hx]

end Transitions

/-- A kernel is not empty. -/
theorem kernel_ne_nil (hs : g.automaton.state? s = some state) : state.kernel.toList ≠ [] := by
  have hmem : ∃ i, i ∈ state.kernel := by
    by_cases hne : s = initial
    · obtain ⟨first, hfirst, hkernel⟩ := g.state?_initial
      obtain rfl : first = state := Option.some.inj (hfirst.symm.trans (hne ▸ hs))
      exact ⟨startItem, hkernel ▸ IdSet.mem_singleton.2 rfl⟩
    · -- a symbol was moved over to get here
      obtain ⟨s', state', x, -, hs', hnext⟩ := exists_next?_eq hs hne
      obtain ⟨j, hj⟩ := exists_move_of_next? hs' hnext
      exact ⟨j, kernel_of_next? hs' hs hnext ▸ mem_targetsOn_iff.2 hj⟩
  obtain ⟨i, hi⟩ := hmem
  exact List.ne_nil_of_mem hi

/-- A next state is the target of a transition. -/
theorem mem_transitions_of_next? (hs : g.automaton.state? s = some state) {x next : Nat}
    (hnext : g.automaton.next? s x = some next) : next ∈ state.shifts ++ state.gotos := by
  unfold next? at hnext
  rw [hs, Option.bind_some] at hnext
  exact List.mem_of_find?_eq_some hnext

/-- **The kernel and the transitions of a state.** -/
theorem canonical_of_state? (hs : g.automaton.state? s = some state) : g.Canonical s state := by
  obtain ⟨ts, h⟩ := exists_transitions hs
  refine ⟨kernel_ne_nil hs, state.kernel.ascending, fun s' state' hs' hk => kernel_inj hs' hs hk,
    fun hne => ?_, fun hmem => ?_, fun next hnext => ?_, fun next hnext => ?_, fun x hx => ?_⟩
  · obtain ⟨s', state', x, hlower, hs', hnext⟩ := exists_next?_eq hs hne
    exact ⟨s', state', hlower, hs', mem_transitions_of_next? hs' hnext⟩
  · rcases List.mem_append.1 hmem with hshift | hgoto
    · obtain ⟨x, -, ht⟩ := h.mem_shifts hshift
      exact h.ne_initial ht rfl
    · obtain ⟨x, -, ht⟩ := h.mem_gotos hgoto
      exact h.ne_initial ht rfl
  · obtain ⟨x, hx, ht⟩ := h.mem_shifts hnext
    exact ⟨x, hx, h.awaits ht, h.leadsTo ht⟩
  · obtain ⟨x, hx, ht⟩ := h.mem_gotos hnext
    exact ⟨x, hx, h.awaits ht, h.leadsTo ht⟩
  · obtain ⟨next, ht⟩ := h.exists_of_awaits hx
    obtain ⟨hshifts, hgotos⟩ := h.enteredOn_eq ht
    refine ⟨next, h.leadsTo ht, hx.isTerminal_or.imp (fun hterm => ?_) fun hn => ?_⟩
    · rw [if_pos hterm] at hshifts hgotos
      exact ⟨hterm, hshifts, hgotos⟩
    · have hterm := g.isTerminal_eq_false hn
      rw [hterm, if_neg Bool.false_ne_true] at hshifts hgotos
      refine ⟨hn, hshifts, hgotos, ?_⟩
      rw [goto?_eq hs hterm, (next?_eq_some_iff hs h).2 ht]

/-- **The states are the canonical collection.**  The loop with a queue ends, and the states are
those it has made.  The state that it makes next always has the number of the states made before.
Kernels and transitions are those of the canonical collection. -/
theorem canonical_collection (g : Grammar) :
    (∃ w, Worklist.Leads g .start w ∧ w.pending = [] ∧ w.states = g.automaton.states) ∧
      (∀ w core s rest, Worklist.Leads g .start w → w.pending = (core, s) :: rest →
        s = w.states.length ∧ ∃ state, g.automaton.state? s = some state ∧
          state.kernel = core.kernel ∧ state.entry = core.entry) ∧
      ∀ s state, g.automaton.state? s = some state → g.Canonical s state := by
  refine ⟨?_, fun w core s rest hw hpending => ?_, fun s state hs => canonical_of_state? hs⟩
  · obtain ⟨w, hw, hdone⟩ := (Worklist.sound_start g).exists_done
    exact ⟨w, hw, hdone, ((Worklist.sound_start g).leads hw).states_eq hdone⟩
  · obtain ⟨rfl, -, -, hstates⟩ := ((Worklist.sound_start g).leads hw).front hpending
    refine ⟨rfl, (expand g g.analyse.left g.itemTable w.cores core).2, ?_, rfl, rfl⟩
    rw [state?, ← hstates, List.getElem?_append_right (Nat.le_refl _), Nat.sub_self]
    rfl

/-- Sums of `x`: the productions `E := E + T`, `E := T` and `T := x`. -/
def sums : Grammar :=
  ofWellFormed [⟨"E", none⟩, ⟨"T", none⟩, ⟨"+", none⟩, ⟨"x", none⟩, ⟨"$end", none⟩] 2
    [[⟨[0, 2, 1], none⟩, ⟨[1], none⟩], [⟨[3], none⟩]]
    ⟨by decide, by decide, by decide, by decide, by decide, by decide⟩

/-- The terminal `x` leads to the same state from the initial state and from behind `E +`. -/
theorem canonical_collection_sums :
    (∃ w, Worklist.Leads sums .start w ∧ w.pending = [] ∧ w.states.length = 6) ∧
      ∃ first behind, sums.automaton.state? initial = some first ∧
        first.kernel = initialCore.kernel ∧ sums.automaton.state? 4 = some behind ∧
        first.shifts = [3] ∧ behind.shifts = [3] ∧ sums.LeadsTo first.kernel 3 3 ∧
        sums.LeadsTo behind.kernel 3 3 := by
  obtain ⟨⟨w, hw, hdone, hstates⟩, hnumbers, hcanonical⟩ := canonical_collection sums
  obtain ⟨-, first, hfirst, hkernel, -⟩ := hnumbers _ initialCore initial [] .refl rfl
  have hvalues : sums.automaton.states.length = 6 ∧
      (sums.automaton.state? initial).map (·.shifts) = some [3] ∧
      (sums.automaton.state? 4).map (·.shifts) = some [3] ∧
      sums.automaton.entryOf 3 = some 3 := by
    decide +kernel
  obtain ⟨hlength, hshifts, hbehind, hentry⟩ := hvalues
  rw [hfirst, Option.map_some, Option.some.injEq] at hshifts
  obtain ⟨behind, hs, hshifts'⟩ := Option.map_eq_some_iff.1 hbehind
  -- the entry of the state says what the symbol is
  have hleads : ∀ s state, sums.automaton.state? s = some state → state.shifts = [3] →
      sums.LeadsTo state.kernel 3 3 := by
    intro s state hs hshifts
    obtain ⟨x, -, -, target, htarget, hx, hmoves⟩ :=
      (hcanonical s state hs).shifts 3 (by rw [hshifts]; exact List.mem_singleton_self 3)
    rw [entryOf, htarget, Option.bind_some, hx, Option.some.injEq] at hentry
    subst hentry
    exact ⟨target, htarget, hx, hmoves⟩
  exact ⟨⟨w, hw, hdone, by rw [hstates, hlength]⟩, first, behind, hfirst, hkernel, hs, hshifts,
    hshifts', hleads _ _ hfirst hshifts, hleads _ _ hs hshifts'⟩

end Grammar

end SimpleLR
