import Mathlib.Data.List.Basic
import SimpleLR.Analysis.Property
import SimpleLR.Proofs.Analysis.Iteration
import SimpleLR.Proofs.Grammar.Dependency

/-!
# Properties through productions are decided exactly

A nonterminal is decided to have the property only if one of its right-hand sides has it, so
whatever right-hand sides pass on holds of all nonterminals decided that way.  In the other
direction, all symbols of a right-hand side have the property only if the left-hand side has been
decided to have it.  Here the marks for nonterminals that cannot have the property are in the way: a
marked nonterminal is never looked at again.  They do no harm because a mark is given only when
every right-hand side has a symbol that is decided not to have the property, and decisions are
final.

## Main Statements

* `Property.judge_eq_holds_iff`, `Property.verdict_eq_holds_iff` — what a judgement says
* `Grammar.decisions_sound` — decided nonterminals have what right-hand sides pass on
* `Grammar.decisions_complete` — nothing is left undecided that a right-hand side decides
-/

namespace SimpleLR

namespace Property

/-! ### Judgements -/

theorem judge_eq_holds_iff {statusOf : Nat → Decision} {xs : List Nat} :
    judge statusOf xs = .holds ↔ ∀ x ∈ xs, statusOf x = .holds := by
  induction xs with
  | nil => simp [judge]
  | cons x xs ih =>
    rw [judge, List.forall_mem_cons]
    rcases hx : statusOf x with _ | _ | _ <;> simp [ih]

/-- A right-hand side is blocked by a symbol that is decided not to have the property. -/
theorem exists_fails_of_judge {statusOf : Nat → Decision} {xs : List Nat}
    (h : judge statusOf xs = .fails) : ∃ x ∈ xs, statusOf x = .fails := by
  induction xs with
  | nil => simp [judge] at h
  | cons x xs ih =>
    rw [judge] at h
    rcases hx : statusOf x with _ | _ | _
    · simp [hx] at h
    · rw [hx] at h
      obtain ⟨y, hy, hf⟩ := ih h
      exact ⟨y, List.mem_cons_of_mem _ hy, hf⟩
    · exact ⟨x, List.mem_cons_self, hx⟩

theorem verdict_eq_holds_iff {statusOf : Nat → Decision} {ps : List Production} :
    verdict statusOf ps = .holds ↔ ∃ p ∈ ps, ∀ x ∈ p.rhs, statusOf x = .holds := by
  have hcontains : (ps.map fun p => judge statusOf p.rhs).contains .holds = true ↔
      ∃ p ∈ ps, ∀ x ∈ p.rhs, statusOf x = .holds := by
    rw [List.contains_iff_mem, List.mem_map]
    simp only [judge_eq_holds_iff]
  rw [verdict, ← hcontains]
  by_cases h : (ps.map fun p => judge statusOf p.rhs).contains .holds = true
  · rw [if_pos h]
    exact iff_of_true rfl h
  · rw [if_neg h]
    refine iff_of_false ?_ h
    split <;> simp

theorem exists_fails_of_verdict {statusOf : Nat → Decision} {ps : List Production}
    (h : verdict statusOf ps = .fails) : ∀ p ∈ ps, ∃ x ∈ p.rhs, statusOf x = .fails := by
  intro p hp
  refine exists_fails_of_judge ?_
  rw [verdict] at h
  split at h
  · simp at h
  · split at h
    · rename_i hall
      rw [List.all_eq_true] at hall
      simpa using hall _ (List.mem_map_of_mem hp)
    · simp at h

/-! ### Decisions are final -/

variable {g : Grammar} {onTerminals : Decision}

/-- What an update does: nothing, or it replaces an open decision by the verdict. -/
theorem update_eq (g : Grammar) (onTerminals : Decision) (n : Nat) (ds : Decisions) :
    update g onTerminals n ds = (false, ds) ∧ ds[n]? ≠ some .undecided ∨
      ds[n]? = some .undecided ∧ update g onTerminals n ds =
        (verdict (status g onTerminals ds) (g.productionsOf n) == .holds,
          ds.set n (verdict (status g onTerminals ds) (g.productionsOf n))) := by
  rw [update]
  split
  · rename_i h
    exact Or.inr ⟨h, rfl⟩
  · rename_i h
    exact Or.inl ⟨rfl, h⟩

/-- Replacing an open decision does not change the others. -/
theorem getElem?_set_of_decided {ds : Decisions} {n : Nat} (hn : ds[n]? = some .undecided)
    (d : Decision) {m : Nat} {e : Decision} (he : e ≠ .undecided) (hm : ds[m]? = some e) :
    (ds.set n d)[m]? = some e := by
  have hne : n ≠ m := by
    rintro rfl
    rw [hn] at hm
    exact he (Option.some.inj hm).symm
  rwa [List.getElem?_set_ne hne]

/-- What is known for certain about a nonterminal is what has been decided about it. -/
theorem status_eq_iff {ds : Decisions} {x : Nat} (hx : g.isNonterminal x = true) {d : Decision}
    (hd : d ≠ .undecided) : status g onTerminals ds x = d ↔ ds[x]? = some d := by
  rw [status, if_pos hx]
  rcases ds[x]? with _ | e
  · exact iff_of_false (fun h => hd h.symm) (by simp)
  · simp

theorem status_set_of_decided {ds : Decisions} {n : Nat} (hn : ds[n]? = some .undecided)
    (d : Decision) {x : Nat} {e : Decision} (he : e ≠ .undecided)
    (hx : status g onTerminals ds x = e) : status g onTerminals (ds.set n d) x = e := by
  by_cases hnt : g.isNonterminal x = true
  · rw [status_eq_iff hnt he] at hx ⊢
    exact getElem?_set_of_decided hn d he hx
  · rw [status, if_neg hnt] at hx ⊢
    exact hx

/-- A nonterminal has the property after an update only if it had it or was just given it. -/
theorem status_of_status_set {ds : Decisions} {n : Nat} {d : Decision} {x : Nat}
    (hx : status g onTerminals (ds.set n d) x = .holds) :
    status g onTerminals ds x = .holds ∨ x = n ∧ d = .holds := by
  rw [status] at hx ⊢
  by_cases hnt : g.isNonterminal x = true
  · rw [if_pos hnt] at hx ⊢
    by_cases hxn : n = x
    · subst hxn
      rw [List.getElem?_set_self'] at hx
      rcases hd : ds[n]? with _ | e
      · simp [hd] at hx
      · exact Or.inr ⟨rfl, by simpa [hd] using hx⟩
    · rw [List.getElem?_set_ne hxn] at hx
      exact Or.inl hx
  · rw [if_neg hnt] at hx ⊢
    exact Or.inl hx

/-! ### The invariant -/

/-- What holds of the decisions all the time, for a predicate `S` that right-hand sides pass on. -/
structure Justified (g : Grammar) (onTerminals : Decision) (S : Nat → Prop) (ds : Decisions) :
    Prop where
  length : ds.length = g.numNonterminals
  /-- Nonterminals decided to have the property satisfy the predicate. -/
  holds : ∀ n, ds[n]? = some .holds → S n
  /-- A mark is given only if every right-hand side is blocked for good. -/
  fails : ∀ n, ds[n]? = some .fails →
    ∀ p ∈ g.productionsOf n, ∃ x ∈ p.rhs, status g onTerminals ds x = .fails

/-- Right-hand sides pass the predicate on. -/
def PassedOn (g : Grammar) (onTerminals : Decision) (S : Nat → Prop) : Prop :=
  ∀ p ∈ g.productions,
    (∀ x ∈ p.rhs, g.isNonterminal x = true ∧ S x ∨
      g.isNonterminal x = false ∧ onTerminals = .holds) → S p.lhs

/-- Looking at the nonterminal would not decide that it has the property. -/
def Calm (g : Grammar) (onTerminals : Decision) (n : Nat) (ds : Decisions) : Prop :=
  ds[n]? = some .undecided → verdict (status g onTerminals ds) (g.productionsOf n) ≠ .holds

variable {S : Nat → Prop}

theorem Justified.status_holds {ds : Decisions} (h : Justified g onTerminals S ds) {x : Nat}
    (hx : status g onTerminals ds x = .holds) :
    g.isNonterminal x = true ∧ S x ∨ g.isNonterminal x = false ∧ onTerminals = .holds := by
  by_cases hnt : g.isNonterminal x = true
  · exact Or.inl ⟨hnt, h.holds x ((status_eq_iff hnt (by simp)).1 hx)⟩
  · rw [status, if_neg hnt] at hx
    exact Or.inr ⟨by simpa using hnt, hx⟩

/-- As long as nothing is decided there is nothing to justify. -/
theorem justified_undecided (g : Grammar) (onTerminals : Decision) :
    Justified g onTerminals S (List.replicate g.numNonterminals .undecided) := by
  refine ⟨List.length_replicate, ?_, ?_⟩ <;>
  · intro n hn
    rw [List.getElem?_replicate] at hn
    split at hn <;> simp at hn

theorem Justified.set (hS : PassedOn g onTerminals S) {ds : Decisions}
    (h : Justified g onTerminals S ds) {n : Nat} (hn : ds[n]? = some .undecided) :
    Justified g onTerminals S
      (ds.set n (verdict (status g onTerminals ds) (g.productionsOf n))) := by
  have hself : (ds.set n (verdict (status g onTerminals ds) (g.productionsOf n)))[n]? =
      some (verdict (status g onTerminals ds) (g.productionsOf n)) := by
    rw [List.getElem?_set_self (List.getElem?_eq_some_iff.1 hn).1]
  refine ⟨by rw [List.length_set, h.length], ?_, ?_⟩
  · intro m hm
    by_cases hmn : n = m
    · subst hmn
      rw [hself] at hm
      obtain ⟨p, hp, hall⟩ := verdict_eq_holds_iff.1 (Option.some.inj hm)
      have hmem := g.mem_productionsOf.1 hp
      rw [← hmem.2]
      exact hS p hmem.1 fun x hx => h.status_holds (hall x hx)
    · rw [List.getElem?_set_ne hmn] at hm
      exact h.holds m hm
  · -- what blocks a right-hand side has been decided, so it goes on blocking it
    intro m hm p hp
    have hblocked : ∃ x ∈ p.rhs, status g onTerminals ds x = .fails := by
      by_cases hmn : n = m
      · subst hmn
        rw [hself] at hm
        exact exists_fails_of_verdict (Option.some.inj hm) p hp
      · rw [List.getElem?_set_ne hmn] at hm
        exact h.fails m hm p hp
    obtain ⟨x, hx, hf⟩ := hblocked
    exact ⟨x, hx, status_set_of_decided hn _ (by simp) hf⟩

theorem Justified.update (hS : PassedOn g onTerminals S) {ds : Decisions}
    (h : Justified g onTerminals S ds) (n : Nat) :
    Justified g onTerminals S (update g onTerminals n ds).2 := by
  rcases update_eq g onTerminals n ds with ⟨he, -⟩ | ⟨hn, he⟩
  · rw [he]
    exact h
  · rw [he]
    exact h.set hS hn

/-! ### Convergence -/

/-- Only a verdict that is reported adds to the nonterminals with the property. -/
theorem count_set {ds : Decisions} {n : Nat} (hn : ds[n]? = some .undecided) (d : Decision) :
    (ds.set n d).count .holds = ds.count .holds + if d = .holds then 1 else 0 := by
  obtain ⟨hlt, he⟩ := List.getElem?_eq_some_iff.1 hn
  rw [List.count_set hlt, he]
  simp

theorem calm_set_of_calm {ds : Decisions} {m : Nat} (hm : ds[m]? = some .undecided) {d : Decision}
    {n : Nat} (hd : ∀ p ∈ g.productionsOf n, ∀ x ∈ p.rhs, ¬(x = m ∧ d = .holds))
    (hc : Calm g onTerminals n ds) : Calm g onTerminals n (ds.set m d) := by
  intro hn hv
  have hopen : ds[n]? = some .undecided := by
    by_cases hmn : m = n
    · exact hmn ▸ hm
    · rwa [List.getElem?_set_ne hmn] at hn
  obtain ⟨p, hp, hall⟩ := verdict_eq_holds_iff.1 hv
  refine hc hopen (verdict_eq_holds_iff.2 ⟨p, hp, fun x hx => ?_⟩)
  exact (status_of_status_set (hall x hx)).resolve_right (hd p hp x hx)

theorem converges (hS : PassedOn g onTerminals S) :
    Analysis.Converges (update g onTerminals) (· < g.numNonterminals)
      (Justified g onTerminals S) (List.count .holds) g.numNonterminals
      (Calm g onTerminals) where
  inv n ds _ h := h.update hS n
  amount_le n ds _ _ := by
    rcases update_eq g onTerminals n ds with ⟨he, -⟩ | ⟨hn, he⟩
    · rw [he]
    · rw [he, count_set hn]
      omega
  amount_lt n ds _ _ hr := by
    rcases update_eq g onTerminals n ds with ⟨he, -⟩ | ⟨hn, he⟩
    · rw [he] at hr
      simp at hr
    · rw [he] at hr ⊢
      rw [count_set hn, if_pos (by simpa using hr)]
      omega
  le_limit ds h := h.length ▸ List.count_le_length
  calm n ds _ _ hr := by
    rcases update_eq g onTerminals n ds with ⟨he, hn⟩ | ⟨hn, he⟩
    · rw [he]
      exact fun hopen => absurd hopen hn
    · rw [he] at hr ⊢
      have hv : verdict (status g onTerminals ds) (g.productionsOf n) ≠ .holds := by
        simpa using hr
      exact calm_set_of_calm hn (fun _ _ _ _ h => hv h.2) fun _ => hv
  calm_of_calm m n ds _ _ _ hr hc := by
    rcases update_eq g onTerminals m ds with ⟨he, -⟩ | ⟨hm, he⟩
    · rw [he]
      exact hc
    · rw [he] at hr ⊢
      have hv : verdict (status g onTerminals ds) (g.productionsOf m) ≠ .holds := by
        simpa using hr
      exact calm_set_of_calm hm (fun _ _ _ _ h => hv h.2) hc

/-- A nonterminal is not disturbed by one that it does not depend on. -/
theorem undisturbed {n m : Nat} (hm : g.isNonterminal m = true) (hd : m ∉ g.dependencies n) :
    Analysis.Undisturbed (update g onTerminals) (Justified g onTerminals S)
      (Calm g onTerminals) n m := by
  intro ds _ hc
  rcases update_eq g onTerminals m ds with ⟨he, -⟩ | ⟨hm', he⟩
  · rw [he]
    exact hc
  · rw [he]
    refine calm_set_of_calm hm' (fun p hp x hx hxm => hd ?_) hc
    exact g.mem_dependencies.2 ⟨hm, p, hp, hxm.1 ▸ hx⟩

/-- When everything is calm, a right-hand side all of whose symbols have the property has decided
that the left-hand side has it. -/
theorem Justified.has_lhs {ds : Decisions} (h : Justified g onTerminals S ds)
    (hcalm : ∀ n, n < g.numNonterminals → Calm g onTerminals n ds) {p : Production}
    (hp : p ∈ g.productions) (hall : ∀ x ∈ p.rhs, status g onTerminals ds x = .holds) :
    has ds p.lhs = true := by
  have hlhs := g.isNonterminal_iff.1 (g.isNonterminal_lhs hp)
  have hmem : p ∈ g.productionsOf p.lhs := g.mem_productionsOf.2 ⟨hp, rfl⟩
  obtain ⟨d, hd⟩ : ∃ d, ds[p.lhs]? = some d :=
    ⟨_, List.getElem?_eq_getElem (h.length ▸ hlhs)⟩
  rcases d with _ | _ | _
  · exact absurd (verdict_eq_holds_iff.2 ⟨p, hmem, hall⟩) (hcalm p.lhs hlhs hd)
  · simp [has, hd]
  · -- a mark would mean that the right-hand side is blocked
    obtain ⟨x, hx, hf⟩ := h.fails p.lhs hd p hmem
    rw [hall x hx] at hf
    simp at hf

end Property

namespace Grammar

open Property

variable (g : Grammar)

/-- No group is disturbed by those that come after it. -/
theorem pairwise_undisturbed (onTerminals : Decision) (S : Nat → Prop) :
    g.components.Pairwise fun group later => ∀ n ∈ group, ∀ m ∈ later,
      Analysis.Undisturbed (update g onTerminals) (Justified g onTerminals S)
        (Calm g onTerminals) n m := by
  refine g.pairwise_groups.imp_of_mem fun {group later} _ hlater h n hn m hm => ?_
  have hm' := g.mem_flatten_groups.1 (List.mem_flatten.2 ⟨later, hlater, hm⟩)
  exact undisturbed (g.isNonterminal_iff.2 hm') (h n hn m hm)

/-- The decisions after one sweep, for any predicate that right-hand sides pass on. -/
theorem decisions_spec (onTerminals : Decision) {S : Nat → Prop}
    (hS : PassedOn g onTerminals S) :
    Justified g onTerminals S (g.decisions onTerminals g.components).2 ∧
      ∀ n, n < g.numNonterminals →
        Calm g onTerminals n (g.decisions onTerminals g.components).2 := by
  exact (converges hS).sweep_covering (fun n => g.mem_flatten_groups)
    (g.pairwise_undisturbed onTerminals S) (Nat.lt_succ_self _) (justified_undecided g onTerminals)

/-- Only nonterminals are decided on. -/
theorem isNonterminal_of_decided {onTerminals d : Decision} {x : Nat}
    (h : (g.decisions onTerminals g.components).2[x]? = some d) : g.isNonterminal x = true := by
  have hlength := (g.decisions_spec onTerminals (S := fun _ => True) fun _ _ _ => trivial).1.length
  rw [isNonterminal_iff, ← hlength]
  exact (List.getElem?_eq_some_iff.1 h).1

/-- **Decisions are sound**: nonterminals decided to have the property satisfy every predicate that
right-hand sides pass on. -/
theorem decisions_sound {onTerminals : Decision} {S : Nat → Prop}
    (hS : PassedOn g onTerminals S) {n : Nat}
    (h : has (g.decisions onTerminals g.components).2 n = true) : S n :=
  (g.decisions_spec onTerminals hS).1.holds n (by simpa [has] using h)

/-- **Decisions are complete**: if all symbols of a right-hand side have the property, then the
left-hand side is decided to have it. -/
theorem decisions_complete {onTerminals : Decision} {p : Production} (hp : p ∈ g.productions)
    (h : ∀ x ∈ p.rhs,
      status g onTerminals (g.decisions onTerminals g.components).2 x = .holds) :
    has (g.decisions onTerminals g.components).2 p.lhs = true := by
  obtain ⟨hj, hcalm⟩ := g.decisions_spec onTerminals
    (S := fun _ => True) (fun _ _ _ => trivial)
  exact hj.has_lhs hcalm hp h

end Grammar

end SimpleLR
