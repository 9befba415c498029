import SimpleLR.Proofs.Analysis.Sets

/-!
# The sweep reaches the fixpoint of all nonterminals

A group of nonterminals is visited until a round changes nothing, and then never again.  Nothing in
the loop itself says when it ends, and nothing says that a group is still at rest when the groups
after it have been visited, all the more as visiting a nonterminal can add to the sets of others.
Both hold for the analyses of a grammar.  The loops end because facts only grow, and after the last
of them every nonterminal is calm, so that further visits of any nonterminals in any order find
nothing to do.

The facts found in this way are those that a single loop over all nonterminals finds.  The reason is
that both are least: a fact is added only if every solution has it, so two sets of facts that are
both calm everywhere are the same.  Marks for nonterminals that cannot have a property any more are
the exception.  Further visits may still give such marks, and only the nonterminals that have the
property are compared.

## Main Definitions

* `Analysis.Loop`, `Analysis.Loops` — the loop over one group without a bound on the rounds, and the
  loops over all groups
* `Analysis.Fixpoint` — what the facts are after the loops over all groups

## Main Statements

* `Analysis.Converges.loop_settle`, `Analysis.Converges.loops_sweep` — the loops end
* `Analysis.Converges.round_of_calm` — where everything is calm, visits find nothing to do
* `Analysis.Converges.fixpoint_sweep` — the sweep reaches the fixpoint of all nonterminals
* `Grammar.analyse_fixpoint` — so does each analysis of a grammar
-/

namespace SimpleLR

namespace Analysis

variable {φ ψ : Type}

/-! ### Loops without a bound -/

/-- The loop over a group, which goes on for as long as rounds report a change, ends after the given
number of rounds, with the given facts. -/
inductive Loop (update : Update φ) (group : List Nat) : φ → Nat → φ → Prop where
  /-- A round that reports no change is the last. -/
  | quiet {F : φ} : (round update group F).1 = false →
      Loop update group F 1 (round update group F).2
  /-- A round that reports a change is followed by another. -/
  | again {F F' : φ} {rounds : Nat} : (round update group F).1 = true →
      Loop update group (round update group F).2 rounds F' → Loop update group F (rounds + 1) F'

/-- The loops over the groups end one after the other, after the given numbers of rounds. -/
inductive Loops (update : Update φ) : List (List Nat) → φ → List Nat → φ → Prop where
  | nil {F : φ} : Loops update [] F [] F
  | cons {group : List Nat} {groups : List (List Nat)} {F F' F'' : φ} {rounds : Nat}
      {rest : List Nat} : Loop update group F rounds F' → Loops update groups F' rest F'' →
      Loops update (group :: groups) F (rounds :: rest) F''

/-- What `result` is after the loops over the groups, where `view` is what can be seen of the
facts. -/
structure Fixpoint (update : Update φ) (domain : Nat → Prop) (view : φ → ψ)
    (groups : List (List Nat)) (seed result : φ) : Prop where
  /-- The loop over each group ends. -/
  loops : ∃ rounds, Loops update groups seed rounds result
  /-- Further visits, however many and in whatever order, report no change and make none. -/
  rest : ∀ visits : List Nat, (∀ n ∈ visits, domain n) →
    (round update visits result).1 = false ∧ view (round update visits result).2 = view result
  /-- The loop over all nonterminals, in whatever order, ends as well. -/
  ends : ∀ all : List Nat, (∀ n, n ∈ all ↔ domain n) → ∃ rounds F, Loop update all seed rounds F
  /-- The loop over all nonterminals ends with the same facts. -/
  same : ∀ all : List Nat, (∀ n, n ∈ all ↔ domain n) →
    ∀ rounds F, Loop update all seed rounds F → view F = view result

namespace Converges

variable {update : Update φ} {domain : Nat → Prop} {Inv : φ → Prop} {amount : φ → Nat}
  {limit : Nat} {Calm : Nat → φ → Prop} (h : Converges update domain Inv amount limit Calm)

include h

/-- **The loop over a group ends**, and a bound on the rounds that exceeds the facts still to come
does not cut it short. -/
theorem loop_settle {group : List Nat} (hg : ∀ n ∈ group, domain n) (bound : Nat) {F : φ}
    (hF : Inv F) (hb : limit < amount F + bound) :
    Loop update group F (settle update group bound F).1 (settle update group bound F).2 := by
  induction bound generalizing F with
  | zero =>
    have hle := h.le_limit F hF
    omega
  | succ bound ih =>
    rw [settle]
    by_cases hr : (round update group F).1 = true
    · rw [if_pos hr]
      have hlt := h.amount_lt_round hg hF hr
      apply Loop.again hr
      exact ih (h.round_inv hg hF) (by omega)
    · rw [if_neg hr]
      exact Loop.quiet (by simpa using hr)

theorem loops_sweep {groups : List (List Nat)} (hg : ∀ group ∈ groups, ∀ n ∈ group, domain n)
    {bound : Nat} (hb : limit < bound) {F : φ} (hF : Inv F) :
    Loops update groups F (sweep update bound groups F).1 (sweep update bound groups F).2 := by
  induction groups generalizing F with
  | nil => exact Loops.nil
  | cons group groups ih =>
    obtain ⟨hgroup, hg⟩ := List.forall_mem_cons.1 hg
    exact Loops.cons (h.loop_settle hgroup bound hF (by omega))
      (ih hg (h.settle_inv hgroup bound hF))

/-- However long a loop takes, it keeps the invariant and leaves its group calm. -/
theorem calm_of_loop {group : List Nat} (hg : ∀ n ∈ group, domain n) {F F' : φ} {rounds : Nat}
    (hloop : Loop update group F rounds F') (hF : Inv F) :
    Inv F' ∧ ∀ n ∈ group, Calm n F' := by
  induction hloop with
  | quiet hr => exact ⟨h.round_inv hg hF, h.calm_round hg hF hr⟩
  | again _ _ ih => exact ih (h.round_inv hg hF)

/-- **Where everything is calm, visits find nothing to do**, if they find nothing to do for a
nonterminal that is calm. -/
theorem round_of_calm {view : φ → ψ}
    (hidle : ∀ n F, domain n → Inv F → Calm n F →
      (update n F).1 = false ∧ view (update n F).2 = view F)
    {F : φ} (hF : Inv F) (hcalm : ∀ n, domain n → Calm n F) {visits : List Nat}
    (hvisits : ∀ n ∈ visits, domain n) :
    (round update visits F).1 = false ∧ view (round update visits F).2 = view F := by
  induction visits generalizing F with
  | nil => exact ⟨rfl, rfl⟩
  | cons n visits ih =>
    obtain ⟨hn, hvisits⟩ := List.forall_mem_cons.1 hvisits
    obtain ⟨hreport, hview⟩ := hidle n F hn hF (hcalm n hn)
    -- a visit may still change what cannot be seen, but it disturbs no nonterminal
    have hcalm' : ∀ m, domain m → Calm m (update n F).2 :=
      fun m hm => h.calm_of_calm n m F hn hm hF hreport (hcalm m hm)
    obtain ⟨hrest, hsame⟩ := ih (h.inv n F hn hF) hcalm' hvisits
    rw [round, hreport, hrest]
    exact ⟨rfl, hsame.trans hview⟩

/-- **The sweep reaches the fixpoint of all nonterminals**, if no group is disturbed by those that
come after it and only one view is calm everywhere. -/
theorem fixpoint_sweep {view : φ → ψ}
    (hidle : ∀ n F, domain n → Inv F → Calm n F →
      (update n F).1 = false ∧ view (update n F).2 = view F)
    (hunique : ∀ F F', Inv F → (∀ n, domain n → Calm n F) → Inv F' →
      (∀ n, domain n → Calm n F') → view F = view F')
    {groups : List (List Nat)} (hcover : ∀ n, n ∈ groups.flatten ↔ domain n)
    (hd : groups.Pairwise fun group later =>
      ∀ n ∈ group, ∀ m ∈ later, Undisturbed update Inv Calm n m)
    {bound : Nat} (hb : limit < bound) {seed : φ} (hseed : Inv seed) :
    Fixpoint update domain view groups seed (sweep update bound groups seed).2 := by
  have hdomain : ∀ group ∈ groups, ∀ n ∈ group, domain n :=
    fun group hg n hn => (hcover n).1 (List.mem_flatten.2 ⟨group, hg, hn⟩)
  obtain ⟨hinv, hcalm⟩ := h.sweep_covering hcover hd hb hseed
  constructor
  case loops => exact ⟨_, h.loops_sweep hdomain hb hseed⟩
  case rest =>
    intro visits hvisits
    exact h.round_of_calm hidle hinv hcalm hvisits
  case ends =>
    intro all hall
    exact ⟨_, _, h.loop_settle (fun n hn => (hall n).1 hn) bound hseed (by omega)⟩
  case same =>
    intro all hall rounds F hloop
    obtain ⟨hF, hcalmF⟩ := h.calm_of_loop (fun n hn => (hall n).1 hn) hloop hseed
    exact hunique F _ hF (fun n hn => hcalmF n ((hall n).2 hn)) hinv hcalm

end Converges

end Analysis

/-! ### Families of sets -/

theorem Family.sets_eq_of_le {F G : Family} (hlen : F.sets.length = G.sets.length) (h : F.Le G)
    (h' : G.Le F) : F.sets = G.sets := by
  have hset : F.setOf = G.setOf := by
    funext n
    apply IdSet.ext_mem
    exact fun x => ⟨h n x, h' n x⟩
  rw [F.sets_eq_map_setOf, G.sets_eq_map_setOf, hlen, hset]

theorem enforceAll_of_holds {is : List Inclusion} {F : Family} (h : ∀ i ∈ is, i.Holds F) :
    enforceAll is F = (false, F) := by
  induction is with
  | nil => rfl
  | cons i is ih =>
    obtain ⟨hi, his⟩ := List.forall_mem_cons.1 h
    rw [enforceAll, Inclusion.enforce_of_holds hi, ih his]
    rfl

namespace InclusionSystem

variable {count : Nat} {inclusions : Nat → List Inclusion} {P : Nat → Nat → Prop} {bound : Nat}

/-- The members that the set of `n` has in every solution above `seed`. -/
def Necessary (count : Nat) (inclusions : Nat → List Inclusion) (seed : Family) (n x : Nat) :
    Prop :=
  ∀ G : Family, seed.Le G → (∀ m, m < count → Holds inclusions m G) → x ∈ G.setOf n

/-- Inclusions preserve being a necessary member. -/
theorem necessary (h : InclusionSystem count inclusions P bound) (seed : Family) :
    InclusionSystem count inclusions
      (fun n x => P n x ∧ Necessary count inclusions seed n x) bound where
  target_lt := h.target_lt
  these n hn i hi s hs x hx := by
    refine ⟨h.these n hn i hi s hs x hx, fun G _ hG => hG n hn i hi x ?_⟩
    rw [hs]
    exact hx
  passes n hn i hi m hm x hx := by
    refine ⟨h.passes n hn i hi m hm x hx.1, fun G hseed hG => hG n hn i hi x ?_⟩
    rw [hm]
    exact hx.2 G hseed hG
  lt_bound n x hx := h.lt_bound n x hx.1

/-- A solution without unnecessary members is included in every other. -/
theorem Between.le_of_necessary {seed F G : Family}
    (hF : Between count (fun n x => P n x ∧ Necessary count inclusions seed n x) seed F)
    (hG : seed.Le G) (hholds : ∀ n, n < count → Holds inclusions n G) : F.Le G :=
  fun n x hx => (hF.sound n x hx).2 G hG hholds

/-- One sweep finds what a loop over all nonterminals finds. -/
theorem fixpoint_sweep (h : InclusionSystem count inclusions P bound) {groups : List (List Nat)}
    (hcover : ∀ n, n ∈ groups.flatten ↔ n < count)
    (hd : groups.Pairwise fun group later => ∀ n ∈ group, ∀ m ∈ later,
      ∀ i ∈ inclusions n, ∀ j ∈ inclusions m, i.source ≠ .setOf j.target)
    {rounds : Nat} (hrounds : count * bound < rounds) {seed : Family}
    (hlen : seed.sets.length = count) (hseed : ∀ n, ∀ x ∈ seed.setOf n, P n x) :
    Analysis.Fixpoint (inclusionUpdate inclusions) (· < count) Family.sets groups seed
      (Analysis.sweep (inclusionUpdate inclusions) rounds groups seed).2 := by
  have hstart : Between count (fun n x => P n x ∧ Necessary count inclusions seed n x) seed seed :=
    ⟨hlen, .refl seed, fun n x hx => ⟨hseed n x hx, fun G hG _ => hG n x hx⟩⟩
  apply ((h.necessary seed).converges seed).fixpoint_sweep _ _ hcover
    ((h.necessary seed).pairwise_undisturbed hcover hd seed) hrounds hstart
  · intro n F _ _ hcalm
    rw [inclusionUpdate, enforceAll_of_holds hcalm]
    exact ⟨rfl, rfl⟩
  · intro F F' hF hcalm hF' hcalm'
    apply Family.sets_eq_of_le (hF.length.trans hF'.length.symm)
    · exact hF.le_of_necessary hF'.le hcalm'
    · exact hF'.le_of_necessary hF.le hcalm

end InclusionSystem

/-! ### Decisions -/

namespace Property

variable {g : Grammar} {onTerminals : Decision} {S : Nat → Prop} {ds : Decisions}

/-- The nonterminals that satisfy every predicate that right-hand sides pass on. -/
def Necessary (g : Grammar) (onTerminals : Decision) (n : Nat) : Prop :=
  ∀ S : Nat → Prop, PassedOn g onTerminals S → S n

theorem passedOn_necessary : PassedOn g onTerminals (Necessary g onTerminals) := by
  intro p hp hall S hS
  refine hS p hp fun x hx => (hall x hx).imp_left ?_
  rintro ⟨hn, hx⟩
  exact ⟨hn, hx S hS⟩

/-- When everything is calm, right-hand sides pass on being decided to have the property. -/
theorem Justified.passedOn_has (h : Justified g onTerminals S ds)
    (hcalm : ∀ n, n < g.numNonterminals → Calm g onTerminals n ds) :
    PassedOn g onTerminals fun n => has ds n = true := by
  intro p hp hall
  refine h.has_lhs hcalm hp fun x hx => ?_
  rcases hall x hx with ⟨hn, hhas⟩ | ⟨hn, hterminals⟩
  · exact (status_eq_iff hn (by simp)).2 (beq_iff_eq.1 hhas)
  · rw [status, if_neg (by simp [hn]), hterminals]

/-- When everything is calm, exactly the necessary nonterminals are decided to have the property. -/
theorem Justified.has_iff_necessary (h : Justified g onTerminals (Necessary g onTerminals) ds)
    (hcalm : ∀ n, n < g.numNonterminals → Calm g onTerminals n ds) (n : Nat) :
    has ds n = true ↔ Necessary g onTerminals n := by
  constructor
  · intro hn
    exact h.holds n (beq_iff_eq.1 hn)
  · intro hn
    exact hn _ (h.passedOn_has hcalm)

/-- A visit to a calm nonterminal gives it a mark at most. -/
theorem update_of_calm {n : Nat} (hcalm : Calm g onTerminals n ds) :
    (update g onTerminals n ds).1 = false ∧ has (update g onTerminals n ds).2 = has ds := by
  rcases update_eq g onTerminals n ds with ⟨he, -⟩ | ⟨hn, he⟩
  · rw [he]
    exact ⟨rfl, rfl⟩
  · have hverdict := hcalm hn
    rw [he]
    refine ⟨by simpa using hverdict, ?_⟩
    funext x
    by_cases hx : n = x
    · subst hx
      rw [has, has, List.getElem?_set_self (List.getElem?_eq_some_iff.1 hn).1, hn]
      simpa using hverdict
    · rw [has, has, List.getElem?_set_ne hx]

end Property

namespace Grammar

variable (g : Grammar)

/-- The decisions about nonterminals are those that a loop over all nonterminals comes to. -/
theorem fixpoint_decisions (onTerminals : Decision) :
    Analysis.Fixpoint (Property.update g onTerminals) (· < g.numNonterminals) Property.has
      g.components (List.replicate g.numNonterminals .undecided)
      (g.decisions onTerminals g.components).2 := by
  apply (Property.converges Property.passedOn_necessary).fixpoint_sweep _ _
    (fun n => g.mem_flatten_groups) (g.pairwise_undisturbed onTerminals _) (Nat.lt_succ_self _)
    (Property.justified_undecided g onTerminals)
  · intro n ds _ _ hcalm
    exact Property.update_of_calm hcalm
  · intro ds ds' hds hcalm hds' hcalm'
    funext x
    rw [Bool.eq_iff_iff, hds.has_iff_necessary hcalm, hds'.has_iff_necessary hcalm']

/-- **Each analysis of a grammar reaches the fixpoint of all nonterminals.**  The groups are visited
in dependency order for the nullable and the productive nonterminals, for left corners and first
sets, and in the opposite order for follow sets. -/
theorem analyse_fixpoint :
    Analysis.Fixpoint (Property.update g .fails) (· < g.numNonterminals) Property.has
        (Analysis.Order.bottomUp.arrange g.components)
        (List.replicate g.numNonterminals .undecided) g.analyse.nullable ∧
      Analysis.Fixpoint (Property.update g .holds) (· < g.numNonterminals) Property.has
        (Analysis.Order.bottomUp.arrange g.components)
        (List.replicate g.numNonterminals .undecided) g.analyse.productive ∧
      Analysis.Fixpoint (inclusionUpdate g.leftInclusions) (· < g.numNonterminals) Family.sets
        (Analysis.Order.bottomUp.arrange g.components)
        ⟨g.nonterminals.map IdSet.singleton⟩ g.analyse.left ∧
      Analysis.Fixpoint (inclusionUpdate (g.firstInclusions g.analyse.isNullable))
        (· < g.numNonterminals) Family.sets (Analysis.Order.bottomUp.arrange g.components)
        (Family.emptySets g.numNonterminals) g.analyse.first ∧
      Analysis.Fixpoint
        (inclusionUpdate (g.followInclusions g.analyse.isNullable g.analyse.first))
        (· < g.numNonterminals) Family.sets (Analysis.Order.topDown.arrange g.components)
        g.followSeed g.analyse.follow := by
  refine ⟨g.fixpoint_decisions .fails, g.fixpoint_decisions .holds, ?_, ?_, ?_⟩
  · apply g.leftSystem.fixpoint_sweep (fun n => g.mem_flatten_groups) g.pairwise_leftInclusions
      (Nat.lt_succ_self _) (by simp [nonterminals])
    intro n x hx
    exact g.leftCorner_of_mem_leftSeed hx
  · apply (g.firstSystem _).fixpoint_sweep (fun n => g.mem_flatten_groups)
      (g.pairwise_firstInclusions _) (Nat.lt_succ_self _) (by simp [Family.emptySets])
    intro n t ht
    exact absurd ht Family.not_mem_emptySets
  · apply g.followSystem.fixpoint_sweep (fun n => g.mem_flatten_reverse_groups)
      (g.pairwise_followInclusions _ _) (Nat.lt_succ_self _)
      (by simp [followSeed, Family.emptySets])
    intro n t ht
    exact g.of_mem_followSeed (P := fun _ t => g.isTerminal t = true) g.isTerminal_endOfInput ht

end Grammar

end SimpleLR
