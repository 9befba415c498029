import SimpleLR.Analysis.Iteration

/-!
# One sweep over the groups settles every nonterminal

Iteration ends because facts only grow and there is a limit to them, and it ends where a round
reports no change.  What such a round means depends on the facts, so it is a parameter here:
`Calm n` says that looking at `n` would add nothing.  A nonterminal is calm after an update that
reports no change, other updates that report none leave it so, and what matters for the order of the
groups is that updates of *later* groups leave it so even if they report a change.

## Main Statements

* `Analysis.Converges` — what an update has to satisfy
* `Analysis.settle_calm` — a group is calm after it has been settled
* `Analysis.sweep_calm`, `Analysis.sweep_covering` — all groups are calm after the sweep
-/

namespace SimpleLR.Analysis

variable {φ : Type}

/-- An update of the nonterminals in `domain` that keeps `Inv`, adds to the facts, of which there
are `limit` at most, when it reports a change, and leaves a nonterminal calm when it reports
none. -/
structure Converges (update : Update φ) (domain : Nat → Prop) (Inv : φ → Prop) (amount : φ → Nat)
    (limit : Nat) (Calm : Nat → φ → Prop) : Prop where
  inv : ∀ n F, domain n → Inv F → Inv (update n F).2
  amount_le : ∀ n F, domain n → Inv F → amount F ≤ amount (update n F).2
  amount_lt : ∀ n F, domain n → Inv F → (update n F).1 = true → amount F < amount (update n F).2
  le_limit : ∀ F, Inv F → amount F ≤ limit
  calm : ∀ n F, domain n → Inv F → (update n F).1 = false → Calm n (update n F).2
  calm_of_calm : ∀ m n F, domain m → domain n → Inv F → (update m F).1 = false → Calm n F →
    Calm n (update m F).2

/-- Updates of `m` never disturb `n`, whether they report a change or not. -/
def Undisturbed (update : Update φ) (Inv : φ → Prop) (Calm : Nat → φ → Prop) (n m : Nat) : Prop :=
  ∀ F, Inv F → Calm n F → Calm n (update m F).2

namespace Converges

variable {update : Update φ} {domain : Nat → Prop} {Inv : φ → Prop} {amount : φ → Nat}
  {limit : Nat} {Calm : Nat → φ → Prop} (h : Converges update domain Inv amount limit Calm)

include h

theorem round_inv {ns : List Nat} (hns : ∀ n ∈ ns, domain n) {F : φ} (hF : Inv F) :
    Inv (round update ns F).2 := by
  induction ns generalizing F with
  | nil => exact hF
  | cons n ns ih =>
    obtain ⟨hn, hns⟩ := List.forall_mem_cons.1 hns
    exact ih hns (h.inv n F hn hF)

theorem amount_le_round {ns : List Nat} (hns : ∀ n ∈ ns, domain n) {F : φ} (hF : Inv F) :
    amount F ≤ amount (round update ns F).2 := by
  induction ns generalizing F with
  | nil => exact Nat.le_refl _
  | cons n ns ih =>
    obtain ⟨hn, hns⟩ := List.forall_mem_cons.1 hns
    exact Nat.le_trans (h.amount_le n F hn hF) (ih hns (h.inv n F hn hF))

/-- A round that reports a change adds to the facts. -/
theorem amount_lt_round {ns : List Nat} (hns : ∀ n ∈ ns, domain n) {F : φ} (hF : Inv F)
    (hr : (round update ns F).1 = true) : amount F < amount (round update ns F).2 := by
  induction ns generalizing F with
  | nil => simp [round] at hr
  | cons n ns ih =>
    obtain ⟨hn, hns⟩ := List.forall_mem_cons.1 hns
    have hinv := h.inv n F hn hF
    rw [round, Bool.or_eq_true] at hr
    rcases hr with hr | hr
    · exact Nat.lt_of_lt_of_le (h.amount_lt n F hn hF hr) (h.amount_le_round hns hinv)
    · exact Nat.lt_of_le_of_lt (h.amount_le n F hn hF) (ih hns hinv hr)

/-- What is calm stays calm in a round that reports no change. -/
theorem calm_round_of_calm {ns : List Nat} (hns : ∀ n ∈ ns, domain n) {F : φ} (hF : Inv F)
    (hr : (round update ns F).1 = false) {m : Nat} (hm : domain m) (hc : Calm m F) :
    Calm m (round update ns F).2 := by
  induction ns generalizing F with
  | nil => exact hc
  | cons n ns ih =>
    obtain ⟨hn, hns⟩ := List.forall_mem_cons.1 hns
    rw [round, Bool.or_eq_false_iff] at hr
    exact ih hns (h.inv n F hn hF) hr.2 (h.calm_of_calm n m F hn hm hF hr.1 hc)

/-- A round that reports no change leaves all that it has visited calm. -/
theorem calm_round {ns : List Nat} (hns : ∀ n ∈ ns, domain n) {F : φ} (hF : Inv F)
    (hr : (round update ns F).1 = false) : ∀ n ∈ ns, Calm n (round update ns F).2 := by
  induction ns generalizing F with
  | nil => simp
  | cons n ns ih =>
    obtain ⟨hn, hns⟩ := List.forall_mem_cons.1 hns
    have hinv := h.inv n F hn hF
    rw [round, Bool.or_eq_false_iff] at hr
    refine List.forall_mem_cons.2 ⟨?_, ih hns hinv hr.2⟩
    exact h.calm_round_of_calm hns hinv hr.2 hn (h.calm n F hn hF hr.1)

theorem settle_inv {group : List Nat} (hg : ∀ n ∈ group, domain n) (bound : Nat) {F : φ}
    (hF : Inv F) : Inv (settle update group bound F).2 := by
  induction bound generalizing F with
  | zero => exact hF
  | succ bound ih =>
    have hinv := h.round_inv hg hF
    rw [settle]
    by_cases hr : (round update group F).1 = true
    · rw [if_pos hr]
      exact ih hinv
    · rw [if_neg hr]
      exact hinv

/-- **A settled group is calm**, if there are more rounds than facts still to come. -/
theorem settle_calm {group : List Nat} (hg : ∀ n ∈ group, domain n) {bound : Nat} {F : φ}
    (hF : Inv F) (hb : limit < amount F + bound) :
    ∀ n ∈ group, Calm n (settle update group bound F).2 := by
  induction bound generalizing F with
  | zero =>
    have := h.le_limit F hF
    omega
  | succ bound ih =>
    have hinv := h.round_inv hg hF
    rw [settle]
    by_cases hr : (round update group F).1 = true
    · rw [if_pos hr]
      -- the round has used up one of the facts still to come
      have hlt := h.amount_lt_round hg hF hr
      exact ih hinv (by omega)
    · rw [if_neg hr]
      exact h.calm_round hg hF (by simpa using hr)

omit h in
theorem round_undisturbed {ns : List Nat} (hinv : ∀ n ∈ ns, ∀ F, Inv F → Inv (update n F).2)
    {m : Nat} (hd : ∀ n ∈ ns, Undisturbed update Inv Calm m n) {F : φ} (hF : Inv F)
    (hc : Calm m F) : Calm m (round update ns F).2 := by
  induction ns generalizing F with
  | nil => exact hc
  | cons n ns ih =>
    obtain ⟨hn, hns⟩ := List.forall_mem_cons.1 hd
    obtain ⟨hi, his⟩ := List.forall_mem_cons.1 hinv
    exact ih his hns (hi F hF) (hn F hF hc)

theorem settle_undisturbed {group : List Nat} (hg : ∀ n ∈ group, domain n) {m : Nat}
    (hd : ∀ n ∈ group, Undisturbed update Inv Calm m n) (bound : Nat) {F : φ} (hF : Inv F)
    (hc : Calm m F) : Calm m (settle update group bound F).2 := by
  induction bound generalizing F with
  | zero => exact hc
  | succ bound ih =>
    have hinv := h.round_inv hg hF
    have hround : Calm m (round update group F).2 :=
      round_undisturbed (fun n hn F hF => h.inv n F (hg n hn) hF) hd hF hc
    rw [settle]
    by_cases hr : (round update group F).1 = true
    · rw [if_pos hr]
      exact ih hinv hround
    · rw [if_neg hr]
      exact hround

theorem sweep_inv {groups : List (List Nat)} (hg : ∀ group ∈ groups, ∀ n ∈ group, domain n)
    (bound : Nat) {F : φ} (hF : Inv F) : Inv (sweep update bound groups F).2 := by
  induction groups generalizing F with
  | nil => exact hF
  | cons group groups ih =>
    obtain ⟨hgroup, hg⟩ := List.forall_mem_cons.1 hg
    exact ih hg (h.settle_inv hgroup bound hF)

theorem sweep_undisturbed {groups : List (List Nat)}
    (hg : ∀ group ∈ groups, ∀ n ∈ group, domain n) {m : Nat}
    (hd : ∀ group ∈ groups, ∀ n ∈ group, Undisturbed update Inv Calm m n) (bound : Nat) {F : φ}
    (hF : Inv F) (hc : Calm m F) : Calm m (sweep update bound groups F).2 := by
  induction groups generalizing F with
  | nil => exact hc
  | cons group groups ih =>
    obtain ⟨hgroup, hg⟩ := List.forall_mem_cons.1 hg
    obtain ⟨hdgroup, hd⟩ := List.forall_mem_cons.1 hd
    exact ih hg hd (h.settle_inv hgroup bound hF)
      (h.settle_undisturbed hgroup hdgroup bound hF hc)

/-- **After the sweep everything is calm**, if no group is disturbed by those that come after it. -/
theorem sweep_calm {groups : List (List Nat)} (hg : ∀ group ∈ groups, ∀ n ∈ group, domain n)
    (hd : groups.Pairwise fun group later =>
      ∀ n ∈ group, ∀ m ∈ later, Undisturbed update Inv Calm n m)
    {bound : Nat} (hb : limit < bound) {F : φ} (hF : Inv F) :
    ∀ group ∈ groups, ∀ n ∈ group, Calm n (sweep update bound groups F).2 := by
  induction groups generalizing F with
  | nil => simp
  | cons group groups ih =>
    obtain ⟨hgroup, hg⟩ := List.forall_mem_cons.1 hg
    obtain ⟨hlater, hd⟩ := List.pairwise_cons.1 hd
    have hinv := h.settle_inv hgroup bound hF
    refine List.forall_mem_cons.2 ⟨fun n hn => ?_, ih hg hd hinv⟩
    have hcalm : Calm n (settle update group bound F).2 :=
      h.settle_calm hgroup hF (by omega) n hn
    exact h.sweep_undisturbed hg (fun later hl m hm => hlater later hl n hn m hm) bound hinv hcalm

/-- What holds after the sweep over groups that have all nonterminals among them. -/
theorem sweep_covering {groups : List (List Nat)} (hcover : ∀ n, n ∈ groups.flatten ↔ domain n)
    (hd : groups.Pairwise fun group later =>
      ∀ n ∈ group, ∀ m ∈ later, Undisturbed update Inv Calm n m)
    {bound : Nat} (hb : limit < bound) {F : φ} (hF : Inv F) :
    Inv (sweep update bound groups F).2 ∧
      ∀ n, domain n → Calm n (sweep update bound groups F).2 := by
  have hdomain : ∀ group ∈ groups, ∀ n ∈ group, domain n :=
    fun group hg n hn => (hcover n).1 (List.mem_flatten.2 ⟨group, hg, hn⟩)
  refine ⟨h.sweep_inv hdomain bound hF, fun n hn => ?_⟩
  obtain ⟨group, hg, hmem⟩ := List.mem_flatten.1 ((hcover n).2 hn)
  exact h.sweep_calm hdomain hd hb hF group hg n hmem

end Converges

end SimpleLR.Analysis
