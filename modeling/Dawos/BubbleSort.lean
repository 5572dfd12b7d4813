import Mathlib

/-! # Bubble sort

The sort of a sequence `s : ℕ → α` by a key in a linear order, pass by pass.  `bubblePass key s k`
makes the first `k` comparisons of a pass and tells whether one of them made an exchange;
`bubblePasses` makes shorter and shorter passes and ends with the first pass without an exchange.

* `bubblePass_stable`, `bubblePasses_stable`: the cells are permuted, and cells with equal keys
  keep their order;
* `bubblePasses_sorted`: the result is sorted. -/

namespace Dawos

variable {α κ : Type} {key : α → κ} {s t r : ℕ → α} {i j k n count : ℕ}

/-- Exchange the cells `i` and `i + 1`. -/
def swapNext (s : ℕ → α) (i : ℕ) : ℕ → α := fun j =>
  s (if j = i then i + 1 else if j = i + 1 then i else j)

/-! ### Stability -/

/-- `t` has the first `n` cells of `s`, permuted so that cells with equal keys keep their
order, and is `s` elsewhere. -/
structure StablePerm (key : α → κ) (n : ℕ) (s t : ℕ → α) : Prop where
  perm : ∃ σ : Equiv.Perm (Fin n), (∀ i : Fin n, t (σ i) = s i) ∧
    ∀ i j : Fin n, i < j → key (s i) = key (s j) → σ i < σ j
  off : ∀ i, n ≤ i → t i = s i

theorem StablePerm.refl (key : α → κ) (n : ℕ) (s : ℕ → α) : StablePerm key n s s :=
  ⟨⟨1, fun _ => rfl, fun _ _ h _ => h⟩, fun _ _ => rfl⟩

theorem StablePerm.trans (h : StablePerm key n s t) (h' : StablePerm key n t r) :
    StablePerm key n s r := by
  obtain ⟨σ, hσ, hs⟩ := h.perm
  obtain ⟨τ, hτ, ht⟩ := h'.perm
  refine ⟨⟨σ.trans τ, fun i => ?_, fun i j hij he => ?_⟩, fun i hi => ?_⟩
  · rw [Equiv.trans_apply, hτ, hσ]
  · rw [Equiv.trans_apply, Equiv.trans_apply]
    apply ht _ _ (hs i j hij he)
    rw [hσ, hσ, he]
  · rw [h'.off i hi, h.off i hi]

/-- A cell of the result is a cell of the original, on the same side of `n`. -/
theorem StablePerm.origin (h : StablePerm key n s t) (hi : i < n) : ∃ j < n, t i = s j := by
  obtain ⟨σ, hσ, -⟩ := h.perm
  refine ⟨σ.symm ⟨i, hi⟩, (σ.symm ⟨i, hi⟩).isLt, ?_⟩
  rw [← hσ, Equiv.apply_symm_apply]

/-! ### The sort -/

variable [LinearOrder κ]

/-- The first `k` steps of a pass: the sequence, and whether there was an exchange. -/
def bubblePass (key : α → κ) (s : ℕ → α) : ℕ → (ℕ → α) × Bool
  | 0 => (s, false)
  | i + 1 =>
      let r := bubblePass key s i
      if key (r.1 (i + 1)) < key (r.1 i) then (swapNext r.1 i, true) else r

/-- The passes, until one makes no exchange. -/
def bubblePasses (key : α → κ) : ℕ → (ℕ → α) → ℕ → α
  | 0, s => s
  | count + 1, s =>
      let r := bubblePass key s count
      if r.2 then bubblePasses key count r.1 else r.1

/-- Two neighbours may be exchanged when the keys are out of order. -/
theorem StablePerm.swapNext (hi : i + 1 < n) (h : key (s (i + 1)) < key (s i)) :
    StablePerm key n s (swapNext s i) := by
  have hval : ∀ k : Fin n, ((Equiv.swap (⟨i, by omega⟩ : Fin n) ⟨i + 1, hi⟩ k : Fin n) : ℕ) =
      if (k : ℕ) = i then i + 1 else if (k : ℕ) = i + 1 then i else k := fun k => by
    rw [Equiv.swap_apply_def]
    simp only [Fin.ext_iff]
    split_ifs <;> rfl
  refine ⟨⟨Equiv.swap ⟨i, by omega⟩ ⟨i + 1, hi⟩, fun k => ?_, fun j k hjk he => ?_⟩, fun k hk => ?_⟩
  · -- the exchange is its own inverse
    unfold Dawos.swapNext
    rw [hval]
    congr 1
    split_ifs <;> omega
  · rw [Fin.lt_def, hval, hval]
    have hlt : (j : ℕ) < k := hjk
    have hne : ¬ ((j : ℕ) = i ∧ (k : ℕ) = i + 1) := by
      rintro ⟨h1, h2⟩
      rw [h1, h2] at he
      exact h.ne' he
    split_ifs <;> omega
  · unfold Dawos.swapNext
    rw [if_neg (by omega), if_neg (by omega)]

theorem bubblePass_stable (hk : k < n) : StablePerm key n s (bubblePass key s k).1 := by
  induction k with
  | zero => exact StablePerm.refl key n s
  | succ k ih =>
      have hs := ih (by omega)
      unfold bubblePass
      dsimp only
      split_ifs with hlt
      · exact hs.trans (StablePerm.swapNext hk hlt)
      · exact hs

theorem bubblePasses_stable (hc : count ≤ n) : StablePerm key n s (bubblePasses key count s) := by
  induction count generalizing s with
  | zero => exact StablePerm.refl key n s
  | succ count ih =>
      have hs : StablePerm key n s (bubblePass key s count).1 := bubblePass_stable hc
      unfold bubblePasses
      dsimp only
      split_ifs
      · exact hs.trans (ih (by omega))
      · exact hs

/-! ### Order -/

/-- Every cell from `count` on is at least every cell before it. -/
def SortedFrom (key : α → κ) (count n : ℕ) (s : ℕ → α) : Prop :=
  ∀ i j, i ≤ j → count ≤ j → j < n → key (s i) ≤ key (s j)

/-- After `k` steps the cell `k` is the largest so far. -/
theorem bubblePass_max (hi : i ≤ k) :
    key ((bubblePass key s k).1 i) ≤ key ((bubblePass key s k).1 k) := by
  induction k generalizing i with
  | zero =>
      obtain rfl : i = 0 := by omega
      exact le_rfl
  | succ k ih =>
      unfold bubblePass
      dsimp only
      split_ifs with hlt
      · -- cell `k` moves to `k + 1`, above the cells it was above before
        dsimp only
        have hk : swapNext (bubblePass key s k).1 k (k + 1) = (bubblePass key s k).1 k := by
          simp [swapNext]
        rw [hk]
        unfold swapNext
        split_ifs with h1 h2
        · exact hlt.le
        · exact le_rfl
        · exact ih (by omega)
      · rcases Nat.lt_or_ge k i with h | h
        · obtain rfl : i = k + 1 := by omega
          exact le_rfl
        · exact (ih h).trans (not_lt.mp hlt)

/-- A pass without an exchange has changed nothing, and found every pair in order. -/
theorem bubblePass_false (h : (bubblePass key s k).2 = false) :
    (bubblePass key s k).1 = s ∧ ∀ i < k, key (s i) ≤ key (s (i + 1)) := by
  induction k with
  | zero => exact ⟨rfl, fun i hi => absurd hi (Nat.not_lt_zero i)⟩
  | succ k ih =>
      unfold bubblePass at h ⊢
      dsimp only at h ⊢
      split_ifs at h ⊢ with hlt
      obtain ⟨he, ho⟩ := ih h
      refine ⟨he, fun i hi => ?_⟩
      rcases Nat.lt_or_ge i k with hik | hik
      · exact ho i hik
      · obtain rfl : i = k := by omega
        rw [he] at hlt
        exact not_lt.mp hlt

/-- Neighbours in order are a sorted sequence. -/
theorem le_of_neighbours (h : ∀ i < k, key (s i) ≤ key (s (i + 1))) (hij : i ≤ j) (hj : j ≤ k) :
    key (s i) ≤ key (s j) := by
  induction j, hij using Nat.le_induction with
  | base => exact le_rfl
  | succ j _ ih => exact (ih (by omega)).trans (h j (by omega))

/-- A pass over `count + 1` cells settles one more of them. -/
theorem bubblePass_sorted (hs : SortedFrom key (count + 1) n s) :
    SortedFrom key count n (bubblePass key s count).1 := by
  intro i j hij hc hj
  have hp : StablePerm key (count + 1) s (bubblePass key s count).1 :=
    bubblePass_stable (Nat.lt_succ_self count)
  rcases hc.eq_or_lt with rfl | hc
  · exact bubblePass_max hij
  · rw [hp.off j hc]
    rcases Nat.lt_or_ge i (count + 1) with h | h
    · obtain ⟨k, hk, e⟩ := hp.origin h
      rw [e]
      exact hs k j (by omega) hc hj
    · rw [hp.off i h]
      exact hs i j hij hc hj

theorem bubblePasses_sorted (hc : count ≤ n) (hs : SortedFrom key count n s) :
    SortedFrom key 0 n (bubblePasses key count s) := by
  induction count generalizing s with
  | zero => exact hs
  | succ count ih =>
      unfold bubblePasses
      dsimp only
      split_ifs with hsw
      · exact ih (by omega) (bubblePass_sorted hs)
      · obtain ⟨he, ho⟩ := bubblePass_false (Bool.eq_false_of_not_eq_true hsw)
        rw [he]
        intro i j hij _ hj
        rcases Nat.lt_or_ge count j with h | h
        · exact hs i j hij h hj
        · exact le_of_neighbours ho hij h

end Dawos
