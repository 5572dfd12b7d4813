import Dawos.BubbleSort
import Dawos.E820
import Dawos.Loop

/-! # The order of the sorted E820 map

`sortE820` is the bubble sort of the sequence of the map's entries, all 26 bytes of each, by their
base (`e820Passes_raw`).  `sortRound` is one test and body of the two loops of `sort_e820`; run
without a bound on the number of rounds they return `sortE820` (`sortE820_returns`). -/

namespace Dawos

section loops

/-- Which of the two loops of `sort_e820` is at its test. -/
inductive SortAt where
  | outer
  | inner (i : ℕ)

/-- The variables of `sort_e820`. -/
structure SortState where
  pos : SortAt
  count : ℕ
  swapped : Bool
  mem : Mem

/-- The test of a loop, and its body. -/
def sortRound (s : SortState) : SortState ⊕ Mem :=
  match s.pos with
  | .outer =>
      if 0 < s.count ∧ s.swapped = true then .inl { s with pos := .inner 0, swapped := false }
      else .inr s.mem
  | .inner i =>
      if i < s.count - 1 then
        if (e820Entry s.mem (i + 1)).base < (e820Entry s.mem i).base then
          .inl { s with pos := .inner (i + 1), swapped := true, mem := e820Swap s.mem i }
        else .inl { s with pos := .inner (i + 1) }
      else .inl { s with pos := .outer, count := s.count - 1 }

/-- `sort_e820`, for at most `n` tests of its loops. -/
def sortE820Within (m : Mem) (n : ℕ) : Except Halt Mem :=
  loop sortRound n ⟨.outer, e820Size m, true, m⟩

variable {m : Mem} {i k count : ℕ} {b : Bool} {r : Mem}

/-- The rounds of a pass that are left after `i` of them. -/
theorem sortRound_pass (hi : i + k = count)
    (h : Returns (fun n => loop sortRound n
      ⟨.outer, count, (e820Pass m count).2, (e820Pass m count).1⟩) r) :
    Returns (fun n => loop sortRound n
      ⟨.inner i, count + 1, (e820Pass m i).2, (e820Pass m i).1⟩) r := by
  induction k generalizing i with
  | zero =>
      obtain rfl : i = count := hi
      refine Returns.loop_inl h ?_
      simp [sortRound]
  | succ k ih =>
      have hlt : i < count + 1 - 1 := by omega
      refine Returns.loop_inl (ih (i := i + 1) (by omega)) ?_
      unfold sortRound
      dsimp only
      rw [if_pos hlt, e820Pass]
      split_ifs <;> rfl

theorem sortRound_returns (b : Bool) (hb : b = true ∨ r = m) (hr : b = true → r = e820Passes count m) :
    Returns (fun n => loop sortRound n ⟨.outer, count, b, m⟩) r := by
  induction count generalizing m b with
  | zero =>
      have hrm : r = m := hb.elim hr id
      rw [hrm]
      exact Returns.loop_inr (by simp [sortRound])
  | succ count ih =>
      cases b with
      | false =>
          rw [hb.resolve_left Bool.false_ne_true]
          exact Returns.loop_inr (by simp [sortRound])
      | true =>
          have hpass := hr rfl
          unfold e820Passes at hpass
          dsimp only at hpass
          have hround : sortRound ⟨.outer, count + 1, true, m⟩ =
              .inl ⟨.inner 0, count + 1, (e820Pass m 0).2, (e820Pass m 0).1⟩ := by
            simp [sortRound, e820Pass]
          refine Returns.loop_inl (sortRound_pass (k := count) (Nat.zero_add count) ?_) hround
          apply ih
          · by_cases hs : (e820Pass m count).2 = true
            · exact Or.inl hs
            · rw [if_neg hs] at hpass
              exact Or.inr hpass
          · intro hs
            rwa [if_pos hs] at hpass

/-- The loops end, and what they return is `sortE820`. -/
theorem sortE820_returns (m : Mem) : Returns (sortE820Within m) (sortE820 m) :=
  sortRound_returns true (Or.inl rfl) fun _ => rfl

end loops

/-! ### The entries as a sequence -/

/-- The bytes of `mem_map->entries[i]`. -/
def e820Raw (m : Mem) (i : ℕ) : Fin E820_ENTRY_SIZE → UInt8 := fun x => m (e820Addr i + x)

/-- The field `base` of an entry. -/
def rawBase (e : Fin E820_ENTRY_SIZE → UInt8) : ℕ :=
  rd (fun x => if h : x < E820_ENTRY_SIZE then e ⟨x, h⟩ else 0) 2

section order

variable {m : Mem} {i k n count : ℕ}

theorem rawBase_raw (m : Mem) (i : ℕ) : rawBase (e820Raw m i) = (e820Entry m i).base := by
  apply rdN_shift
  intro x hx
  have h : 2 + x < E820_ENTRY_SIZE := by
    rw [E820_ENTRY_SIZE]
    omega
  rw [dif_pos h, Nat.add_assoc]
  rfl

theorem e820Raw_swap (m : Mem) (i : ℕ) : e820Raw (e820Swap m i) = swapNext (e820Raw m) i := by
  funext j x
  exact e820Swap_byte x.isLt

/-- A pass over the memory is a pass over the sequence of entries. -/
theorem e820Pass_raw : e820Raw (e820Pass m k).1 = (bubblePass rawBase (e820Raw m) k).1 ∧
    (e820Pass m k).2 = (bubblePass rawBase (e820Raw m) k).2 := by
  induction k with
  | zero => exact ⟨rfl, rfl⟩
  | succ k ih =>
      obtain ⟨h1, h2⟩ := ih
      unfold e820Pass bubblePass
      dsimp only
      rw [← h1, rawBase_raw, rawBase_raw]
      split_ifs
      · exact ⟨e820Raw_swap _ k, rfl⟩
      · exact ⟨h1, h2⟩

theorem e820Passes_raw :
    e820Raw (e820Passes count m) = bubblePasses rawBase count (e820Raw m) := by
  induction count generalizing m with
  | zero => rfl
  | succ count ih =>
      obtain ⟨h1, h2⟩ := e820Pass_raw (m := m) (k := count)
      unfold e820Passes bubblePasses
      dsimp only
      rw [← h2, ← h1]
      split_ifs
      · exact ih
      · rfl

/-- `sort_e820` returns; the map is then sorted by base, and its entries are the original ones,
each moved by a permutation that keeps the order of entries with equal bases. -/
theorem sort_e820 (m : Mem) :
    Returns (sortE820Within m) (sortE820 m) ∧
    (∀ i j, i ≤ j → j < e820Size m →
      (e820Entry (sortE820 m) i).base ≤ (e820Entry (sortE820 m) j).base) ∧
    ∃ σ : Equiv.Perm (Fin (e820Size m)),
      (∀ i : Fin (e820Size m), e820Raw (sortE820 m) (σ i) = e820Raw m i) ∧
      ∀ i j : Fin (e820Size m), i < j →
        (e820Entry m i).base = (e820Entry m j).base → σ i < σ j := by
  have hraw : e820Raw (sortE820 m) = bubblePasses rawBase (e820Size m) (e820Raw m) :=
    e820Passes_raw
  have hp : StablePerm rawBase (e820Size m) (e820Raw m) (e820Raw (sortE820 m)) := by
    rw [hraw]
    exact bubblePasses_stable le_rfl
  refine ⟨sortE820_returns m, fun i j hij hj => ?_, ?_⟩
  · have hs : SortedFrom rawBase 0 (e820Size m) (e820Raw (sortE820 m)) := by
      rw [hraw]
      exact bubblePasses_sorted le_rfl fun i j _ hc hj => absurd hj (not_lt.mpr hc)
    have h := hs i j hij (Nat.zero_le j) hj
    rwa [rawBase_raw, rawBase_raw] at h
  · obtain ⟨σ, h1, h2⟩ := hp.perm
    refine ⟨σ, h1, fun i j hij he => h2 i j hij ?_⟩
    rw [rawBase_raw, rawBase_raw, he]

end order

end Dawos
