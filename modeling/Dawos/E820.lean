import Dawos.Store

/-! # The E820 map

The memory map of the firmware at `E820_LOC`, and the bubble sort of `sort_e820` in the kernel and
in the loader.  Sorting keeps the entries, in another order, and the memory outside the map
(`sortE820_sameMap`). -/

namespace Dawos

/-! ### The E820 map -/

def E820_LOC : ℕ := 0x0500
/-- `sizeof(e820entry_t)`. -/
def E820_ENTRY_SIZE : ℕ := 26

/-- Normal memory - usable. -/
def kMemOk : ℕ := 1
/-- Reserved memory - unusable. -/
def kMemReserved : ℕ := 2

/-- An entry of the E820 map, with the fields that are read. -/
@[ext]
structure E820Entry where
  base : ℕ
  length : ℕ
  type : ℕ

/-- `mem_map->size`. -/
def e820Size (m : Mem) : ℕ := rdN m 2 E820_LOC

/-- The address of `mem_map->entries[i]`. -/
def e820Addr (i : ℕ) : ℕ := E820_LOC + 2 + E820_ENTRY_SIZE * i

/-- `mem_map->entries[i]`. -/
def e820Entry (m : Mem) (i : ℕ) : E820Entry where
  base := rd m (e820Addr i + 2)
  length := rd m (e820Addr i + 10)
  type := rdN m 4 (e820Addr i + 18)

/-- The end of a region. -/
def E820Entry.fin (e : E820Entry) : ℕ := u64 (e.base + e.length)

/-- Exchange entries `i` and `i + 1`. -/
def e820Swap (m : Mem) (i : ℕ) : Mem := fun x =>
  if e820Addr i ≤ x ∧ x < e820Addr (i + 1) then m (x + E820_ENTRY_SIZE)
  else if e820Addr (i + 1) ≤ x ∧ x < e820Addr (i + 2) then m (x - E820_ENTRY_SIZE)
  else m x

/-- The first `k` steps of one pass of the bubble sort: the memory, and `swapped`. -/
def e820Pass (m : Mem) : ℕ → Mem × Bool
  | 0 => (m, false)
  | i + 1 =>
      let r := e820Pass m i
      if (e820Entry r.1 (i + 1)).base < (e820Entry r.1 i).base then (e820Swap r.1 i, true) else r

/-- The passes of the bubble sort. -/
def e820Passes : ℕ → Mem → Mem
  | 0, m => m
  | count + 1, m =>
      let r := e820Pass m count
      if r.2 then e820Passes count r.1 else r.1

/-- Sort memory map in ascending order. -/
def sortE820 (m : Mem) : Mem := e820Passes (e820Size m) m

/-! ### Sorting -/

section sorting

variable {m m' m'' : Mem} {i j k n count : ℕ}

/-- The entries of the map. -/
def e820Entries (m : Mem) (n : ℕ) : Set E820Entry := {e | ∃ i < n, e820Entry m i = e}

/-- `m'` has the first `n` entries of `m`, in any order, and is `m` elsewhere. -/
structure SameMap (n : ℕ) (m m' : Mem) : Prop where
  entries : e820Entries m' n = e820Entries m n
  frame : AgreeOff m m' fun x => E820_LOC + 2 ≤ x ∧ x < e820Addr n

theorem SameMap.refl (n : ℕ) (m : Mem) : SameMap n m m := ⟨rfl, AgreeOff.refl m _⟩

theorem SameMap.trans (h : SameMap n m m') (h' : SameMap n m' m'') : SameMap n m m'' :=
  ⟨h'.entries.trans h.entries, h.frame.trans h'.frame⟩

/-- Equal bytes at another address. -/
theorem rdN_shift : ∀ {n a b : ℕ}, (∀ x < n, m' (a + x) = m (b + x)) → rdN m' n a = rdN m n b
  | 0, _, _, _ => rfl
  | n + 1, a, b, h => by
      have h0 := h 0 (Nat.succ_pos n)
      have hs : ∀ x < n, m' (a + 1 + x) = m (b + 1 + x) := fun x hx => by
        have := h (1 + x) (by omega)
        rwa [← Nat.add_assoc, ← Nat.add_assoc] at this
      rw [Nat.add_zero, Nat.add_zero] at h0
      simp only [rdN]
      rw [h0, rdN_shift hs]

/-- An entry only depends on its bytes. -/
theorem e820Entry_shift (h : ∀ x < E820_ENTRY_SIZE, m' (e820Addr j + x) = m (e820Addr i + x)) :
    e820Entry m' j = e820Entry m i := by
  have hfield : ∀ n o, o + n ≤ E820_ENTRY_SIZE →
      rdN m' n (e820Addr j + o) = rdN m n (e820Addr i + o) := fun n o ho =>
    rdN_shift fun x hx => by
      rw [Nat.add_assoc, Nat.add_assoc]
      exact h (o + x) (by omega)
  unfold e820Entry
  rw [E820Entry.mk.injEq]
  exact ⟨hfield 8 2 (by decide), hfield 8 10 (by decide), hfield 4 18 (by decide)⟩

/-- The bytes of the entries after an exchange. -/
theorem e820Swap_byte {x : ℕ} (hx : x < E820_ENTRY_SIZE) : e820Swap m i (e820Addr j + x) =
    m (e820Addr (if j = i then i + 1 else if j = i + 1 then i else j) + x) := by
  unfold e820Swap e820Addr
  rw [E820_ENTRY_SIZE] at hx ⊢
  split_ifs <;> first | omega | skip
  all_goals
    congr 1
    try omega

theorem e820Entry_swap : e820Entry (e820Swap m i) j =
    e820Entry m (if j = i then i + 1 else if j = i + 1 then i else j) :=
  e820Entry_shift fun _ hx => e820Swap_byte hx

theorem SameMap.swap (hi : i + 1 < n) : SameMap n m (e820Swap m i) := by
  refine ⟨?_, fun x hx => ?_⟩
  · ext e
    constructor
    · rintro ⟨j, hj, rfl⟩
      rw [e820Entry_swap]
      refine ⟨_, ?_, rfl⟩
      split_ifs <;> omega
    · rintro ⟨j, hj, rfl⟩
      -- the exchange is its own inverse
      refine ⟨if j = i then i + 1 else if j = i + 1 then i else j, by split_ifs <;> omega, ?_⟩
      rw [e820Entry_swap]
      congr 1
      split_ifs <;> omega
  · unfold e820Swap e820Addr at *
    rw [E820_ENTRY_SIZE] at *
    rw [if_neg (by omega), if_neg (by omega)]

theorem e820Pass_sameMap (hk : k < n) : SameMap n m (e820Pass m k).1 := by
  induction k with
  | zero => exact SameMap.refl n m
  | succ i ih =>
      unfold e820Pass
      dsimp only
      split_ifs
      · exact (ih (by omega)).trans (SameMap.swap hk)
      · exact ih (by omega)

theorem e820Passes_sameMap (hc : count ≤ n) : SameMap n m (e820Passes count m) := by
  induction count generalizing m with
  | zero => exact SameMap.refl n m
  | succ count ih =>
      unfold e820Passes
      dsimp only
      split_ifs
      · exact (e820Pass_sameMap hc).trans (ih (by omega))
      · exact e820Pass_sameMap hc

/-- Sorting keeps the entries. -/
theorem sortE820_sameMap (m : Mem) : SameMap (e820Size m) m (sortE820 m) :=
  e820Passes_sameMap le_rfl

theorem sortE820_size : e820Size (sortE820 m) = e820Size m :=
  rdN_congr fun x _ h => (sortE820_sameMap m).frame x fun hx => by
    have := hx.1
    omega

end sorting

end Dawos
