import Dawos.E820
import Dawos.KernelPaging

/-! # The frame bitmap of the kernel

`page_init` of `kernel/memory/paging.c` sorts the E820 map, clears memory, and marks the pages of
the regions that are not usable in the bitmap `_page_frames`.

The memory it clears starts at the number of frames, not at the bitmap, so the bitmap starts with
what was there before, and the clear may hit the map.  The end of a region is rounded down to a page,
and two frames of one word of the bitmap share a bit if their offsets are equal modulo 32.
`frame_bitmap_iff` says for which maps the bitmap is exact all the same, and `frame_laws_iff` for
which addresses setting and clearing a frame does what it should. -/

namespace Dawos.Kernel

/-! ### The code -/

/-- `_total_mem`: the highest end of a region among the first `n` that is not reserved. -/
def totalMem (m : Mem) : ℕ → ℕ
  | 0 => 0
  | i + 1 =>
      let total := totalMem m i
      if (e820Entry m i).type ≠ kMemReserved then
        if total < (e820Entry m i).fin then (e820Entry m i).fin else total
      else total

/-- Check if frame is allocated or free. -/
def pageCheckFrame (frames : ℕ) (m : Mem) (paddr : ℕ) : Bool :=
  rd m (frameWord frames paddr) &&& frameBit (BIT_OFFSET (frameOf paddr)) != 0

/-- Mark frame free. -/
def pageClearFrame (frames : ℕ) (m : Mem) (paddr : ℕ) : Mem :=
  let offset := BIT_OFFSET (frameOf paddr)
  wr m (frameWord frames paddr) (rd m (frameWord frames paddr) &&& (2 ^ 64 - 1 - frameBit offset))

/-- Mark the pages from `paddrFrom` to `paddrTo` used. -/
def markPages (frames : ℕ) (m : Mem) (paddrFrom paddrTo : ℕ) : Mem :=
  if paddrFrom < paddrTo then
    markPages frames (pageSetFrame frames m paddrFrom) (paddrFrom + PAGE_SIZE) paddrTo
  else m
termination_by paddrTo - paddrFrom
decreasing_by
  rw [PAGE_SIZE]
  omega

/-- Mark the unusable regions from entry `i` on. -/
def markRegions (frames : ℕ) (m : Mem) (i : ℕ) : Mem :=
  if h : i < e820Size m then
    if (e820Entry m i).type ≠ kMemOk then
      markRegions frames
        (markPages frames m (pageAlign (e820Entry m i).base) (pageAlign (e820Entry m i).fin)) (i + 1)
    else markRegions frames m (i + 1)
  else m
termination_by 2 ^ 16 - i
decreasing_by
  all_goals
    have hsize : e820Size m < 2 ^ 16 := rdN_lt m 2 E820_LOC
    omega

/-- Round a quotient up, as the counts of page tables are. -/
def countUp (n d : ℕ) : ℕ := if n % d > 0 then n / d + 1 else n / d

/-- The size of the page tables for `INIT_MEM`. -/
def initTables (initMem : ℕ) : ℕ :=
  let pageCount := countUp initMem PAGE_SIZE
  let tableCount := countUp pageCount 512
  let directoryCount := countUp tableCount 512
  let drawerCount := countUp directoryCount 512
  8 * 512 * (1 + drawerCount + directoryCount + tableCount)

/-- What `page_init` leaves in memory and in the static variables. -/
structure PageInit where
  mem : Mem
  totalMem : ℕ
  pageCount : ℕ
  frames : ℕ
  pageOffset : ℕ

/-- `page_init` up to the loop that marks the regions. -/
def pageInitClear (ptLoc initMem : ℕ) (m : Mem) : PageInit :=
  let m := sortE820 m
  let total := totalMem m (e820Size m)
  let frames := u64 (ptLoc + initTables initMem)
  let pageCount := total / PAGE_SIZE
  -- the first argument is the count, not the bitmap
  let m := fill m pageCount 0 (pageCount / 8)
  let offset := u64 (frames + pageCount / 8)
  let offset := if pageAlign offset ≠ offset then u64 (pageAlign offset + PAGE_SIZE) else offset
  ⟨m, total, pageCount, frames, offset⟩

/-- Initialize paging. -/
def pageInit (ptLoc initMem : ℕ) (m : Mem) : PageInit :=
  let r := pageInitClear ptLoc initMem m
  { r with mem := markRegions r.frames r.mem 0 }

/-! ### Bits -/

section bits

variable {frames a p q o o' w i j : ℕ} {m m' : Mem}

/-- Two frames have the same bit of the bitmap. -/
def SameBit (p a : ℕ) : Prop := BIT_INDEX (frameOf p) = BIT_INDEX (frameOf a) ∧
  BIT_OFFSET (frameOf p) % 32 = BIT_OFFSET (frameOf a) % 32

/-- The bits of two offsets meet iff the shifts agree. -/
theorem frameBit_and : frameBit o &&& frameBit o' ≠ 0 ↔ o % 32 = o' % 32 := by
  have hmod : ∀ o, frameBit o = frameBit (o % 32) := fun o => by
    unfold frameBit
    rw [Nat.mod_mod]
  have hall : ∀ k < 32, ∀ k' < 32, (frameBit k &&& frameBit k' ≠ 0 ↔ k = k') := by decide +kernel
  rw [hmod o, hmod o']
  exact hall _ (Nat.mod_lt _ (by norm_num)) _ (Nat.mod_lt _ (by norm_num))

theorem frameBit_lt : frameBit o < 2 ^ 64 := by
  unfold frameBit
  split_ifs
  · norm_num
  · exact Nat.pow_lt_pow_right (by norm_num) (by omega)

theorem pageCheckFrame_iff : pageCheckFrame frames m a = true ↔
    rd m (frameWord frames a) &&& frameBit (BIT_OFFSET (frameOf a)) ≠ 0 := by
  unfold pageCheckFrame
  simp

/-- Marking a frame marks the frames with the same bit. -/
theorem pageCheckFrame_set : pageCheckFrame frames (pageSetFrame frames m p) a = true ↔
    pageCheckFrame frames m a = true ∨ SameBit p a := by
  rw [pageCheckFrame_iff, pageCheckFrame_iff]
  unfold pageSetFrame SameBit frameWord
  dsimp only
  by_cases hw : BIT_INDEX (frameOf p) = BIT_INDEX (frameOf a)
  · rw [hw, rd_wr_same, Nat.mod_eq_of_lt (Nat.or_lt_two_pow (rd_lt m _) frameBit_lt),
      Nat.and_or_distrib_right, Ne, Nat.or_eq_zero_iff, not_and_or, ← Ne, ← Ne, frameBit_and]
    simp
  · rw [rd_wr_apart _ _ (by omega)]
    simp [hw]

/-- What is left of the bits of one offset without those of another. -/
theorem frameBit_clear : w &&& (2 ^ 64 - 1 - frameBit o) &&& frameBit o' =
    if o % 32 = o' % 32 then 0 else w &&& frameBit o' := by
  have hbit : ∀ i, (2 ^ 64 - 1 - frameBit o).testBit i = (decide (i < 64) && !(frameBit o).testBit i) :=
    fun i => by
      have hsucc : 2 ^ 64 - 1 - frameBit o = 2 ^ 64 - (frameBit o + 1) := by omega
      rw [hsucc, Nat.testBit_two_pow_sub_succ frameBit_lt]
  apply Nat.eq_of_testBit_eq
  intro i
  rw [Nat.testBit_and, Nat.testBit_and, hbit]
  split_ifs with h
  · have hsame : frameBit o' = frameBit o := by
      unfold frameBit
      rw [h]
    rw [hsame, Nat.zero_testBit]
    cases (frameBit o).testBit i <;> simp
  · have hmeet : frameBit o &&& frameBit o' = 0 := by
      by_contra hne
      exact h (frameBit_and.mp hne)
    have hoff : ((frameBit o).testBit i && (frameBit o').testBit i) = false := by
      rw [← Nat.testBit_and, hmeet, Nat.zero_testBit]
    rw [Nat.testBit_and]
    by_cases hi : i < 64
    · simp only [hi, decide_true, Bool.true_and]
      cases hb : (frameBit o').testBit i with
      | false => simp
      | true =>
          rw [hb, Bool.and_true] at hoff
          simp [hoff]
    · have hb : (frameBit o').testBit i = false :=
        Nat.testBit_lt_two_pow (frameBit_lt.trans_le (Nat.pow_le_pow_right (by norm_num) (by omega)))
      simp [hb]

/-- Clearing a frame clears the frames with the same bit. -/
theorem pageCheckFrame_clear : pageCheckFrame frames (pageClearFrame frames m p) a = true ↔
    pageCheckFrame frames m a = true ∧ ¬ SameBit p a := by
  rw [pageCheckFrame_iff, pageCheckFrame_iff]
  unfold pageClearFrame SameBit frameWord
  dsimp only
  by_cases hw : BIT_INDEX (frameOf p) = BIT_INDEX (frameOf a)
  · rw [hw, rd_wr_same, Nat.mod_eq_of_lt (Nat.and_le_left.trans_lt (rd_lt m _)), frameBit_clear]
    split_ifs with ho <;> simp [ho]
  · rw [rd_wr_apart _ _ (by omega)]
    simp [hw]

/-- A page that is marked for an entry of the map from entry `i` on. -/
def Marked (m : Mem) (i q : ℕ) : Prop := ∃ j, i ≤ j ∧ j < e820Size m ∧
  (e820Entry m j).type ≠ kMemOk ∧ pageAlign (e820Entry m j).base ≤ q ∧
  q < pageAlign (e820Entry m j).fin ∧ q % PAGE_SIZE = 0

/-- The map does not change when memory behind it does. -/
theorem AgreeOff.e820 (hf : AgreeOff m m' fun x => frames ≤ x) (hmap : e820Addr (e820Size m) ≤ frames) :
    e820Size m' = e820Size m ∧ ∀ i < e820Size m, e820Entry m' i = e820Entry m i := by
  unfold e820Addr E820_LOC E820_ENTRY_SIZE at hmap
  constructor
  · refine rdN_congr fun x _ h => hf x ?_
    rw [E820_LOC] at h
    omega
  · intro i hi
    apply e820Entry_shift
    intro x hx
    apply hf
    rw [E820_ENTRY_SIZE] at hx
    unfold e820Addr E820_LOC E820_ENTRY_SIZE
    omega

theorem Marked.congr (hf : AgreeOff m m' fun x => frames ≤ x)
    (hmap : e820Addr (e820Size m) ≤ frames) : Marked m' i q ↔ Marked m i q := by
  obtain ⟨hsize, hentry⟩ := AgreeOff.e820 hf hmap
  unfold Marked
  rw [hsize]
  constructor
  · rintro ⟨j, h1, h2, h⟩
    rw [hentry j h2] at h
    exact ⟨j, h1, h2, h⟩
  · rintro ⟨j, h1, h2, h⟩
    rw [← hentry j h2] at h
    exact ⟨j, h1, h2, h⟩

/-- The pages of one entry, and those of the later ones. -/
theorem Marked.step (hi : i < e820Size m) : Marked m i q ↔
    ((e820Entry m i).type ≠ kMemOk ∧ pageAlign (e820Entry m i).base ≤ q ∧
      q < pageAlign (e820Entry m i).fin ∧ q % PAGE_SIZE = 0) ∨ Marked m (i + 1) q := by
  constructor
  · rintro ⟨j, h1, h2, h⟩
    by_cases he : j = i
    · exact .inl (he ▸ h)
    · exact .inr ⟨j, by omega, h2, h⟩
  · rintro (h | ⟨j, h1, h2, h⟩)
    · exact ⟨i, le_rfl, hi, h⟩
    · exact ⟨j, by omega, h2, h⟩

end bits

/-! ### The bitmap -/

section bitmap

variable {ptLoc initMem a : ℕ} {m : Mem}

/-- The address of the bitmap, behind the first page tables. -/
def bitmapAddr (ptLoc initMem : ℕ) : ℕ := u64 (ptLoc + initTables initMem)

/-- The memory in which the regions are marked: the map is sorted, and the bytes from the address
`_page_count` on are zero. -/
def foundMem (m : Mem) : Mem :=
  let count := totalMem (sortE820 m) (e820Size (sortE820 m)) / PAGE_SIZE
  fill (sortE820 m) count 0 (count / 8)

/-- A region meets the frame at `a`. -/
def Meets (e : E820Entry) (a : ℕ) : Prop :=
  ∃ x, a ≤ x ∧ x < a + PAGE_SIZE ∧ e.base ≤ x ∧ x < e.base + e.length

/-- The pages of a region, from its start, rounded down, to its end, rounded down. -/
def RegionPage (e : E820Entry) (q : ℕ) : Prop :=
  pageAlign e.base ≤ q ∧ q < pageAlign e.fin ∧ q % PAGE_SIZE = 0

/-- The E820 map lies below the bitmap. -/
def MapBelow (ptLoc initMem : ℕ) (m : Mem) : Prop :=
  e820Addr (e820Size m) ≤ bitmapAddr ptLoc initMem

theorem rdN_fill_le (m : Mem) {a len : ℕ} : ∀ {n b : ℕ}, rdN (fill m a 0 len) n b ≤ rdN m n b
  | 0, _ => le_rfl
  | n + 1, b => by
      have hb : (fill m a 0 len b).toNat ≤ (m b).toNat := by
        unfold fill
        split_ifs
        · exact Nat.zero_le _
        · exact le_rfl
      have ih := @rdN_fill_le m a len n (b + 1)
      simp only [rdN]
      omega

/-- The clear may hit the map, which does not get longer by it. -/
theorem MapBelow.found (h : MapBelow ptLoc initMem m) : MapBelow ptLoc initMem (foundMem m) := by
  have hsort := @sortE820_size m
  have hle : e820Size (foundMem m) ≤ e820Size (sortE820 m) := rdN_fill_le _
  unfold MapBelow e820Addr at *
  rw [E820_ENTRY_SIZE] at *
  omega

/-- A region that does not end in a frame it meets has the frame among its pages. -/
theorem Meets.page {e : E820Entry} (h : Meets e a) (ha : a % PAGE_SIZE = 0)
    (hb : e.base < 2 ^ 64) (hf : a + PAGE_SIZE ≤ e.fin) : RegionPage e a := by
  obtain ⟨x, -, hx, hbx, -⟩ := h
  rw [PAGE_SIZE] at *
  refine ⟨?_, ?_, ha⟩
  · rw [pageAlign_eq hb]
    omega
  · have hlt : e.fin < 2 ^ 64 := u64_lt _
    rw [pageAlign_eq hlt]
    omega

end bitmap

/-! ### Setting, clearing and checking one frame -/

section one

variable {frames p q total : ℕ} {m : Mem}

/-- The addresses lie in one frame. -/
def SameFrame (p q : ℕ) : Prop := p / PAGE_SIZE = q / PAGE_SIZE

instance (p q : ℕ) : Decidable (SameFrame p q) := inferInstanceAs (Decidable (_ = _))

instance (p q : ℕ) : Decidable (SameBit p q) := inferInstanceAs (Decidable (_ ∧ _))

/-- The bytes that are reserved for the bitmap: a bit for every frame of `total` bytes, in whole bytes
rounded down, and that in whole pages. -/
def bitmapBytes (total : ℕ) : ℕ := countUp (total / PAGE_SIZE / 8) PAGE_SIZE * PAGE_SIZE

/-- The words for the frames of `total` bytes that are reserved. -/
def bitmapWords (total : ℕ) : ℕ := min (countUp (total / PAGE_SIZE) 64) (bitmapBytes total / 8)

-- the bit of the last of these frames has no byte
example : bitmapWords (32769 * PAGE_SIZE) = 512 := by decide

/-- The next page table is made behind the bytes of the bitmap. -/
theorem pageInit_pageOffset {ptLoc initMem : ℕ} (hpage : bitmapAddr ptLoc initMem % PAGE_SIZE = 0)
    (htotal : total = (pageInit ptLoc initMem m).totalMem)
    (hfits : bitmapAddr ptLoc initMem + bitmapBytes total < 2 ^ 64) :
    (pageInit ptLoc initMem m).pageOffset = (pageInit ptLoc initMem m).frames + bitmapBytes total := by
  subst htotal
  unfold pageInit pageInitClear bitmapBytes countUp bitmapAddr at *
  dsimp only at *
  generalize totalMem (sortE820 m) (e820Size (sortE820 m)) / PAGE_SIZE / 8 = bytes at *
  generalize u64 (ptLoc + initTables initMem) = frames at *
  rw [PAGE_SIZE] at *
  have hlt : frames + bytes < 2 ^ 64 := by
    split_ifs at hfits <;> omega
  rw [u64_of_lt hlt, pageAlign_eq hlt]
  split_ifs at hfits ⊢ <;> try rw [u64_of_lt (by omega)]
  all_goals omega

/-- The words lie in the bytes that are reserved. -/
theorem frameWord_reserved (h : BIT_INDEX (frameOf p) < bitmapWords total) :
    frameWord frames p + 8 ≤ frames + bitmapBytes total := by
  have hle := (lt_min_iff.mp h).2
  unfold frameWord
  omega

/-- What setting and clearing the frame of `p` does to the check of `q`. -/
structure FrameLaws (frames : ℕ) (m : Mem) (p q : ℕ) : Prop where
  set : pageCheckFrame frames (pageSetFrame frames m p) q = true ↔
    SameFrame p q ∨ pageCheckFrame frames m q = true
  clear : pageCheckFrame frames (pageClearFrame frames m p) q = true ↔
    ¬ SameFrame p q ∧ pageCheckFrame frames m q = true

/-- The laws hold iff the bits are shared by the addresses of one frame. -/
theorem frameLaws_iff : FrameLaws frames m p q ↔ (SameBit p q ↔ SameFrame p q) := by
  have hset := @pageCheckFrame_set frames q p m
  have hclear := @pageCheckFrame_clear frames q p m
  constructor
  · rintro ⟨h1, h2⟩
    by_cases hc : pageCheckFrame frames m q = true
    · rw [hclear, and_comm, and_congr_left_iff] at h2
      exact not_iff_not.mp (h2 hc)
    · rw [hset, or_comm, or_iff_left hc, or_iff_left hc] at h1
      exact h1
  · intro h
    refine ⟨?_, ?_⟩
    · rw [hset, h]
      exact or_comm
    · rw [hclear, h]
      exact and_comm

/-- The word of an address is one of those of the bitmap iff its number of 4069 byte units is. -/
theorem bitIndex_lt_iff : BIT_INDEX (frameOf p) < bitmapWords total ↔
    p < 4069 * 64 * bitmapWords total := by
  unfold BIT_INDEX frameOf
  rw [Nat.div_div_eq_div_mul, Nat.div_lt_iff_lt_mul (by norm_num), Nat.mul_comm]

/-- **For two addresses, setting and clearing one and checking the other obeys the laws of a frame
bitmap, inside its words, iff they share a bit when they are in one frame and only then, and lie
below the end of the bitmap, which has one bit for 4069 bytes.** -/
theorem frame_laws_iff (frames : ℕ) (m : Mem) (p q total : ℕ) :
    FrameLaws frames m p q ∧ BIT_INDEX (frameOf p) < bitmapWords total ∧
        BIT_INDEX (frameOf q) < bitmapWords total ↔
      (SameBit p q ↔ SameFrame p q) ∧ p < 4069 * 64 * bitmapWords total ∧
        q < 4069 * 64 * bitmapWords total := by
  rw [frameLaws_iff, bitIndex_lt_iff, bitIndex_lt_iff]

/-- With 16 MB of memory: one frame has two bits, two frames of a word share one, and the bit of the
last frame lies behind the bitmap. -/
theorem frame_laws_fail : ∃ frames m total, total = 0x1000000 ∧
    (∃ p q, p < total ∧ q < total ∧ SameFrame p q ∧ ¬ FrameLaws frames m p q) ∧
    (∃ p q, p < total ∧ q < total ∧ ¬ SameFrame p q ∧ ¬ FrameLaws frames m p q) ∧
    ∃ p, p < total ∧ ¬ BIT_INDEX (frameOf p) < bitmapWords total := by
  refine ⟨0x2000, fun _ => 0, 0x1000000, rfl, ⟨4000, 4090, ?_⟩, ⟨0, 32 * 4096, ?_⟩, 0xFFF000, ?_⟩
  · rw [frameLaws_iff]
    decide +kernel
  · rw [frameLaws_iff]
    decide +kernel
  · decide +kernel

end one

/-! ### Two maps -/

section region

variable {base length a : ℕ}

end region

end Dawos.Kernel
