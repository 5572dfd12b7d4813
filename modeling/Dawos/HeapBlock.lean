import Dawos.Config

/-! # Heap blocks

The boundary tags of `heap.c`.  A block of `size` bytes at address `a` carries a header
(`HEAP_MAGIC`, size word) in its first 16 bytes and a footer (`HEAP_MAGIC`, address of the
header) in its last 16; the payload lies between them.  Sizes are multiples of 16, and bit 0 of
the size word is the `used` flag.

The first part is the macros of `heap.c` and the functions that write tags,
`heap_create_block` and `heap_split_block`.  The second part is the abstract view: a `Block`
with its invariant, `Tagged` (memory carries its tags) and `Tiles` (blocks lie end to end). -/

namespace Dawos

/-! ### Constants and macros -/

/-- Minimum block size. -/
def HEAP_LIST_MIN : ℕ := 48
/-- Maximum block size kept in a segregated list; larger blocks go to the tree. -/
def HEAP_LIST_MAX : ℕ := 1056
def HEAP_LIST_SPARSE : ℕ := 16
/-- Segregated list count. -/
def HEAP_LIST_COUNT : ℕ := (HEAP_LIST_MAX - HEAP_LIST_MIN) / HEAP_LIST_SPARSE
def HEAP_MASK : ℕ := 0xFFFFFFFFFFFFFFF0
def HEAP_IMASK : ℕ := 0xF
def HEAP_MAGIC : ℕ := 0xFFFFC0CAC01AFFFF
/-- `sizeof(heap_header_t) + sizeof(heap_footer_t)`. -/
def HEAP_OVERHEAD : ℕ := 32
/-- `sizeof(free_node_t)`. -/
def HEAP_TREE_DATA_SIZE : ℕ := 48

def heapAlign (a : ℕ) : ℕ := a &&& HEAP_MASK
def heapSizeAlign (s : ℕ) : ℕ := u64 (s + HEAP_IMASK) &&& HEAP_MASK
/-- Block size for a payload size. -/
def heapBsize (psize : ℕ) : ℕ := u64 (heapSizeAlign psize + HEAP_OVERHEAD)
/-- Payload size of a block size. -/
def heapPsize (bsize : ℕ) : ℕ := sub64 (heapAlign bsize) HEAP_OVERHEAD
def heapGetSize (m : Mem) (h : ℕ) : ℕ := heapAlign (rd m (h + 8))
def heapGetFooter (m : Mem) (h : ℕ) : ℕ := sub64 (u64 (h + heapGetSize m h)) 16
def heapGetHeader (m : Mem) (f : ℕ) : ℕ := rd m (f + 8)
def heapPayloadHeader (p : ℕ) : ℕ := sub64 p 16
def heapGetPayload (h : ℕ) : ℕ := u64 (h + 16)
/-- Sanity check on a header. -/
def heapCheckHeader (m : Mem) (h : ℕ) : Bool :=
  rd m h == HEAP_MAGIC && rd m (heapGetFooter m h) == HEAP_MAGIC
/-- Sanity check on a footer. -/
def heapCheckFooter (m : Mem) (f : ℕ) : Bool :=
  rd m f == HEAP_MAGIC && rd m (heapGetHeader m f) == HEAP_MAGIC
/-- List index of a block size: the conditional has type `uint64`, the variable it is stored in
is an `int8`. -/
def heapSizeIdx (s : ℕ) : ℤ :=
  if s ≤ HEAP_LIST_MAX then
    (BitVec.ofNat 8 (heapAlign (sub64 s HEAP_OVERHEAD) / HEAP_LIST_SPARSE)).toInt
  else -1
def heapIsPageAligned (p : ℕ) : Bool := p &&& PAGE_IMASK == 0
def heapGetUsed (m : Mem) (h : ℕ) : ℕ := rd m (h + 8) % 2
def heapSetUsed (m : Mem) (h u : ℕ) : Mem := wr m (h + 8) (rd m (h + 8) / 2 * 2 + u)
def heapLeftFooter (h : ℕ) : ℕ := sub64 h 16
def heapRightHeader (m : Mem) (h : ℕ) : ℕ := u64 (h + heapGetSize m h)

/-! ### Writing tags -/

/-- Create a heap block: write header and footer. -/
def heapCreateBlock (m : Mem) (ptr bsize : ℕ) : Mem :=
  let m := wr m ptr HEAP_MAGIC
  let m := wr m (ptr + 8) bsize
  let footer := heapGetFooter m ptr
  let m := wr m (footer + 8) ptr
  wr m footer HEAP_MAGIC

/-- Split a block at `offset`: the memory and the new block to the right, or `0`. -/
def heapSplitBlock (m : Mem) (block offset : ℕ) : Mem × ℕ :=
  let blockSize := heapGetSize m block
  let offset := heapAlign offset
  let leftoverSize := sub64 blockSize offset
  if HEAP_LIST_MIN ≤ leftoverSize then
    let leftover := u64 (block + offset)
    let m := heapCreateBlock m leftover leftoverSize
    (heapCreateBlock m block offset, leftover)
  else (m, 0)

/-! ### Arithmetic of the macros -/

theorem heapAlign_eq {a : ℕ} (h : a < 2 ^ 64) : heapAlign a = a / 16 * 16 :=
  and_highMask (k := 4) (w := 64) (by norm_num) h

theorem heapAlign_of_dvd {a : ℕ} (h : a < 2 ^ 64) (hd : a % 16 = 0) : heapAlign a = a := by
  rw [heapAlign_eq h]
  omega

theorem heapSizeAlign_eq (s : ℕ) : heapSizeAlign s = (s + 15) % 2 ^ 64 / 16 * 16 :=
  heapAlign_eq (u64_lt _)

/-- The block size of a request is its size rounded up plus the overhead, unless that wraps. -/
theorem heapBsize_eq {size : ℕ} (h : size + 47 < 2 ^ 64) :
    heapBsize (heapSizeAlign size) = (size + 15) / 16 * 16 + 32 := by
  unfold heapBsize u64
  rw [heapSizeAlign_eq, heapSizeAlign_eq, HEAP_OVERHEAD]
  omega

/-- The block size that wraps: what the sum has beyond `2 ^ 64`, rounded down. -/
theorem heapBsize_wrap {size : ℕ} (h : 2 ^ 64 ≤ size + 47) (hlt : size < 2 ^ 64) :
    heapBsize (heapSizeAlign size) = (size + 47 - 2 ^ 64) / 16 * 16 := by
  unfold heapBsize u64
  rw [heapSizeAlign_eq, heapSizeAlign_eq, HEAP_OVERHEAD]
  omega

theorem heapBsize_dvd (psize : ℕ) : heapBsize psize % 16 = 0 := by
  unfold heapBsize u64
  rw [heapSizeAlign_eq, HEAP_OVERHEAD]
  omega

theorem heapSizeIdx_eq {s : ℕ} (h1 : 32 ≤ s) (h2 : s ≤ 1056) : heapSizeIdx s = (s / 16 - 2 : ℕ) := by
  unfold heapSizeIdx
  rw [if_pos (by simpa [HEAP_LIST_MAX] using h2), HEAP_OVERHEAD, sub64_of_le (by omega) h1,
    heapAlign_eq (by omega), HEAP_LIST_SPARSE]
  have e : (s - 32) / 16 * 16 / 16 = s / 16 - 2 := by omega
  rw [e, BitVec.toInt_eq_toNat_of_lt]
  · rw [BitVec.toNat_ofNat, Nat.mod_eq_of_lt (by omega)]
  · rw [BitVec.toNat_ofNat, Nat.mod_eq_of_lt (by omega)]
    omega

theorem heapSizeIdx_large {s : ℕ} (h : 1056 < s) : heapSizeIdx s = -1 := by
  unfold heapSizeIdx
  rw [if_neg (by simpa [HEAP_LIST_MAX] using h)]

theorem heapIsPageAligned_iff (p : ℕ) : heapIsPageAligned p = true ↔ p % 4096 = 0 := by
  unfold heapIsPageAligned
  have : p &&& PAGE_IMASK = p % 4096 := Nat.and_two_pow_sub_one_eq_mod p 12
  simp [this]

/-! ### Blocks -/

/-- A block of the heap, with the invariant of its size. -/
@[ext]
structure Block where
  addr : ℕ
  size : ℕ
  used : Bool
  size_min : 48 ≤ size
  size_dvd : size % 16 = 0

namespace Block

/-- The address after the block. -/
def fin (b : Block) : ℕ := b.addr + b.size

/-- The block with another flag. -/
def setUsed (b : Block) (u : Bool) : Block := { b with used := u }

@[simp] theorem setUsed_addr (b : Block) (u : Bool) : (b.setUsed u).addr = b.addr := rfl
@[simp] theorem setUsed_size (b : Block) (u : Bool) : (b.setUsed u).size = b.size := rfl
@[simp] theorem setUsed_used (b : Block) (u : Bool) : (b.setUsed u).used = u := rfl

end Block

/-- The tags of `s` bytes at `a`, of any size, with the flag `u`. -/
structure RawTags (m : Mem) (a s u : ℕ) : Prop where
  magic : rd m a = HEAP_MAGIC
  size : rd m (a + 8) = s + u
  footMagic : rd m (a + s - 16) = HEAP_MAGIC
  footHeader : rd m (a + s - 8) = a

namespace RawTags

variable {m m' : Mem} {a s u : ℕ}

/-- Tags only depend on their bytes. -/
theorem congr (h : RawTags m a s u) (hs : 32 ≤ s)
    (e : ∀ x, (a ≤ x ∧ x < a + 16) ∨ (a + s - 16 ≤ x ∧ x < a + s) → m' x = m x) :
    RawTags m' a s u := by
  refine ⟨?_, ?_, ?_, ?_⟩
  · rw [rd_congr fun x h1 h2 => e x (.inl ⟨by omega, by omega⟩), h.magic]
  · rw [rd_congr fun x h1 h2 => e x (.inl ⟨by omega, by omega⟩), h.size]
  · rw [rd_congr fun x h1 h2 => e x (.inr ⟨by omega, by omega⟩), h.footMagic]
  · rw [rd_congr fun x h1 h2 => e x (.inr ⟨by omega, by omega⟩), h.footHeader]

theorem getSize (h : RawTags m a s u) (hd : s % 16 = 0) (hu : u ≤ 1) : heapGetSize m a = s := by
  have h1 := rd_lt m (a + 8)
  unfold heapGetSize
  rw [heapAlign_eq h1, h.size]
  omega

theorem getFooter (h : RawTags m a s u) (hs : 32 ≤ s) (hd : s % 16 = 0) (hu : u ≤ 1)
    (hlt : a + s < 2 ^ 64) : heapGetFooter m a = a + s - 16 := by
  unfold heapGetFooter
  rw [h.getSize hd hu, u64_of_lt hlt, sub64_of_le hlt (by omega)]

theorem rightHeader (h : RawTags m a s u) (hd : s % 16 = 0) (hu : u ≤ 1) (hlt : a + s < 2 ^ 64) :
    heapRightHeader m a = a + s := by
  unfold heapRightHeader
  rw [h.getSize hd hu, u64_of_lt hlt]

theorem checkHeader (h : RawTags m a s u) (hs : 32 ≤ s) (hd : s % 16 = 0) (hu : u ≤ 1)
    (hlt : a + s < 2 ^ 64) : heapCheckHeader m a = true := by
  unfold heapCheckHeader
  rw [h.getFooter hs hd hu hlt, h.magic, h.footMagic]
  simp

/-- Rewriting the flag. -/
theorem setUsed (h : RawTags m a s u) (hs : 32 ≤ s) (hd : s % 16 = 0) (hu : u ≤ 1) {v : ℕ}
    (hv : v ≤ 1) : RawTags (heapSetUsed m a v) a s v := by
  have hlt := rd_lt m (a + 8)
  rw [h.size] at hlt
  unfold heapSetUsed
  rw [h.size]
  refine ⟨?_, ?_, ?_, ?_⟩
  · rw [rd_wr_apart _ _ (by omega), h.magic]
  · rw [rd_wr_same]
    omega
  · rw [rd_wr_apart _ _ (by omega), h.footMagic]
  · rw [rd_wr_apart _ _ (by omega), h.footHeader]

end RawTags

/-- Memory carries the tags of the block. -/
structure Tagged (m : Mem) (b : Block) : Prop where
  magic : rd m b.addr = HEAP_MAGIC
  size : rd m (b.addr + 8) = b.size + b.used.toNat
  footMagic : rd m (b.addr + b.size - 16) = HEAP_MAGIC
  footHeader : rd m (b.addr + b.size - 8) = b.addr

instance (m : Mem) (b : Block) : Decidable (Tagged m b) :=
  decidable_of_iff (rd m b.addr = HEAP_MAGIC ∧ rd m (b.addr + 8) = b.size + b.used.toNat ∧
      rd m (b.addr + b.size - 16) = HEAP_MAGIC ∧ rd m (b.addr + b.size - 8) = b.addr)
    ⟨fun ⟨h1, h2, h3, h4⟩ => ⟨h1, h2, h3, h4⟩, fun ⟨h1, h2, h3, h4⟩ => ⟨h1, h2, h3, h4⟩⟩

/-- The bytes of a block. -/
def Block.bytes (b : Block) (x : ℕ) : Prop := b.addr ≤ x ∧ x < b.addr + b.size

/-- The bytes of the tags of a block. -/
def Block.tagBytes (b : Block) (x : ℕ) : Prop :=
  (b.addr ≤ x ∧ x < b.addr + 16) ∨ (b.addr + b.size - 16 ≤ x ∧ x < b.addr + b.size)

theorem RawTags.tagged {m : Mem} {b : Block} (h : RawTags m b.addr b.size b.used.toNat) :
    Tagged m b := ⟨h.magic, h.size, h.footMagic, h.footHeader⟩

namespace Tagged

variable {m m' : Mem} {b : Block}

theorem raw (h : Tagged m b) : RawTags m b.addr b.size b.used.toNat :=
  ⟨h.magic, h.size, h.footMagic, h.footHeader⟩

/-- Tags only depend on their bytes. -/
theorem congr (h : Tagged m b) (e : ∀ x, b.tagBytes x → m' x = m x) : Tagged m' b := by
  have hmin := b.size_min
  exact (h.raw.congr (by omega) e).tagged

theorem getSize (h : Tagged m b) : heapGetSize m b.addr = b.size :=
  h.raw.getSize b.size_dvd (Bool.toNat_le b.used)

theorem getUsed (h : Tagged m b) : heapGetUsed m b.addr = b.used.toNat := by
  have h2 := b.size_dvd
  have h3 : b.used.toNat ≤ 1 := Bool.toNat_le b.used
  unfold heapGetUsed
  rw [h.size]
  omega

theorem getFooter (h : Tagged m b) (hb : b.addr + b.size < 2 ^ 64) :
    heapGetFooter m b.addr = b.addr + b.size - 16 := by
  have hmin := b.size_min
  exact h.raw.getFooter (by omega) b.size_dvd (Bool.toNat_le b.used) hb

theorem rightHeader (h : Tagged m b) (hb : b.addr + b.size < 2 ^ 64) :
    heapRightHeader m b.addr = b.addr + b.size :=
  h.raw.rightHeader b.size_dvd (Bool.toNat_le b.used) hb

theorem checkHeader (h : Tagged m b) (hb : b.addr + b.size < 2 ^ 64) :
    heapCheckHeader m b.addr = true := by
  have hmin := b.size_min
  exact h.raw.checkHeader (by omega) b.size_dvd (Bool.toNat_le b.used) hb

/-- The check of a footer that belongs to a tagged block. -/
theorem checkFooter (h : Tagged m b) : heapCheckFooter m (b.addr + b.size - 16) = true ∧
    heapGetHeader m (b.addr + b.size - 16) = b.addr := by
  have hmin := b.size_min
  have e : b.addr + b.size - 16 + 8 = b.addr + b.size - 8 := by omega
  unfold heapCheckFooter heapGetHeader
  rw [h.footMagic, e, h.footHeader, h.magic]
  simp

/-- The tags determine the size. -/
theorem unique {c : Block} (h : Tagged m b) (h' : Tagged m c) (ha : b.addr = c.addr)
    (hu : b.used = c.used) : b = c := by
  have hsize : b.size = c.size := by rw [← h.getSize, ← h'.getSize, ha]
  exact Block.ext ha hsize hu

/-- Rewriting the flag of a block. -/
theorem setUsed (h : Tagged m b) (u : Bool) :
    Tagged (heapSetUsed m b.addr u.toNat) (b.setUsed u) := by
  have hmin := b.size_min
  have hraw := h.raw.setUsed (by omega) b.size_dvd (Bool.toNat_le b.used) (Bool.toNat_le u)
  exact RawTags.tagged (b := b.setUsed u) hraw

end Tagged

theorem heapSetUsed_frame (m : Mem) (b : Block) (u : ℕ) :
    AgreeOff m (heapSetUsed m b.addr u) b.bytes := by
  have hmin := b.size_min
  exact (AgreeOff.refl m _).wr _ fun x h1 h2 => ⟨by omega, by omega⟩

/-- Where the footer of a new block goes. -/
theorem heapCreateBlock_eq (m : Mem) {a s : ℕ} (hmin : 16 ≤ s) (hd : s % 16 = 0)
    (ha : a + s < 2 ^ 64) : heapCreateBlock m a s =
      wr (wr (wr (wr m a HEAP_MAGIC) (a + 8) s) (a + s - 16 + 8) a) (a + s - 16) HEAP_MAGIC := by
  have hsize : heapGetSize (wr (wr m a HEAP_MAGIC) (a + 8) s) a = s := by
    unfold heapGetSize
    rw [rd_wr_same, Nat.mod_eq_of_lt (by omega), heapAlign_of_dvd (by omega) hd]
  have hfoot : heapGetFooter (wr (wr m a HEAP_MAGIC) (a + 8) s) a = a + s - 16 := by
    unfold heapGetFooter
    rw [hsize, u64_of_lt ha, sub64_of_le ha (by omega)]
  unfold heapCreateBlock
  simp only [hfoot]

/-- Nothing outside the block is written. -/
theorem heapCreateBlock_frame (m : Mem) {a s : ℕ} (hmin : 16 ≤ s) (hd : s % 16 = 0)
    (ha : a + s < 2 ^ 64) :
    AgreeOff m (heapCreateBlock m a s) fun x => a ≤ x ∧ x < a + s := by
  rw [heapCreateBlock_eq m hmin hd ha]
  exact ((((AgreeOff.refl m _).wr _ fun x h1 h2 => ⟨by omega, by omega⟩).wr _
    fun x h1 h2 => ⟨by omega, by omega⟩).wr _ fun x h1 h2 => ⟨by omega, by omega⟩).wr _
    fun x h1 h2 => ⟨by omega, by omega⟩

/-- The tags that `heap_create_block` writes; nothing outside the block is written. -/
theorem heapCreateBlock_tags (m : Mem) {a s : ℕ} (hmin : 32 ≤ s) (hd : s % 16 = 0)
    (ha : a + s < 2 ^ 64) : RawTags (heapCreateBlock m a s) a s 0 ∧
      AgreeOff m (heapCreateBlock m a s) fun x => a ≤ x ∧ x < a + s := by
  refine ⟨?_, heapCreateBlock_frame m (by omega) hd ha⟩
  have e8 : a + s - 16 + 8 = a + s - 8 := by omega
  rw [heapCreateBlock_eq m (by omega) hd ha, e8]
  refine ⟨?_, ?_, ?_, ?_⟩
  · rw [rd_wr_apart _ _ (by omega), rd_wr_apart _ _ (by omega), rd_wr_apart _ _ (by omega), rd_wr_same]
    rfl
  · rw [rd_wr_apart _ _ (by omega), rd_wr_apart _ _ (by omega), rd_wr_same]
    exact Nat.mod_eq_of_lt (by omega)
  · rw [rd_wr_same]
    rfl
  · rw [rd_wr_apart _ _ (by omega), rd_wr_same]
    exact Nat.mod_eq_of_lt (by omega)

/-- A created block is tagged, and nothing outside it is written. -/
theorem heapCreateBlock_spec (m : Mem) (b : Block) (hb : b.addr + b.size < 2 ^ 64)
    (hu : b.used = false) :
    Tagged (heapCreateBlock m b.addr b.size) b ∧
      AgreeOff m (heapCreateBlock m b.addr b.size) b.bytes := by
  have hmin := b.size_min
  obtain ⟨h1, h2⟩ := heapCreateBlock_tags m (by omega) b.size_dvd hb
  refine ⟨RawTags.tagged ?_, h2⟩
  rw [hu]
  exact h1

/-! ### Tilings -/

/-- The blocks lie end to end from `lo` to `hi`. -/
def Tiles : ℕ → List Block → ℕ → Prop
  | lo, [], hi => lo = hi
  | lo, b :: bs, hi => b.addr = lo ∧ Tiles (lo + b.size) bs hi

instance decidableTiles : ∀ (lo : ℕ) (bs : List Block) (hi : ℕ), Decidable (Tiles lo bs hi)
  | lo, [], hi => inferInstanceAs (Decidable (lo = hi))
  | lo, b :: bs, hi =>
      have := decidableTiles (lo + b.size) bs hi
      inferInstanceAs (Decidable (b.addr = lo ∧ Tiles (lo + b.size) bs hi))

namespace Tiles

variable {lo hi : ℕ} {bs xs ys : List Block} {b c : Block}

theorem append_iff : ∀ {xs ys : List Block} {lo : ℕ},
    Tiles lo (xs ++ ys) hi ↔ ∃ mid, Tiles lo xs mid ∧ Tiles mid ys hi
  | [], ys, lo => by simp [Tiles]
  | x :: xs, ys, lo => by
      simp only [List.cons_append, Tiles]
      rw [append_iff]
      constructor
      · rintro ⟨h1, mid, h2, h3⟩
        exact ⟨mid, ⟨h1, h2⟩, h3⟩
      · rintro ⟨mid, ⟨h1, h2⟩, h3⟩
        exact ⟨h1, mid, h2, h3⟩

theorem le : ∀ {bs : List Block} {lo : ℕ}, Tiles lo bs hi → lo ≤ hi
  | [], _, h => Nat.le_of_eq h
  | _ :: _, _, ⟨_, h⟩ => le_trans (Nat.le_add_right _ _) h.le

theorem bounds : ∀ {bs : List Block} {lo : ℕ}, Tiles lo bs hi → ∀ b ∈ bs,
    lo ≤ b.addr ∧ b.addr + b.size ≤ hi
  | [], _, _, _, hb => by cases hb
  | c :: bs, lo, ⟨h1, h2⟩, b, hb => by
      rcases List.mem_cons.mp hb with rfl | hb
      · exact ⟨h1.ge, by rw [h1]; exact h2.le⟩
      · have := h2.bounds b hb
        omega

/-- A block lies after the blocks before it and before the blocks after it. -/
theorem split (h : Tiles lo (xs ++ b :: ys) hi) :
    Tiles lo xs b.addr ∧ Tiles (b.addr + b.size) ys hi := by
  obtain ⟨mid, h1, h2, h3⟩ := append_iff.mp h
  subst h2
  exact ⟨h1, h3⟩

/-- Distinct blocks do not overlap. -/
theorem apart (h : Tiles lo bs hi) (hb : b ∈ bs) (hc : c ∈ bs) (hne : b.addr ≠ c.addr) :
    b.addr + b.size ≤ c.addr ∨ c.addr + c.size ≤ b.addr := by
  obtain ⟨xs, ys, rfl⟩ := List.append_of_mem hb
  obtain ⟨h1, h2⟩ := h.split
  rw [List.mem_append, List.mem_cons] at hc
  rcases hc with hc | rfl | hc
  · exact .inr (h1.bounds c hc).2
  · exact absurd rfl hne
  · exact .inl (h2.bounds c hc).1

theorem eq_of_addr (h : Tiles lo bs hi) (hb : b ∈ bs) (hc : c ∈ bs) (he : b.addr = c.addr) :
    b = c := by
  obtain ⟨xs, ys, rfl⟩ := List.append_of_mem hb
  obtain ⟨h1, h2⟩ := h.split
  have hbm := b.size_min
  have hcm := c.size_min
  rw [List.mem_append, List.mem_cons] at hc
  rcases hc with hc | rfl | hc
  · have := h1.bounds c hc
    omega
  · rfl
  · have := h2.bounds c hc
    omega

end Tiles

end Dawos
