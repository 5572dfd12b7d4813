import Dawos.HeapTags

/-! # Allocation and release, seen from the boundary tags

`heap_alloc` with the operations on the free index and the search as parameters; `heapAlloc_eq` says
that it is the function of `HeapAlloc.lean` for those of `heap.c`.  The calls on the index that an
allocation and the release make write links only (`RestoreLinks`), which `HeapRep.restoreLinks` says
of `heap.c` in a heap with a coherent index.

A block that is allocated without an alignment and released again is put together as it was: the
remainder that was split off is the free right neighbour of the released block, and its left
neighbour is in use.  This needs that the computed block size has room for a header and a footer,
which fails for the sizes at which `HEAP_BSIZE` wraps to 0 or 16 (`heap_alloc_free`): the search
then returns a block of the tree. -/

namespace Dawos

/-! ### The code with the search as a parameter -/

/-- `heap_search` for one heap. -/
abbrev HeapSearch := Mem → ℕ → Bool → Except Halt ℕ

/-- Extend the heap. -/
def heapExtendWith (ops : IndexOps) (pageAlloc : PageAlloc) (m : Mem) (heap bsize : ℕ) :
    Except Halt (Mem × ℕ) := do
  let block := heapEndAddr m heap
  let (allocSize, m) ← pageAlloc (heapEndAddr m heap) bsize m
  if 0 < allocSize then
    let m := wr m (heap + 8) (heapEndAddr m heap + allocSize)
    let m := heapCreateBlock m block allocSize
    heapMergeLeftWith ops m heap block
  else return (m, 0)

/-- A free block for the request that is in no list. -/
def heapTakeWith (ops : IndexOps) (search : HeapSearch) (pageAlloc : PageAlloc) (m : Mem)
    (heap bsize : ℕ) (align : Bool) : Except Halt (Mem × ℕ) := do
  let freeBlock ← search m bsize align
  if freeBlock = 0 then heapExtendWith ops pageAlloc m heap bsize
  else do
    let m ← ops.remove m freeBlock
    return (m, freeBlock)

/-- Split off what precedes an aligned payload, when asked for. -/
def heapCarveWith (ops : IndexOps) (m : Mem) (block : ℕ) (align : Bool) : Except Halt (Mem × ℕ) :=
  if align && !heapIsPageAligned (heapGetPayload block) then do
    let blockSize := heapGetSize m block
    let blockOffset := alignedOffset block
    let leftSize := alignedLeft block
    let rightSize := sub64 blockSize leftSize
    let m := heapCreateBlock m block leftSize
    let m := heapCreateBlock m blockOffset rightSize
    let m ← ops.insert m block
    return (m, blockOffset)
  else .ok (m, block)

/-- Split off what the request does not need and mark the block used. -/
def heapPlaceWith (ops : IndexOps) (m : Mem) (block bsize : ℕ) : Except Halt Mem := do
  let r := heapSplitBlock m block bsize
  if r.2 ≠ 0 then
    let m ← ops.insert r.1 r.2
    return heapSetUsed m block 1
  else return heapSetUsed r.1 block 1

/-- Allocate a block: the memory and a pointer to the payload, or `0`. -/
def heapAllocWith (ops : IndexOps) (search : HeapSearch) (pageAlloc : PageAlloc) (m : Mem)
    (heap size : ℕ) (align : Bool) : Except Halt (Mem × ℕ) := do
  let m ← heapWaitLock m heap
  if 0 < size then
    let psize := heapSizeAlign size
    let bsize := heapBsize psize
    let (m, freeBlock) ← heapTakeWith ops search pageAlloc m heap bsize align
    if freeBlock ≠ 0 then
      let (m, freeBlock) ← heapCarveWith ops m freeBlock align
      let m ← heapPlaceWith ops m freeBlock bsize
      return (heapUnlock m heap, heapGetPayload freeBlock)
    else return (heapUnlock m heap, 0)
  else return (heapUnlock m heap, 0)

theorem heapAlloc_eq (pageAlloc : PageAlloc) (fuel : ℕ) (m : Mem) (heap size : ℕ) (align : Bool) :
    heapAlloc pageAlloc fuel m heap size align =
      heapAllocWith (heapOps fuel heap) (fun m bsize align => heapSearch fuel m heap bsize align)
        pageAlloc m heap size align := rfl

/-- The heap consists of the tagged blocks `xs`, the bytes from `lo` to `hi`, which belong to no free
block, and the tagged blocks `ys`. -/
structure HoleHeap (m : Mem) (heap : ℕ) (xs : List Block) (lo hi : ℕ) (ys : List Block) : Prop where
  above : heap + HEAP_T_SIZE ≤ heapStartAddr m heap
  left : Tiles (heapStartAddr m heap) xs lo
  le : lo ≤ hi
  right : Tiles hi ys (heapEndAddr m heap)
  tagged : ∀ b ∈ xs ++ ys, Tagged m b

/-- The heap as the release of an allocated block has it when the neighbours are merged. -/
def lentMem (ops : IndexOps) (m : Mem) (heap block bsize : ℕ) : Except Halt Mem := do
  let m ← ops.remove (heapLock m heap) block
  let m ← heapPlaceWith ops m block bsize
  return released (heapUnlock m heap) heap block

/-- The operations on the index that an allocation of `bsize` bytes from the block `b` and the
release call return, and write links of the free blocks only. -/
structure RestoreLinks (ops : IndexOps) (m : Mem) (heap : ℕ) (xs : List Block) (b : Block)
    (ys : List Block) (bsize : ℕ) : Prop where
  take : WritesLinks heap (xs ++ b :: ys) (heapLock m heap) (ops.remove (heapLock m heap) b.addr)
  rest : ∀ k (r : Block), ops.remove (heapLock m heap) b.addr = .ok k →
    (heapSplitBlock k b.addr bsize).2 = r.addr → r.addr ≠ 0 →
    Tagged (heapSplitBlock k b.addr bsize).1 r → r.used = false →
    WritesLinks heap (xs ++ r :: ys) (heapSplitBlock k b.addr bsize).1
      (ops.insert (heapSplitBlock k b.addr bsize).1 r.addr)
  merge : ∀ f (r : Block), lentMem ops m heap b.addr bsize = .ok f →
    heapRightHeader f b.addr = r.addr → r.addr < b.addr + b.size → Tagged f r → r.used = false →
    WritesLinks heap (xs ++ r :: ys) f (ops.remove f r.addr)
  put : ∀ f k, lentMem ops m heap b.addr bsize = .ok f →
    heapMergeRightWith ops f heap b.addr = .ok k → TagHeap k heap (xs ++ b :: ys) →
    WritesLinks heap (xs ++ b :: ys) k (ops.insert k b.addr)

/-- The allocation of `size` bytes without an alignment and the release of the pointer return, and
the blocks are `bs` again. -/
def Restores (n : ℕ) (ops : IndexOps) (pageAlloc : PageAlloc) (m : Mem) (heap : ℕ)
    (bs : List Block) (size : ℕ) : Prop :=
  ∃ m₁ p m₂, heapAllocWith ops (fun m bsize align => heapSearch n m heap bsize align) pageAlloc m
      heap size false = .ok (m₁, p) ∧
    heapFreeWith ops m₁ heap p = .ok m₂ ∧ TagHeap m₂ heap bs

/-! ### A heap around one block -/

section hole

variable {m k k' : Mem} {heap lo hi : ℕ} {b r : Block} {xs ys : List Block} {ops : IndexOps}

/-- What the two calls write: links of the other blocks, the lock, and the block `b`. -/
def restoreBytes (heap : ℕ) (xs : List Block) (b : Block) (ys : List Block) (x : ℕ) : Prop :=
  linkArea heap (xs ++ ys) x ∨ lockBytes heap x ∨ b.bytes x

theorem mem_around {c : Block} : c ∈ xs ++ b :: ys ↔ c = b ∨ c ∈ xs ++ ys :=
  List.perm_middle.mem_iff.trans List.mem_cons

theorem linkArea_mono {bs cs : List Block} (h : bs ⊆ cs) {x : ℕ} (hx : linkArea heap bs x) :
    linkArea heap cs x := by
  rcases hx with hx | ⟨c, hc, hx⟩
  · exact .inl hx
  · exact .inr ⟨c, h hc, hx⟩

/-- The links of a block inside `b` are bytes of `b`. -/
theorem linkArea_restore (hin : ∀ x, r.bytes x → b.bytes x) {x : ℕ}
    (hx : linkArea heap (xs ++ r :: ys) x) : restoreBytes heap xs b ys x := by
  rcases hx with hx | ⟨c, hc, hu, h1, h2⟩
  · exact .inl (.inl hx)
  · rcases mem_around.mp hc with rfl | hc
    · exact .inr (.inr (hin x ⟨by omega, by omega⟩))
    · exact .inl (.inr ⟨c, hc, hu, h1, h2⟩)

/-- The blocks around `b` stay as they are. -/
theorem TagHeap.hole (h : TagHeap m heap (xs ++ b :: ys))
    (hf : AgreeOff m k (restoreBytes heap xs b ys)) :
    HoleHeap k heap xs b.addr (b.addr + b.size) ys := by
  obtain ⟨h1, h2⟩ := h.tiles.split
  have hb := h.bounds (b := b) (by simp)
  have hsub : xs ++ ys ⊆ xs ++ b :: ys := fun c hc => mem_around.mpr (.inr hc)
  have habove := h.above
  rw [HEAP_T_SIZE] at hb
  have hw : ∀ x, heap ≤ x → x < heap + 16 → k x = m x := by
    intro x h3 h4
    refine hf x fun hx => ?_
    rcases hx with hx | hx | hx
    · have := (h.linkArea_apart (linkArea_mono hsub hx)).1
      omega
    · have := hx.1
      omega
    · have := hx.1
      omega
  have hst : heapStartAddr k heap = heapStartAddr m heap :=
    rd_congr fun x h3 h4 => hw x h3 (by omega)
  have hen : heapEndAddr k heap = heapEndAddr m heap :=
    rd_congr fun x h3 h4 => hw x (by omega) (by omega)
  refine ⟨hst.symm ▸ habove, hst.symm ▸ h1, Nat.le_add_right _ _, hen.symm ▸ h2, fun c hc => ?_⟩
  refine (h.tagged c (hsub hc)).congr fun x hx => hf x fun hr => ?_
  have hcb := h.bounds (hsub hc)
  rw [HEAP_T_SIZE] at hcb
  have hmin := c.size_min
  rcases hr with hr | ⟨-, hr⟩ | ⟨hr1, hr2⟩
  · exact (h.linkArea_apart (linkArea_mono hsub hr)).2 c (hsub hc) hx
  · cases hx <;> omega
  · rcases List.mem_append.mp hc with hc | hc
    · have := h1.bounds c hc
      cases hx <;> omega
    · have := h2.bounds c hc
      cases hx <;> omega

/-- The bytes are a block. -/
theorem HoleHeap.fill (h : HoleHeap k heap xs b.addr (b.addr + b.size) ys) (hb : Tagged k b) :
    TagHeap k heap (xs ++ b :: ys) := by
  refine ⟨h.above, Tiles.append_iff.mpr ⟨b.addr, h.left, rfl, h.right⟩, fun c hc => ?_⟩
  rcases mem_around.mp hc with rfl | hc
  · exact hb
  · exact h.tagged c hc

/-- Their last part is a block. -/
theorem HoleHeap.shrink (h : HoleHeap k heap xs lo hi ys) (hr : Tagged k r) (hlo : lo ≤ r.addr)
    (hhi : r.addr + r.size = hi) : HoleHeap k heap xs lo r.addr (r :: ys) := by
  refine ⟨h.above, h.left, hlo, ⟨rfl, hhi ▸ h.right⟩, fun c hc => ?_⟩
  rcases mem_around.mp hc with rfl | hc
  · exact hr
  · exact h.tagged c hc

/-- Links lie off the bytes in between and off the tags of the block after them. -/
theorem HoleHeap.linkArea_off (h : HoleHeap k heap xs lo r.addr (r :: ys)) {x : ℕ}
    (hx : linkArea heap (xs ++ r :: ys) x) : ¬ (lo ≤ x ∧ x < r.addr) ∧ ¬ r.tagBytes x := by
  have hab := h.above
  have hlo := h.left.le
  have hle := h.le
  have hmin := r.size_min
  rcases hx with ⟨h1, h2⟩ | ⟨c, hc, -, h1, h2⟩
  · exact ⟨by omega, fun ht => by cases ht <;> omega⟩
  · rcases List.mem_append.mp hc with hc | hc
    · have := h.left.bounds c hc
      exact ⟨by omega, fun ht => by cases ht <;> omega⟩
    · rcases List.mem_cons.mp hc with rfl | hc
      · exact ⟨by omega, fun ht => by cases ht <;> omega⟩
      · have := h.right.2.bounds c hc
        exact ⟨by omega, fun ht => by cases ht <;> omega⟩

/-- The left neighbour is in use, if there is one. -/
theorem HoleHeap.leftFree (h : HoleHeap k heap xs lo hi ys) (hlt : lo < 2 ^ 64)
    (hlast : ∀ c ∈ xs.getLast?, c.used = true) : leftFree k heap lo = false := by
  have hl := h.left
  have hab := h.above
  rw [HEAP_T_SIZE] at hab
  unfold Dawos.leftFree
  dsimp only
  rcases List.eq_nil_or_concat xs with rfl | ⟨ws, a, rfl⟩
  · have e : heapStartAddr k heap = lo := hl
    rw [e]
    simp
  · rw [List.concat_eq_append] at h hl hlast
    obtain ⟨mid, -, h1, h2⟩ := Tiles.append_iff.mp hl
    have h2 : mid + a.size = lo := h2
    have hmin := a.size_min
    have ha : Tagged k a := h.tagged a (by simp)
    have hused : a.used = true := hlast a (by simp)
    have hfoot : heapLeftFooter lo = a.addr + a.size - 16 := by
      unfold heapLeftFooter
      rw [sub64_of_le hlt (by omega)]
      omega
    rw [hfoot, ha.checkFooter.2, ha.getUsed, hused]
    simp

end hole

/-! ### The block between the calls -/

/-- Of the block `b` of `m`, `s` bytes are a block with the flag `u`, and the rest is a free block
unless there is none; all else is as in `m`, links and lock apart. -/
structure Lent (m k : Mem) (heap : ℕ) (xs : List Block) (b : Block) (ys : List Block)
    (s u : ℕ) : Prop where
  frame : AgreeOff m k (restoreBytes heap xs b ys)
  min : 32 ≤ s
  dvd : s % 16 = 0
  flag : u ≤ 1
  tags : RawTags k b.addr s u
  rest : s = b.size ∨ ∃ r : Block, Tagged k r ∧ r.used = false ∧ r.addr = b.addr + s ∧
    s + r.size = b.size

section lent

variable {m k k' : Mem} {heap s u v : ℕ} {b : Block} {xs ys : List Block} {ops : IndexOps}

theorem Lent.le (h : Lent m k heap xs b ys s u) : s ≤ b.size := by
  rcases h.rest with h | ⟨r, -, -, -, h⟩ <;> omega

/-- Writes off the block. -/
theorem Lent.outer (h : Lent m k heap xs b ys s u) {P : ℕ → Prop} (hf : AgreeOff k k' P)
    (hP : ∀ x, P x → restoreBytes heap xs b ys x) (hoff : ∀ x, P x → ¬ b.bytes x) :
    Lent m k' heap xs b ys s u := by
  have hin : ∀ x, b.addr ≤ x → x < b.addr + b.size → k' x = k x := fun x h1 h2 =>
    hf x fun hx => hoff x hx ⟨h1, h2⟩
  have hle := h.le
  have hmin := h.min
  refine ⟨h.frame.trans (hf.mono hP), h.min, h.dvd, h.flag,
    h.tags.congr h.min fun x hx => hin x (by omega) (by omega), ?_⟩
  refine h.rest.imp_right fun ⟨r, hr, hru, h1, h2⟩ => ⟨r, hr.congr fun x hx => ?_, hru, h1, h2⟩
  have hrm := r.size_min
  cases hx <;> exact hin x (by omega) (by omega)

/-- The flag is rewritten. -/
theorem Lent.setUsed (h : Lent m k heap xs b ys s u) (hv : v ≤ 1) :
    Lent m (heapSetUsed k b.addr v) heap xs b ys s v := by
  have hmin := h.min
  have hle := h.le
  have hf : AgreeOff k (heapSetUsed k b.addr v) fun x => b.addr ≤ x ∧ x < b.addr + s :=
    (AgreeOff.refl k _).wr _ fun x h1 h2 => ⟨by omega, by omega⟩
  refine ⟨h.frame.trans (hf.mono fun x hx => .inr (.inr ⟨hx.1, by omega⟩)), h.min, h.dvd, hv,
    h.tags.setUsed h.min h.dvd h.flag hv, ?_⟩
  refine h.rest.imp_right fun ⟨r, hr, hru, h1, h2⟩ => ⟨r, hr.congr fun x hx => hf x ?_, hru, h1, h2⟩
  have hrm := r.size_min
  cases hx <;> omega

/-- Links are written while the block is split. -/
theorem RawTags.links {r : Block} (h : RawTags k b.addr s u) (ht : TagHeap m heap (xs ++ b :: ys))
    (hf : AgreeOff m k (restoreBytes heap xs b ys)) (hs : 32 ≤ s)
    (hr : Tagged k r) (h1 : r.addr = b.addr + s) (h2 : s + r.size = b.size)
    (hl : AgreeOff k k' (linkArea heap (xs ++ r :: ys))) :
    AgreeOff m k' (restoreBytes heap xs b ys) ∧ RawTags k' b.addr s u ∧ Tagged k' r := by
  have hole : HoleHeap k heap xs b.addr r.addr (r :: ys) :=
    (ht.hole hf).shrink hr (by omega) (by omega)
  refine ⟨hf.trans (hl.mono fun x hx => linkArea_restore (r := r) (fun y hy => ?_) hx), ?_, ?_⟩
  · exact ⟨by have := hy.1; omega, by have := hy.2; omega⟩
  · exact h.congr hs fun x h3 => hl x fun hx => (hole.linkArea_off hx).1 (by omega)
  · exact hr.congr fun x hx => hl x fun hlx => (hole.linkArea_off hlx).2 hx

/-- The two outcomes of a split. -/
theorem heapSplitBlock_eq {bsize : ℕ} (hb : Tagged k b) (hlt : b.addr + b.size < 2 ^ 64)
    (hd : bsize % 16 = 0) (hle : bsize ≤ b.size) : heapSplitBlock k b.addr bsize =
      if HEAP_LIST_MIN ≤ b.size - bsize then
        (heapCreateBlock (heapCreateBlock k (b.addr + bsize) (b.size - bsize)) b.addr bsize,
          b.addr + bsize)
      else (k, 0) := by
  unfold heapSplitBlock
  rw [hb.getSize, heapAlign_of_dvd (by omega) hd]
  dsimp only
  rw [sub64_of_le (by omega) hle, u64_of_lt (by omega)]

/-- What a split writes, and the remainder. -/
theorem heapSplitBlock_rest {bsize : ℕ} {r : Block} (hb : Tagged k b)
    (hlt : b.addr + b.size < 2 ^ 64) (hmin : 16 ≤ bsize) (hd : bsize % 16 = 0)
    (hra : r.addr = b.addr + bsize) (hrs : bsize + r.size = b.size) (hru : r.used = false) :
    ∃ k₁, heapSplitBlock k b.addr bsize = (heapCreateBlock k₁ b.addr bsize, r.addr) ∧
      AgreeOff k (heapCreateBlock k₁ b.addr bsize) b.bytes ∧
      Tagged (heapCreateBlock k₁ b.addr bsize) r := by
  have hrm := r.size_min
  have hsplit := heapSplitBlock_eq hb hlt hd (show bsize ≤ b.size by omega)
  have hrest : b.size - bsize = r.size := by omega
  rw [hrest, if_pos (show HEAP_LIST_MIN ≤ r.size from hrm), ← hra] at hsplit
  obtain ⟨h1, f1⟩ := heapCreateBlock_spec k r (by omega) hru
  have f2 := heapCreateBlock_frame (heapCreateBlock k r.addr r.size) hmin hd
    (show b.addr + bsize < 2 ^ 64 by omega)
  refine ⟨_, hsplit, ?_, ?_⟩
  · exact (f1.mono fun x hx => ⟨by have := hx.1; omega, by have := hx.2; omega⟩).trans
      (f2.mono fun x hx => ⟨hx.1, by omega⟩)
  · exact h1.congr fun x hx => f2 x fun hx' => by cases hx <;> omega

/-- The block is split. -/
theorem heapPlaceWith_rest (ops : IndexOps) {bsize : ℕ} {r : Block} (h : TagHeap m heap (xs ++ b :: ys))
    (hf : AgreeOff m k (restoreBytes heap xs b ys)) (hb : Tagged k b) (hmin : 32 ≤ bsize)
    (hd : bsize % 16 = 0) (hra : r.addr = b.addr + bsize) (hrs : bsize + r.size = b.size)
    (hru : r.used = false) :
    ∃ k₁, heapSplitBlock k b.addr bsize = (k₁, r.addr) ∧ AgreeOff k k₁ b.bytes ∧ Tagged k₁ r ∧
      ∀ k₂, ops.insert k₁ r.addr = .ok k₂ → AgreeOff k₁ k₂ (linkArea heap (xs ++ r :: ys)) →
        heapPlaceWith ops k b.addr bsize = .ok (heapSetUsed k₂ b.addr 1) ∧
          Lent m (heapSetUsed k₂ b.addr 1) heap xs b ys bsize 1 := by
  have hlt := (h.bounds (b := b) (by simp)).2.2.2
  have hrm := r.size_min
  have hne : r.addr ≠ 0 := by omega
  obtain ⟨k₀, hsplit, hin, hr⟩ := heapSplitBlock_rest hb hlt (by omega) hd hra hrs hru
  obtain ⟨hraw, -⟩ := heapCreateBlock_tags k₀ hmin hd (show b.addr + bsize < 2 ^ 64 by omega)
  refine ⟨_, hsplit, hin, hr, ?_⟩
  generalize heapCreateBlock k₀ b.addr bsize = k₁ at *
  intro k₂ hret hl
  obtain ⟨g1, g2, g3⟩ := hraw.links h (hf.trans (hin.mono fun x hx => .inr (.inr hx))) hmin hr
    hra hrs hl
  have hlent : Lent m k₂ heap xs b ys bsize 0 :=
    ⟨g1, hmin, hd, by omega, g2, .inr ⟨r, g3, hru, hra, hrs⟩⟩
  refine ⟨?_, hlent.setUsed le_rfl⟩
  unfold heapPlaceWith
  rw [hsplit]
  dsimp only
  rw [if_pos hne, hret, ok_bind]
  rfl

/-- The block is not split. -/
theorem heapPlaceWith_whole (ops : IndexOps) {bsize : ℕ} (h : TagHeap m heap (xs ++ b :: ys))
    (hf : AgreeOff m k (restoreBytes heap xs b ys)) (hb : Tagged k b) (hbu : b.used = false)
    (hd : bsize % 16 = 0) (hle : bsize ≤ b.size) (hs : b.size - bsize < HEAP_LIST_MIN) :
    heapSplitBlock k b.addr bsize = (k, 0) ∧
      heapPlaceWith ops k b.addr bsize = .ok (heapSetUsed k b.addr 1) ∧
      Lent m (heapSetUsed k b.addr 1) heap xs b ys b.size 1 := by
  have hlt := (h.bounds (b := b) (by simp)).2.2.2
  have hbm := b.size_min
  have hsplit := heapSplitBlock_eq hb hlt hd hle
  rw [if_neg (not_le.mpr hs)] at hsplit
  have hraw := hb.raw
  rw [hbu] at hraw
  have hlent : Lent m k heap xs b ys b.size 0 :=
    ⟨hf, by omega, b.size_dvd, by omega, hraw, .inl rfl⟩
  refine ⟨hsplit, ?_, hlent.setUsed le_rfl⟩
  unfold heapPlaceWith
  rw [hsplit]
  rfl

/-- The block is split if the remainder is large enough, and marked. -/
theorem heapPlaceWith_lent {bsize : ℕ} (hops : ∀ r : Block,
      (heapSplitBlock k b.addr bsize).2 = r.addr → r.addr ≠ 0 →
      Tagged (heapSplitBlock k b.addr bsize).1 r → r.used = false →
      WritesLinks heap (xs ++ r :: ys) (heapSplitBlock k b.addr bsize).1
        (ops.insert (heapSplitBlock k b.addr bsize).1 r.addr))
    (h : TagHeap m heap (xs ++ b :: ys)) (hf : AgreeOff m k (restoreBytes heap xs b ys))
    (hb : Tagged k b) (hbu : b.used = false) (hmin : 32 ≤ bsize) (hd : bsize % 16 = 0)
    (hle : bsize ≤ b.size) :
    ∃ k' s, heapPlaceWith ops k b.addr bsize = .ok k' ∧ Lent m k' heap xs b ys s 1 := by
  by_cases hs : b.size - bsize < HEAP_LIST_MIN
  · obtain ⟨-, h1, h2⟩ := heapPlaceWith_whole ops h hf hb hbu hd hle hs
    exact ⟨_, _, h1, h2⟩
  · have hbd := b.size_dvd
    obtain ⟨r, hra, hrs, hru⟩ : ∃ r : Block, r.addr = b.addr + bsize ∧ bsize + r.size = b.size ∧
        r.used = false := ⟨⟨b.addr + bsize, b.size - bsize, false, not_lt.mp hs, by omega⟩, rfl,
      Nat.add_sub_cancel' hle, rfl⟩
    obtain ⟨k₁, hsplit, -, hr, hplace⟩ := heapPlaceWith_rest ops h hf hb hmin hd hra hrs hru
    rw [hsplit] at hops
    obtain ⟨k₂, e, f⟩ := hops r rfl (by omega) hr hru
    obtain ⟨h1, h2⟩ := hplace k₂ e f
    exact ⟨_, _, h1, h2⟩

theorem lockBytes_off (h : TagHeap m heap (xs ++ b :: ys)) {x : ℕ} (hx : lockBytes heap x) :
    ¬ b.bytes x := by
  rintro ⟨h1, -⟩
  have h2 := hx.2
  have h3 := (h.bounds (b := b) (by simp)).1
  rw [HEAP_T_SIZE] at h3
  omega

/-- The lock is written. -/
theorem Lent.lock (h : Lent m k heap xs b ys s u) (ht : TagHeap m heap (xs ++ b :: ys))
    (hf : AgreeOff k k' (lockBytes heap)) : Lent m k' heap xs b ys s u :=
  h.outer hf (fun _ hx => .inr (.inl hx)) fun _ hx => lockBytes_off ht hx

/-- The heap as the release has it. -/
theorem Lent.released (h : Lent m k heap xs b ys s 1) (ht : TagHeap m heap (xs ++ b :: ys)) :
    Lent m (released k heap b.addr) heap xs b ys s 0 :=
  (h.lock ht (heapLock_frame k heap)).setUsed (Nat.zero_le 1)

theorem lentMem_eq {bsize : ℕ} (h : ops.remove (heapLock m heap) b.addr = .ok k)
    (h' : heapPlaceWith ops k b.addr bsize = .ok k') :
    lentMem ops m heap b.addr bsize = .ok (released (heapUnlock k' heap) heap b.addr) := by
  unfold lentMem
  rw [h, ok_bind, h', ok_bind]
  rfl

/-- An allocation from the block `b`. -/
theorem heapAllocWith_lent {n size : ℕ} (pageAlloc : PageAlloc)
    (hops : RestoreLinks ops m heap xs b ys (heapBsize (heapSizeAlign size)))
    (h : TagHeap m heap (xs ++ b :: ys)) (hlock : heapLocked m heap = 0) (hbu : b.used = false)
    (hsearch : heapSearch n (heapLock m heap) heap (heapBsize (heapSizeAlign size)) false =
      .ok b.addr)
    (hsize : 0 < size) (hmin : 32 ≤ heapBsize (heapSizeAlign size))
    (hle : heapBsize (heapSizeAlign size) ≤ b.size) :
    ∃ k s, heapAllocWith ops (fun m bsize align => heapSearch n m heap bsize align) pageAlloc m
        heap size false = .ok (heapUnlock k heap, b.addr + 16) ∧
      lentMem ops m heap b.addr (heapBsize (heapSizeAlign size)) =
        .ok (released (heapUnlock k heap) heap b.addr) ∧
      Lent m (heapUnlock k heap) heap xs b ys s 1 := by
  have hbnd := h.bounds (b := b) (by simp)
  have hbm := b.size_min
  have hd := heapBsize_dvd (heapSizeAlign size)
  obtain ⟨h1, -⟩ := h.lock (heapLock_frame m heap)
  obtain ⟨m2, e2, f2⟩ := hops.take
  obtain ⟨h2, -⟩ := h1.links f2
  have hf : AgreeOff m m2 (restoreBytes heap xs b ys) :=
    ((heapLock_frame m heap).mono fun x hx => .inr (.inl hx)).trans
      (f2.mono fun x hx => linkArea_restore (r := b) (fun y hy => hy) hx)
  obtain ⟨k, s, e3, hlent⟩ := heapPlaceWith_lent (fun r => hops.rest m2 r e2) h hf
    (h2.tagged b (by simp)) hbu hmin hd hle
  refine ⟨k, s, ?_, ?_, hlent.lock h (heapUnlock_frame k heap)⟩
  · have hne : b.addr ≠ 0 := by
      rw [HEAP_T_SIZE] at hbnd
      omega
    have htake : heapTakeWith ops (fun m bsize align => heapSearch n m heap bsize align) pageAlloc
        (heapLock m heap) heap (heapBsize (heapSizeAlign size)) false = .ok (m2, b.addr) := by
      unfold heapTakeWith
      dsimp only
      rw [hsearch, ok_bind, if_neg hne, e2, ok_bind]
      rfl
    have hpay : heapGetPayload b.addr = b.addr + 16 := u64_of_lt (by omega)
    unfold heapAllocWith
    rw [heapWaitLock_clear hlock, ok_bind, if_pos hsize]
    dsimp only
    rw [htake, ok_bind]
    dsimp only
    rw [if_pos hne]
    unfold heapCarveWith
    rw [Bool.false_and, if_neg Bool.false_ne_true, ok_bind]
    dsimp only
    rw [e3, ok_bind, hpay]
    rfl
  · exact lentMem_eq e2 e3

/-- A block that is not split is tagged as it was. -/
theorem Lent.whole (h : Lent m k heap xs b ys b.size 0) (hbu : b.used = false) : Tagged k b := by
  apply RawTags.tagged
  rw [hbu]
  exact h.tags

/-- A block that was not split has no right neighbour to merge with. -/
theorem Lent.rightFree_whole (h : Lent m k heap xs b ys b.size 0)
    (ht : TagHeap m heap (xs ++ b :: ys)) (hbu : b.used = false)
    (hn : NoFreePair (xs ++ b :: ys)) : rightFree k heap b.addr = false := by
  have hk := (ht.hole h.frame).fill (h.whole hbu)
  cases ys with
  | nil => exact hk.rightFree_last
  | cons c cs =>
      have hnext : NoFreePair (b :: c :: cs) := (List.isChain_append.mp hn).2.1
      obtain ⟨d, ds, he, hdu⟩ := hnext.next hbu (by simp)
      obtain ⟨rfl, -⟩ := List.cons.inj he
      rw [hk.rightFree_next.1, hdu]
      rfl

/-- The remainder is found again. -/
theorem Lent.rightFree_rest {r : Block} (h : Lent m k heap xs b ys s 0)
    (ht : TagHeap m heap (xs ++ b :: ys)) (hr : Tagged k r) (hru : r.used = false)
    (h1 : r.addr = b.addr + s) (h2 : s + r.size = b.size) :
    rightFree k heap b.addr = true ∧ heapRightHeader k b.addr = r.addr := by
  have hlt := (ht.bounds (b := b) (by simp)).2.2.2
  have hend := (ht.hole h.frame).right.le
  have hmin := h.min
  have hd := h.dvd
  have hrm := r.size_min
  have hright : heapRightHeader k b.addr = r.addr := by
    rw [h.tags.rightHeader hd (by omega) (by omega), h1]
  refine ⟨?_, hright⟩
  unfold rightFree
  dsimp only
  rw [hright, h.tags.getFooter hmin hd (by omega) (by omega), u64_of_lt (by omega),
    hr.checkHeader (by omega), hr.getUsed, hru, Nat.sub_add_cancel (by omega),
    decide_eq_true (by omega)]
  rfl

/-- Merging with the remainder makes the block again. -/
theorem Lent.merge_rest {r : Block} (h : Lent m k heap xs b ys s 0)
    (ht : TagHeap m heap (xs ++ b :: ys)) (hbu : b.used = false) (hr : Tagged k r)
    (hru : r.used = false) (h1 : r.addr = b.addr + s) (h2 : s + r.size = b.size)
    (hret : ops.remove k r.addr = .ok k') (hf : AgreeOff k k' (linkArea heap (xs ++ r :: ys))) :
    heapMergeRightWith ops k heap b.addr = .ok (heapCreateBlock k' b.addr b.size) ∧
      TagHeap (heapCreateBlock k' b.addr b.size) heap (xs ++ b :: ys) := by
  have hlt := (ht.bounds (b := b) (by simp)).2.2.2
  have hmin := h.min
  have hd := h.dvd
  have hrm := r.size_min
  obtain ⟨hfree, hright⟩ := h.rightFree_rest ht hr hru h1 h2
  obtain ⟨g1, g2, g3⟩ := h.tags.links ht h.frame hmin hr h1 h2 hf
  have hsum : u64 (heapGetSize k' b.addr + heapGetSize k' r.addr) = b.size := by
    rw [g2.getSize hd (by omega), g3.getSize, h2, u64_of_lt (by omega)]
  obtain ⟨t4, f4⟩ := heapCreateBlock_spec k' b hlt hbu
  constructor
  · unfold heapMergeRightWith
    rw [if_pos hfree]
    dsimp only
    rw [hright, hret, ok_bind, hsum]
    rfl
  · exact (ht.hole (g1.trans (f4.mono fun x hx => .inr (.inr hx)))).fill t4

/-- The remainder is merged again. -/
theorem heapMergeRightWith_lent (hops : ∀ r : Block, heapRightHeader k b.addr = r.addr →
      r.addr < b.addr + b.size → Tagged k r → r.used = false →
      WritesLinks heap (xs ++ r :: ys) k (ops.remove k r.addr))
    (ht : TagHeap m heap (xs ++ b :: ys))
    (hbu : b.used = false) (hn : NoFreePair (xs ++ b :: ys)) (h : Lent m k heap xs b ys s 0) :
    ∃ k', heapMergeRightWith ops k heap b.addr = .ok k' ∧ TagHeap k' heap (xs ++ b :: ys) := by
  rcases h.rest with rfl | ⟨r, hr, hru, h1, h2⟩
  · refine ⟨k, ?_, (ht.hole h.frame).fill (h.whole hbu)⟩
    unfold heapMergeRightWith
    rw [h.rightFree_whole ht hbu hn]
    rfl
  · have hrm := r.size_min
    obtain ⟨k', e, f⟩ := hops r (h.rightFree_rest ht hr hru h1 h2).2 (by omega) hr hru
    exact ⟨_, h.merge_rest ht hbu hr hru h1 h2 e f⟩

/-- The release of the block. -/
theorem heapFreeWith_lent {bsize : ℕ} (hops : RestoreLinks ops m heap xs b ys bsize)
    (hmem : lentMem ops m heap b.addr bsize = .ok (released k heap b.addr))
    (ht : TagHeap m heap (xs ++ b :: ys)) (hbu : b.used = false)
    (hn : NoFreePair (xs ++ b :: ys)) (hlock : heapLocked k heap = 0)
    (h : Lent m k heap xs b ys s 1) :
    ∃ k', heapFreeWith ops k heap (b.addr + 16) = .ok k' ∧ TagHeap k' heap (xs ++ b :: ys) := by
  have hlt := (ht.bounds (b := b) (by simp)).2.2.2
  have hbm := b.size_min
  have hle := h.le
  have hhead : heapPayloadHeader (b.addr + 16) = b.addr := by
    unfold heapPayloadHeader
    rw [sub64_of_le (by omega) (by omega), Nat.add_sub_cancel]
  have hcheck := h.tags.checkHeader h.min h.dvd le_rfl (by omega)
  have h2 := h.released ht
  have hlast : ∀ c ∈ xs.getLast?, c.used = true := fun c hc =>
    ((List.isChain_append.mp hn).2.2 c hc b (by simp)).resolve_right (by simp [hbu])
  have hleft : heapMergeLeftWith ops (released k heap b.addr) heap b.addr =
      .ok (released k heap b.addr, b.addr) := by
    unfold heapMergeLeftWith
    rw [(ht.hole h2.frame).leftFree (by omega) hlast]
    rfl
  obtain ⟨k3, e3, h3⟩ := heapMergeRightWith_lent (fun r => hops.merge _ r hmem) ht hbu hn h2
  obtain ⟨k4, e4, f4⟩ := hops.put _ _ hmem e3 h3
  obtain ⟨h4, -⟩ := h3.links f4
  refine ⟨heapUnlock k4 heap, ?_, (h4.lock (heapUnlock_frame k4 heap)).1⟩
  have hne : b.addr + 16 ≠ 0 := by omega
  unfold released at hleft e3
  unfold heapFreeWith
  rw [if_pos hne]
  dsimp only
  rw [hhead, if_pos hcheck, heapWaitLock_clear hlock, ok_bind, hleft, ok_bind]
  dsimp only
  rw [e3, ok_bind, e4, ok_bind]
  rfl

/-- Allocation and release. -/
theorem restores_of_room (pageAlloc : PageAlloc) {n size : ℕ}
    (hops : RestoreLinks ops m heap xs b ys (heapBsize (heapSizeAlign size)))
    (h : TagHeap m heap (xs ++ b :: ys)) (hlock : heapLocked m heap = 0)
    (hn : NoFreePair (xs ++ b :: ys)) (hbu : b.used = false)
    (hsearch : heapSearch n (heapLock m heap) heap (heapBsize (heapSizeAlign size)) false =
      .ok b.addr)
    (hsize : 0 < size) (hmin : 32 ≤ heapBsize (heapSizeAlign size))
    (hle : heapBsize (heapSizeAlign size) ≤ b.size) :
    Restores n ops pageAlloc m heap (xs ++ b :: ys) size := by
  obtain ⟨k, s, e1, hmem, hlent⟩ := heapAllocWith_lent pageAlloc hops h hlock hbu hsearch hsize
    hmin hle
  obtain ⟨k', e2, h'⟩ := heapFreeWith_lent hops hmem h hbu hn (heapUnlock_locked k heap) hlent
  exact ⟨heapUnlock k heap, b.addr + 16, k', e1, e2, h'⟩

end lent

/-! ### The operations of `heap.c` -/

section index

variable {m k k' : Mem} {heap lo hi : ℕ} {b r : Block} {xs ys : List Block} {S : Set ℕ}

/-- Blocks around a hole do not overlap. -/
theorem HoleHeap.spaced (h : HoleHeap k heap xs lo hi ys) :
    Spaced {a | ∃ c ∈ xs ++ ys, c.addr = a} where
  apart := by
    rintro _ ⟨c, hc, rfl⟩ _ ⟨d, hd, rfl⟩ hne
    have hcm := c.size_min
    have hdm := d.size_min
    have hle := h.le
    rcases List.mem_append.mp hc with hc | hc <;> rcases List.mem_append.mp hd with hd | hd
    · have := h.left.apart hc hd hne
      omega
    · have h1 := h.left.bounds c hc
      have h2 := h.right.bounds d hd
      omega
    · have h1 := h.right.bounds c hc
      have h2 := h.left.bounds d hd
      omega
    · have := h.right.apart hc hd hne
      omega
  le := by
    rintro _ ⟨c, hc, rfl⟩
    have hcm := c.size_min
    have hend : heapEndAddr k heap < 2 ^ 64 := rd_lt k _
    have h1 := h.le
    have h2 := h.right.le
    rcases List.mem_append.mp hc with hc | hc
    · have := h.left.bounds c hc
      omega
    · have := h.right.bounds c hc
      omega
  pos := by
    rintro _ ⟨c, hc, rfl⟩
    have h1 := h.above
    have h2 := h.left.le
    have h3 := h.le
    rw [HEAP_T_SIZE] at h1
    rcases List.mem_append.mp hc with hc | hc
    · have := h.left.bounds c hc
      omega
    · have := h.right.bounds c hc
      omega

/-- The lock and the bytes of the hole are not part of the index. -/
theorem HoleHeap.index {k₀ : Mem} (h : HoleHeap k₀ heap xs lo hi ys) (hx : HeapIndex k heap S)
    (hS : S ⊆ freeAddrs (xs ++ ys))
    (hf : AgreeOff k k' fun x => lockBytes heap x ∨ lo ≤ x ∧ x < hi) : HeapIndex k' heap S := by
  have habove := h.above
  have hlo := h.left.le
  have hle := h.le
  rw [HEAP_T_SIZE] at habove
  refine hx.congr (fun a ha x h1 h2 => hf x fun hx => ?_) fun x h1 h2 => hf x fun hx => ?_
  · obtain ⟨c, hc, -, rfl⟩ := hS ha
    have hcm := c.size_min
    have hx : x < heap + 32 ∨ lo ≤ x ∧ x < hi := hx.imp_left And.right
    rcases List.mem_append.mp hc with hc | hc
    · have := h.left.bounds c hc
      omega
    · have := h.right.bounds c hc
      omega
  · rw [HEAP_T_SIZE] at h2
    rcases hx with ⟨-, h3⟩ | ⟨h3, -⟩ <;> omega

/-- Inserting a block next to a hole. -/
theorem HoleHeap.insert (h : HoleHeap k heap xs lo r.addr (r :: ys)) (hx : HeapIndex k heap S)
    (hS : S ⊆ freeAddrs (xs ++ ys)) (hru : r.used = false) (hi : Indexable r.size) :
    ∃ k', Returns (fun n => heapInsert n k heap r.addr) k' ∧
      HeapIndex k' heap (Insert.insert r.addr S) ∧ AgreeOff k k' (linkArea heap (xs ++ r :: ys)) ∧
      Removable k' r.addr := by
  have hlow := h.left.le
  have hle := h.le
  have habove := h.above
  have hsub : Insert.insert r.addr S ⊆ freeAddrs (xs ++ r :: ys) := by
    rintro a (rfl | ha)
    · exact ⟨r, by simp, hru, rfl⟩
    · obtain ⟨c, hc, hcu, e⟩ := hS ha
      exact ⟨c, mem_around.mpr (.inr hc), hcu, e⟩
  have hn : r.addr ∉ S := fun hm => by
    have hrm := r.size_min
    obtain ⟨c, hc, -, e⟩ := hS hm
    have hcm := c.size_min
    rcases List.mem_append.mp hc with hc | hc
    · have := h.left.bounds c hc
      omega
    · have := h.right.2.bounds c hc
      omega
  exact hx.insert_links hsub (fun c hc _ => h.tagged c hc) h.spaced (by omega)
    (h.tagged r (by simp)) hn hi

/-- Taking a block out of a coherent index. -/
theorem HeapRep.taken (h : HeapRep m heap (xs ++ b :: ys) (freeAddrs (xs ++ b :: ys)))
    (hbu : b.used = false) (hr : Removable m b.addr) :
    ∃ k, (∀ n, (heapOps n heap).remove (heapLock m heap) b.addr = .ok k) ∧
      HeapIndex k heap (freeAddrs (xs ++ ys)) ∧
      AgreeOff (heapLock m heap) k (linkArea heap (xs ++ b :: ys)) ∧
      AgreeOff m k (restoreBytes heap xs b ys) ∧ Tagged k b := by
  have hb : b.addr ∈ freeAddrs (xs ++ b :: ys) := ⟨b, by simp, hbu, rfl⟩
  have hr' : Removable (heapLock m heap) b.addr := hr.congr fun x h1 h2 =>
    heapLock_frame m heap x fun hx => by
      have h3 := hx.2
      have h4 := (h.mem_low (b := b) (by simp)).1
      omega
  have hrep := h.lock
  obtain ⟨k, hret, hx, hf⟩ := hrep.index.remove_links hrep.sub (fun c hc _ => hrep.tagged c hc)
    hb hr'
  rw [h.tiles.freeAddrs_sdiff hbu] at hx
  obtain ⟨ht, -⟩ := hrep.tagHeap.links hf
  refine ⟨k, fun n => ?_, hx, hf, ?_, ht.tagged b (by simp)⟩
  · rw [heapOps_remove]
    exact hret
  · exact ((heapLock_frame m heap).mono fun x hx => .inr (.inl hx)).trans
      (hf.mono fun x hx => linkArea_restore (r := b) (fun y hy => hy) hx)

/-- Inserting the remainder of the block. -/
theorem TagHeap.insert_rest (ht : TagHeap m heap (xs ++ b :: ys))
    (hf : AgreeOff m k (restoreBytes heap xs b ys)) (hx : HeapIndex k heap (freeAddrs (xs ++ ys)))
    (hin : AgreeOff k k' b.bytes) (hr : Tagged k' r) (hru : r.used = false) (hlo : b.addr ≤ r.addr)
    (hhi : r.addr + r.size = b.addr + b.size) (hi : Indexable r.size) :
    ∃ k₂, Returns (fun n => heapInsert n k' heap r.addr) k₂ ∧
      HeapIndex k₂ heap (insert r.addr (freeAddrs (xs ++ ys))) ∧
      AgreeOff k' k₂ (linkArea heap (xs ++ r :: ys)) ∧ Removable k₂ r.addr := by
  have hx' : HeapIndex k' heap (freeAddrs (xs ++ ys)) :=
    (ht.hole hf).index hx Set.Subset.rfl (hin.mono fun x hx => .inr hx)
  have hole := ht.hole (hf.trans (hin.mono fun x hx => .inr (.inr hx)))
  exact (hole.shrink hr hlo hhi).insert hx' Set.Subset.rfl hru hi

/-- What marking the block and releasing it writes. -/
theorem released_frame (k : Mem) (heap block : ℕ) :
    AgreeOff k (released (heapUnlock (heapSetUsed k block 1) heap) heap block) fun x =>
      lockBytes heap x ∨ block ≤ x ∧ x < block + 16 := by
  have hset (k : Mem) (u : ℕ) : AgreeOff k (heapSetUsed k block u) fun x =>
      lockBytes heap x ∨ block ≤ x ∧ x < block + 16 :=
    (AgreeOff.refl k _).wr _ fun x h1 h2 => .inr ⟨by omega, by omega⟩
  exact (((hset k 1).trans ((heapUnlock_frame _ heap).mono fun x => .inl)).trans
    ((heapLock_frame _ heap).mono fun x => .inl)).trans (hset _ 0)

/-- A block that is not split. -/
theorem HeapRep.restoreLinks_whole {bsize : ℕ}
    (h : HeapRep m heap (xs ++ b :: ys) (freeAddrs (xs ++ b :: ys))) (hbu : b.used = false)
    (hn : NoFreePair (xs ++ b :: ys)) (hr : Removable m b.addr) (hi : Indexable b.size)
    (hd : bsize % 16 = 0) (hle : bsize ≤ b.size) (hs : b.size - bsize < HEAP_LIST_MIN) :
    ∀ᶠ n in Filter.atTop, RestoreLinks (heapOps n heap) m heap xs b ys bsize := by
  have ht := h.tagHeap
  have hbm := b.size_min
  obtain ⟨k, hret, hx, hl, hf, hb⟩ := h.taken hbu hr
  have hplace (n : ℕ) := heapPlaceWith_whole (heapOps n heap) ht hf hb hbu hd hle hs
  have hmem (n : ℕ) := lentMem_eq (hret n) (hplace n).2.1
  have hlent := ((hplace 0).2.2.lock ht (heapUnlock_frame _ heap)).released ht
  have hx' := (ht.hole hf).index hx Set.Subset.rfl
    ((released_frame k heap b.addr).mono fun x hx => hx.imp_right fun hx => ⟨hx.1, by omega⟩)
  obtain ⟨k', hret', -, hf', -⟩ := ((ht.hole hlent.frame).shrink (hlent.whole hbu) le_rfl rfl).insert
    hx' Set.Subset.rfl hbu hi
  filter_upwards [hret'] with n hput
  refine ⟨⟨k, hret n, hl⟩, fun k₀ r e hsplit hne _ _ => ?_, fun f r e hright hlt _ _ => ?_,
    fun f k₀ e e' _ => ?_⟩
  · obtain rfl := Except.ok.inj ((hret n).symm.trans e)
    rw [(hplace n).1] at hsplit
    exact absurd hsplit.symm hne
  · obtain rfl := Except.ok.inj ((hmem n).symm.trans e)
    have hbnd := (h.mem_low (b := b) (by simp)).2
    rw [hlent.tags.rightHeader b.size_dvd (by omega) hbnd] at hright
    omega
  · obtain rfl := Except.ok.inj ((hmem n).symm.trans e)
    unfold heapMergeRightWith at e'
    rw [hlent.rightFree_whole ht hbu hn] at e'
    obtain rfl := Except.ok.inj e'
    exact ⟨k', hput, hf'⟩

/-- The remainder, as the release finds it. -/
theorem Lent.rest_tagged {s u : ℕ} (h : Lent m k heap xs b ys s u) (hra : r.addr = b.addr + s)
    (hrs : s + r.size = b.size) (hru : r.used = false) : Tagged k r := by
  have hrm := r.size_min
  rcases h.rest with hs | ⟨r', hr', hru', h1, h2⟩
  · omega
  · rwa [Block.ext (h1.trans hra.symm) (by omega) (hru'.trans hru.symm)] at hr'

/-- Merging with the remainder, in a coherent index. -/
theorem Lent.merge_index {s : ℕ} (h : Lent m k heap xs b ys s 0)
    (ht : TagHeap m heap (xs ++ b :: ys)) (hbu : b.used = false) (hra : r.addr = b.addr + s)
    (hrs : s + r.size = b.size) (hru : r.used = false)
    (hx : HeapIndex k heap (insert r.addr (freeAddrs (xs ++ ys)))) (hrem : Removable k r.addr)
    (hi : Indexable b.size) :
    ∃ k₁ k₂ k₃, (∀ n, (heapOps n heap).remove k r.addr = .ok k₁) ∧
      AgreeOff k k₁ (linkArea heap (xs ++ r :: ys)) ∧
      (∀ n, heapMergeRightWith (heapOps n heap) k heap b.addr = .ok k₂) ∧
      Returns (fun n => heapInsert n k₂ heap b.addr) k₃ ∧
      AgreeOff k₂ k₃ (linkArea heap (xs ++ b :: ys)) := by
  have hlt := (ht.bounds (b := b) (by simp)).2.2.2
  have hrm := r.size_min
  have hr := h.rest_tagged hra hrs hru
  have hole := (ht.hole h.frame).shrink hr (by omega) (by omega)
  have hnot : r.addr ∉ freeAddrs (xs ++ ys) := by
    rintro ⟨c, hc, -, e⟩
    have hcm := c.size_min
    have hle := hole.le
    rcases List.mem_append.mp hc with hc | hc
    · have := hole.left.bounds c hc
      omega
    · have := hole.right.2.bounds c hc
      omega
  obtain ⟨k₁, hret, hx₁, hf₁⟩ := hx.remove_links (freeAddrs_middle hru).ge (fun c hc _ => hole.tagged c hc)
    (Set.mem_insert _ _) hrem
  rw [Set.insert_sdiff_self_of_notMem hnot] at hx₁
  have hrem₁ (n : ℕ) : (heapOps n heap).remove k r.addr = .ok k₁ := by
    rw [heapOps_remove]
    exact hret
  obtain ⟨g₁, -, -⟩ := h.tags.links ht h.frame h.min hr hra hrs hf₁
  obtain ⟨hb, hf₂⟩ := heapCreateBlock_spec k₁ b hlt hbu
  have hx₂ := (ht.hole g₁).index hx₁ Set.Subset.rfl (hf₂.mono fun x hx => .inr hx)
  have hole₂ := ht.hole (g₁.trans (hf₂.mono fun x hx => .inr (.inr hx)))
  obtain ⟨k₃, hput, -, hf₃, -⟩ := (hole₂.shrink hb le_rfl rfl).insert hx₂ Set.Subset.rfl hbu hi
  exact ⟨k₁, _, k₃, hrem₁, hf₁,
    fun n => (h.merge_rest ht hbu hr hru hra hrs (hrem₁ n) hf₁).1, hput, hf₃⟩

/-- A block that is split. -/
theorem HeapRep.restoreLinks_rest {bsize : ℕ}
    (h : HeapRep m heap (xs ++ b :: ys) (freeAddrs (xs ++ b :: ys))) (hbu : b.used = false)
    (hr : Removable m b.addr) (hi : Indexable b.size) (hmin : 32 ≤ bsize) (hd : bsize % 16 = 0)
    (hra : r.addr = b.addr + bsize) (hrs : bsize + r.size = b.size) (hru : r.used = false)
    (hri : Indexable r.size) :
    ∀ᶠ n in Filter.atTop, RestoreLinks (heapOps n heap) m heap xs b ys bsize := by
  have ht := h.tagHeap
  have hbnd := (h.mem_low (b := b) (by simp)).2
  have hrm := r.size_min
  obtain ⟨k, hret, hx, hl, hf, hb⟩ := h.taken hbu hr
  obtain ⟨k₁, hsplit, hin, htag, -⟩ :=
    heapPlaceWith_rest (heapOps 0 heap) ht hf hb hmin hd hra hrs hru
  obtain ⟨k₂, hret₂, hx₂, hf₂, hrem⟩ :=
    ht.insert_rest hf hx hin htag hru (by omega) (by omega) hri
  have hplace {n : ℕ} (e : heapInsert n k₁ heap r.addr = .ok k₂) :
      heapPlaceWith (heapOps n heap) k b.addr bsize = .ok (heapSetUsed k₂ b.addr 1) ∧
        Lent m (heapSetUsed k₂ b.addr 1) heap xs b ys bsize 1 := by
    obtain ⟨k₁', hsplit', -, -, hfin⟩ :=
      heapPlaceWith_rest (heapOps n heap) ht hf hb hmin hd hra hrs hru
    obtain rfl := (Prod.mk.inj (hsplit.symm.trans hsplit')).1
    exact hfin k₂ e hf₂
  obtain ⟨n₀, hn₀⟩ := hret₂.exists
  have hlent := ((hplace hn₀).2.lock ht (heapUnlock_frame _ heap)).released ht
  have hframe := released_frame k₂ heap b.addr
  have hmem {n : ℕ} (e : heapInsert n k₁ heap r.addr = .ok k₂) := lentMem_eq (hret n) (hplace e).1
  generalize released (heapUnlock (heapSetUsed k₂ b.addr 1) heap) heap b.addr = f at *
  have hole := (ht.hole hlent.frame).shrink (hlent.rest_tagged hra hrs hru) (by omega) (by omega)
  have hxf : HeapIndex f heap (Insert.insert r.addr (freeAddrs (xs ++ ys))) :=
    hole.index hx₂ (freeAddrs_middle hru).ge
      (hframe.mono fun x hx => hx.imp_right fun hx => ⟨hx.1, by omega⟩)
  have hremf : Removable f r.addr := hrem.congr fun x h1 h2 => hframe x fun hx => by
    have hlow := (h.mem_low (b := b) (by simp)).1
    rcases hx with ⟨-, h3⟩ | ⟨-, h3⟩ <;> omega
  obtain ⟨k₃, k₄, k₅, hret₃, hf₃, hmerge, hret₅, hf₅⟩ :=
    hlent.merge_index ht hbu hra hrs hru hxf hremf hi
  filter_upwards [hret₂, hret₅] with n e₂ e₅
  refine ⟨⟨k, hret n, hl⟩, fun k₀ r' e hs hne hr' hru' => ?_, fun f' r' e hs hlt hr' hru' => ?_,
    fun f' k' e e' _ => ?_⟩
  · obtain rfl := Except.ok.inj ((hret n).symm.trans e)
    rw [hsplit] at hs hr' ⊢
    obtain rfl := htag.unique hr' hs (hru.trans hru'.symm)
    exact ⟨k₂, e₂, hf₂⟩
  · obtain rfl := Except.ok.inj ((hmem e₂).symm.trans e)
    have hright := (hlent.rightFree_rest ht (hlent.rest_tagged hra hrs hru) hru hra hrs).2
    obtain rfl := (hlent.rest_tagged hra hrs hru).unique hr' (hright.symm.trans hs)
      (hru.trans hru'.symm)
    exact ⟨k₃, hret₃ n, hf₃⟩
  · obtain rfl := Except.ok.inj ((hmem e₂).symm.trans e)
    obtain rfl := Except.ok.inj ((hmerge n).symm.trans e')
    exact ⟨k₅, e₅, hf₅⟩

/-- **In a coherent index, an allocation and the release call operations that write links only.** -/
theorem HeapRep.restoreLinks {bsize : ℕ}
    (h : HeapRep m heap (xs ++ b :: ys) (freeAddrs (xs ++ b :: ys))) (hbu : b.used = false)
    (hn : NoFreePair (xs ++ b :: ys)) (hr : Removable m b.addr) (hmin : 32 ≤ bsize)
    (hd : bsize % 16 = 0) (hok : RestOk bsize b.size) :
    ∀ᶠ n in Filter.atTop, RestoreLinks (heapOps n heap) m heap xs b ys bsize := by
  have hbd := b.size_dvd
  have hi : Indexable b.size := by
    have hsz := h.getSize (b := b) (by simp)
    rw [← hsz]
    exact h.index.indexable ⟨b, by simp, hbu, rfl⟩
  obtain ⟨hle, hs | hs⟩ := hok
  · exact h.restoreLinks_whole hbu hn hr hi hd hle hs
  · by_cases hlt : b.size - bsize < HEAP_LIST_MIN
    · exact h.restoreLinks_whole hbu hn hr hi hd hle hlt
    · obtain ⟨r, hra, hrs, hru⟩ : ∃ r : Block, r.addr = b.addr + bsize ∧ bsize + r.size = b.size ∧
          r.used = false := ⟨⟨b.addr + bsize, b.size - bsize, false, not_lt.mp hlt, by omega⟩, rfl,
        Nat.add_sub_cancel' hle, rfl⟩
      have hrest : b.size - bsize = r.size := by omega
      rw [hrest] at hs
      exact h.restoreLinks_rest hbu hr hi hmin hd hra hrs hru hs

/-- The round trip of `heap_alloc` and `heap_free`, in a heap with a coherent index. -/
theorem heapAlloc_heapFree {size : ℕ} (pageAlloc : PageAlloc)
    (h : HeapRep m heap (xs ++ b :: ys) (freeAddrs (xs ++ b :: ys)))
    (hlock : heapLocked m heap = 0) (hn : NoFreePair (xs ++ b :: ys)) (hbu : b.used = false)
    (hr : Removable m b.addr) (hsize : 0 < size) (hmin : 32 ≤ heapBsize (heapSizeAlign size))
    (hok : RestOk (heapBsize (heapSizeAlign size)) b.size)
    (hsearch : Returns (fun n => heapSearch n (heapLock m heap) heap
      (heapBsize (heapSizeAlign size)) false) b.addr) :
    ∀ᶠ n in Filter.atTop, ∃ m₁ p m₂, heapAlloc pageAlloc n m heap size false = .ok (m₁, p) ∧
      heapFree n m₁ heap p = .ok m₂ ∧ TagHeap m₂ heap (xs ++ b :: ys) := by
  filter_upwards [h.restoreLinks hbu hn hr hmin (heapBsize_dvd _) hok, hsearch] with n hops hs
  obtain ⟨m₁, p, m₂, e₁, e₂, ht⟩ :=
    restores_of_room pageAlloc hops h.tagHeap hlock hn hbu hs hsize hmin hok.1
  rw [← heapAlloc_eq] at e₁
  rw [← heapFree_eq] at e₂
  exact ⟨m₁, p, m₂, e₁, e₂, ht⟩

end index

/-! ### A block size of 0 or 16 -/

section wrap

variable {ops : IndexOps} {search : HeapSearch} {pageAlloc : PageAlloc} {m : Mem}
  {heap s size size' : ℕ} {align : Bool}

/-- An allocation depends on the block size only. -/
theorem heapAllocWith_congr (h : 0 < size) (h' : 0 < size')
    (hb : heapBsize (heapSizeAlign size) = heapBsize (heapSizeAlign size')) :
    heapAllocWith ops search pageAlloc m heap size align =
      heapAllocWith ops search pageAlloc m heap size' align := by
  unfold heapAllocWith
  dsimp only
  simp only [if_pos h, if_pos h', hb]

theorem lentMem_steady (m : Mem) (heap block bsize : ℕ) :
    Steady fun n => lentMem (heapOps n heap) m heap block bsize := by
  unfold lentMem heapPlaceWith
  exact Steady.bind (Steady.const _) fun _ => Steady.bind (Steady.ite (Steady.bind
    (heapInsert_steady _ _ _) fun _ => Steady.const _) (Steady.const _)) fun _ => Steady.const _

/-- What the release finds for the block sizes 0 and 16: no right neighbour in the block of the tree,
and after the merge the block has another size. -/
theorem wrap_lent : ∀ s ∈ [0, 16],
    let r := lentMem (heapOps 9 0x100000) sixMem 0x100000 largeBlock.addr s
    r.isOk = true ∧ (rd (resultOf r) (largeBlock.addr + 8) = 0 ∧
        heapRightHeader (resultOf r) largeBlock.addr = largeBlock.addr ∨
      largeBlock.addr + largeBlock.size ≤ heapRightHeader (resultOf r) largeBlock.addr) ∧
    heapGetSize (resultOf (heapMergeRightWith (heapOps 9 0x100000) (resultOf r) 0x100000
      largeBlock.addr)) largeBlock.addr ≠ largeBlock.size := by
  decide +kernel

/-- The remainder, if it is a block, lies after a header and is inserted. -/
theorem wrap_rest {k : Mem} (hs : s ∈ [0, 16])
    (hret : heapRemove (heapLock sixMem 0x100000) 0x100000 largeBlock.addr = .ok k)
    (hx : HeapIndex k 0x100000 (freeAddrs (sixBlocks.take 4 ++ sixBlocks.drop 5)))
    (hf : AgreeOff sixMem k
      (restoreBytes 0x100000 (sixBlocks.take 4) largeBlock (sixBlocks.drop 5)))
    (hb : Tagged k largeBlock) : ∀ᶠ n in Filter.atTop, ∀ r : Block,
      (heapSplitBlock k largeBlock.addr s).2 = r.addr →
      Tagged (heapSplitBlock k largeBlock.addr s).1 r → r.used = false →
      WritesLinks 0x100000 (sixBlocks.take 4 ++ r :: sixBlocks.drop 5)
        (heapSplitBlock k largeBlock.addr s).1
        (heapInsert n (heapSplitBlock k largeBlock.addr s).1 0x100000 r.addr) := by
  simp only [List.mem_cons, List.not_mem_nil, or_false] at hs
  rcases hs with rfl | rfl
  · -- the second header is the one of the remainder, with size 0
    have hk : k = resultOf (heapRemove (heapLock sixMem 0x100000) 0x100000 largeBlock.addr) := by
      rw [hret]
      rfl
    have hzero : (heapSplitBlock k largeBlock.addr 0).2 = largeBlock.addr ∧
        rd (heapSplitBlock k largeBlock.addr 0).1 (largeBlock.addr + 8) = 0 := by
      rw [hk]
      decide +kernel
    refine Filter.Eventually.of_forall fun n r hr htag _ => ?_
    have hrm := r.size_min
    have hsize := htag.size
    rw [← hr, hzero.1, hzero.2] at hsize
    omega
  · have ht : TagHeap sixMem 0x100000 (sixBlocks.take 4 ++ largeBlock :: sixBlocks.drop 5) :=
      sixMem_rep.tagHeap
    obtain ⟨r₀, hra, hrs, hru⟩ : ∃ r : Block, r.addr = largeBlock.addr + 16 ∧
        16 + r.size = largeBlock.size ∧ r.used = false :=
      ⟨⟨0x100310, 2032, false, by decide, rfl⟩, rfl, rfl, rfl⟩
    have hend : largeBlock.size = 2048 := rfl
    obtain ⟨k₁, hsplit, hin, htag⟩ := heapSplitBlock_rest hb (by decide) le_rfl rfl hra hrs hru
    obtain ⟨k₂, hins, -, hlinks, -⟩ := ht.insert_rest hf hx hin htag hru (by omega) (by omega)
      (by rw [show r₀.size = 2032 by omega]; decide)
    filter_upwards [hins] with n e r hr htag' hru'
    rw [hsplit] at hr htag' ⊢
    dsimp only at hr htag' ⊢
    obtain rfl := htag.unique htag' hr (hru.trans hru'.symm)
    exact ⟨k₂, e, hlinks⟩

/-- The operations write links only. -/
theorem wrap_restoreLinks (hs : s ∈ [0, 16]) : ∀ᶠ n in Filter.atTop,
    RestoreLinks (heapOps n 0x100000) sixMem 0x100000 (sixBlocks.take 4) largeBlock
      (sixBlocks.drop 5) s := by
  have h : HeapRep sixMem 0x100000 (sixBlocks.take 4 ++ largeBlock :: sixBlocks.drop 5)
    (freeAddrs (sixBlocks.take 4 ++ largeBlock :: sixBlocks.drop 5)) := sixMem_rep
  obtain ⟨k, hret, hx, hl, hf, hb⟩ := h.taken rfl (by decide +kernel)
  obtain ⟨hok, hright, hsize⟩ := wrap_lent s hs
  have hmem := (lentMem_steady sixMem 0x100000 largeBlock.addr s).returns (resultOf_eq hok)
  have hrest := wrap_rest hs (hret 0) hx hf hb
  filter_upwards [hmem, hrest] with n hn hr
  refine ⟨⟨k, hret n, hl⟩, fun k₀ r e hs _ hr' hru => ?_, fun f r e hs hlt hr' hru => ?_,
    fun f k e e' ht => ?_⟩
  · obtain rfl := Except.ok.inj ((hret n).symm.trans e)
    rw [heapOps_insert]
    exact hr r hs hr' hru
  · obtain rfl := Except.ok.inj (hn.symm.trans e)
    rcases hright with ⟨h0, heq⟩ | hle
    · have hrm := r.size_min
      have hsz := hr'.size
      rw [← hs, heq, h0] at hsz
      omega
    · omega
  · obtain rfl := Except.ok.inj (hn.symm.trans e)
    have e9 : heapMergeRightWith (heapOps 9 0x100000)
        (resultOf (lentMem (heapOps 9 0x100000) sixMem 0x100000 largeBlock.addr s)) 0x100000
        largeBlock.addr = .ok k := by
      rwa [← heapMergeRight_eq, heapMergeRight_eq n]
    rw [e9] at hsize
    exact absurd (ht.tagged largeBlock (by simp)).getSize hsize

/-- Nothing is granted. -/
def noPages : PageAlloc := fun _ _ m => .ok (0, m)

/-- The search returns the block of the tree, and its size is another one after the two calls. -/
theorem wrap_calls : ∀ r ∈ [2 ^ 64 - 32, 2 ^ 64 - 16],
    heapSearch 9 (heapLock sixMem 0x100000) 0x100000 (heapBsize (heapSizeAlign r)) false =
        .ok largeBlock.addr ∧
      (heapAlloc noPages 9 sixMem 0x100000 r false).isOk = true ∧
      let a := resultOf (heapAlloc noPages 9 sixMem 0x100000 r false)
      (heapFree 9 a.1 0x100000 a.2).isOk = true ∧
        heapGetSize (resultOf (heapFree 9 a.1 0x100000 a.2)) largeBlock.addr ≠ largeBlock.size := by
  decide +kernel

/-- With a block size of 0 or 16, the blocks are not restored. -/
theorem not_restores_wrap (h1 : 2 ^ 64 - 47 ≤ size) (h2 : size ≤ 2 ^ 64 - 16) : ∃ n,
    RestoreLinks (heapOps n 0x100000) sixMem 0x100000 (sixBlocks.take 4) largeBlock
        (sixBlocks.drop 5) (heapBsize (heapSizeAlign size)) ∧
      heapSearch n (heapLock sixMem 0x100000) 0x100000 (heapBsize (heapSizeAlign size)) false =
        .ok largeBlock.addr ∧
      heapBsize (heapSizeAlign size) ≤ largeBlock.size ∧
      ¬ Restores n (heapOps n 0x100000) noPages sixMem 0x100000 sixBlocks size := by
  have hr : ∃ r ∈ [2 ^ 64 - 32, 2 ^ 64 - 16], 0 < r ∧
      heapBsize (heapSizeAlign size) = heapBsize (heapSizeAlign r) := by
    unfold heapBsize u64
    simp only [heapSizeAlign_eq, List.mem_cons, List.not_mem_nil, or_false, exists_eq_or_imp,
      exists_eq_left]
    omega
  have hbsize : heapBsize (heapSizeAlign size) ∈ [0, 16] := by
    rw [heapBsize_wrap (by omega) (by omega)]
    simp only [List.mem_cons, List.not_mem_nil, or_false]
    omega
  obtain ⟨r, hmem, hr0, he⟩ := hr
  obtain ⟨hsearch, hok, hokf, hsize⟩ := wrap_calls r hmem
  rw [← he] at hsearch
  have hpages : ∀ a s m, Steady fun n => (fun _ : ℕ => noPages) n a s m :=
    fun _ _ _ => Steady.const _
  have hret := (heapAlloc_steady hpages sixMem 0x100000 r false).returns (resultOf_eq hok)
  have hretf := (heapFree_steady _ 0x100000 _).returns (resultOf_eq hokf)
  generalize resultOf (heapAlloc noPages 9 sixMem 0x100000 r false) = a at *
  obtain ⟨n, ⟨hlinks, hs⟩, ha, hf⟩ := (((wrap_restoreLinks hbsize).and
    ((heapSearch_steady _ _ _ _).returns hsearch)).and (hret.and hretf)).exists
  refine ⟨n, hlinks, hs, ?_, fun ⟨m₁, p, m₂, e₁, e₂, ht⟩ => ?_⟩
  · rw [heapBsize_wrap (by omega) (by omega)]
    have hlarge : largeBlock.size = 2048 := rfl
    omega
  · rw [heapAllocWith_congr (by omega) hr0 he, ← heapAlloc_eq] at e₁
    obtain rfl : a = (m₁, p) := Except.ok.inj (ha.symm.trans e₁)
    rw [← heapFree_eq] at e₂
    obtain rfl := Except.ok.inj (hf.symm.trans e₂)
    exact hsize (ht.tagged largeBlock (by simp [sixBlocks])).getSize

end wrap

/-! ### Inverse calls -/

/-- **The release of what was allocated without an alignment restores the blocks**, exactly if the
computed block size has room for a header and a footer. -/
theorem heap_alloc_free {size : ℕ} (hpos : 0 < size) (hlt : size < 2 ^ 64) :
    (∀ (n : ℕ) (ops : IndexOps) (pageAlloc : PageAlloc) (m : Mem) (heap : ℕ) (xs : List Block)
        (b : Block) (ys : List Block),
      RestoreLinks ops m heap xs b ys (heapBsize (heapSizeAlign size)) →
      TagHeap m heap (xs ++ b :: ys) → heapLocked m heap = 0 → NoFreePair (xs ++ b :: ys) →
      b.used = false →
      heapSearch n (heapLock m heap) heap (heapBsize (heapSizeAlign size)) false = .ok b.addr →
      heapBsize (heapSizeAlign size) ≤ b.size →
      Restores n ops pageAlloc m heap (xs ++ b :: ys) size) ↔
        (size + 47 < 2 ^ 64 ∨ 2 ^ 64 - 16 < size) := by
  constructor
  · intro h
    by_contra hc
    obtain ⟨n, hlinks, hsearch, hle, hnot⟩ :=
      not_restores_wrap (show 2 ^ 64 - 47 ≤ size by omega) (by omega)
    exact hnot (h n _ noPages sixMem 0x100000 _ largeBlock _ hlinks sixMem_rep.tagHeap
      sixMem_unlocked sixBlocks_noFreePair rfl hsearch hle)
  · intro hs n ops pageAlloc m heap xs b ys hops h hlock hn hbu hsearch hle
    refine restores_of_room pageAlloc hops h hlock hn hbu hsearch hpos ?_ hle
    cases hs with
    | inl hs =>
        rw [heapBsize_eq hs]
        omega
    | inr hs =>
        rw [heapBsize_wrap (by omega) hlt]
        omega

/-- 544 bytes are split off the block of the tree and merged again. -/
theorem heap_alloc_free_six :
    ∃ n, Restores n (heapOps n 0x100000) noPages sixMem 0x100000 sixBlocks 512 := by
  have hrep : HeapRep sixMem 0x100000 (sixBlocks.take 4 ++ largeBlock :: sixBlocks.drop 5)
    (freeAddrs (sixBlocks.take 4 ++ largeBlock :: sixBlocks.drop 5)) := sixMem_rep
  have hsearch : heapSearch 9 (heapLock sixMem 0x100000) 0x100000
      (heapBsize (heapSizeAlign 512)) false = .ok largeBlock.addr := by decide +kernel
  have hmin : 32 ≤ heapBsize (heapSizeAlign 512) := by decide
  have hrest : RestOk (heapBsize (heapSizeAlign 512)) largeBlock.size := by decide
  obtain ⟨n, hlinks, hs⟩ := ((hrep.restoreLinks rfl sixBlocks_noFreePair (by decide +kernel)
    hmin (heapBsize_dvd _) hrest).and
      ((heapSearch_steady _ _ _ _).returns hsearch)).exists
  exact ⟨n, (heap_alloc_free (by norm_num) (by norm_num)).mpr (by norm_num) n _ noPages sixMem _ _
    largeBlock _ hlinks hrep.tagHeap sixMem_unlocked sixBlocks_noFreePair rfl hs (by decide)⟩

/-- A block size that wraps to 0. -/
theorem heap_alloc_free_wrap : ∃ n,
    RestoreLinks (heapOps n 0x100000) sixMem 0x100000 (sixBlocks.take 4) largeBlock
        (sixBlocks.drop 5) (heapBsize (heapSizeAlign (2 ^ 64 - 32))) ∧
      TagHeap sixMem 0x100000 (sixBlocks.take 4 ++ largeBlock :: sixBlocks.drop 5) ∧
      heapLocked sixMem 0x100000 = 0 ∧
      NoFreePair (sixBlocks.take 4 ++ largeBlock :: sixBlocks.drop 5) ∧ largeBlock.used = false ∧
      heapSearch n (heapLock sixMem 0x100000) 0x100000 (heapBsize (heapSizeAlign (2 ^ 64 - 32)))
        false = .ok largeBlock.addr ∧
      heapBsize (heapSizeAlign (2 ^ 64 - 32)) ≤ largeBlock.size ∧
      ¬ Restores n (heapOps n 0x100000) noPages sixMem 0x100000
        (sixBlocks.take 4 ++ largeBlock :: sixBlocks.drop 5) (2 ^ 64 - 32) := by
  obtain ⟨n, hlinks, hsearch, hle, hnot⟩ :=
    not_restores_wrap (show 2 ^ 64 - 47 ≤ 2 ^ 64 - 32 by norm_num) (by norm_num)
  exact ⟨n, hlinks, sixMem_rep.tagHeap, sixMem_unlocked, sixBlocks_noFreePair, rfl, hsearch, hle,
    hnot⟩

end Dawos
