import Dawos.HeapOps

/-! # Releasing a block, seen from the boundary tags

`TagHeap m heap bs` says that the heap consists of the tagged blocks `bs`, and nothing about the
free index.  `heap_free` is taken with the two operations on the index as parameters
(`IndexOps`), whose calls write links of free blocks and entries of the array only (`ReleaseLinks`).
`heapFree_eq` says that it is the function of `HeapAlloc.lean` for the operations of `heap.c`, and
`HeapRep.releaseLinks` that these do so in a heap with a coherent index.

A heap without adjacent free blocks is determined by its used blocks (`tiles_ext`).  So
`heapFreeWith_spec` describes the release of a block completely, and the order of two releases
does not matter (`heap_free_comm`). -/

namespace Dawos

/-! ### The code with the index operations as parameters -/

/-- `heap_remove` and `heap_insert` for one heap. -/
structure IndexOps where
  remove : Mem → ℕ → Except Halt Mem
  insert : Mem → ℕ → Except Halt Mem

/-- Merge a block to the left: the memory, and the block or the left one merged with it. -/
def heapMergeLeftWith (ops : IndexOps) (m : Mem) (heap block : ℕ) : Except Halt (Mem × ℕ) :=
  if leftFree m heap block then do
    let freeLeft := heapGetHeader m (heapLeftFooter block)
    let m ← ops.remove m freeLeft
    return (heapCreateBlock m freeLeft (u64 (heapGetSize m freeLeft + heapGetSize m block)),
      freeLeft)
  else .ok (m, block)

/-- Merge a block to the right. -/
def heapMergeRightWith (ops : IndexOps) (m : Mem) (heap block : ℕ) : Except Halt Mem :=
  if rightFree m heap block then do
    let freeRight := heapRightHeader m block
    let m ← ops.remove m freeRight
    return heapCreateBlock m block (u64 (heapGetSize m block + heapGetSize m freeRight))
  else .ok m

/-- Release an allocated block. -/
def heapFreeWith (ops : IndexOps) (m : Mem) (heap ptr : ℕ) : Except Halt Mem :=
  if ptr ≠ 0 then
    let freeBlock := heapPayloadHeader ptr
    if heapCheckHeader m freeBlock then do
      let m ← heapWaitLock m heap
      let m := heapSetUsed m freeBlock 0
      let (m, freeBlock) ← heapMergeLeftWith ops m heap freeBlock
      let m ← heapMergeRightWith ops m heap freeBlock
      let m ← ops.insert m freeBlock
      return heapUnlock m heap
    else .ok m
  else .ok m

/-- The operations of `heap.c`. -/
def heapOps (fuel heap : ℕ) : IndexOps where
  remove m block := heapRemove m heap block
  insert m block := heapInsert fuel m heap block

@[simp] theorem heapOps_remove (fuel : ℕ) (m : Mem) (heap block : ℕ) :
    (heapOps fuel heap).remove m block = heapRemove m heap block := rfl

@[simp] theorem heapOps_insert (fuel : ℕ) (m : Mem) (heap block : ℕ) :
    (heapOps fuel heap).insert m block = heapInsert fuel m heap block := rfl

theorem heapMergeLeft_eq (fuel : ℕ) (m : Mem) (heap block : ℕ) :
    heapMergeLeft m heap block = heapMergeLeftWith (heapOps fuel heap) m heap block := rfl

theorem heapMergeRight_eq (fuel : ℕ) (m : Mem) (heap block : ℕ) :
    heapMergeRight m heap block = heapMergeRightWith (heapOps fuel heap) m heap block := rfl

theorem heapFree_eq (fuel : ℕ) (m : Mem) (heap ptr : ℕ) :
    heapFree fuel m heap ptr = heapFreeWith (heapOps fuel heap) m heap ptr := rfl

/-! ### Heaps by their tags -/

/-- The heap consists of the tagged blocks `bs`, laid end to end. -/
structure TagHeap (m : Mem) (heap : ℕ) (bs : List Block) : Prop where
  above : heap + HEAP_T_SIZE ≤ heapStartAddr m heap
  tiles : Tiles (heapStartAddr m heap) bs (heapEndAddr m heap)
  tagged : ∀ b ∈ bs, Tagged m b

/-- No two free blocks are adjacent. -/
def NoFreePair (bs : List Block) : Prop := bs.IsChain fun a b => a.used = true ∨ b.used = true

/-- An operation on the index returns, and writes links of the free blocks of `bs` only. -/
def WritesLinks (heap : ℕ) (bs : List Block) (m : Mem) (r : Except Halt Mem) : Prop :=
  ∃ m', r = .ok m' ∧ AgreeOff m m' (linkArea heap bs)

/-- The operations on the index that a release of `block` calls return, and write links only. -/
structure ReleaseLinks (ops : IndexOps) (m : Mem) (heap block : ℕ) : Prop where
  left : ∀ bs, TagHeap (released m heap block) heap bs →
    leftFree (released m heap block) heap block = true →
    WritesLinks heap bs (released m heap block) (ops.remove (released m heap block)
      (heapGetHeader (released m heap block) (heapLeftFooter block)))
  right : ∀ k c bs, heapMergeLeftWith ops (released m heap block) heap block = .ok (k, c) →
    TagHeap k heap bs → rightFree k heap c = true →
    WritesLinks heap bs k (ops.remove k (heapRightHeader k c))
  insert : ∀ k c k' bs, heapMergeLeftWith ops (released m heap block) heap block = .ok (k, c) →
    heapMergeRightWith ops k heap c = .ok k' → TagHeap k' heap bs →
    WritesLinks heap bs k' (ops.insert k' c)

/-! ### Tilings without adjacent free blocks -/

section tilings

variable {lo hi : ℕ} {a b : Block} {xs ys bs cs : List Block}

/-- The block after a free one is used. -/
theorem NoFreePair.next (h : NoFreePair (b :: bs)) (hb : b.used = false) (hne : bs ≠ []) :
    ∃ c cs, bs = c :: cs ∧ c.used = true := by
  obtain ⟨c, cs, rfl⟩ := List.exists_cons_of_ne_nil hne
  have h' : b.used = true ∨ c.used = true := (List.isChain_cons_cons.mp h).1
  rw [hb] at h'
  exact ⟨c, cs, rfl, h'.resolve_left (by simp)⟩

/-- Of two free blocks at one address, followed by tilings with the same used blocks, the first
is not smaller. -/
theorem size_le_of_tiles (hb : Tiles lo (b :: bs) hi) (hc : Tiles lo (a :: cs) hi)
    (hn : NoFreePair (b :: bs)) (hfree : b.used = false)
    (hu : ∀ d ∈ b :: bs, d.used = true → d ∈ a :: cs) : a.size ≤ b.size := by
  by_contra hlt
  have hle : lo + a.size ≤ hi := hc.2.le
  by_cases hbs : bs = []
  · subst hbs
    have he : lo + b.size = hi := hb.2
    omega
  · obtain ⟨d, ds, rfl, hd⟩ := hn.next hfree hbs
    have hdaddr : d.addr = lo + b.size := hb.2.1
    have hmin := d.size_min
    have hmin' := b.size_min
    have ha : a.addr = lo := hc.1
    have hdm := hu d (by simp) hd
    rcases hc.apart hdm (by simp : a ∈ a :: cs) (by omega) with h | h <;> omega

theorem usedBlocks_tail (hb : Tiles lo (b :: bs) hi)
    (h : usedBlocks (b :: bs) ⊆ usedBlocks (b :: cs)) : usedBlocks bs ⊆ usedBlocks cs := by
  rintro d ⟨hd, hu⟩
  obtain ⟨hd', -⟩ := h (show d ∈ usedBlocks (b :: bs) from ⟨List.mem_cons_of_mem _ hd, hu⟩)
  rcases List.mem_cons.mp hd' with rfl | hd'
  · -- the first block is not among the later ones
    have h1 := (hb.2.bounds d hd).1
    have h2 := hb.1
    have h3 := d.size_min
    omega
  · exact ⟨hd', hu⟩

/-- **A tiling without adjacent free blocks is determined by its used blocks.** -/
theorem tiles_ext : ∀ {bs cs : List Block} {lo : ℕ}, Tiles lo bs hi → Tiles lo cs hi →
    NoFreePair bs → NoFreePair cs → usedBlocks bs = usedBlocks cs → bs = cs
  | [], [], _, _, _, _, _, _ => rfl
  | [], c :: cs, lo, hb, hc, _, _, _ => by
      have h1 : lo = hi := hb
      have h2 : lo + c.size ≤ hi := hc.2.le
      have h3 := c.size_min
      omega
  | b :: bs, [], lo, hb, hc, _, _, _ => by
      have h1 : lo = hi := hc
      have h2 : lo + b.size ≤ hi := hb.2.le
      have h3 := b.size_min
      omega
  | b :: bs, c :: cs, lo, hb, hc, hnb, hnc, hu => by
      have haddr : b.addr = c.addr := hb.1.trans hc.1.symm
      have hub : ∀ d ∈ b :: bs, d.used = true → d ∈ c :: cs := fun d hd hdu =>
        (hu.subset (show d ∈ usedBlocks (b :: bs) from ⟨hd, hdu⟩)).1
      have huc : ∀ d ∈ c :: cs, d.used = true → d ∈ b :: bs := fun d hd hdu =>
        (hu.superset (show d ∈ usedBlocks (c :: cs) from ⟨hd, hdu⟩)).1
      have hbc : b = c := by
        by_cases hbu : b.used = true
        · exact hc.eq_of_addr (hub b (by simp) hbu) (by simp) haddr
        · by_cases hcu : c.used = true
          · exact (hb.eq_of_addr (huc c (by simp) hcu) (by simp) haddr.symm).symm
          · rw [Bool.not_eq_true] at hbu hcu
            have h1 := size_le_of_tiles hb hc hnb hbu hub
            have h2 := size_le_of_tiles hc hb hnc hcu huc
            exact Block.ext haddr (by omega) (hbu.trans hcu.symm)
      subst hbc
      have hrest : usedBlocks bs = usedBlocks cs :=
        Set.Subset.antisymm (usedBlocks_tail hb hu.subset) (usedBlocks_tail hc hu.superset)
      rw [tiles_ext hb.2 hc.2 hnb.tail hnc.tail hrest]

end tilings

/-! ### Steps on the tags -/

namespace TagHeap

variable {m m' : Mem} {heap lo hi : ℕ} {a b : Block} {xs ys mid mid' bs : List Block}
  {ops : IndexOps}

theorem bounds (h : TagHeap m heap bs) (hb : b ∈ bs) : heap + HEAP_T_SIZE ≤ b.addr ∧
    heapStartAddr m heap ≤ b.addr ∧ b.addr + b.size ≤ heapEndAddr m heap ∧
    b.addr + b.size < 2 ^ 64 := by
  have h1 := h.tiles.bounds b hb
  have h2 : heapEndAddr m heap < 2 ^ 64 := rd_lt m _
  have h3 := h.above
  omega

/-- The tags only depend on their bytes and the first two words. -/
theorem congr (h : TagHeap m heap bs) (hs : ∀ x, heap ≤ x → x < heap + 16 → m' x = m x)
    (ht : ∀ b ∈ bs, ∀ x, b.tagBytes x → m' x = m x) : TagHeap m' heap bs ∧
      heapStartAddr m' heap = heapStartAddr m heap ∧ heapEndAddr m' heap = heapEndAddr m heap := by
  have hst : heapStartAddr m' heap = heapStartAddr m heap :=
    rd_congr fun x h1 h2 => hs x h1 (by omega)
  have hen : heapEndAddr m' heap = heapEndAddr m heap :=
    rd_congr fun x h1 h2 => hs x (by omega) (by omega)
  refine ⟨⟨hst.symm ▸ h.above, ?_, fun b hb => (h.tagged b hb).congr (ht b hb)⟩, hst, hen⟩
  rw [hst, hen]
  exact h.tiles

/-- Links lie off the tags and off the words before the array. -/
theorem linkArea_apart (h : TagHeap m heap bs) {x : ℕ} (hx : linkArea heap bs x) :
    heap + 32 ≤ x ∧ ∀ b ∈ bs, ¬ b.tagBytes x := by
  rcases hx with ⟨h1, h2⟩ | ⟨c, hc, -, h1, h2⟩
  · refine ⟨h1, fun b hb hbx => ?_⟩
    have := (h.bounds hb).1
    have hmin := b.size_min
    cases hbx <;> omega
  · have hcl := (h.bounds hc).1
    rw [HEAP_T_SIZE] at hcl
    refine ⟨by omega, fun b hb hbx => ?_⟩
    have hmin := b.size_min
    by_cases e : b.addr = c.addr
    · obtain rfl := h.tiles.eq_of_addr hb hc e
      cases hbx <;> omega
    · have := h.tiles.apart hb hc e
      cases hbx <;> omega

/-- What the steps keep besides the blocks. -/
structure Same (m : Mem) (heap : ℕ) (m' : Mem) : Prop where
  start : heapStartAddr m' heap = heapStartAddr m heap
  fin : heapEndAddr m' heap = heapEndAddr m heap

theorem Same.trans {m'' : Mem} (h : Same m heap m') (h' : Same m' heap m'') : Same m heap m'' :=
  ⟨h'.start.trans h.start, h'.fin.trans h.fin⟩

/-- Writes to links. -/
theorem links (h : TagHeap m heap bs) (hf : AgreeOff m m' (linkArea heap bs)) :
    TagHeap m' heap bs ∧ Same m heap m' := by
  have hs : ∀ x, heap ≤ x → x < heap + 16 → m' x = m x := fun x h1 h2 => hf x fun hx => by
    have := (h.linkArea_apart hx).1
    omega
  obtain ⟨h1, h2, h3⟩ := h.congr hs fun b hb x hx => hf x fun hl =>
    (h.linkArea_apart hl).2 b hb hx
  exact ⟨h1, h2, h3⟩

/-- Writes to the lock. -/
theorem lock (h : TagHeap m heap bs) (hf : AgreeOff m m' (lockBytes heap)) :
    TagHeap m' heap bs ∧ Same m heap m' := by
  have hs : ∀ x, heap ≤ x → x < heap + 16 → m' x = m x := fun x h1 h2 => hf x fun hx => by
    have := hx.1
    omega
  obtain ⟨h1, h2, h3⟩ := h.congr hs fun b hb x hx => hf x fun hl => by
    have := (h.bounds hb).1
    have hmin := b.size_min
    have hlo := hl.2
    rw [HEAP_T_SIZE] at this
    cases hx <;> omega
  exact ⟨h1, h2, h3⟩

/-- A segment of blocks is rewritten. -/
theorem replace (h : TagHeap m heap (xs ++ mid ++ ys)) (hold : Tiles lo mid hi) (hne : mid ≠ [])
    (hnew : Tiles lo mid' hi) (htag : ∀ b ∈ mid', Tagged m' b)
    (hf : AgreeOff m m' fun x => lo ≤ x ∧ x < hi) :
    TagHeap m' heap (xs ++ mid' ++ ys) ∧ Same m heap m' := by
  have ht := h.tiles
  rw [List.append_assoc] at ht
  obtain ⟨p, h1, h2⟩ := Tiles.append_iff.mp ht
  obtain ⟨q, h3, h4⟩ := Tiles.append_iff.mp h2
  obtain ⟨rfl, rfl⟩ := hold.unique h3 hne
  have habove := h.above
  rw [HEAP_T_SIZE] at habove
  have hlo := h1.le
  have hst : heapStartAddr m' heap = heapStartAddr m heap :=
    hf.rd fun x h5 h6 hx => by omega
  have hen : heapEndAddr m' heap = heapEndAddr m heap :=
    hf.rd fun x h5 h6 hx => by omega
  refine ⟨⟨hst.symm ▸ h.above, ?_, fun b hb => ?_⟩, hst, hen⟩
  · rw [hst, hen, List.append_assoc]
    exact Tiles.append_iff.mpr ⟨p, h1, Tiles.append_iff.mpr ⟨q, hnew, h4⟩⟩
  · rcases mem_segment.mp hb with hb | hb
    · exact htag b hb
    · refine (h.tagged b (mem_segment.mpr (.inr hb))).congr fun x hx => hf x fun hc => ?_
      have hmin := b.size_min
      rcases List.mem_append.mp hb with hb | hb
      · have := h1.bounds b hb
        cases hx <;> omega
      · have := h4.bounds b hb
        cases hx <;> omega

/-- The flag of a block is set or cleared. -/
theorem setUsed (h : TagHeap m heap (xs ++ b :: ys)) (u : Bool) :
    TagHeap (heapSetUsed m b.addr u.toNat) heap (xs ++ b.setUsed u :: ys) ∧
      Same m heap (heapSetUsed m b.addr u.toNat) := by
  have e (c : Block) : xs ++ c :: ys = xs ++ [c] ++ ys := by simp
  have htag : Tagged (heapSetUsed m b.addr u.toNat) (b.setUsed u) :=
    (h.tagged b (by simp)).setUsed u
  have hold : Tiles b.addr [b] (b.addr + b.size) := ⟨rfl, rfl⟩
  have hnew : Tiles b.addr [b.setUsed u] (b.addr + b.size) := ⟨rfl, rfl⟩
  rw [e] at h ⊢
  apply h.replace hold (by simp) hnew _ (heapSetUsed_frame m b u.toNat)
  intro c hc
  rwa [List.mem_singleton.mp hc]

theorem setFree (h : TagHeap m heap (xs ++ b :: ys)) :
    TagHeap (heapSetUsed m b.addr 0) heap (xs ++ b.setUsed false :: ys) ∧
      Same m heap (heapSetUsed m b.addr 0) := h.setUsed false

/-- Adjacent blocks. -/
theorem adjacent (h : TagHeap m heap (xs ++ a :: b :: ys)) : a.addr + a.size = b.addr := by
  obtain ⟨mid, -, h1, h2, -⟩ := Tiles.append_iff.mp h.tiles
  rw [h1, h2]

/-- Two adjacent free blocks become one. -/
theorem merge (h : TagHeap m heap (xs ++ a :: b :: ys)) :
    TagHeap (heapCreateBlock m a.addr (u64 (heapGetSize m a.addr + heapGetSize m b.addr))) heap
        (xs ++ a.merge b :: ys) ∧
      Same m heap
        (heapCreateBlock m a.addr (u64 (heapGetSize m a.addr + heapGetSize m b.addr))) := by
  have hab := h.adjacent
  have hbl := (h.bounds (b := b) (by simp)).2.2.2
  have hsize : u64 (heapGetSize m a.addr + heapGetSize m b.addr) = a.size + b.size := by
    rw [(h.tagged a (by simp)).getSize, (h.tagged b (by simp)).getSize, u64_of_lt (by omega)]
  obtain ⟨htag, hf⟩ := heapCreateBlock_spec m (a.merge b)
    (by rw [Block.merge_addr, Block.merge_size]; omega) rfl
  have hold : Tiles a.addr [a, b] (a.addr + (a.size + b.size)) := ⟨rfl, hab.symm, by
    show a.addr + a.size + b.size = a.addr + (a.size + b.size)
    omega⟩
  have hnew : Tiles a.addr [a.merge b] (a.addr + (a.size + b.size)) := ⟨rfl, rfl⟩
  have e1 : xs ++ a :: b :: ys = xs ++ [a, b] ++ ys := by simp
  have e2 : xs ++ a.merge b :: ys = xs ++ [a.merge b] ++ ys := by simp
  rw [e1] at h
  rw [hsize, e2]
  apply h.replace hold (by simp) hnew _ hf
  intro c hc
  rwa [List.mem_singleton.mp hc]

/-- The first block has no left neighbour. -/
theorem leftFree_first (h : TagHeap m heap (b :: ys)) : leftFree m heap b.addr = false := by
  have e : b.addr = heapStartAddr m heap := h.tiles.1
  unfold leftFree
  rw [e]
  simp

/-- The left neighbour is found by its footer. -/
theorem leftFree_next (h : TagHeap m heap (xs ++ a :: b :: ys)) :
    leftFree m heap b.addr = !a.used ∧ heapGetHeader m (heapLeftFooter b.addr) = a.addr := by
  have hab := h.adjacent
  obtain ⟨-, hlow, -, hlt⟩ := h.bounds (b := a) (by simp)
  have hmin := a.size_min
  have hfoot : heapLeftFooter b.addr = a.addr + a.size - 16 := by
    unfold heapLeftFooter
    rw [← hab, sub64_of_le hlt (by omega)]
  have hta := h.tagged a (by simp)
  obtain ⟨h1, h2⟩ := hta.checkFooter
  have hst : heapStartAddr m heap < b.addr := by omega
  refine ⟨?_, by rw [hfoot, h2]⟩
  unfold leftFree
  simp only [hfoot, h1, h2, hst, hta.getUsed, decide_true, Bool.true_and]
  cases a.used <;> rfl

/-- The last block has no right neighbour. -/
theorem rightFree_last (h : TagHeap m heap (xs ++ [b])) : rightFree m heap b.addr = false := by
  obtain ⟨mid, -, h1, h2⟩ := Tiles.append_iff.mp h.tiles
  have hend : mid + b.size = heapEndAddr m heap := h2
  have hlt := (h.bounds (b := b) (by simp)).2.2.2
  have hmin := b.size_min
  unfold rightFree
  rw [(h.tagged b (by simp)).getFooter hlt, u64_of_lt (by omega), Nat.sub_add_cancel (by omega),
    h1, hend]
  simp

/-- The right neighbour is found by the size. -/
theorem rightFree_next (h : TagHeap m heap (xs ++ a :: b :: ys)) :
    rightFree m heap a.addr = !b.used ∧ heapRightHeader m a.addr = b.addr := by
  have hab := h.adjacent
  have hlt := (h.bounds (b := a) (by simp)).2.2.2
  obtain ⟨-, -, hend, hlt'⟩ := h.bounds (b := b) (by simp)
  have hmin := a.size_min
  have hmin' := b.size_min
  have hta := h.tagged a (by simp)
  have htb := h.tagged b (by simp)
  have hright : heapRightHeader m a.addr = b.addr := by rw [hta.rightHeader hlt, hab]
  have hfoot : u64 (heapGetFooter m a.addr + 16) < heapEndAddr m heap := by
    rw [hta.getFooter hlt, u64_of_lt (by omega)]
    omega
  refine ⟨?_, hright⟩
  unfold rightFree
  simp only [hright, hfoot, htb.checkHeader hlt', htb.getUsed, decide_true, Bool.true_and]
  cases b.used <;> rfl

end TagHeap

/-! ### The release of a block -/

/-- The free blocks at the end of `xs` and the block `b` have become the block `b'` after `xs'`. -/
structure LeftRun (xs : List Block) (b : Block) (xs' : List Block) (b' : Block) : Prop where
  free : b'.used = false
  run : ∃ run, xs = xs' ++ run ∧ (∀ c ∈ run, c.used = false) ∧
    Tiles b'.addr (run ++ [b]) (b'.addr + b'.size)
  last : ∀ c ∈ xs'.getLast?, c.used = true

/-- The block `b` and the free blocks at the start of `ys` have become the block `b'` before
`ys'`. -/
structure RightRun (b : Block) (ys : List Block) (b' : Block) (ys' : List Block) : Prop where
  free : b'.used = false
  run : ∃ run, ys = run ++ ys' ∧ (∀ c ∈ run, c.used = false) ∧
    Tiles b'.addr (b :: run) (b'.addr + b'.size)
  first : ∀ c ∈ ys'.head?, c.used = true

section release

variable {m : Mem} {heap : ℕ} {b : Block} {xs ys : List Block} {ops : IndexOps}

theorem heapMergeLeftWith_spec (h : TagHeap m heap (xs ++ b :: ys))
    (hops : leftFree m heap b.addr = true → WritesLinks heap (xs ++ b :: ys) m
      (ops.remove m (heapGetHeader m (heapLeftFooter b.addr))))
    (hb : b.used = false) (hn : NoFreePair xs) :
    ∃ m' xs' b', heapMergeLeftWith ops m heap b.addr = .ok (m', b'.addr) ∧
      TagHeap m' heap (xs' ++ b' :: ys) ∧ TagHeap.Same m heap m' ∧ LeftRun xs b xs' b' := by
  have hself : Tiles b.addr ([] ++ [b]) (b.addr + b.size) := ⟨rfl, rfl⟩
  unfold heapMergeLeftWith
  rcases List.eq_nil_or_concat xs with rfl | ⟨ws, l, rfl⟩
  · rw [h.leftFree_first]
    exact ⟨m, [], b, rfl, h, ⟨rfl, rfl⟩, hb, ⟨[], rfl, by simp, hself⟩, by simp⟩
  · rw [List.concat_eq_append] at h hops hn ⊢
    have e : ws ++ [l] ++ b :: ys = ws ++ l :: b :: ys := by simp
    rw [e] at h hops
    obtain ⟨h1, h2⟩ := h.leftFree_next
    rw [h1, h2] at hops ⊢
    by_cases hl : l.used = true
    · rw [hl]
      refine ⟨m, ws ++ [l], b, rfl, by rwa [e], ⟨rfl, rfl⟩, hb, ⟨[], by simp, by simp, hself⟩, ?_⟩
      simpa using hl
    · rw [Bool.not_eq_true] at hl
      obtain ⟨m1, hret, hf⟩ := hops (by rw [hl]; rfl)
      obtain ⟨ht1, hs1⟩ := h.links hf
      obtain ⟨ht2, hs2⟩ := ht1.merge
      have hadj := h.adjacent
      refine ⟨_, ws, l.merge b, ?_, ht2, hs1.trans hs2, rfl, ⟨[l], rfl, by simpa using hl, ?_⟩,
        fun c hc => ?_⟩
      · rw [hl]
        simp only [Bool.not_false, if_true, hret, ok_bind]
        rfl
      · refine ⟨rfl, hadj.symm, ?_⟩
        show l.addr + l.size + b.size = l.addr + (l.size + b.size)
        omega
      · have hlink := (List.isChain_append.mp hn).2.2 c hc l (by simp)
        rw [hl] at hlink
        exact hlink.resolve_right (by simp)

theorem heapMergeRightWith_spec (h : TagHeap m heap (xs ++ b :: ys))
    (hops : rightFree m heap b.addr = true → WritesLinks heap (xs ++ b :: ys) m
      (ops.remove m (heapRightHeader m b.addr)))
    (hb : b.used = false) (hn : NoFreePair ys) :
    ∃ m' b' ys', heapMergeRightWith ops m heap b.addr = .ok m' ∧ b'.addr = b.addr ∧
      TagHeap m' heap (xs ++ b' :: ys') ∧ TagHeap.Same m heap m' ∧ RightRun b ys b' ys' := by
  have hself : Tiles b.addr [b] (b.addr + b.size) := ⟨rfl, rfl⟩
  unfold heapMergeRightWith
  cases ys with
  | nil =>
      rw [h.rightFree_last]
      exact ⟨m, b, [], rfl, rfl, h, ⟨rfl, rfl⟩, hb, ⟨[], rfl, by simp, hself⟩, by simp⟩
  | cons r rs =>
      obtain ⟨h1, h2⟩ := h.rightFree_next
      rw [h1, h2] at hops ⊢
      by_cases hr : r.used = true
      · rw [hr]
        refine ⟨m, b, r :: rs, rfl, rfl, h, ⟨rfl, rfl⟩, hb, ⟨[], rfl, by simp, hself⟩, ?_⟩
        simpa using hr
      · rw [Bool.not_eq_true] at hr
        obtain ⟨m1, hret, hf⟩ := hops (by rw [hr]; rfl)
        obtain ⟨ht1, hs1⟩ := h.links hf
        obtain ⟨ht2, hs2⟩ := ht1.merge
        have hadj := h.adjacent
        refine ⟨_, b.merge r, rs, ?_, rfl, ht2, hs1.trans hs2, rfl,
          ⟨[r], rfl, by simpa using hr, ?_⟩, fun c hc => ?_⟩
        · rw [hr]
          simp only [Bool.not_false, if_true, hret, ok_bind]
          rfl
        · refine ⟨rfl, hadj.symm, ?_⟩
          show b.addr + b.size + r.size = b.addr + (b.size + r.size)
          omega
        · have hlink := (List.isChain_cons.mp hn).1 c hc
          rw [hr] at hlink
          exact hlink.resolve_left (by simp)

/-- Of `bs`, the free blocks around `b` and `b` itself have become one free block. -/
def Coalesced (bs : List Block) (b : Block) (bs' : List Block) : Prop :=
  ∃ ws left right zs r, bs = ws ++ left ++ b :: right ++ zs ∧ bs' = ws ++ r :: zs ∧
    r.used = false ∧ (∀ c ∈ left ++ right, c.used = false) ∧
    (∀ c ∈ ws.getLast?, c.used = true) ∧ (∀ c ∈ zs.head?, c.used = true) ∧
    Tiles r.addr (left ++ b :: right) (r.addr + r.size)

/-- The two merges together. -/
theorem LeftRun.coalesced {xs' ys' : List Block} {b' r : Block}
    (hl : LeftRun xs (b.setUsed false) xs' b') (hr : RightRun b' ys r ys') (he : r.addr = b'.addr) :
    Coalesced (xs ++ b :: ys) b (xs' ++ r :: ys') := by
  obtain ⟨left, rfl, hleft, htl⟩ := hl.run
  obtain ⟨right, rfl, hright, htr⟩ := hr.run
  refine ⟨xs', left, right, ys', r, by simp, rfl, hr.free, fun c hc => ?_, hl.last, hr.first, ?_⟩
  · rcases List.mem_append.mp hc with hc | hc
    · exact hleft c hc
    · exact hright c hc
  · obtain ⟨mid, h1, h2, h3⟩ := Tiles.append_iff.mp htl
    have hb : mid + b.size = b'.addr + b'.size := h3
    have htail : Tiles (mid + b.size) right (r.addr + r.size) := by
      rw [hb, ← he]
      exact htr.2
    rw [he] at htail ⊢
    exact Tiles.append_iff.mpr ⟨mid, h1, h2, htail⟩

/-- After the merges, no two free blocks are adjacent. -/
theorem NoFreePair.coalesced {bs bs' : List Block} (hn : NoFreePair bs) (h : Coalesced bs b bs') :
    NoFreePair bs' := by
  obtain ⟨ws, left, right, zs, r, rfl, rfl, -, -, hlast, hfirst, -⟩ := h
  have hws : NoFreePair ws := by
    have h1 := (List.isChain_append.mp hn).1
    rw [List.append_assoc] at h1
    exact (List.isChain_append.mp h1).1
  have hzs : NoFreePair zs := (List.isChain_append.mp hn).2.1
  apply List.isChain_append.mpr
  refine ⟨hws, List.isChain_cons.mpr ⟨fun c hc => .inr (hfirst c hc), hzs⟩, ?_⟩
  intro c hc d _
  exact .inl (hlast c hc)

/-- Of the used blocks, only the released one is gone. -/
theorem Coalesced.usedBlocks {bs bs' : List Block} {lo hi : ℕ} (h : Coalesced bs b bs')
    (ht : Tiles lo bs hi) : usedBlocks bs' = usedBlocks bs \ {b} := by
  obtain ⟨ws, left, right, zs, r, rfl, rfl, hfree, hrun, -, -, -⟩ := h
  have e : ws ++ left ++ b :: right ++ zs = ws ++ left ++ b :: (right ++ zs) := by simp
  rw [e] at ht ⊢
  ext c
  constructor
  · rintro ⟨hc, hu⟩
    have hmem : c ∈ ws ++ left ∨ c ∈ right ++ zs := by
      rcases List.mem_append.mp hc with hc | hc
      · exact .inl (List.mem_append_left left hc)
      · rcases List.mem_cons.mp hc with rfl | hc
        · rw [hfree] at hu
          cases hu
        · exact .inr (List.mem_append_right right hc)
    refine ⟨⟨?_, hu⟩, ?_⟩
    · rcases hmem with hm | hm
      · exact List.mem_append_left _ hm
      · exact List.mem_append_right _ (List.mem_cons_of_mem b hm)
    · -- the block does not occur a second time
      rintro rfl
      obtain ⟨h1, h2⟩ := ht.split
      have hmin := c.size_min
      rcases hmem with hm | hm
      · have := (h1.bounds c hm).2
        omega
      · have := (h2.bounds c hm).1
        omega
  · rintro ⟨⟨hc, hu⟩, hne⟩
    refine ⟨?_, hu⟩
    have hnot : c ∉ left ++ right := fun hm => by
      rw [hrun c hm] at hu
      cases hu
    simp only [List.mem_append, List.mem_cons, not_or, Set.mem_singleton_iff] at hc hne hnot ⊢
    tauto

/-- What the release of the block `b` makes of the blocks `bs`. -/
structure Released (m : Mem) (heap : ℕ) (bs : List Block) (b : Block) (m' : Mem)
    (bs' : List Block) : Prop where
  tags : TagHeap m' heap bs'
  same : TagHeap.Same m heap m'
  unlocked : heapLocked m' heap = 0
  apart : NoFreePair bs'
  coalesced : Coalesced bs b bs'

/-- Of the used blocks, only the released one is gone. -/
theorem Released.used {m' : Mem} {bs bs' : List Block} (hr : Released m heap bs b m' bs')
    (h : TagHeap m heap bs) : usedBlocks bs' = usedBlocks bs \ {b} :=
  hr.coalesced.usedBlocks h.tiles

/-- Two releases in either order end with the same blocks. -/
theorem Released.comm {m₁ m₁' m₂ m₂' : Mem} {bs cs cs' ds ds' : List Block} {p q : Block}
    (h : TagHeap m heap bs) (hp : Released m heap bs p m₁ cs) (hpq : Released m₁ heap cs q m₁' cs')
    (hq : Released m heap bs q m₂ ds) (hqp : Released m₂ heap ds p m₂' ds') : cs' = ds' := by
  have s1 := hp.same.trans hpq.same
  have s2 := hq.same.trans hqp.same
  have ht1 := hpq.tags.tiles
  have ht2 := hqp.tags.tiles
  rw [s1.start, s1.fin] at ht1
  rw [s2.start, s2.fin] at ht2
  apply tiles_ext ht1 ht2 hpq.apart hqp.apart
  rw [hpq.used hp.tags, hp.used h, hqp.used hq.tags, hq.used h]
  exact Set.sdiff_sdiff_comm

/-- The other block is still there. -/
theorem Released.still {m' : Mem} {bs bs' : List Block} {q : Block}
    (hr : Released m heap bs b m' bs') (h : TagHeap m heap bs) (hq : q ∈ usedBlocks bs)
    (hne : b ≠ q) : q ∈ usedBlocks bs' := by
  rw [hr.used h]
  exact ⟨hq, hne.symm⟩

theorem heapFreeWith_spec {bs : List Block} (hops : ReleaseLinks ops m heap b.addr)
    (h : TagHeap m heap bs)
    (hlock : heapLocked m heap = 0) (hn : NoFreePair bs) (hb : b ∈ bs) :
    ∃ m' bs', heapFreeWith ops m heap (b.addr + 16) = .ok m' ∧ Released m heap bs b m' bs' := by
  have hlt := (h.bounds hb).2.2.2
  have hmin := b.size_min
  have hhead : heapPayloadHeader (b.addr + 16) = b.addr := by
    unfold heapPayloadHeader
    rw [sub64_of_le (by omega) (by omega), Nat.add_sub_cancel]
  have hcheck : heapCheckHeader m b.addr = true := (h.tagged b hb).checkHeader hlt
  obtain ⟨xs, ys, rfl⟩ := List.append_of_mem hb
  obtain ⟨h1, s1⟩ := h.lock (heapLock_frame m heap)
  obtain ⟨h2, s2⟩ := h1.setFree
  have hxs : NoFreePair xs := (List.isChain_append.mp hn).1
  have hys : NoFreePair ys := (List.isChain_append.mp hn).2.1.tail
  obtain ⟨m3, xs', b', e3, h3, s3, hl⟩ := @heapMergeLeftWith_spec _ _ _ _ _ ops h2
    (hops.left _ h2) rfl hxs
  obtain ⟨m4, r, ys', e4, ha, h4, s4, hr⟩ := heapMergeRightWith_spec h3 (hops.right _ _ _ e3 h3)
    hl.free hys
  obtain ⟨m5, e5, hf⟩ := hops.insert _ _ _ _ e3 e4 h4
  obtain ⟨h5, s5⟩ := h4.links hf
  obtain ⟨h6, s6⟩ := h5.lock (heapUnlock_frame m5 heap)
  have hco : Coalesced (xs ++ b :: ys) b (xs' ++ r :: ys') := hl.coalesced hr ha
  refine ⟨heapUnlock m5 heap, xs' ++ r :: ys', ?_, h6,
    s1.trans (s2.trans (s3.trans (s4.trans (s5.trans s6)))), heapUnlock_locked m5 heap,
    hn.coalesced hco, hco⟩
  have hne : b.addr + 16 ≠ 0 := by omega
  rw [Block.setUsed_addr] at e3
  unfold heapFreeWith
  rw [if_pos hne]
  dsimp only
  rw [hhead, if_pos hcheck, heapWaitLock_clear hlock, ok_bind, e3, ok_bind]
  dsimp only
  rw [e4, ok_bind, e5, ok_bind]
  rfl

end release

/-! ### The operations of `heap.c` -/

section index

variable {m : Mem} {heap : ℕ} {b : Block} {bs cs xs ys : List Block} {S : Set ℕ}

/-- The tags determine the blocks. -/
theorem tiles_tagged_ext : ∀ {bs cs : List Block} {lo hi : ℕ}, Tiles lo bs hi → Tiles lo cs hi →
    (∀ b ∈ bs, Tagged m b) → (∀ c ∈ cs, Tagged m c) → bs = cs
  | [], [], _, _, _, _, _, _ => rfl
  | [], c :: cs, lo, hi, hb, hc, _, _ => by
      have h1 : lo = hi := hb
      have h2 : lo + c.size ≤ hi := hc.2.le
      have h3 := c.size_min
      omega
  | b :: bs, [], lo, hi, hb, hc, _, _ => by
      have h1 : lo = hi := hc
      have h2 : lo + b.size ≤ hi := hb.2.le
      have h3 := b.size_min
      omega
  | b :: bs, c :: cs, lo, hi, hb, hc, tb, tc => by
      have haddr : b.addr = c.addr := hb.1.trans hc.1.symm
      have h1 := tb b List.mem_cons_self
      have h2 := tc c List.mem_cons_self
      have hused : b.used = c.used := by
        have e : b.used.toNat = c.used.toNat := by rw [← h1.getUsed, ← h2.getUsed, haddr]
        revert e
        cases b.used <;> cases c.used <;> simp
      obtain rfl := h1.unique h2 haddr hused
      rw [tiles_tagged_ext hb.2 hc.2 (fun d hd => tb d (List.mem_cons_of_mem b hd))
        fun d hd => tc d (List.mem_cons_of_mem b hd)]

theorem TagHeap.unique (h : TagHeap m heap bs) (h' : TagHeap m heap cs) : bs = cs :=
  tiles_tagged_ext h.tiles h'.tiles h.tagged h'.tagged

theorem HeapRep.tagHeap (h : HeapRep m heap bs S) : TagHeap m heap bs :=
  ⟨h.start.ge, h.start.symm ▸ h.tiles, h.tagged⟩

/-- Removing a block from a coherent index writes links only. -/
theorem HeapIndex.remove_links (hx : HeapIndex m heap S) (hS : S ⊆ freeAddrs bs)
    (ht : ∀ c ∈ bs, c.used = false → Tagged m c) {a : ℕ} (ha : a ∈ S) (hr : Removable m a) :
    ∃ m', heapRemove m heap a = .ok m' ∧ HeapIndex m' heap (S \ {a}) ∧
      AgreeOff m m' (linkArea heap bs) := by
  obtain ⟨m', hret, hx', hf, -⟩ := heapRemove_spec hx ha hr
  exact ⟨m', hret, hx', hf.mono fun x => indexBytes_linkArea ht hS⟩

/-- Inserting a block into a coherent index writes links only. -/
theorem HeapIndex.insert_links (hx : HeapIndex m heap S) (hS : insert b.addr S ⊆ freeAddrs bs)
    (ht : ∀ c ∈ bs, c.used = false → Tagged m c) (hsp : Spaced {a | ∃ c ∈ bs, c.addr = a})
    (habove : heap + HEAP_T_SIZE ≤ b.addr) (hb : Tagged m b) (hn : b.addr ∉ S)
    (hi : Indexable b.size) :
    ∃ m', Returns (fun n => heapInsert n m heap b.addr) m' ∧ HeapIndex m' heap (insert b.addr S) ∧
      AgreeOff m m' (linkArea heap bs) ∧ Removable m' b.addr := by
  have hsp' : Spaced (insert b.addr S) := hsp.mono fun a ha => by
    obtain ⟨c, hc, -, e⟩ := hS ha
    exact ⟨c, hc, e⟩
  have hsz := hb.getSize
  obtain ⟨m', hret, hx', hf, hr⟩ := heapInsert_spec hx hn hsp' habove (by rwa [hsz])
    (by rw [hsz]; exact b.size_min)
  exact ⟨m', hret, hx', hf.mono fun x => indexBytes_linkArea ht hS, hr⟩

/-- **In a coherent index, a release calls operations that write links only.** -/
theorem HeapRep.releaseLinks (h : HeapRep m heap bs (freeAddrs bs)) (hb : b ∈ usedBlocks bs)
    (hok : FreeOk m heap (b.addr + 16)) :
    ∀ᶠ n in Filter.atTop, ReleaseLinks (heapOps n heap) m heap b.addr := by
  obtain ⟨hbm, hbu⟩ := hb
  obtain ⟨-, hlt⟩ := h.mem_low hbm
  have hmin := b.size_min
  have hheader : heapPayloadHeader (b.addr + 16) = b.addr := by
    unfold heapPayloadHeader
    rw [sub64_of_le (by omega) (by omega), Nat.add_sub_cancel]
  unfold FreeOk at hok
  rw [hheader] at hok
  obtain ⟨xs, ys, rfl⟩ := List.append_of_mem hbm
  have hheld := h.held_released hbu
  obtain ⟨m1, xs', b1, m2, b2, ys', hm⟩ := hheld.merges hok
  have hleft := hm.left_eq
  have hright := hm.right_eq
  rw [Block.setUsed_addr] at hleft
  have hrep := hheld.rep
  have hrep1 := hm.left.held.rep
  have hrep2 := hm.right.held.rep
  have hb2 : b2 ∈ xs' ++ [b2] ++ ys' := by simp
  have hS2 : Insert.insert b2.addr (freeAddrs (xs' ++ ys')) ⊆ freeAddrs (xs' ++ [b2] ++ ys') := by
    rintro a (rfl | ha)
    · exact ⟨b2, hb2, hm.right.held.free, rfl⟩
    · exact hrep2.sub ha
  obtain ⟨m3, hret, -, hf, -⟩ := hrep2.index.insert_links hS2 (fun c hc _ => hrep2.tagged c hc)
    hrep2.spaced (hrep2.bounds hb2).1 (hrep2.tagged b2 hb2) hm.fresh hm.indexable
  filter_upwards [hret] with n hn
  refine ⟨fun cs hcs hfree => ?_, fun k c cs e hcs hfree => ?_, fun k c k' cs e e' hcs => ?_⟩
  · obtain rfl := hrep.tagHeap.unique hcs
    have hl : mergeableLeft (released m heap b.addr) heap b.addr =
        some (heapGetHeader (released m heap b.addr) (heapLeftFooter b.addr)) := if_pos hfree
    obtain ⟨m', hret', -, hf'⟩ := hrep.index.remove_links hrep.sub (fun c hc _ => hrep.tagged c hc)
      (hheld.left_mem hl) (hok.1 _ hl)
    exact ⟨m', hret', hf'⟩
  · rw [← heapMergeLeft_eq, hleft] at e
    cases e
    obtain rfl := hrep1.tagHeap.unique hcs
    have hr : mergeableRight m1 heap b1.addr = some (heapRightHeader m1 b1.addr) := if_pos hfree
    obtain ⟨m', hret', -, hf'⟩ := hrep1.index.remove_links hrep1.sub
      (fun c hc _ => hrep1.tagged c hc) (hm.left.held.right_mem hr) (hm.removable _ hr)
    exact ⟨m', hret', hf'⟩
  · rw [← heapMergeLeft_eq, hleft] at e
    cases e
    rw [← heapMergeRight_eq, hright] at e'
    cases e'
    obtain rfl := hrep2.tagHeap.unique hcs
    rw [heapOps_insert, ← hm.right.addr]
    exact ⟨m3, hn, hf⟩

/-- After the release of another block, too. -/
theorem HeapRep.releaseLinks_after (h : HeapRep m heap bs (freeAddrs bs)) {p q : Block}
    (hlock : heapLocked m heap = 0) (hp : p ∈ usedBlocks bs) (hq : q ∈ usedBlocks bs) (hpq : p ≠ q)
    (hok : FreeOk m heap (p.addr + 16))
    (hnext : ∀ m₁, Returns (fun n => heapFree n m heap (p.addr + 16)) m₁ →
      FreeOk m₁ heap (q.addr + 16)) :
    ∀ᶠ n in Filter.atTop, ∀ m₁, heapFreeWith (heapOps n heap) m heap (p.addr + 16) = .ok m₁ →
      ReleaseLinks (heapOps n heap) m₁ heap q.addr := by
  obtain ⟨m', bs', hret, hfreed⟩ := heapFree_spec h hlock hp rfl hok
  have hq' : q ∈ usedBlocks bs' := by
    rw [hfreed.used]
    exact ⟨hq, hpq.symm⟩
  filter_upwards [hret, hfreed.rep.unlock.releaseLinks hq' (hnext _ hret)] with n hn hlinks m₁ e
  obtain rfl := Except.ok.inj (hn.symm.trans e)
  exact hlinks

/-- The invariant from lists and chains that are given. -/
theorem HeapRep.of_lists {L : ℕ → List ℕ} {T : Chains ℕ} (haligned : heap % 16 = 0)
    (hstart : heapStartAddr m heap = heap + HEAP_T_SIZE)
    (htiles : Tiles (heap + HEAP_T_SIZE) bs (heapEndAddr m heap)) (htagged : ∀ b ∈ bs, Tagged m b)
    (hmem : ∀ b ∈ bs, b.used = false → (∃ i < HEAP_LIST_COUNT, b.addr ∈ L i) ∨ b.addr ∈ nodes T)
    (hlists : ∀ i < HEAP_LIST_COUNT, ∀ z ∈ L i, ∃ b ∈ bs, b.used = false ∧ b.addr = z)
    (hnodes : ∀ z ∈ nodes T, ∃ b ∈ bs, b.used = false ∧ b.addr = z)
    (hlinked : ∀ i < HEAP_LIST_COUNT, Linked (prevBlock m) (nextBlock m) 0 0 (L i) ∧
      rd m (heapFreeSlot heap i) = (L i).headD 0 ∧ (L i).Nodup ∧
      ∀ z ∈ L i, heapSizeIdx (heapGetSize m z) = i)
    (htree : SizeTree (treeFields heapAlign m) 0 (rd m (heapFreeSlot heap HEAP_LIST_COUNT)) T)
    (htreed : ∀ z ∈ nodes T, heapSizeIdx (heapGetSize m z) < 0) :
    HeapRep m heap bs (freeAddrs bs) := by
  have hsp := htiles.spaced (by rw [HEAP_T_SIZE]; omega) (rd_lt m _)
  refine ⟨haligned, hstart, htiles, htagged, Set.Subset.rfl, ⟨?_, L, T, ⟨?_, fun z => ⟨?_, ?_⟩,
    fun i hi => (hlinked i hi).1, fun i hi => (hlinked i hi).2.1, fun i hi => (hlinked i hi).2.2.1,
    fun i hi => (hlinked i hi).2.2.2, htree, htreed⟩⟩⟩
  · rintro a ⟨b, hb, -, rfl⟩
    exact (htiles.bounds b hb).1
  · refine hsp.mono ?_
    rintro a ⟨b, hb, -, rfl⟩
    exact ⟨b, hb, rfl⟩
  · rintro ⟨b, hb, hu, rfl⟩
    exact hmem b hb hu
  · rintro (⟨i, hi, hz⟩ | hz)
    · exact hlists i hi z hz
    · exact hnodes z hz

end index

/-! ### A heap of six blocks -/

/-- The used block between the lists' blocks. -/
def midBlock : Block := ⟨0x100250, 48, true, le_rfl, rfl⟩

/-- The used block before the tree's block. -/
def lastBlock : Block := ⟨0x1002C0, 64, true, by decide, rfl⟩

/-- The block of the tree. -/
def largeBlock : Block := ⟨0x100300, 2048, false, by decide, rfl⟩

/-- Free and used blocks in turn. -/
def sixBlocks : List Block :=
  [⟨0x100220, 48, false, le_rfl, rfl⟩, midBlock, ⟨0x100280, 64, false, by decide, rfl⟩, lastBlock,
    largeBlock, ⟨0x100B00, 48, true, le_rfl, rfl⟩]

/-- Their heap. -/
def sixMem : Mem :=
  let m := wr (wr (fun _ => 0) 0x100000 0x100220) 0x100008 0x100B30
  let m := wr (wr m (heapFreeSlot 0x100000 1) 0x100220) (heapFreeSlot 0x100000 2) 0x100280
  let m := wr m (heapFreeSlot 0x100000 HEAP_LIST_COUNT) 0x100300
  sixBlocks.foldl (fun m b => heapSetUsed (heapCreateBlock m b.addr b.size) b.addr b.used.toNat) m

theorem sixMem_rep : HeapRep sixMem 0x100000 sixBlocks (freeAddrs sixBlocks) :=
  HeapRep.of_lists
    (L := fun i => if i = 1 then [0x100220] else if i = 2 then [0x100280] else [])
    (T := [(0x100300, [])]) rfl (by decide +kernel) (by decide +kernel) (by decide +kernel)
    (by decide +kernel) (by decide +kernel) (by decide +kernel) (by decide +kernel)
    (by decide +kernel) (by decide +kernel)

theorem sixMem_unlocked : heapLocked sixMem 0x100000 = 0 := by decide +kernel

theorem sixBlocks_noFreePair : NoFreePair sixBlocks := by
  unfold NoFreePair sixBlocks midBlock lastBlock largeBlock
  simp

/-! ### Releases -/

section releases

variable {m : Mem} {heap : ℕ} {b : Block} {bs : List Block} {ops : IndexOps}

/-- **The release of a block.** -/
theorem heap_free_merges (hops : ReleaseLinks ops m heap b.addr) (h : TagHeap m heap bs)
    (hlock : heapLocked m heap = 0) (hn : NoFreePair bs) (hb : b ∈ bs) :
    ∃ m' bs', heapFreeWith ops m heap (b.addr + 16) = .ok m' ∧ TagHeap m' heap bs' ∧
      heapStartAddr m' heap = heapStartAddr m heap ∧ heapEndAddr m' heap = heapEndAddr m heap ∧
      NoFreePair bs' ∧ Coalesced bs b bs' ∧ usedBlocks bs' = usedBlocks bs \ {b} := by
  obtain ⟨m', bs', hret, hr⟩ := heapFreeWith_spec hops h hlock hn hb
  exact ⟨m', bs', hret, hr.tags, hr.same.start, hr.same.fin, hr.apart, hr.coalesced, hr.used h⟩

/-- The block merges with both of its neighbours. -/
theorem heap_free_merges_six : ∃ n m' bs',
    heapFreeWith (heapOps n 0x100000) sixMem 0x100000 (midBlock.addr + 16) = .ok m' ∧
      TagHeap m' 0x100000 bs' ∧
      heapStartAddr m' 0x100000 = heapStartAddr sixMem 0x100000 ∧
      heapEndAddr m' 0x100000 = heapEndAddr sixMem 0x100000 ∧ NoFreePair bs' ∧
      Coalesced sixBlocks midBlock bs' ∧ usedBlocks bs' = usedBlocks sixBlocks \ {midBlock} := by
  have hused : midBlock ∈ usedBlocks sixBlocks := ⟨by simp [sixBlocks], rfl⟩
  obtain ⟨n, hn⟩ := (sixMem_rep.releaseLinks hused (by decide +kernel)).exists
  exact ⟨n, heap_free_merges hn sixMem_rep.tagHeap sixMem_unlocked sixBlocks_noFreePair hused.1⟩

/-- The release of a block by `heap_free`, in a heap with a coherent index. -/
theorem heapFree_released (h : HeapRep m heap bs (freeAddrs bs)) (hlock : heapLocked m heap = 0)
    (hn : NoFreePair bs) (hb : b ∈ usedBlocks bs) (hok : FreeOk m heap (b.addr + 16)) :
    ∃ m' bs', Returns (fun n => heapFree n m heap (b.addr + 16)) m' ∧
      HeapRep m' heap bs' (freeAddrs bs') ∧ Released m heap bs b m' bs' := by
  obtain ⟨m', bs', hret, hfreed⟩ := heapFree_spec h hlock hb rfl hok
  obtain ⟨n, hn', hlinks⟩ := (hret.and (h.releaseLinks hb hok)).exists
  obtain ⟨m'', cs, e, hr⟩ := heapFreeWith_spec hlinks h.tagHeap hlock hn hb.1
  obtain rfl := Except.ok.inj (hn'.symm.trans e)
  have hrep := hfreed.rep.unlock
  obtain rfl := hrep.tagHeap.unique hr.tags
  exact ⟨_, bs', hret, hrep, hr⟩

/-- **The order of two releases does not matter.** -/
theorem heap_free_comm {p q : Block} (hp : p ∈ bs) (hpu : p.used = true) (hq : q ∈ bs)
    (hqu : q.used = true) (hpq : p ≠ q) (hopsp : ReleaseLinks ops m heap p.addr)
    (hopsq : ReleaseLinks ops m heap q.addr)
    (hopspq : ∀ m₁, heapFreeWith ops m heap (p.addr + 16) = .ok m₁ →
      ReleaseLinks ops m₁ heap q.addr)
    (hopsqp : ∀ m₂, heapFreeWith ops m heap (q.addr + 16) = .ok m₂ →
      ReleaseLinks ops m₂ heap p.addr)
    (h : TagHeap m heap bs) (hlock : heapLocked m heap = 0) (hn : NoFreePair bs) :
    ∃ m₁ m₁' m₂ m₂' bs', heapFreeWith ops m heap (p.addr + 16) = .ok m₁ ∧
      heapFreeWith ops m₁ heap (q.addr + 16) = .ok m₁' ∧
      heapFreeWith ops m heap (q.addr + 16) = .ok m₂ ∧
      heapFreeWith ops m₂ heap (p.addr + 16) = .ok m₂' ∧
      TagHeap m₁' heap bs' ∧ TagHeap m₂' heap bs' := by
  obtain ⟨m₁, cs, e1, r1⟩ := heapFreeWith_spec hopsp h hlock hn hp
  obtain ⟨m₂, ds, e2, r2⟩ := heapFreeWith_spec hopsq h hlock hn hq
  have hq1 := r1.still h ⟨hq, hqu⟩ hpq
  have hp2 := r2.still h ⟨hp, hpu⟩ hpq.symm
  obtain ⟨m₁', cs', e1', r1'⟩ :=
    heapFreeWith_spec (hopspq m₁ e1) r1.tags r1.unlocked r1.apart hq1.1
  obtain ⟨m₂', ds', e2', r2'⟩ :=
    heapFreeWith_spec (hopsqp m₂ e2) r2.tags r2.unlocked r2.apart hp2.1
  obtain rfl := Released.comm h r1 r1' r2 r2'
  exact ⟨m₁, m₁', m₂, m₂', cs', e1, e1', e2, e2', r1'.tags, r2'.tags⟩

/-- The order of two releases by `heap_free` does not matter, in a heap with a coherent index. -/
theorem heapFree_comm {p q : Block} (h : HeapRep m heap bs (freeAddrs bs))
    (hlock : heapLocked m heap = 0) (hn : NoFreePair bs) (hp : p ∈ usedBlocks bs)
    (hq : q ∈ usedBlocks bs) (hpq : p ≠ q) (hokp : FreeOk m heap (p.addr + 16))
    (hokq : FreeOk m heap (q.addr + 16))
    (hokpq : ∀ m₁, Returns (fun n => heapFree n m heap (p.addr + 16)) m₁ →
      FreeOk m₁ heap (q.addr + 16))
    (hokqp : ∀ m₂, Returns (fun n => heapFree n m heap (q.addr + 16)) m₂ →
      FreeOk m₂ heap (p.addr + 16)) :
    ∃ m₁ m₁' m₂ m₂' bs', Returns (fun n => heapFree n m heap (p.addr + 16)) m₁ ∧
      Returns (fun n => heapFree n m₁ heap (q.addr + 16)) m₁' ∧
      Returns (fun n => heapFree n m heap (q.addr + 16)) m₂ ∧
      Returns (fun n => heapFree n m₂ heap (p.addr + 16)) m₂' ∧
      HeapRep m₁' heap bs' (freeAddrs bs') ∧ HeapRep m₂' heap bs' (freeAddrs bs') := by
  obtain ⟨m₁, cs, e1, h1, r1⟩ := heapFree_released h hlock hn hp hokp
  obtain ⟨m₂, ds, e2, h2, r2⟩ := heapFree_released h hlock hn hq hokq
  obtain ⟨m₁', cs', e1', h1', r1'⟩ :=
    heapFree_released h1 r1.unlocked r1.apart (r1.still h.tagHeap hq hpq) (hokpq m₁ e1)
  obtain ⟨m₂', ds', e2', h2', r2'⟩ :=
    heapFree_released h2 r2.unlocked r2.apart (r2.still h.tagHeap hp hpq.symm) (hokqp m₂ e2)
  obtain rfl := Released.comm h.tagHeap r1 r1' r2 r2'
  exact ⟨m₁, m₁', m₂, m₂', cs', e1, e1', e2, e2', h1', h2'⟩

/-- The two blocks have a free neighbour in common, and the second one the block of the tree. -/
theorem heap_free_comm_six : ∃ n m₁ m₁' m₂ m₂' bs',
    heapFreeWith (heapOps n 0x100000) sixMem 0x100000 (midBlock.addr + 16) = .ok m₁ ∧
      heapFreeWith (heapOps n 0x100000) m₁ 0x100000 (lastBlock.addr + 16) = .ok m₁' ∧
      heapFreeWith (heapOps n 0x100000) sixMem 0x100000 (lastBlock.addr + 16) = .ok m₂ ∧
      heapFreeWith (heapOps n 0x100000) m₂ 0x100000 (midBlock.addr + 16) = .ok m₂' ∧
      TagHeap m₁' 0x100000 bs' ∧ TagHeap m₂' 0x100000 bs' := by
  have hmid : midBlock ∈ usedBlocks sixBlocks := ⟨by simp [sixBlocks], rfl⟩
  have hlast : lastBlock ∈ usedBlocks sixBlocks := ⟨by simp [sixBlocks], rfl⟩
  have hne : midBlock ≠ lastBlock := by simp [midBlock, lastBlock]
  have hokm : FreeOk sixMem 0x100000 (midBlock.addr + 16) := by decide +kernel
  have hokl : FreeOk sixMem 0x100000 (lastBlock.addr + 16) := by decide +kernel
  have next : ∀ p q : ℕ, (heapFree 9 sixMem 0x100000 p).isOk = true →
      FreeOk (resultOf (heapFree 9 sixMem 0x100000 p)) 0x100000 q →
      ∀ m₁, Returns (fun n => heapFree n sixMem 0x100000 p) m₁ → FreeOk m₁ 0x100000 q := by
    intro p q hret hok m₁ hm
    rwa [hm.unique ((heapFree_steady sixMem 0x100000 p).returns (resultOf_eq hret))]
  have hml := sixMem_rep.releaseLinks_after sixMem_unlocked hmid hlast hne hokm
    (next _ _ (by decide +kernel) (by decide +kernel))
  have hlm := sixMem_rep.releaseLinks_after sixMem_unlocked hlast hmid hne.symm hokl
    (next _ _ (by decide +kernel) (by decide +kernel))
  obtain ⟨n, ⟨h1, h2⟩, h3, h4⟩ := (((sixMem_rep.releaseLinks hmid hokm).and
    (sixMem_rep.releaseLinks hlast hokl)).and (hml.and hlm)).exists
  exact ⟨n, heap_free_comm hmid.1 rfl hlast.1 rfl hne h1 h2 h3 h4 sixMem_rep.tagHeap
    sixMem_unlocked sixBlocks_noFreePair⟩

end releases

end Dawos
