import Dawos.HeapIndex

/-! # The heap allocator

The public functions of `heap.c`: `heap_create`, `heap_alloc`, `heap_realloc`, `heap_free` and
`heap_alloc_size`, over the block and index functions of the earlier modules.

`page_alloc` is a parameter: given an address, a size and the memory it returns the size it
granted (or `0`) and the memory after it.  The lock is one bit; waiting for it while it is set
is the error `Halt.deadlock`, since the loader runs on one processor with nothing else to clear
the bit. -/

namespace Dawos

/-- What the heap calls to get pages at an address: granted size and memory. -/
abbrev PageAlloc := ℕ → ℕ → Mem → Except Halt (ℕ × Mem)

/-! ### Lock -/

/-- Wait for the heap to be unlocked, then lock it. -/
def heapWaitLock (m : Mem) (heap : ℕ) : Except Halt Mem :=
  if heapLocked m heap ≠ 0 then .error .deadlock
  else .ok (wr m (heap + 24) (rd m (heap + 24) / 2 * 2 + 1))

/-- Unlock the heap. -/
def heapUnlock (m : Mem) (heap : ℕ) : Mem := wr m (heap + 24) (rd m (heap + 24) / 2 * 2)

/-! ### Merging -/

/-- The block that ends where `block` starts is there and free. -/
def leftFree (m : Mem) (heap block : ℕ) : Bool :=
  let prevFooter := heapLeftFooter block
  decide (heapStartAddr m heap < block) && (heapCheckFooter m prevFooter &&
    heapGetUsed m (heapGetHeader m prevFooter) == 0)

/-- The block that starts where `block` ends is there and free. -/
def rightFree (m : Mem) (heap block : ℕ) : Bool :=
  let nextHeader := heapRightHeader m block
  decide (u64 (heapGetFooter m block + 16) < heapEndAddr m heap) &&
    (heapCheckHeader m nextHeader && heapGetUsed m nextHeader == 0)

/-- Merge a block to the left: the memory, and the block or the left one merged with it. -/
def heapMergeLeft (m : Mem) (heap block : ℕ) : Except Halt (Mem × ℕ) :=
  if leftFree m heap block then do
    let freeLeft := heapGetHeader m (heapLeftFooter block)
    let m ← heapRemove m heap freeLeft
    return (heapCreateBlock m freeLeft (u64 (heapGetSize m freeLeft + heapGetSize m block)),
      freeLeft)
  else .ok (m, block)

/-- Merge a block to the right. -/
def heapMergeRight (m : Mem) (heap block : ℕ) : Except Halt Mem :=
  if rightFree m heap block then do
    let freeRight := heapRightHeader m block
    let m ← heapRemove m heap freeRight
    return heapCreateBlock m block (u64 (heapGetSize m block + heapGetSize m freeRight))
  else .ok m

/-- Extend the heap: the memory and a new free block that is in no list, or `0`. -/
def heapExtend (pageAlloc : PageAlloc) (m : Mem) (heap bsize : ℕ) : Except Halt (Mem × ℕ) := do
  let block := heapEndAddr m heap
  let (allocSize, m) ← pageAlloc (heapEndAddr m heap) bsize m
  if 0 < allocSize then
    let m := wr m (heap + 8) (heapEndAddr m heap + allocSize)
    let m := heapCreateBlock m block allocSize
    heapMergeLeft m heap block
  else return (m, 0)

/-! ### Creation -/

/-- Create a heap at `start`. -/
def heapCreate (fuel : ℕ) (m : Mem) (start size maxSize : ℕ) : Except Halt Mem :=
  let heap := start
  let start := u64 (start + HEAP_T_SIZE)
  let size := sub64 size HEAP_T_SIZE
  let maxSize := sub64 maxSize HEAP_T_SIZE
  let m := wr m heap start
  let m := wr m (heap + 8) (start + size)
  let m := wr m (heap + 16) (start + maxSize)
  -- `flags.locked = 0` and `flags.reserved = 0` clear the whole word
  let m := wr m (heap + 24) 0
  let m := (List.range (HEAP_LIST_COUNT + 1)).foldl (fun m i => wr m (heapFreeSlot heap i) 0) m
  let block := heapStartAddr m heap
  let m := heapCreateBlock m block size
  heapInsert fuel m heap block

/-! ### Allocation -/

/-- A free block for the request that is in no list: found and removed, or from an extension. -/
def heapTake (pageAlloc : PageAlloc) (fuel : ℕ) (m : Mem) (heap bsize : ℕ) (align : Bool) :
    Except Halt (Mem × ℕ) := do
  let freeBlock ← heapSearch fuel m heap bsize align
  if freeBlock = 0 then heapExtend pageAlloc m heap bsize
  else do
    let m ← heapRemove m heap freeBlock
    return (m, freeBlock)

/-- Split off what precedes an aligned payload, when asked for. -/
def heapCarve (fuel : ℕ) (m : Mem) (heap block : ℕ) (align : Bool) : Except Halt (Mem × ℕ) :=
  if align && !heapIsPageAligned (heapGetPayload block) then do
    let blockSize := heapGetSize m block
    let blockOffset := alignedOffset block
    let leftSize := alignedLeft block
    let rightSize := sub64 blockSize leftSize
    -- the leftover block, then the real one
    let m := heapCreateBlock m block leftSize
    let m := heapCreateBlock m blockOffset rightSize
    let m ← heapInsert fuel m heap block
    return (m, blockOffset)
  else .ok (m, block)

/-- Split off what the request does not need and mark the block used. -/
def heapPlace (fuel : ℕ) (m : Mem) (heap block bsize : ℕ) : Except Halt Mem := do
  let r := heapSplitBlock m block bsize
  if r.2 ≠ 0 then
    let m ← heapInsert fuel r.1 heap r.2
    return heapSetUsed m block 1
  else return heapSetUsed r.1 block 1

/-- Allocate a block: the memory and a pointer to the payload, or `0`. -/
def heapAlloc (pageAlloc : PageAlloc) (fuel : ℕ) (m : Mem) (heap size : ℕ) (align : Bool) :
    Except Halt (Mem × ℕ) := do
  let m ← heapWaitLock m heap
  if 0 < size then
    let psize := heapSizeAlign size
    let bsize := heapBsize psize
    let (m, freeBlock) ← heapTake pageAlloc fuel m heap bsize align
    if freeBlock ≠ 0 then
      let (m, freeBlock) ← heapCarve fuel m heap freeBlock align
      let m ← heapPlace fuel m heap freeBlock bsize
      return (heapUnlock m heap, heapGetPayload freeBlock)
    else return (heapUnlock m heap, 0)
  else return (heapUnlock m heap, 0)

/-! ### Release -/

/-- The size of the payload of an allocated block. -/
def heapAllocSize (m : Mem) (ptr : ℕ) : ℕ :=
  if ptr ≠ 0 then
    let freeBlock := heapPayloadHeader ptr
    if heapCheckHeader m freeBlock then heapPsize (heapGetSize m freeBlock) else 0
  else 0

/-- Release an allocated block. -/
def heapFree (fuel : ℕ) (m : Mem) (heap ptr : ℕ) : Except Halt Mem :=
  if ptr ≠ 0 then
    let freeBlock := heapPayloadHeader ptr
    if heapCheckHeader m freeBlock then do
      let m ← heapWaitLock m heap
      let m := heapSetUsed m freeBlock 0
      let (m, freeBlock) ← heapMergeLeft m heap freeBlock
      let m ← heapMergeRight m heap freeBlock
      let m ← heapInsert fuel m heap freeBlock
      return heapUnlock m heap
    else .ok m
  else .ok m

/-- Copy `len` bytes upwards. -/
def memCopy (m : Mem) (dest src : ℕ) : ℕ → Mem
  | 0 => m
  | len + 1 => memCopy (Function.update m dest (m src)) (dest + 1) (src + 1) len

/-- Reallocate a block. -/
def heapRealloc (pageAlloc : PageAlloc) (fuel : ℕ) (m : Mem) (heap ptr size : ℕ) (align : Bool) :
    Except Halt (Mem × ℕ) :=
  let psize := heapAlign size
  let bsize := heapBsize psize
  let psizeNow := heapAllocSize m ptr
  if psize < psizeNow then .ok (m, ptr)
  else do
    let m ← heapWaitLock m heap
    let (m, ptrNew) ← heapAlloc pageAlloc fuel m heap bsize align
    let m := memCopy m ptrNew ptr psizeNow
    let m ← heapFree fuel m heap ptr
    return (heapUnlock m heap, ptrNew)

/-! ### Operations for a fixed bound -/

section steady

variable {m : Mem} {heap block bsize size ptr : ℕ} {align : Bool}

theorem heapInsert_steady (m : Mem) (heap block : ℕ) :
    Steady fun n => heapInsert n m heap block := by
  unfold heapInsert heapTreeInsert
  refine Steady.ite (Steady.const _) (Steady.bind (Steady.ite (Steady.ite (Steady.const _) ?_)
    (Steady.const _)) fun r => Steady.const _)
  exact Steady.bind (loop_steady _ _) fun m => Steady.const _

theorem heapSearchLists_steady (m : Mem) (heap bsize : ℕ) (align : Bool) (k : ℕ) :
    ∀ i, Steady fun n => heapSearchLists n m heap bsize align k i := by
  induction k with
  | zero => exact fun i => Steady.const _
  | succ k ih =>
      intro i
      unfold heapSearchLists
      refine Steady.ite (ih (i + 1)) (Steady.ite (Steady.const _) ?_)
      refine Steady.bind (loop_steady (listStep m bsize) _) fun r => ?_
      cases r with
      | none => exact ih (i + 1)
      | some b => exact Steady.const _

theorem heapTreeSearch_steady (m : Mem) (tree bsize : ℕ) :
    Steady fun n => heapTreeSearch n m tree bsize := by
  unfold heapTreeSearch
  exact Steady.ite (Steady.const _) (Steady.bind (loop_steady _ _) fun _ =>
    Steady.ite (Steady.const _) (loop_steady _ _))

theorem heapTreeSearchAligned_steady (m : Mem) (tree bsize : ℕ) :
    Steady fun n => heapTreeSearchAligned n m tree bsize := by
  unfold heapTreeSearchAligned
  exact Steady.ite (Steady.const _) (Steady.bind (loop_steady _ _) fun _ =>
    Steady.ite (Steady.const _) (loop_steady _ _))

theorem heapSearch_steady (m : Mem) (heap bsize : ℕ) (align : Bool) :
    Steady fun n => heapSearch n m heap bsize align := by
  have hlist : Steady fun n => heapListSearch n m heap bsize align := by
    unfold heapListSearch
    exact Steady.ite (heapSearchLists_steady m heap bsize align _ _) (Steady.const _)
  unfold heapSearch
  refine Steady.bind hlist fun r => ?_
  cases r with
  | some b => exact Steady.const _
  | none => exact Steady.ite (heapTreeSearchAligned_steady _ _ _) (heapTreeSearch_steady _ _ _)

theorem heapCreate_steady (m : Mem) (heap size maxSize : ℕ) :
    Steady fun n => heapCreate n m heap size maxSize := heapInsert_steady _ _ _

theorem heapAlloc_steady {pa : ℕ → PageAlloc} (hpa : ∀ a s m, Steady fun n => pa n a s m) (m : Mem)
    (heap size : ℕ) (align : Bool) : Steady fun n => heapAlloc (pa n) n m heap size align := by
  refine Steady.bind (Steady.const _) fun _ => Steady.ite (Steady.bind (Steady.bind
    (heapSearch_steady _ _ _ _) fun _ => Steady.ite (Steady.bind (hpa _ _ _) fun _ => Steady.const _)
    (Steady.const _)) fun _ => Steady.ite (Steady.bind ?_ fun _ => Steady.bind ?_ fun _ =>
    Steady.const _) (Steady.const _)) (Steady.const _)
  · exact Steady.ite (Steady.bind (heapInsert_steady _ _ _) fun _ => Steady.const _) (Steady.const _)
  · exact Steady.ite (Steady.bind (heapInsert_steady _ _ _) fun _ => Steady.const _) (Steady.const _)

theorem heapFree_steady (m : Mem) (heap ptr : ℕ) : Steady fun n => heapFree n m heap ptr :=
  Steady.ite (Steady.ite (Steady.bind (Steady.const _) fun _ => Steady.bind (Steady.const _) fun _ =>
    Steady.bind (Steady.const _) fun _ => Steady.bind (heapInsert_steady _ _ _) fun _ =>
    Steady.const _) (Steady.const _)) (Steady.const _)

end steady

end Dawos
