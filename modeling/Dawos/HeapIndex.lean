import Dawos.FreeIndex
import Dawos.HeapBlock

/-! # The free index of the heap

`heap_t` occupies `sizeof(heap_t) = 544` bytes: start, end and maximum address, the flags, and
the array `free` with one entry for each segregated list and one, the last, for the tree.

The first part is the code of `heap.c` on this index: `heap_tree_insert`, `heap_tree_delete`,
the three searches, `heap_remove` and `heap_insert`.  An access to `free` beyond its last entry
is the error `Halt.bounds`.

The second part is their specification.  `HeapIndex m heap S` says that the free blocks `S` are
indexed; `heapInsert_spec`, `heapRemove_spec` and `heapSearch_spec` say what the operations do
to it, and under which conditions on the block. -/

namespace Dawos

/-! ### The heap structure -/

/-- `sizeof(heap_t)`. -/
def HEAP_T_SIZE : ℕ := 544

def heapStartAddr (m : Mem) (heap : ℕ) : ℕ := rd m heap
def heapEndAddr (m : Mem) (heap : ℕ) : ℕ := rd m (heap + 8)
def heapMaxAddr (m : Mem) (heap : ℕ) : ℕ := rd m (heap + 16)
def heapLocked (m : Mem) (heap : ℕ) : ℕ := rd m (heap + 24) % 2

/-- The address of `heap->free[i]`. -/
def heapFreeSlot (heap i : ℕ) : ℕ := heap + 32 + 8 * i

/-! ### The search tree -/

/-- Insert a free block into the tree; `false` if the block is too small for it. -/
def heapTreeInsert (fuel : ℕ) (m : Mem) (tree block : ℕ) : Except Halt (Bool × Mem) :=
  if HEAP_TREE_DATA_SIZE ≤ heapGetSize m block then
    let m := clearLinks m block
    if rd m tree = 0 then .ok (true, wr m tree block)
    else do
      let m ← treeLink heapAlign fuel m (rd m tree) block
      return (true, m)
  else .ok (false, m)

/-- Put the child of a head into the place of the head: the memory and the child. -/
def promoteChild (m : Mem) (block : ℕ) : Mem × ℕ :=
  let m := if largerBlock m block ≠ 0 then
      setSmaller m (largerBlock m block) (childBlock m block)
    else m
  let m := setLarger m (childBlock m block) (largerBlock m block)
  let m := if smallerBlock m block ≠ 0 then
      setLarger m (smallerBlock m block) (childBlock m block)
    else m
  let m := setSmaller m (childBlock m block) (smallerBlock m block)
  (m, childBlock m block)

/-- Delete a block from the tree. -/
def heapTreeDelete (m : Mem) (tree block : ℕ) : Mem :=
  let m := if parentBlock m block ≠ 0 then unlinkChild m block
    else
      let r := if childBlock m block ≠ 0 then promoteChild m block else unlinkHead m block
      if rd r.1 tree = block then wr r.1 tree r.2 else r.1
  dropLinks m block

/-- The walk to the first suitable head: on to a larger one while this one is too small. -/
def walkLarger (m : Mem) (bsize block : ℕ) : ℕ ⊕ ℕ :=
  if heapGetSize m block < bsize ∧ largerBlock m block ≠ 0 then .inl (largerBlock m block)
  else .inr block

/-- The walk back to the smallest suitable head. -/
def walkSmaller (m : Mem) (bsize block : ℕ) : ℕ ⊕ ℕ :=
  if bsize < heapGetSize m block ∧ smallerBlock m block ≠ 0 ∧
      bsize ≤ heapGetSize m (smallerBlock m block) then .inl (smallerBlock m block)
  else .inr block

/-- Search the tree for a block of a size. -/
def heapTreeSearch (fuel : ℕ) (m : Mem) (tree bsize : ℕ) : Except Halt ℕ :=
  if rd m tree = 0 then .ok 0
  else do
    let block ← loop (walkLarger m bsize) fuel (rd m tree)
    if heapGetSize m block < bsize then return 0
    else loop (walkSmaller m bsize) fuel block

/-- Where the header of a block with a page aligned payload goes inside `block`. -/
def alignedOffset (block : ℕ) : ℕ := sub64 (pageSizeAlign (heapGetPayload block)) 16

/-- What is left of `block` before that header. -/
def alignedLeft (block : ℕ) : ℕ := sub64 (alignedOffset block) block

/-- The payload is page aligned, or the block can be split at the page boundary. -/
def suitsAligned (m : Mem) (bsize block : ℕ) : Bool :=
  heapIsPageAligned (heapGetPayload block) ||
    (decide (HEAP_LIST_MIN ≤ alignedLeft block) &&
      decide (bsize ≤ sub64 (heapGetSize m block) (alignedLeft block)))

/-- One round of the two nested loops over heads and their chains: `s.1` is the head and `s.2`
the block of its chain; when the chain is over, on to the larger head. -/
def alignedStep (m : Mem) (bsize : ℕ) (s : ℕ × ℕ) : (ℕ × ℕ) ⊕ ℕ :=
  if s.2 ≠ 0 then
    if suitsAligned m bsize s.2 then .inr s.2 else .inl (s.1, childBlock m s.2)
  else if largerBlock m s.1 ≠ 0 then .inl (largerBlock m s.1, largerBlock m s.1)
  else .inr 0

/-- Search the tree for a block of a size that can be aligned. -/
def heapTreeSearchAligned (fuel : ℕ) (m : Mem) (tree bsize : ℕ) : Except Halt ℕ :=
  if rd m tree = 0 then .ok 0
  else do
    let block ← loop (walkLarger m bsize) fuel (rd m tree)
    if heapGetSize m block < bsize then return 0
    else loop (alignedStep m bsize) fuel (block, block)

/-! ### Lists and tree together -/

/-- One round of the search for an alignable item; the last item of a list is not tried. -/
def listStep (m : Mem) (bsize block : ℕ) : ℕ ⊕ Option ℕ :=
  if nextBlock m block = 0 then .inr none
  else if suitsAligned m bsize block then .inr (some block)
  else .inl (nextBlock m block)

/-- Search `k` lists from list `i` on. -/
def heapSearchLists (fuel : ℕ) (m : Mem) (heap bsize : ℕ) (align : Bool) :
    ℕ → ℕ → Except Halt (Option ℕ)
  | 0, _ => .ok none
  | k + 1, i =>
      let first := rd m (heapFreeSlot heap i)
      if first = 0 then heapSearchLists fuel m heap bsize align k (i + 1)
      else if !align || heapIsPageAligned (heapGetPayload first) then .ok (some first)
      else do
        match ← loop (listStep m bsize) fuel first with
        | some block => return some block
        | none => heapSearchLists fuel m heap bsize align k (i + 1)

/-- The part of the search that goes through the lists, from the index of the size on. -/
def heapListSearch (fuel : ℕ) (m : Mem) (heap bsize : ℕ) (align : Bool) :
    Except Halt (Option ℕ) :=
  let idx := heapSizeIdx bsize
  if 0 ≤ idx then
    heapSearchLists fuel m heap bsize align (HEAP_LIST_COUNT - idx.toNat) idx.toNat
  else .ok none

/-- Search for an appropriate block in the free lists and the tree. -/
def heapSearch (fuel : ℕ) (m : Mem) (heap bsize : ℕ) (align : Bool) : Except Halt ℕ := do
  match ← heapListSearch fuel m heap bsize align with
  | some block => return block
  | none =>
      if align then heapTreeSearchAligned fuel m (heapFreeSlot heap HEAP_LIST_COUNT) bsize
      else heapTreeSearch fuel m (heapFreeSlot heap HEAP_LIST_COUNT) bsize

/-- Remove a block from its free list or the tree. -/
def heapRemove (m : Mem) (heap block : ℕ) : Except Halt Mem :=
  let idx := heapSizeIdx (heapGetSize m block)
  if 0 ≤ idx then
    match unlinkItem m block with
    | (m, none) => .ok (clearItem m block)
    | (m, some first) =>
        if idx ≤ HEAP_LIST_COUNT then .ok (clearItem (wr m (heapFreeSlot heap idx.toNat) first) block)
        else .error .bounds
  else .ok (heapTreeDelete m (heapFreeSlot heap HEAP_LIST_COUNT) block)

/-- Insert a block into its free list or the tree. -/
def heapInsert (fuel : ℕ) (m : Mem) (heap block : ℕ) : Except Halt Mem :=
  let idx := heapSizeIdx (heapGetSize m block)
  if 0 ≤ idx then
    if idx ≤ HEAP_LIST_COUNT then
      let m := pushItem m block (rd m (heapFreeSlot heap idx.toNat))
      .ok (wr m (heapFreeSlot heap idx.toNat) block)
    else .error .bounds
  else do
    let r ← heapTreeInsert fuel m (heapFreeSlot heap HEAP_LIST_COUNT) block
    return r.2

/-! ### Specification -/

/-- The free blocks `S` are indexed by the heap at `heap`. -/
structure HeapIndex (m : Mem) (heap : ℕ) (S : Set ℕ) : Prop where
  above : ∀ a ∈ S, heap + HEAP_T_SIZE ≤ a
  index : ∃ L T, FreeIndex heapAlign heapSizeIdx HEAP_LIST_COUNT m
    (fun i => rd m (heapFreeSlot heap i)) (rd m (heapFreeSlot heap HEAP_LIST_COUNT)) S L T

/-- The bytes of the array `free` and of the links of the blocks in `S`. -/
def indexBytes (m : Mem) (heap : ℕ) (S : Set ℕ) (x : ℕ) : Prop :=
  (heap + 32 ≤ x ∧ x < heap + HEAP_T_SIZE) ∨ linkBytes heapAlign heapSizeIdx m S x

/-- A block of this size has an entry in `free`, or it goes to the tree. -/
def Indexable (size : ℕ) : Prop := heapSizeIdx size < HEAP_LIST_COUNT

instance (size : ℕ) : Decidable (Indexable size) :=
  inferInstanceAs (Decidable (heapSizeIdx size < HEAP_LIST_COUNT))

/-- The block is in a list, or its removal from the tree does not promote a child. -/
def Removable (m : Mem) (block : ℕ) : Prop :=
  0 ≤ heapSizeIdx (heapGetSize m block) ∨ Detachable m block

instance (m : Mem) (block : ℕ) : Decidable (Removable m block) :=
  inferInstanceAs (Decidable (0 ≤ heapSizeIdx (heapGetSize m block) ∨ Detachable m block))

theorem Removable.congr {m m' : Mem} {block : ℕ} (h : Removable m block)
    (hm : ∀ x, block + 8 ≤ x → x < block + 48 → m' x = m x) : Removable m' block := by
  have hs : heapGetSize m' block = heapGetSize m block := by
    unfold heapGetSize
    rw [rd_congr fun x h1 h2 => hm x (by omega) (by omega)]
  have hp : parentBlock m' block = parentBlock m block :=
    rd_congr fun x h1 h2 => hm x (by omega) (by omega)
  have hc : childBlock m' block = childBlock m block :=
    rd_congr fun x h1 h2 => hm x (by omega) (by omega)
  unfold Removable Detachable
  rwa [hs, hp, hc]

/-- `Removable`, once the block `first` has been removed. -/
def RemovableAfter (m : Mem) (first block : ℕ) : Prop :=
  Removable m block ∨ DetachableAfter m first block

instance (m : Mem) (first block : ℕ) : Decidable (RemovableAfter m first block) :=
  inferInstanceAs (Decidable (Removable m block ∨ DetachableAfter m first block))

section slots

variable {m m' : Mem} {heap i j v : ℕ}

theorem HEAP_LIST_COUNT_eq : HEAP_LIST_COUNT = 63 := rfl

/-- An entry after a store to an entry. -/
theorem rd_wr_slot (hv : v < 2 ^ 64) : rd (wr m (heapFreeSlot heap i) v) (heapFreeSlot heap j) =
    if j = i then v else rd m (heapFreeSlot heap j) := by
  unfold heapFreeSlot
  rw [rd_wr m v (by omega), Nat.mod_eq_of_lt hv]
  by_cases h : j = i
  · simp [h]
  · rw [if_neg h, if_neg (by omega)]

/-- The entries after writes to nodes beyond the heap structure. -/
theorem rd_slot_frame {S : Set ℕ} (hS : ∀ a ∈ S, heap + HEAP_T_SIZE ≤ a)
    (hf : AgreeOff m m' (treeBytes S)) (hi : i ≤ HEAP_LIST_COUNT) :
    rd m' (heapFreeSlot heap i) = rd m (heapFreeSlot heap i) := by
  refine hf.rd fun x h1 h2 => ?_
  rintro ⟨a, ha, h3, -⟩
  have := hS a ha
  rw [HEAP_LIST_COUNT_eq] at hi
  unfold heapFreeSlot at h2
  rw [HEAP_T_SIZE] at this
  omega

/-- A store to an entry stays inside the index. -/
theorem wrSlot_frame {S : Set ℕ} (h : AgreeOff m m' (linkBytes heapAlign heapSizeIdx m S)) (hi : i ≤ HEAP_LIST_COUNT) :
    AgreeOff m (wr m' (heapFreeSlot heap i) v) (indexBytes m heap S) := by
  refine AgreeOff.wr (h.mono fun x hx => .inr hx) v fun x h1 h2 => .inl ?_
  rw [HEAP_LIST_COUNT_eq] at hi
  unfold heapFreeSlot at h1 h2
  rw [HEAP_T_SIZE]
  omega

/-- A store to an entry misses the nodes. -/
theorem wrSlot_node {S : Set ℕ} (hS : ∀ a ∈ S, heap + HEAP_T_SIZE ≤ a) (hi : i ≤ HEAP_LIST_COUNT) :
    ∀ a ∈ S, ∀ x, a + 8 ≤ x → x < a + 48 → wr m (heapFreeSlot heap i) v x = m x := by
  intro a ha x h1 h2
  have := hS a ha
  rw [HEAP_LIST_COUNT_eq] at hi
  rw [HEAP_T_SIZE] at this
  refine wr_off m v ?_
  unfold heapFreeSlot
  omega

end slots

namespace HeapIndex

variable {m m' : Mem} {heap b : ℕ} {S : Set ℕ}

theorem spaced (h : HeapIndex m heap S) : Spaced S := by
  obtain ⟨L, T, hi⟩ := h.index
  exact hi.spaced

/-- What is indexed has a place in the index. -/
theorem indexable (h : HeapIndex m heap S) {a : ℕ} (ha : a ∈ S) : Indexable (heapGetSize m a) := by
  obtain ⟨L, T, hx⟩ := h.index
  rcases (hx.mem a).mp ha with ⟨i, hi, hl⟩ | ht
  · have e : heapSizeIdx (heapGetSize m a) = i := hx.listed i hi a hl
    unfold Indexable
    omega
  · have e : heapSizeIdx (heapGetSize m a) < 0 := hx.treed a ht
    unfold Indexable
    omega

/-- Writes outside the nodes and the array do not touch the index. -/
theorem congr (h : HeapIndex m heap S) (hn : ∀ a ∈ S, ∀ x, a + 8 ≤ x → x < a + 48 → m' x = m x)
    (hh : ∀ x, heap + 32 ≤ x → x < heap + HEAP_T_SIZE → m' x = m x) : HeapIndex m' heap S := by
  obtain ⟨L, T, hi⟩ := h.index
  have e : ∀ i, i ≤ HEAP_LIST_COUNT →
      rd m' (heapFreeSlot heap i) = rd m (heapFreeSlot heap i) := fun i hle => by
    rw [HEAP_LIST_COUNT_eq] at hle
    unfold heapFreeSlot
    rw [HEAP_T_SIZE] at hh
    exact rd_congr fun x h1 h2 => hh x (by omega) (by omega)
  refine ⟨h.above, L, T, ?_⟩
  rw [e _ le_rfl]
  exact hi.congr hn fun i hlt => e i hlt.le

end HeapIndex

/-- Link fields beyond the array after a store to an entry. -/
theorem wrSlot_links {m : Mem} {heap i v z : ℕ} (hz : heap + HEAP_T_SIZE ≤ z)
    (hi : i ≤ HEAP_LIST_COUNT) : childBlock (wr m (heapFreeSlot heap i) v) z = childBlock m z ∧
      parentBlock (wr m (heapFreeSlot heap i) v) z = parentBlock m z := by
  rw [HEAP_LIST_COUNT_eq] at hi
  rw [HEAP_T_SIZE] at hz
  unfold childBlock parentBlock heapFreeSlot
  exact ⟨rd_wr_apart m v (by omega), rd_wr_apart m v (by omega)⟩

/-- **Inserting a free block**, which can then be removed again. -/
theorem heapInsert_spec {m : Mem} {heap b : ℕ} {S : Set ℕ} (h : HeapIndex m heap S) (hb : b ∉ S)
    (hU : Spaced (insert b S)) (habove : heap + HEAP_T_SIZE ≤ b)
    (hi : Indexable (heapGetSize m b)) (hmin : HEAP_LIST_MIN ≤ heapGetSize m b) :
    ∃ m', Returns (fun n => heapInsert n m heap b) m' ∧ HeapIndex m' heap (insert b S) ∧
      AgreeOff m m' (indexBytes m heap (insert b S)) ∧ Removable m' b := by
  obtain ⟨L, T, hx⟩ := h.index
  have hbU : b ∈ insert b S := Set.mem_insert b S
  have hblt := hU.lt hbU
  have habove' : ∀ a ∈ insert b S, heap + HEAP_T_SIZE ≤ a := by
    rintro a (rfl | ha)
    · exact habove
    · exact h.above a ha
  unfold Indexable at hi
  -- the size word of the block stays
  have hsize : ∀ m', AgreeOff m m' (indexBytes m heap (insert b S)) →
      heapGetSize m' b = heapGetSize m b := fun m' hf => by
    have e : rd m' (b + 8) = rd m (b + 8) := hf.rd fun x h1 h2 hx' => by
      rcases hx' with ⟨-, hx'⟩ | hx'
      · omega
      · obtain ⟨a, ha, h3, h4⟩ := linkBytes_sub x hx'
        by_cases e : a = b
        · omega
        · have := hU.apart a ha b hbU e
          omega
    unfold heapGetSize
    rw [e]
  by_cases hneg : 0 ≤ heapSizeIdx (heapGetSize m b)
  · obtain ⟨i, hidx⟩ := Int.eq_ofNat_of_zero_le hneg
    have hin : i < HEAP_LIST_COUNT := by omega
    obtain ⟨hpush, hframe⟩ := hx.push hb hU hin hidx
    have hall := @wrSlot_frame _ _ heap _ b _ hframe hin.le
    refine ⟨wr (pushItem m b (rd m (heapFreeSlot heap i))) (heapFreeSlot heap i) b,
      Returns.of_eq fun _ => ?_, ⟨habove', Function.update L i (b :: L i), T, ?_⟩,
      hall, .inl (by rwa [hsize _ hall])⟩
    · unfold heapInsert
      simp only [hidx, Int.natCast_nonneg, if_true, Int.toNat_natCast]
      rw [if_pos (by omega)]
    · rw [rd_wr_slot hblt, if_neg (by omega), rd_slot_frame habove' (hframe.mono linkBytes_sub) le_rfl]
      refine hpush.congr (wrSlot_node habove' hin.le) fun j hj => ?_
      rw [rd_wr_slot hblt]
      by_cases hji : j = i
      · rw [hji, if_pos rfl, Function.update_self]
      · rw [if_neg hji, Function.update_of_ne hji, rd_slot_frame habove' (hframe.mono linkBytes_sub) hj.le]
  · have hneg' : heapSizeIdx (heapAlign (rd m (b + 8))) < 0 := not_le.mp hneg
    have hroot : rd (clearLinks m b) (heapFreeSlot heap HEAP_LIST_COUNT) =
        rd m (heapFreeSlot heap HEAP_LIST_COUNT) :=
      rd_slot_frame habove' ((hx.ready hb hU).2.1.mono (treeBytes_mono (hx.ready hb hU).2.2)) le_rfl
    by_cases hr : rd m (heapFreeSlot heap HEAP_LIST_COUNT) = 0
    · obtain ⟨hlink, hframe, hleaf⟩ := hx.linkFirst hr hb hU hneg'
      have hslot := @wrSlot_links (clearLinks m b) heap HEAP_LIST_COUNT b b habove le_rfl
      refine ⟨wr (clearLinks m b) (heapFreeSlot heap HEAP_LIST_COUNT) b,
        Returns.of_eq fun _ => ?_, ⟨habove', L, [(b, [])], ?_⟩, wrSlot_frame hframe le_rfl,
        .inr ?_⟩
      · unfold heapInsert heapTreeInsert
        simp only [hneg, if_false, hroot, hr, if_true]
        rw [if_pos (show HEAP_TREE_DATA_SIZE ≤ heapGetSize m b from hmin)]
        rfl
      · rw [rd_wr_slot hblt, if_pos rfl]
        refine hlink.congr (wrSlot_node habove' le_rfl) fun j hj => ?_
        rw [rd_wr_slot hblt, if_neg hj.ne, rd_slot_frame habove' (hframe.mono linkBytes_sub) hj.le]
      · unfold Detachable
        rwa [hslot.1, hslot.2]
    · obtain ⟨m', T', hret, hlink, hframe, hleaf⟩ := hx.link hr hb hU hneg'
      refine ⟨m', ?_, ⟨habove', L, T', ?_⟩, hframe.mono fun x hx => .inr hx, .inr hleaf⟩
      · filter_upwards [hret] with n hn
        unfold heapInsert heapTreeInsert
        simp only [hneg, if_false, hroot, hr, hn]
        rw [if_pos (show HEAP_TREE_DATA_SIZE ≤ heapGetSize m b from hmin)]
        rfl
      · rw [rd_slot_frame habove' (hframe.mono linkBytes_sub) le_rfl]
        exact hlink.congr (fun _ _ _ _ _ => rfl) fun j hj => rd_slot_frame habove' (hframe.mono linkBytes_sub) hj.le

/-- Nodes that the removal leaves alone keep their size words. -/
theorem HeapIndex.getSize_frame {m m' : Mem} {heap a : ℕ} {S : Set ℕ} (h : HeapIndex m heap S)
    (hf : AgreeOff m m' (indexBytes m heap S)) (ha : a ∈ S) : heapGetSize m' a = heapGetSize m a := by
  unfold heapGetSize
  rw [hf.rd fun x h1 h2 => ?_]
  have hlow := h.above a ha
  rintro (⟨-, hx⟩ | hx)
  · omega
  · obtain ⟨c, hc, h3, h4⟩ := linkBytes_sub x hx
    by_cases e : c = a
    · subst e; omega
    · have := h.spaced.apart c hc a ha e
      omega

/-- What a removal leaves removable. -/
theorem HeapIndex.removable_kept {m m' : Mem} {heap b : ℕ} {S : Set ℕ} {L : ℕ → List ℕ}
    {T : Chains ℕ} {first : ℕ → ℕ} {root : ℕ} (h : HeapIndex m heap S)
    (hx : FreeIndex heapAlign heapSizeIdx HEAP_LIST_COUNT m first root S L T)
    (hf : AgreeOff m m' (indexBytes m heap S))
    (hl : ∀ z ∈ nodes T, z ≠ b → DetachableAfter m b z → Detachable m' z) :
    ∀ z ∈ S, z ≠ b → RemovableAfter m b z → Removable m' z := by
  intro z hz hzb hr
  unfold Removable
  rw [h.getSize_frame hf hz]
  by_cases hidx : 0 ≤ heapSizeIdx (heapGetSize m z)
  · exact .inl hidx
  · have hzT := hx.mem_tree_iff.mpr ⟨hz, not_le.mp hidx⟩
    rcases hr with (hr | hr) | hr
    · exact absurd hr hidx
    · exact .inr (hl z hzT hzb (.inl hr))
    · exact .inr (hl z hzT hzb hr)

/-- Removing a block of a list. -/
theorem heapRemove_list {m : Mem} {heap b i : ℕ} {S : Set ℕ} (h : HeapIndex m heap S) (hb : b ∈ S)
    (hidx : heapSizeIdx (heapGetSize m b) = i) (hin : i < HEAP_LIST_COUNT) :
    ∃ m', heapRemove m heap b = .ok m' ∧ HeapIndex m' heap (S \ {b}) ∧
      AgreeOff m m' (indexBytes m heap S) ∧
      ∀ z ∈ S, z ≠ b → RemovableAfter m b z → Removable m' z := by
  obtain ⟨L, T, hx⟩ := h.index
  have habove' : ∀ a ∈ S \ {b}, heap + HEAP_T_SIZE ≤ a := fun a ha => h.above a ha.1
  obtain ⟨⟨L', hun⟩, hframe, hlinks⟩ := hx.unlink hb hin hidx
  have hlow : heapFreeSlot heap i + 8 ≤ b := by
    have := h.above b hb
    rw [HEAP_T_SIZE] at this
    rw [HEAP_LIST_COUNT_eq] at hin
    unfold heapFreeSlot
    omega
  -- `b` is in a list, so nothing in the tree has it as a child
  have hbT : b ∉ nodes T := fun hm => by
    have e : heapSizeIdx (heapGetSize m b) < 0 := hx.treed b hm
    omega
  have hkeep : ∀ m', AgreeOff m m' (indexBytes m heap S) → (∀ z ∈ nodes T,
      childBlock m' z = childBlock m z ∧ parentBlock m' z = parentBlock m z) →
      ∀ z ∈ S, z ≠ b → RemovableAfter m b z → Removable m' z := by
    refine fun m' hf hl => h.removable_kept hx hf fun z hzT _ hd => ?_
    obtain ⟨e1, e2⟩ := hl z hzT
    unfold Detachable
    rw [e1, e2]
    rcases hd with hd | ⟨hc, -⟩
    · exact hd
    · have hne : childBlock m z ≠ 0 := by
        rw [hc]
        exact h.spaced.pos b hb
      exact absurd (hc ▸ (hx.parent_of_child hzT hne).1) hbT
  have hslot : ∀ j, j ≤ HEAP_LIST_COUNT → rd (clearItem (unlinkItem m b).1 b)
      (heapFreeSlot heap j) = rd m (heapFreeSlot heap j) := fun j hj =>
    rd_slot_frame h.above (hframe.mono linkBytes_sub) hj
  unfold heapRemove
  simp only [hidx, Int.natCast_nonneg, if_true, Int.toNat_natCast]
  cases e : (unlinkItem m b).2 with
  | none =>
      have e' : unlinkItem m b = ((unlinkItem m b).1, none) := by rw [← e]
      rw [e, Option.getD_none, Function.update_eq_self] at hun
      rw [e']
      refine ⟨_, rfl, ⟨habove', L', T, ?_⟩, hframe.mono fun x hx => .inr hx,
        hkeep _ (hframe.mono fun x hx => .inr hx) hlinks⟩
      rw [hslot _ le_rfl]
      exact hun.congr (fun _ _ _ _ _ => rfl) fun j hj => hslot j hj.le
  | some first =>
      have e' : unlinkItem m b = ((unlinkItem m b).1, some first) := by rw [← e]
      have hlt := unlinkItem_lt m b e
      have hf : AgreeOff m (wr (clearItem (unlinkItem m b).1 b) (heapFreeSlot heap i) first)
          (indexBytes m heap S) := wrSlot_frame hframe hin.le
      rw [e, Option.getD_some] at hun
      rw [e']
      dsimp only
      rw [if_pos (by omega), clearItem_wr _ _ hlow]
      refine ⟨_, rfl, ⟨habove', L', T, ?_⟩, hf, hkeep _ hf fun z hz => ?_⟩
      · rw [rd_wr_slot hlt, if_neg hin.ne', hslot _ le_rfl]
        refine hun.congr (wrSlot_node habove' hin.le) fun j hj => ?_
        rw [rd_wr_slot hlt]
        by_cases hji : j = i
        · rw [hji, if_pos rfl, Function.update_self]
        · rw [if_neg hji, Function.update_of_ne hji, hslot j hj.le]
      · obtain ⟨e1, e2⟩ := hlinks z hz
        obtain ⟨e3, e4⟩ := wrSlot_links (m := clearItem (unlinkItem m b).1 b) (v := first)
          (h.above z (hx.tree_sub z hz)) hin.le
        exact ⟨e3.trans e1, e4.trans e2⟩

/-- Removing a block of the tree. -/
theorem heapRemove_tree {m : Mem} {heap b : ℕ} {S : Set ℕ} (h : HeapIndex m heap S) (hb : b ∈ S)
    (hneg : heapSizeIdx (heapGetSize m b) < 0) (hd : Detachable m b) :
    ∃ m', heapRemove m heap b = .ok m' ∧ HeapIndex m' heap (S \ {b}) ∧
      AgreeOff m m' (indexBytes m heap S) ∧
      ∀ z ∈ S, z ≠ b → RemovableAfter m b z → Removable m' z := by
  obtain ⟨L, T, hx⟩ := h.index
  have habove' : ∀ a ∈ S \ {b}, heap + HEAP_T_SIZE ≤ a := fun a ha => h.above a ha.1
  have hlow : heapFreeSlot heap HEAP_LIST_COUNT + 8 ≤ b := by
    have := h.above b hb
    rw [HEAP_T_SIZE] at this
    unfold heapFreeSlot
    rw [HEAP_LIST_COUNT_eq]
    omega
  unfold heapRemove heapTreeDelete
  simp only [not_le.mpr hneg, if_false]
  by_cases hp : parentBlock m b = 0
  · -- a head without a chain
    have hc : childBlock m b = 0 := hd.resolve_left (not_not.mpr hp)
    obtain ⟨⟨T', hun⟩, hf1, hf2, hl⟩ := hx.detachHead hb hneg hp hc
    simp only [hp, hc, ne_eq, not_true, if_false]
    rw [rd_slot_frame h.above hf1 le_rfl]
    have hslot : ∀ j, j ≤ HEAP_LIST_COUNT → rd (dropLinks (unlinkHead m b).1 b)
        (heapFreeSlot heap j) = rd m (heapFreeSlot heap j) := fun j hj =>
      rd_slot_frame h.above (hf2.mono linkBytes_sub) hj
    split_ifs at hun ⊢ with hr
    · have hlt := unlinkHead_lt m b
      have hf : AgreeOff m (wr (dropLinks (unlinkHead m b).1 b)
          (heapFreeSlot heap HEAP_LIST_COUNT) (unlinkHead m b).2) (indexBytes m heap S) :=
        wrSlot_frame hf2 le_rfl
      rw [dropLinks_wr _ _ hlow]
      refine ⟨_, rfl, ⟨habove', L, T', ?_⟩, hf, h.removable_kept hx hf fun z hz hzb hza => ?_⟩
      · rw [rd_wr_slot hlt, if_pos rfl]
        refine hun.congr (wrSlot_node habove' le_rfl) fun j hj => ?_
        rw [rd_wr_slot hlt, if_neg hj.ne, hslot j hj.le]
      · obtain ⟨e3, e4⟩ := wrSlot_links (m := dropLinks (unlinkHead m b).1 b)
          (v := (unlinkHead m b).2) (h.above z (hx.tree_sub z hz)) le_rfl
        unfold Detachable
        rw [e3, e4]
        exact hl z hz hzb hza
    · refine ⟨_, rfl, ⟨habove', L, T', ?_⟩, hf2.mono fun x hx => .inr hx,
        h.removable_kept hx (hf2.mono fun x hx => .inr hx) hl⟩
      rw [hslot _ le_rfl]
      exact hun.congr (fun _ _ _ _ _ => rfl) fun j hj => hslot j hj.le
  · -- inside a chain
    obtain ⟨⟨T', hun⟩, hf, hl⟩ := hx.detachChild hb hneg hp
    have hslot : ∀ j, j ≤ HEAP_LIST_COUNT → rd (dropLinks (unlinkChild m b) b)
        (heapFreeSlot heap j) = rd m (heapFreeSlot heap j) := fun j hj =>
      rd_slot_frame h.above (hf.mono linkBytes_sub) hj
    simp only [hp, ne_eq, not_false_iff, if_true]
    refine ⟨_, rfl, ⟨habove', L, T', ?_⟩, hf.mono fun x hx => .inr hx,
      h.removable_kept hx (hf.mono fun x hx => .inr hx) hl⟩
    rw [hslot _ le_rfl]
    exact hun.congr (fun _ _ _ _ _ => rfl) fun j hj => hslot j hj.le

/-- **Removing a free block.** -/
theorem heapRemove_spec {m : Mem} {heap b : ℕ} {S : Set ℕ} (h : HeapIndex m heap S) (hb : b ∈ S)
    (hd : Removable m b) : ∃ m', heapRemove m heap b = .ok m' ∧ HeapIndex m' heap (S \ {b}) ∧
      AgreeOff m m' (indexBytes m heap S) ∧
      ∀ z ∈ S, z ≠ b → RemovableAfter m b z → Removable m' z := by
  by_cases hneg : 0 ≤ heapSizeIdx (heapGetSize m b)
  · obtain ⟨i, hidx⟩ := Int.eq_ofNat_of_zero_le hneg
    obtain ⟨L, T, hx⟩ := h.index
    refine heapRemove_list h hb hidx ?_
    rcases (hx.mem b).mp hb with ⟨j, hj, hbj⟩ | hbt
    · have e : heapSizeIdx (heapGetSize m b) = j := hx.listed j hj b hbj
      omega
    · have e : heapSizeIdx (heapGetSize m b) < 0 := hx.treed b hbt
      omega
  · exact heapRemove_tree h hb (not_le.mp hneg) (hd.resolve_left hneg)

/-! ### The searches -/

section search

variable {m : Mem} {bsize root : ℕ} {T : Chains ℕ} {l : List ℕ}

theorem walkLarger_spec (bsize : ℕ) (h : SizeTree (treeFields heapAlign m) 0 root T) (hT : T ≠ []) :
    ∃ b, Returns (fun n => loop (walkLarger m bsize) n root) b ∧ b ∈ heads T := by
  refine loop_returns (fun k a => a ∈ heads T ∧ T.length - rank T a = k) (fun b => b ∈ heads T)
    (fun k a ⟨ha, hk⟩ => ?_) ⟨h.root_mem hT, rfl⟩
  unfold walkLarger
  split_ifs with hc
  · obtain ⟨h1, -, h3, h4⟩ := h.larger_step ha hc.2
    refine ⟨fun s' e => ?_, fun b e => by cases e⟩
    obtain rfl := Sum.inl.inj e
    have e3 : rank T (largerBlock m a) = rank T a + 1 := h3
    exact ⟨_, by omega, h1, rfl⟩
  · refine ⟨(fun s' e => by cases e), fun b e => ?_⟩
    obtain rfl := Sum.inr.inj e
    exact ha

theorem walkSmaller_spec (h : SizeTree (treeFields heapAlign m) 0 root T) {a : ℕ}
    (ha : a ∈ heads T) (hs : bsize ≤ heapGetSize m a) :
    ∃ b, Returns (fun n => loop (walkSmaller m bsize) n a) b ∧
      (b ∈ heads T ∧ bsize ≤ heapGetSize m b) := by
  refine loop_returns (fun k a => (a ∈ heads T ∧ bsize ≤ heapGetSize m a) ∧ rank T a = k)
    (fun b => b ∈ heads T ∧ bsize ≤ heapGetSize m b) (fun k a ⟨ha, hk⟩ => ?_) ⟨⟨ha, hs⟩, rfl⟩
  unfold walkSmaller
  split_ifs with hc
  · obtain ⟨h1, -, h3⟩ := h.smaller_step ha.1 hc.2.1
    refine ⟨fun s' e => ?_, fun b e => by cases e⟩
    obtain rfl := Sum.inl.inj e
    have e3 : rank T (smallerBlock m a) + 1 = rank T a := h3
    exact ⟨_, by omega, ⟨h1, hc.2.2⟩, rfl⟩
  · refine ⟨(fun s' e => by cases e), fun b e => ?_⟩
    obtain rfl := Sum.inr.inj e
    exact ha

/-- The state of the search for an alignable block: the head of a chain with large enough
blocks, and the next block of the chain to try. -/
def AlignedAt (m : Mem) (T : Chains ℕ) (bsize k : ℕ) (s : ℕ × ℕ) : Prop :=
  ∃ A cs B us vs, T = A ++ (s.1, cs) :: B ∧ s.1 :: cs = us ++ vs ∧ s.2 = vs.headD 0 ∧
    bsize ≤ heapGetSize m s.1 ∧ k = vs.length + (nodes B).length + B.length

theorem alignedStep_spec (h : SizeTree (treeFields heapAlign m) 0 root T) {a : ℕ}
    (ha : a ∈ heads T) (hs : bsize ≤ heapGetSize m a) :
    ∃ b, Returns (fun n => loop (alignedStep m bsize) n (a, a)) b ∧
      (b = 0 ∨ b ∈ nodes T ∧ bsize ≤ heapGetSize m b ∧ suitsAligned m bsize b = true) := by
  obtain ⟨A, cs, B, hT⟩ := split_of_mem_heads ha
  refine loop_returns (AlignedAt m T bsize)
    (fun b => b = 0 ∨ b ∈ nodes T ∧ bsize ≤ heapGetSize m b ∧ suitsAligned m bsize b = true)
    ?_ (⟨A, cs, B, [], a :: cs, hT, rfl, rfl, hs, rfl⟩ :
      AlignedAt m T bsize ((a :: cs).length + (nodes B).length + B.length) (a, a))
  rintro k ⟨p, x⟩ ⟨A, cs, B, us, vs, rfl, hchain, hx, hsize, rfl⟩
  dsimp only at hchain hx hsize
  unfold alignedStep
  dsimp only
  cases vs with
  | nil =>
      -- the chain is over
      have hx0 : x = 0 := hx
      simp only [hx0, ne_eq, not_true, if_false]
      split_ifs with hl
      · refine ⟨(fun s' e => by cases e), fun b e => ?_⟩
        obtain rfl := Sum.inr.inj e
        exact .inl rfl
      · refine ⟨fun s' e => ?_, fun b e => by cases e⟩
        obtain rfl := Sum.inl.inj e
        have e1 : largerBlock m p = (heads B).headD 0 := h.head_links.2.1
        cases B with
        | nil => exact absurd e1 hl
        | cons t B =>
            have e2 : largerBlock m p = t.1 := e1
            have hlt : heapGetSize m p < heapGetSize m t.1 := h.size_split.2 t.1 (by simp)
            rw [e2]
            refine ⟨(t.1 :: t.2).length + (nodes B).length + B.length, ?_, A ++ [(p, cs)], t.2, B,
              [], t.1 :: t.2, by simp, rfl, rfl, by dsimp only; omega, rfl⟩
            simp only [nodes_cons, List.length_append, List.length_cons, List.length_nil]
            omega
  | cons v vs =>
      have hxv : x = v := hx
      subst hxv
      have hxc : x ∈ p :: cs := by rw [hchain]; simp
      have hxT : x ∈ nodes (A ++ (p, cs) :: B) := by
        rw [mem_nodes_mid]
        rcases List.mem_cons.mp hxc with e | e
        · exact .inl e
        · exact .inr (.inl e)
      have hx0 : x ≠ 0 := h.ne_nul hxT
      simp only [hx0, ne_eq, not_false_iff, if_true]
      split_ifs with hf
      · refine ⟨(fun s' e => by cases e), fun b e => ?_⟩
        obtain rfl := Sum.inr.inj e
        refine .inr ⟨hxT, ?_, hf⟩
        rcases List.mem_cons.mp hxc with e | e
        · rw [e]; exact hsize
        · have heq : heapGetSize m x = heapGetSize m p := h.equal (p, cs) (by simp) x e
          rw [heq]; exact hsize
      · refine ⟨fun s' e => ?_, fun b e => by cases e⟩
        obtain rfl := Sum.inl.inj e
        have hlink := h.chains (p, cs) (by simp)
        have hlink' : Linked (parentBlock m) (childBlock m) 0 0 (us ++ x :: vs) := hchain ▸ hlink
        refine ⟨vs.length + (nodes B).length + B.length, by simp only [List.length_cons]; omega,
          A, cs, B, us ++ [x], vs, rfl, by simp [hchain], hlink'.at.2, hsize, rfl⟩

theorem listStep_spec (bsize : ℕ) (h : Linked (prevBlock m) (nextBlock m) 0 0 l) (hne : l ≠ [])
    (h0 : ∀ z ∈ l, z ≠ 0) : ∃ r, Returns (fun n => loop (listStep m bsize) n (l.headD 0)) r ∧
      ∀ b, r = some b → b ∈ l ∧ suitsAligned m bsize b = true := by
  obtain ⟨a, l', rfl⟩ := List.exists_cons_of_ne_nil hne
  refine loop_returns (fun k a => ∃ us vs, _ = us ++ a :: vs ∧ vs.length = k) _ ?_
    (⟨[], l', rfl, rfl⟩ : ∃ us vs, a :: l' = us ++ a :: vs ∧ vs.length = l'.length)
  rintro k x ⟨us, vs, e, rfl⟩
  rw [e] at h h0 ⊢
  have hnext : nextBlock m x = vs.headD 0 := h.at.2
  unfold listStep
  split_ifs with hn hf
  · refine ⟨(fun s' e => by cases e), fun r e b hb => ?_⟩
    cases e
    cases hb
  · refine ⟨(fun s' e => by cases e), fun r e b hb => ?_⟩
    cases e
    cases hb
    exact ⟨by simp, hf⟩
  · refine ⟨fun s' e => ?_, fun b e => by cases e⟩
    obtain rfl := Sum.inl.inj e
    rw [hnext] at hn ⊢
    cases vs with
    | nil => exact absurd rfl hn
    | cons v vs => exact ⟨vs.length, by simp, us ++ [x], vs, by simp, rfl⟩

/-- The lists from `i` on: a result is an item of one of them, and it suits. -/
theorem heapSearchLists_spec {heap : ℕ} {S : Set ℕ} {L : ℕ → List ℕ} (bsize : ℕ) (align : Bool)
    (hx : FreeIndex heapAlign heapSizeIdx HEAP_LIST_COUNT m (fun i => rd m (heapFreeSlot heap i))
      root S L T) : ∀ {k i : ℕ}, i + k ≤ HEAP_LIST_COUNT →
      ∃ r, Returns (fun n => heapSearchLists n m heap bsize align k i) r ∧
        ∀ b, r = some b → (∃ j, i ≤ j ∧ j < HEAP_LIST_COUNT ∧ b ∈ L j) ∧
          (align = true → suitsAligned m bsize b = true)
  | 0, i, _ => ⟨none, Returns.of_eq fun _ => rfl, fun b e => by cases e⟩
  | k + 1, i, hik => by
      obtain ⟨r, hr, hspec⟩ := heapSearchLists_spec bsize align hx (k := k) (i := i + 1) (by omega)
      have hnext : ∀ b, r = some b → (∃ j, i ≤ j ∧ j < HEAP_LIST_COUNT ∧ b ∈ L j) ∧
          (align = true → suitsAligned m bsize b = true) := fun b e => by
        obtain ⟨⟨j, h1, h2, h3⟩, h4⟩ := hspec b e
        exact ⟨⟨j, by omega, h2, h3⟩, h4⟩
      have hi : i < HEAP_LIST_COUNT := by omega
      have hfirst : rd m (heapFreeSlot heap i) = (L i).headD 0 := hx.first i hi
      by_cases h0 : rd m (heapFreeSlot heap i) = 0
      · exact ⟨r, hr.congr fun n => by simp [heapSearchLists, h0], hnext⟩
      · have hne : L i ≠ [] := fun e => h0 (by rw [hfirst, e]; rfl)
        have hmem : rd m (heapFreeSlot heap i) ∈ L i := by
          rw [hfirst]
          exact headD_mem hne 0
        by_cases ha : (!align || heapIsPageAligned (heapGetPayload (rd m (heapFreeSlot heap i)))) = true
        · refine ⟨some (rd m (heapFreeSlot heap i)), Returns.of_eq fun n => ?_, fun b e => ?_⟩
          · simp only [heapSearchLists, h0, if_false, ha, if_true]
          · obtain rfl := Option.some.inj e
            refine ⟨⟨i, le_rfl, hi, hmem⟩, fun hal => ?_⟩
            rw [hal] at ha
            unfold suitsAligned
            rw [Bool.or_eq_true]
            exact .inl (by simpa using ha)
        · obtain ⟨q, hq, hqs⟩ := listStep_spec bsize (hx.linked i hi) hne
            fun z hz => hx.spaced.pos z (hx.list_sub hi z hz)
          rw [← hfirst] at hq
          cases q with
          | none =>
              refine ⟨r, ?_, hnext⟩
              filter_upwards [hq, hr] with n h1 h2
              simp only [heapSearchLists, h0, if_false, ha, h1]
              exact h2
          | some c =>
              refine ⟨some c, ?_, fun b e => ?_⟩
              · filter_upwards [hq] with n h1
                simp only [heapSearchLists, h0, if_false, ha, h1]
                rfl
              · cases e
                obtain ⟨h1, h2⟩ := hqs c rfl
                exact ⟨⟨i, le_rfl, hi, h1⟩, fun _ => h2⟩

end search

/-- A block in a list from the index of a size on has at least this size. -/
theorem le_of_sizeIdx {s t j : ℕ} (hs : s % 16 = 0) (hs48 : 48 ≤ s) (ht48 : 48 ≤ t)
    (ht : t % 16 = 0) (hidx : 0 ≤ heapSizeIdx s) (hj : (heapSizeIdx s).toNat ≤ j)
    (htj : heapSizeIdx t = j) : s ≤ t := by
  have hs1 : s ≤ 1056 := by
    by_contra hc
    rw [heapSizeIdx_large (not_le.mp hc)] at hidx
    omega
  have ht1 : t ≤ 1056 := by
    by_contra hc
    rw [heapSizeIdx_large (not_le.mp hc)] at htj
    omega
  rw [heapSizeIdx_eq (by omega) hs1, Int.toNat_natCast] at hj
  rw [heapSizeIdx_eq (by omega) ht1] at htj
  omega

/-- **Searching for a block**: the search ends, and a block that it finds is free, large enough
and, when asked for, alignable. -/
theorem heapSearch_spec {m : Mem} {heap bsize : ℕ} {S : Set ℕ} (align : Bool)
    (h : HeapIndex m heap S) (hmin : ∀ a ∈ S, HEAP_LIST_MIN ≤ heapGetSize m a)
    (hb48 : HEAP_LIST_MIN ≤ bsize) (hb16 : bsize % 16 = 0) :
    ∃ b, Returns (fun n => heapSearch n m heap bsize align) b ∧ (b = 0 ∨ b ∈ S ∧
      bsize ≤ heapGetSize m b ∧ (align = true → suitsAligned m bsize b = true)) := by
  obtain ⟨L, T, hx⟩ := h.index
  -- the lists
  obtain ⟨r, hr, hlists⟩ : ∃ r, Returns (fun n => heapListSearch n m heap bsize align) r ∧
      ∀ b, r = some b → b ∈ S ∧ bsize ≤ heapGetSize m b ∧
        (align = true → suitsAligned m bsize b = true) := by
    unfold heapListSearch
    by_cases hidx : 0 ≤ heapSizeIdx bsize
    · simp only [hidx, if_true]
      by_cases hle : (heapSizeIdx bsize).toNat ≤ HEAP_LIST_COUNT
      · obtain ⟨r, hr, hspec⟩ := heapSearchLists_spec bsize align hx
          (k := HEAP_LIST_COUNT - (heapSizeIdx bsize).toNat) (i := (heapSizeIdx bsize).toNat)
          (by omega)
        refine ⟨r, hr, fun b e => ?_⟩
        obtain ⟨⟨j, h1, h2, h3⟩, h4⟩ := hspec b e
        have hbS := hx.list_sub h2 b h3
        have hb16' : heapGetSize m b % 16 = 0 := by
          unfold heapGetSize
          rw [heapAlign_eq (rd_lt m _)]
          omega
        exact ⟨hbS, le_of_sizeIdx hb16 hb48 (hmin b hbS) hb16' hidx h1 (hx.listed j h2 b h3), h4⟩
      · rw [Nat.sub_eq_zero_of_le (by omega)]
        exact ⟨none, Returns.of_eq fun _ => rfl, fun b e => by cases e⟩
    · simp only [hidx, if_false]
      exact ⟨none, Returns.of_eq fun _ => rfl, fun b e => by cases e⟩
  cases r with
  | some c =>
      refine ⟨c, ?_, .inr (hlists c rfl)⟩
      filter_upwards [hr] with n h1
      unfold heapSearch
      simp only [h1]
      rfl
  | none =>
      -- the tree
      suffices ht : ∃ b, Returns (fun n => if align = true then
          heapTreeSearchAligned n m (heapFreeSlot heap HEAP_LIST_COUNT) bsize
          else heapTreeSearch n m (heapFreeSlot heap HEAP_LIST_COUNT) bsize) b ∧
          (b = 0 ∨ b ∈ nodes T ∧ bsize ≤ heapGetSize m b ∧
            (align = true → suitsAligned m bsize b = true)) by
        obtain ⟨b, hb, hspec⟩ := ht
        refine ⟨b, ?_, hspec.imp_right fun hs => ⟨hx.tree_sub b hs.1, hs.2⟩⟩
        filter_upwards [hr, hb] with n h1 h2
        unfold heapSearch
        simp only [h1]
        exact h2
      by_cases hroot : rd m (heapFreeSlot heap HEAP_LIST_COUNT) = 0
      · refine ⟨0, Returns.of_eq fun n => ?_, .inl rfl⟩
        simp [heapTreeSearch, heapTreeSearchAligned, hroot]
      · obtain ⟨a, ha, haT⟩ := walkLarger_spec bsize hx.tree
          fun e => hroot (hx.root_eq_nul.mpr e)
        by_cases hsz : heapGetSize m a < bsize
        · refine ⟨0, ?_, .inl rfl⟩
          filter_upwards [ha] with n h1
          simp only [heapTreeSearch, heapTreeSearchAligned, hroot, if_false, h1]
          cases align <;> exact if_pos hsz
        · cases align with
          | true =>
              obtain ⟨b, hb, hspec⟩ := alignedStep_spec hx.tree haT (not_lt.mp hsz)
              refine ⟨b, ?_, hspec.imp_right fun hs => ⟨hs.1, hs.2.1, fun _ => hs.2.2⟩⟩
              filter_upwards [ha, hb] with n h1 h2
              simp only [heapTreeSearchAligned, hroot, if_false, if_true, h1]
              exact (if_neg hsz).trans h2
          | false =>
              obtain ⟨b, hb, hspec⟩ := walkSmaller_spec hx.tree haT (not_lt.mp hsz)
              refine ⟨b, ?_, .inr ⟨heads_sub hspec.1, hspec.2, fun e => by cases e⟩⟩
              filter_upwards [ha, hb] with n h1 h2
              simp only [heapTreeSearch, hroot, if_false, h1]
              exact (if_neg hsz).trans h2

end Dawos
