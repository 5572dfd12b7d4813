import Dawos.HeapRep

/-! # Specification of the heap operations

One specification for each function of `HeapAlloc.lean`, over the invariant `HeapRep`.  `Held`
is the state in the middle of an operation: one free block, in no list, between other blocks.

The conditions under which the operations keep the invariant are definitions on the state
before the step: `RestOk` and `PieceOk` for the block that serves a request, `AllocOk` and
`FreeOk` for whole operations. -/

namespace Dawos

/-- The free block `b`, between `xs` and `ys`, is in no list; all the other free blocks are. -/
structure Held (m : Mem) (heap : ℕ) (xs : List Block) (b : Block) (ys : List Block) : Prop where
  rep : HeapRep m heap (xs ++ [b] ++ ys) (freeAddrs (xs ++ ys))
  free : b.used = false

/-! ### Neighbours -/

/-- The free block that ends where `block` starts. -/
def mergeableLeft (m : Mem) (heap block : ℕ) : Option ℕ :=
  if leftFree m heap block then some (heapGetHeader m (heapLeftFooter block)) else none

/-- The free block that starts where `block` ends. -/
def mergeableRight (m : Mem) (heap block : ℕ) : Option ℕ :=
  if rightFree m heap block then some (heapRightHeader m block) else none

section neighbours

variable {m m' : Mem} {heap : ℕ} {bs xs ys : List Block} {S : Set ℕ} {b c : Block}

theorem HeapRep.mem_low (h : HeapRep m heap bs S) (hb : b ∈ bs) :
    heap + 544 ≤ b.addr ∧ b.addr + b.size < 2 ^ 64 := by
  have := h.bounds hb
  rw [HEAP_T_SIZE] at this
  exact ⟨this.1, this.2.2.1⟩

/-- The first block has no left neighbour. -/
theorem HeapRep.mergeableLeft_first (h : HeapRep m heap bs S) :
    mergeableLeft m heap (heap + HEAP_T_SIZE) = none := by
  have hl : leftFree m heap (heap + HEAP_T_SIZE) = false := by
    unfold leftFree
    rw [h.start]
    simp
  unfold mergeableLeft
  rw [hl]
  rfl

/-- The left neighbour of the address after a block. -/
theorem HeapRep.mergeableLeft_next (h : HeapRep m heap bs S) (hb : b ∈ bs) :
    mergeableLeft m heap (b.addr + b.size) = if b.used = false then some b.addr else none := by
  obtain ⟨hlow, hlt⟩ := h.mem_low hb
  have hmin := b.size_min
  have hfoot : heapLeftFooter (b.addr + b.size) = b.addr + b.size - 16 := by
    unfold heapLeftFooter
    rw [sub64_of_le hlt (by omega)]
  obtain ⟨h1, h2⟩ := (h.tagged b hb).checkFooter
  have hst : heapStartAddr m heap < b.addr + b.size := by
    rw [h.start, HEAP_T_SIZE]
    omega
  have hl : leftFree m heap (b.addr + b.size) = !b.used := by
    unfold leftFree
    simp only [hfoot, h1, h2, hst, (h.tagged b hb).getUsed, decide_true, Bool.true_and]
    cases b.used <;> rfl
  unfold mergeableLeft
  rw [hl, hfoot, h2]
  cases b.used <;> rfl

/-- The last block has no right neighbour. -/
theorem HeapRep.mergeableRight_last (h : HeapRep m heap bs S) (hb : b ∈ bs)
    (he : b.addr + b.size = heapEndAddr m heap) : mergeableRight m heap b.addr = none := by
  obtain ⟨hlow, hlt⟩ := h.mem_low hb
  have hmin := b.size_min
  have hr : rightFree m heap b.addr = false := by
    unfold rightFree
    rw [(h.tagged b hb).getFooter hlt, ← he, u64_of_lt (by omega), Nat.sub_add_cancel (by omega)]
    simp
  unfold mergeableRight
  rw [hr]
  rfl

/-- The right neighbour of a block. -/
theorem HeapRep.mergeableRight_next (h : HeapRep m heap bs S) (hb : b ∈ bs) (hc : c ∈ bs)
    (he : b.addr + b.size = c.addr) :
    mergeableRight m heap b.addr = if c.used = false then some c.addr else none := by
  obtain ⟨hlow, hlt⟩ := h.mem_low hb
  obtain ⟨hlow', hlt'⟩ := h.mem_low hc
  have hbnd := h.bounds hc
  have hmin := b.size_min
  have hmin' := c.size_min
  have hright : heapRightHeader m b.addr = c.addr := by
    rw [(h.tagged b hb).rightHeader hlt, he]
  have hfoot : u64 (heapGetFooter m b.addr + 16) < heapEndAddr m heap := by
    rw [(h.tagged b hb).getFooter hlt, u64_of_lt (by omega)]
    omega
  have hr : rightFree m heap b.addr = !c.used := by
    unfold rightFree
    simp only [hright, hfoot, (h.tagged c hc).checkHeader hlt', (h.tagged c hc).getUsed,
      decide_true, Bool.true_and]
    cases c.used <;> rfl
  unfold mergeableRight
  rw [hr, hright]
  cases c.used <;> rfl

theorem heapMergeLeft_none {a : ℕ} (h : mergeableLeft m heap a = none) :
    heapMergeLeft m heap a = .ok (m, a) := by
  unfold mergeableLeft at h
  unfold heapMergeLeft
  split_ifs at h ⊢
  rfl

theorem heapMergeLeft_some {a l : ℕ} (h : mergeableLeft m heap a = some l)
    (hm : heapRemove m heap l = .ok m') : heapMergeLeft m heap a =
      .ok (heapCreateBlock m' l (u64 (heapGetSize m' l + heapGetSize m' a)), l) := by
  unfold mergeableLeft at h
  unfold heapMergeLeft
  split_ifs at h ⊢
  rw [Option.some.inj h]
  dsimp only
  rw [hm]
  rfl

theorem heapMergeRight_none {a : ℕ} (h : mergeableRight m heap a = none) :
    heapMergeRight m heap a = .ok m := by
  unfold mergeableRight at h
  unfold heapMergeRight
  split_ifs at h ⊢
  rfl

theorem heapMergeRight_some {a r : ℕ} (h : mergeableRight m heap a = some r)
    (hm : heapRemove m heap r = .ok m') : heapMergeRight m heap a =
      .ok (heapCreateBlock m' a (u64 (heapGetSize m' a + heapGetSize m' r))) := by
  unfold mergeableRight at h
  unfold heapMergeRight
  split_ifs at h ⊢
  rw [Option.some.inj h]
  dsimp only
  rw [hm]
  rfl

end neighbours

/-! ### Merging -/

/-- The size of an optional neighbour. -/
def neighbourSize (m : Mem) (o : Option ℕ) : ℕ := (o.map (heapGetSize m)).getD 0

@[simp] theorem neighbourSize_none (m : Mem) : neighbourSize m none = 0 := rfl

@[simp] theorem neighbourSize_some (m : Mem) (a : ℕ) :
    neighbourSize m (some a) = heapGetSize m a := rfl

/-- The block can be removed once the optional neighbour `o` has been. -/
def RemovableNext (m : Mem) (o : Option ℕ) (block : ℕ) : Prop :=
  match o with
  | none => Removable m block
  | some first => RemovableAfter m first block

instance (m : Mem) (o : Option ℕ) (block : ℕ) : Decidable (RemovableNext m o block) :=
  match o with
  | none => inferInstanceAs (Decidable (Removable m block))
  | some first => inferInstanceAs (Decidable (RemovableAfter m first block))

/-- The block that two adjacent blocks merge into. -/
def Block.merge (a b : Block) : Block where
  addr := a.addr
  size := a.size + b.size
  used := false
  size_min := le_trans a.size_min (Nat.le_add_right _ _)
  size_dvd := by
    have h1 := a.size_dvd
    have h2 := b.size_dvd
    omega

@[simp] theorem Block.merge_addr (a b : Block) : (a.merge b).addr = a.addr := rfl
@[simp] theorem Block.merge_size (a b : Block) : (a.merge b).size = a.size + b.size := rfl
@[simp] theorem Block.merge_used (a b : Block) : (a.merge b).used = false := rfl

section merge

variable {m m' : Mem} {heap lo hi : ℕ} {bs xs ys : List Block} {S : Set ℕ} {a b c : Block}

/-- Two adjacent blocks that are in no list become one. -/
theorem HeapRep.merge (h : HeapRep m heap (xs ++ [a, b] ++ ys) (freeAddrs (xs ++ ys)))
    (ha : a.used = false) (hb : b.used = false) :
    Held (heapCreateBlock m a.addr (u64 (heapGetSize m a.addr + heapGetSize m b.addr))) heap xs
        (a.merge b) ys ∧
      AgreeOff m (heapCreateBlock m a.addr (u64 (heapGetSize m a.addr + heapGetSize m b.addr)))
        (workBytes heap (usedBlocks (xs ++ ys)) (heapEndAddr m heap)) ∧
      ∀ z ∈ freeAddrs (xs ++ ys), Removable m z → Removable
        (heapCreateBlock m a.addr (u64 (heapGetSize m a.addr + heapGetSize m b.addr))) z := by
  have ham : a ∈ xs ++ [a, b] ++ ys := by simp
  have hbm : b ∈ xs ++ [a, b] ++ ys := by simp
  have ht := h.tiles
  rw [List.append_assoc] at ht
  obtain ⟨mid, -, h2⟩ := Tiles.append_iff.mp ht
  have hab : a.addr + a.size = b.addr := by
    obtain ⟨e1, e2, -⟩ := h2
    rw [e1, e2]
  obtain ⟨hlow, hlt⟩ := h.mem_low hbm
  have hold : Tiles a.addr [a, b] (a.addr + (a.size + b.size)) :=
    ⟨rfl, hab.symm, by rw [hab]; show b.addr + b.size = _; omega⟩
  have hnew : Tiles a.addr [a.merge b] (a.addr + (a.size + b.size)) := ⟨rfl, rfl⟩
  have hsz : u64 (heapGetSize m a.addr + heapGetSize m b.addr) = (a.merge b).size := by
    rw [h.getSize ham, h.getSize hbm]
    exact u64_of_lt (by omega)
  rw [hsz]
  obtain ⟨htag, hframe⟩ := heapCreateBlock_spec m (a.merge b)
    (by rw [Block.merge_addr, Block.merge_size]; omega) rfl
  have hf : AgreeOff m (heapCreateBlock m a.addr (a.merge b).size)
      fun x => a.addr ≤ x ∧ x < a.addr + (a.size + b.size) := hframe
  have hwork := h.segment_work hold (List.cons_ne_nil _ _) (by simp [ha, hb])
  have hU : usedBlocks (xs ++ [a, b] ++ ys) = usedBlocks (xs ++ ys) :=
    usedBlocks_around (by simp [ha, hb])
  rw [hU] at hwork
  exact ⟨⟨h.replace Set.Subset.rfl hold (List.cons_ne_nil _ _) hnew (by simpa using htag) hf, rfl⟩,
    hf.mono hwork, fun z hz hr => h.around_removable hold (List.cons_ne_nil _ _) hf hz hr⟩

/-- What merging to the left achieves. -/
structure LeftMerged (m : Mem) (heap : ℕ) (xs : List Block) (b : Block) (ys : List Block)
    (m' : Mem) (xs' : List Block) (b' : Block) : Prop where
  held : Held m' heap xs' b' ys
  used : usedBlocks xs' = usedBlocks xs
  fin : b'.addr + b'.size = b.addr + b.size
  addr : b'.addr = (mergeableLeft m heap b.addr).getD b.addr
  size : b'.size = neighbourSize m (mergeableLeft m heap b.addr) + b.size
  frame : AgreeOff m m' (workBytes heap (usedBlocks (xs ++ ys)) (heapEndAddr m heap))
  keeps : ∀ z ∈ freeAddrs ys, RemovableNext m (mergeableLeft m heap b.addr) z → Removable m' z

/-- Nothing to merge with on the left. -/
theorem Held.left_none (h : Held m heap xs b ys) (hn : mergeableLeft m heap b.addr = none) :
    LeftMerged m heap xs b ys m xs b where
  held := h
  used := rfl
  fin := rfl
  addr := by rw [hn]; rfl
  size := by rw [hn, neighbourSize_none, Nat.zero_add]
  frame := AgreeOff.refl _ _
  keeps z _ hz := by rwa [hn] at hz

/-- Removing a free neighbour of the held block from the index. -/
theorem HeapRep.remove_free (h : HeapRep m heap (xs ++ [a, b] ++ ys) S) {o : Block}
    (hoS : S \ {o.addr} = freeAddrs (xs ++ ys))
    (hom : o.addr ∈ S) (ha : a.used = false) (hb : b.used = false) (hr : Removable m o.addr) :
    ∃ m', heapRemove m heap o.addr = .ok m' ∧
      HeapRep m' heap (xs ++ [a, b] ++ ys) (freeAddrs (xs ++ ys)) ∧
      AgreeOff m m' (workBytes heap (usedBlocks (xs ++ ys)) (heapEndAddr m heap)) ∧
      ∀ z ∈ S, z ≠ o.addr → RemovableAfter m o.addr z → Removable m' z := by
  obtain ⟨m', h1, h2, h3, h4⟩ := h.remove hom hr
  have hU : usedBlocks (xs ++ [a, b] ++ ys) = usedBlocks (xs ++ ys) :=
    usedBlocks_around (by simp [ha, hb])
  rw [hoS] at h2
  rw [hU] at h3
  exact ⟨m', h1, h2, h3, h4⟩

/-- The block before the held one ends where that starts. -/
theorem Held.left_adjacent {l : Block} (h : Held m heap (xs ++ [l]) b ys) :
    l.addr + l.size = b.addr := by
  have ht := h.rep.tiles
  rw [List.append_assoc] at ht
  obtain ⟨p, h1, h2, -⟩ := Tiles.append_iff.mp ht
  obtain ⟨q, -, h4, h5⟩ := Tiles.append_iff.mp h1
  have h5 : q + l.size = p := h5
  omega

/-- The left neighbour is the block before the held one. -/
theorem Held.left_some (h : Held m heap xs b ys) {l₀ : ℕ}
    (hl : mergeableLeft m heap b.addr = some l₀) :
    ∃ ws l, xs = ws ++ [l] ∧ l.used = false ∧ l.addr = l₀ := by
  rcases List.eq_nil_or_concat xs with rfl | ⟨ws, l, rfl⟩
  · -- the first block
    have hb : b.addr = heap + HEAP_T_SIZE := h.rep.tiles.1
    rw [hb, h.rep.mergeableLeft_first] at hl
    cases hl
  · rw [List.concat_eq_append] at h ⊢
    have hnext := h.rep.mergeableLeft_next (b := l) (by simp)
    rw [h.left_adjacent, hl] at hnext
    split_ifs at hnext with hu
    exact ⟨ws, l, rfl, hu, (Option.some.inj hnext).symm⟩

theorem Held.left_mem (h : Held m heap xs b ys) {l : ℕ}
    (hl : mergeableLeft m heap b.addr = some l) : l ∈ freeAddrs (xs ++ ys) := by
  obtain ⟨ws, l, rfl, hu, rfl⟩ := h.left_some hl
  exact ⟨l, by simp, hu, rfl⟩

/-- The held block and its left neighbour, seen as two blocks in no list. -/
theorem Held.left_pair {l : Block} (h : Held m heap (xs ++ [l]) b ys) (hl : l.used = false)
    (hr : Removable m l.addr) : ∃ m', heapRemove m heap l.addr = .ok m' ∧
      HeapRep m' heap (xs ++ [l, b] ++ ys) (freeAddrs (xs ++ ys)) ∧
      AgreeOff m m' (workBytes heap (usedBlocks (xs ++ ys)) (heapEndAddr m heap)) ∧
      ∀ z ∈ freeAddrs (xs ++ ys), RemovableAfter m l.addr z → Removable m' z := by
  have hrep := h.rep
  have e : xs ++ [l] ++ [b] ++ ys = xs ++ [l, b] ++ ys := by simp
  have e' : xs ++ [l] ++ ys = xs ++ l :: ys := by simp
  rw [e] at hrep
  have hn : l.addr ∉ freeAddrs (xs ++ ys) := by
    have ht := hrep.tiles
    have e2 : xs ++ [l, b] ++ ys = xs ++ l :: ([b] ++ ys) := by simp
    rw [e2] at ht
    refine fun hm => ht.not_free ?_
    rw [← List.append_assoc]
    exact freeAddrs_around [b] hm
  have hS : freeAddrs (xs ++ [l] ++ ys) = insert l.addr (freeAddrs (xs ++ ys)) := by
    rw [e', freeAddrs_middle hl]
  obtain ⟨m', h1, h2, h3, h4⟩ := hrep.remove_free (o := l)
    (by rw [hS]; exact Set.insert_sdiff_self_of_notMem hn) (by rw [hS]; exact Set.mem_insert _ _)
    hl h.free hr
  refine ⟨m', h1, h2, h3, fun z hz ha => h4 z ?_ ?_ ha⟩
  · rw [hS]
    exact Set.mem_insert_of_mem _ hz
  · rintro rfl
    exact hn hz

/-- **Merging to the left.** -/
theorem heapMergeLeft_spec (h : Held m heap xs b ys)
    (hr : ∀ l, mergeableLeft m heap b.addr = some l → Removable m l) :
    ∃ m' xs' b', heapMergeLeft m heap b.addr = .ok (m', b'.addr) ∧
      LeftMerged m heap xs b ys m' xs' b' := by
  cases hml : mergeableLeft m heap b.addr with
  | none => exact ⟨m, xs, b, heapMergeLeft_none hml, h.left_none hml⟩
  | some l₀ =>
      obtain ⟨ws, l, rfl, hl, rfl⟩ := h.left_some hml
      have hlm : l ∈ ws ++ [l] ++ [b] ++ ys := by simp
      have hadj := h.left_adjacent
      obtain ⟨m1, hret, hrep, hf, hk⟩ := h.left_pair hl (hr _ hml)
      obtain ⟨hheld, hf', hk'⟩ := hrep.merge hl h.free
      have hend : heapEndAddr m1 heap = heapEndAddr m heap := HeapRep.rd_struct hf (by omega)
      rw [hend] at hf'
      have hU : usedBlocks (ws ++ [l] ++ ys) = usedBlocks (ws ++ ys) :=
        usedBlocks_around (by simp [hl])
      refine ⟨_, ws, l.merge b, heapMergeLeft_some hml hret, hheld, ?_, ?_, ?_, ?_, ?_, ?_⟩
      · rw [usedBlocks_append, usedBlocks_cons_free hl]
        simp
      · rw [Block.merge_addr, Block.merge_size]
        omega
      · rw [hml]
        rfl
      · rw [hml, Block.merge_size, neighbourSize_some, h.rep.getSize hlm]
      · rw [hU]
        exact hf.trans hf'
      · intro z hz hz'
        rw [hml] at hz'
        have hz2 : z ∈ freeAddrs (ws ++ ys) := by
          rw [freeAddrs_append]
          exact .inr hz
        exact hk' z hz2 (hk z hz2 hz')

/-- The right neighbour is the block after the held one. -/
theorem Held.right_some (h : Held m heap xs b ys) {r₀ : ℕ}
    (hr : mergeableRight m heap b.addr = some r₀) :
    ∃ r ws, ys = r :: ws ∧ r.used = false ∧ r.addr = r₀ := by
  have hbm : b ∈ xs ++ [b] ++ ys := by simp
  have ht := h.rep.tiles
  rw [List.append_assoc] at ht
  obtain ⟨p, -, h2, h3⟩ := Tiles.append_iff.mp ht
  cases ys with
  | nil =>
      have hlast : p + b.size = heapEndAddr m heap := h3
      rw [h.rep.mergeableRight_last hbm (by omega)] at hr
      cases hr
  | cons r ws =>
      have hadj : b.addr + b.size = r.addr := by
        rw [h2]
        exact h3.1.symm
      have hnext := h.rep.mergeableRight_next hbm (c := r) (by simp) hadj
      rw [hr] at hnext
      split_ifs at hnext with hu
      exact ⟨r, ws, rfl, hu, (Option.some.inj hnext).symm⟩

theorem Held.right_mem (h : Held m heap xs b ys) {r : ℕ}
    (hr : mergeableRight m heap b.addr = some r) : r ∈ freeAddrs (xs ++ ys) := by
  obtain ⟨r, ws, rfl, hu, rfl⟩ := h.right_some hr
  exact ⟨r, by simp, hu, rfl⟩

/-- The held block and its right neighbour, seen as two blocks in no list. -/
theorem Held.right_pair {r : Block} (h : Held m heap xs b (r :: ys)) (hr : r.used = false)
    (hrem : Removable m r.addr) : ∃ m', heapRemove m heap r.addr = .ok m' ∧
      HeapRep m' heap (xs ++ [b, r] ++ ys) (freeAddrs (xs ++ ys)) ∧
      AgreeOff m m' (workBytes heap (usedBlocks (xs ++ ys)) (heapEndAddr m heap)) := by
  have hrep := h.rep
  have e : xs ++ [b] ++ r :: ys = xs ++ [b, r] ++ ys := by simp
  rw [e] at hrep
  have hn : r.addr ∉ freeAddrs (xs ++ ys) := by
    have ht := hrep.tiles
    have e2 : xs ++ [b, r] ++ ys = (xs ++ [b]) ++ r :: ys := by simp
    rw [e2] at ht
    exact fun hm => ht.not_free (freeAddrs_around [b] hm)
  have hS : freeAddrs (xs ++ r :: ys) = insert r.addr (freeAddrs (xs ++ ys)) := freeAddrs_middle hr
  obtain ⟨m', h1, h2, h3, -⟩ := hrep.remove_free
    (by rw [hS]; exact Set.insert_sdiff_self_of_notMem hn) (by rw [hS]; exact Set.mem_insert _ _)
    h.free hr hrem
  exact ⟨m', h1, h2, h3⟩

/-- What merging to the right achieves. -/
structure RightMerged (m : Mem) (heap : ℕ) (xs : List Block) (b : Block) (ys : List Block)
    (m' : Mem) (b' : Block) (ys' : List Block) : Prop where
  held : Held m' heap xs b' ys'
  used : usedBlocks ys' = usedBlocks ys
  addr : b'.addr = b.addr
  size : b'.size = b.size + neighbourSize m (mergeableRight m heap b.addr)
  frame : AgreeOff m m' (workBytes heap (usedBlocks (xs ++ ys)) (heapEndAddr m heap))

/-- **Merging to the right.** -/
theorem heapMergeRight_spec (h : Held m heap xs b ys)
    (hr : ∀ r, mergeableRight m heap b.addr = some r → Removable m r) :
    ∃ m' b' ys', heapMergeRight m heap b.addr = .ok m' ∧
      RightMerged m heap xs b ys m' b' ys' := by
  have hbm : b ∈ xs ++ [b] ++ ys := by simp
  cases hmr : mergeableRight m heap b.addr with
  | none =>
      refine ⟨m, b, ys, heapMergeRight_none hmr, h, rfl, rfl, ?_, AgreeOff.refl _ _⟩
      rw [hmr, neighbourSize_none, Nat.add_zero]
  | some r₀ =>
      obtain ⟨r, ws, rfl, hru, rfl⟩ := h.right_some hmr
      have hrm : r ∈ xs ++ [b] ++ r :: ws := by simp
      obtain ⟨m1, hret, hrep, hf⟩ := h.right_pair hru (hr _ hmr)
      obtain ⟨hheld, hf', -⟩ := hrep.merge h.free hru
      have hend : heapEndAddr m1 heap = heapEndAddr m heap := HeapRep.rd_struct hf (by omega)
      rw [hend] at hf'
      have hU : usedBlocks (xs ++ r :: ws) = usedBlocks (xs ++ ws) := by
        rw [usedBlocks_append, usedBlocks_cons_free hru, usedBlocks_append]
      refine ⟨_, b.merge r, ws, heapMergeRight_some hmr hret, hheld,
        (usedBlocks_cons_free hru).symm, rfl, ?_, ?_⟩
      · rw [hmr, Block.merge_size, neighbourSize_some, h.rep.getSize hrm]
      · rw [hU]
        exact hf.trans hf'

end merge

/-! ### Splitting -/

/-- A block of `size` bytes can serve a request of `bsize`: what is left is too small to be split
off, or it has a place in the index. -/
def RestOk (bsize size : ℕ) : Prop :=
  bsize ≤ size ∧ (size - bsize < HEAP_LIST_MIN ∨ Indexable (size - bsize))

instance (bsize size : ℕ) : Decidable (RestOk bsize size) :=
  inferInstanceAs
    (Decidable (bsize ≤ size ∧ (size - bsize < HEAP_LIST_MIN ∨ Indexable (size - bsize))))

section split

variable {m m' : Mem} {heap lo hi bsize : ℕ} {bs xs ys : List Block} {S : Set ℕ} {a b c : Block}

/-- A held block becomes two blocks in no list. -/
theorem Held.split (h : Held m heap xs b ys) (ha : a.addr = b.addr)
    (hab : a.addr + a.size = c.addr) (hs : a.size + c.size = b.size) (hau : a.used = false)
    (hcu : c.used = false) (hta : Tagged m' a) (htc : Tagged m' c)
    (hf : AgreeOff m m' fun x => b.addr ≤ x ∧ x < b.addr + b.size) :
    HeapRep m' heap (xs ++ [a, c] ++ ys) (freeAddrs (xs ++ ys)) ∧
      AgreeOff m m' (workBytes heap (usedBlocks (xs ++ ys)) (heapEndAddr m heap)) := by
  have hold : Tiles b.addr [b] (b.addr + b.size) := ⟨rfl, rfl⟩
  have hnew : Tiles b.addr [a, c] (b.addr + b.size) :=
    ⟨ha, by omega, by show b.addr + a.size + c.size = _; omega⟩
  have hwork := h.rep.segment_work hold (List.cons_ne_nil _ _) (by simp [h.free])
  rw [usedBlocks_around (by simp [h.free])] at hwork
  refine ⟨h.rep.replace Set.Subset.rfl hold (List.cons_ne_nil _ _) hnew ?_ hf, hf.mono hwork⟩
  intro d hd
  simp only [List.mem_cons, List.not_mem_nil, or_false] at hd
  rcases hd with rfl | rfl
  · exact hta
  · exact htc

/-- Creating two blocks that do not overlap. -/
theorem heapCreateBlock_pair (hac : a.addr + a.size ≤ c.addr ∨ c.addr + c.size ≤ a.addr)
    (ha : a.addr + a.size < 2 ^ 64) (hc : c.addr + c.size < 2 ^ 64) (hau : a.used = false)
    (hcu : c.used = false) :
    Tagged (heapCreateBlock (heapCreateBlock m a.addr a.size) c.addr c.size) a ∧
      Tagged (heapCreateBlock (heapCreateBlock m a.addr a.size) c.addr c.size) c ∧
      AgreeOff m (heapCreateBlock (heapCreateBlock m a.addr a.size) c.addr c.size)
        fun x => a.bytes x ∨ c.bytes x := by
  obtain ⟨h1, h2⟩ := heapCreateBlock_spec m a ha hau
  obtain ⟨h3, h4⟩ := heapCreateBlock_spec (heapCreateBlock m a.addr a.size) c hc hcu
  refine ⟨h1.congr fun x hx => h4 x fun hcx => ?_, h3,
    (h2.mono fun x hx => .inl hx).trans (h4.mono fun x hx => .inr hx)⟩
  have hmin := a.size_min
  obtain ⟨hc1, hc2⟩ := hcx
  rcases hx with ⟨hx1, hx2⟩ | ⟨hx1, hx2⟩ <;> omega

/-- **Splitting a block**: nothing happens, or the rest becomes a block in no list. -/
theorem heapSplitBlock_spec (h : Held m heap xs b ys) (hmin : HEAP_LIST_MIN ≤ bsize)
    (hdvd : bsize % 16 = 0) (hle : bsize ≤ b.size) :
    (b.size - bsize < HEAP_LIST_MIN ∧ heapSplitBlock m b.addr bsize = (m, 0)) ∨
      ∃ m' a c, heapSplitBlock m b.addr bsize = (m', c.addr) ∧ c.addr ≠ 0 ∧ a.addr = b.addr ∧
        a.size = bsize ∧ c.size = b.size - bsize ∧ a.used = false ∧ c.used = false ∧
        HeapRep m' heap (xs ++ [a, c] ++ ys) (freeAddrs (xs ++ ys)) ∧
        AgreeOff m m' (workBytes heap (usedBlocks (xs ++ ys)) (heapEndAddr m heap)) := by
  have hbm : b ∈ xs ++ [b] ++ ys := by simp
  obtain ⟨hlow, hlt⟩ := h.rep.mem_low hbm
  have hbd := b.size_dvd
  unfold heapSplitBlock
  rw [h.rep.getSize hbm, heapAlign_of_dvd (by omega) hdvd]
  dsimp only
  rw [sub64_of_le (by omega) hle, u64_of_lt (by omega)]
  by_cases hrest : HEAP_LIST_MIN ≤ b.size - bsize
  · rw [if_pos hrest]
    refine .inr ⟨_, ⟨b.addr, bsize, false, hmin, hdvd⟩,
      ⟨b.addr + bsize, b.size - bsize, false, hrest, by omega⟩, rfl, by dsimp only; omega, rfl, rfl,
      rfl, rfl, rfl, ?_⟩
    set a : Block := ⟨b.addr, bsize, false, hmin, hdvd⟩ with ha
    set c : Block := ⟨b.addr + bsize, b.size - bsize, false, hrest, by omega⟩ with hc
    obtain ⟨h1, h2, h3⟩ := heapCreateBlock_pair (m := m) (a := c) (c := a)
      (.inr (by rw [ha, hc])) (by rw [hc]; dsimp only; omega) (by rw [ha]; dsimp only; omega) rfl rfl
    refine h.split rfl rfl (by rw [ha, hc]; dsimp only; omega) rfl rfl h2 h1 (h3.mono fun x hx => ?_)
    rcases hx with ⟨hx1, hx2⟩ | ⟨hx1, hx2⟩
    · rw [hc] at hx1 hx2
      dsimp only at hx1 hx2
      omega
    · rw [ha] at hx1 hx2
      dsimp only at hx1 hx2
      omega
  · rw [if_neg hrest]
    exact .inl ⟨not_le.mp hrest, rfl⟩

/-- Setting the flag of a block that is not indexed. -/
theorem HeapRep.setUsed (h : HeapRep m heap (xs ++ [b] ++ ys) S) (hS : S ⊆ freeAddrs (xs ++ ys))
    (u : Bool) : HeapRep (heapSetUsed m b.addr u.toNat) heap (xs ++ [b.setUsed u] ++ ys) S ∧
      AgreeOff m (heapSetUsed m b.addr u.toNat)
        (workBytes heap (usedBlocks (xs ++ [b] ++ ys)) (heapEndAddr m heap)) := by
  have hbm : b ∈ xs ++ [b] ++ ys := by simp
  have hmin := b.size_min
  have hframe : AgreeOff m (heapSetUsed m b.addr u.toNat) fun x => b.addr ≤ x ∧ x < b.addr + 16 :=
    (AgreeOff.refl m _).wr _ fun x h1 h2 => ⟨by omega, by omega⟩
  have hold : Tiles b.addr [b] (b.addr + b.size) := ⟨rfl, rfl⟩
  have hnew : Tiles b.addr [b.setUsed u] (b.addr + b.size) := ⟨rfl, rfl⟩
  refine ⟨h.replace hS hold (List.cons_ne_nil _ _) hnew ?_
    (hframe.mono fun x hx => ⟨hx.1, by omega⟩), hframe.mono fun x hx => ?_⟩
  · simpa using (h.tagged b hbm).setUsed u
  · obtain ⟨hlow, -⟩ := h.mem_low hbm
    have hhigh := (h.bounds hbm).2.1
    refine ⟨⟨by omega, by omega⟩, fun c hc hcx => ?_⟩
    by_cases e : b.addr = c.addr
    · omega
    · have hcm := c.size_min
      have := h.tiles.apart hbm hc.1 e
      omega

/-- What placing a request in the held block achieves. -/
structure Placed (m : Mem) (heap : ℕ) (xs : List Block) (b : Block) (ys : List Block) (bsize : ℕ)
    (m' : Mem) (b' : Block) (ys' : List Block) : Prop where
  rep : HeapRep m' heap (xs ++ [b'] ++ ys') (freeAddrs (xs ++ [b'] ++ ys'))
  used : b'.used = true
  others : usedBlocks ys' = usedBlocks ys
  addr : b'.addr = b.addr
  size : bsize ≤ b'.size
  frame : AgreeOff m m' (workBytes heap (usedBlocks (xs ++ ys)) (heapEndAddr m heap))

/-- Marking the block used is the last step. -/
theorem HeapRep.placed (h : HeapRep m' heap (xs ++ [a] ++ ys) (freeAddrs (xs ++ ys)))
    (ha : a.used = false) {zs : List Block} (hzs : usedBlocks ys = usedBlocks zs)
    (haddr : a.addr = b.addr) (hsize : bsize ≤ a.size)
    (hf : AgreeOff m m' (workBytes heap (usedBlocks (xs ++ zs)) (heapEndAddr m heap))) :
    Placed m heap xs b zs bsize (heapSetUsed m' b.addr 1) (a.setUsed true) ys := by
  obtain ⟨h1, h2⟩ := h.setUsed Set.Subset.rfl true
  have hend : heapEndAddr m' heap = heapEndAddr m heap := HeapRep.rd_struct hf (by omega)
  rw [usedBlocks_around (by simp [ha]), hend, usedBlocks_append, hzs, ← usedBlocks_append] at h2
  rw [haddr] at h1 h2
  have hfree : freeAddrs (xs ++ [a.setUsed true] ++ ys) = freeAddrs (xs ++ ys) :=
    freeAddrs_around_used (by simp)
  exact ⟨hfree.symm ▸ h1, rfl, hzs, haddr, hsize, hf.trans h2⟩

/-- **Placing a request.** -/
theorem heapPlace_spec (h : Held m heap xs b ys) (hmin : HEAP_LIST_MIN ≤ bsize)
    (hdvd : bsize % 16 = 0) (hok : RestOk bsize b.size) :
    ∃ m' b' ys', Returns (fun n => heapPlace n m heap b.addr bsize) m' ∧
      Placed m heap xs b ys bsize m' b' ys' := by
  unfold heapPlace
  rcases heapSplitBlock_spec h hmin hdvd hok.1 with ⟨-, he⟩ |
    ⟨m1, a, c, he, hc0, haddr, hasz, hcsz, hau, hcu, hrep, hf⟩
  · rw [he]
    exact ⟨_, b.setUsed true, ys, Returns.of_eq fun n => rfl,
      h.rep.placed h.free rfl rfl hok.1 (AgreeOff.refl _ _)⟩
  · have hcm : c ∈ xs ++ [a, c] ++ ys := by simp
    have hidx : Indexable c.size := by
      rcases hok.2 with hsmall | hidx
      · have := c.size_min
        rw [HEAP_LIST_MIN] at hsmall
        omega
      · rwa [hcsz]
    have hcn : c.addr ∉ freeAddrs (xs ++ ys) := by
      have ht := hrep.tiles
      have e : xs ++ [a, c] ++ ys = (xs ++ [a]) ++ c :: ys := by simp
      rw [e] at ht
      exact fun hm => ht.not_free (freeAddrs_around [a] hm)
    obtain ⟨m2, hret, hrep2, hf2⟩ := hrep.insert hcm hcu hcn hidx
    have e : xs ++ [a, c] ++ ys = xs ++ [a] ++ c :: ys := by simp
    have hS : insert c.addr (freeAddrs (xs ++ ys)) = freeAddrs (xs ++ c :: ys) :=
      (freeAddrs_middle hcu).symm
    have hU : usedBlocks (xs ++ [a, c] ++ ys) = usedBlocks (xs ++ ys) :=
      usedBlocks_around (by simp [hau, hcu])
    have hend : heapEndAddr m1 heap = heapEndAddr m heap := HeapRep.rd_struct hf (by omega)
    rw [hU, hend] at hf2
    rw [e, hS] at hrep2
    refine ⟨heapSetUsed m2 b.addr 1, a.setUsed true, c :: ys, ?_,
      hrep2.placed hau (usedBlocks_cons_free hcu) haddr hasz.ge (hf.trans hf2)⟩
    filter_upwards [hret] with n hn
    rw [he]
    simp only [ne_eq, hc0, not_false_iff, if_true, hn]
    rfl

end split

/-! ### Carving -/

/-- The block of `size` bytes at `addr` can serve a request of `bsize` with this alignment. -/
def PieceOk (bsize : ℕ) (align : Bool) (addr size : ℕ) : Prop :=
  if align && !heapIsPageAligned (heapGetPayload addr) then
    HEAP_LIST_MIN ≤ alignedLeft addr ∧ Indexable (alignedLeft addr) ∧ alignedLeft addr ≤ size ∧
      RestOk bsize (size - alignedLeft addr)
  else RestOk bsize size

instance (bsize : ℕ) (align : Bool) (addr size : ℕ) : Decidable (PieceOk bsize align addr size) :=
  inferInstanceAs (Decidable (if align && !heapIsPageAligned (heapGetPayload addr) then
    HEAP_LIST_MIN ≤ alignedLeft addr ∧ Indexable (alignedLeft addr) ∧ alignedLeft addr ≤ size ∧
      RestOk bsize (size - alignedLeft addr)
  else RestOk bsize size))

section carve

variable {m m' : Mem} {heap bsize : ℕ} {align : Bool} {xs ys : List Block} {b : Block}

/-- Where the aligned header goes, for a block that it fits into. -/
theorem alignedOffset_spec {addr size : ℕ} (ha : addr % 16 = 0) (hs : addr + size < 2 ^ 64)
    (hd : size % 16 = 0) (hn : heapIsPageAligned (heapGetPayload addr) = false)
    (hlt : alignedLeft addr < size) (h16 : addr + 16 < 2 ^ 64) :
    alignedOffset addr = addr + alignedLeft addr ∧ alignedLeft addr % 16 = 0 ∧
      heapIsPageAligned (heapGetPayload (alignedOffset addr)) = true := by
  have hp : heapGetPayload addr = addr + 16 := u64_of_lt h16
  have hna : (addr + 16) % 4096 ≠ 0 := fun e => by
    rw [hp, (heapIsPageAligned_iff _).mpr e] at hn
    cases hn
  have hoff : alignedOffset addr = sub64 (pageSizeAlign (addr + 16)) 16 := by
    unfold alignedOffset
    rw [hp]
  have hleft : alignedLeft addr = sub64 (alignedOffset addr) addr := rfl
  have hplt := pageSizeAlign_lt (addr + 16)
  rw [heapIsPageAligned_iff]
  rcases pageSizeAlign_cases h16 with h0 | ⟨h1, h2, h3⟩
  · -- the rounding wraps: the header would be the last 16 bytes of memory
    exfalso
    rw [h0] at hoff
    rw [hleft, hoff] at hlt
    unfold sub64 u64 at hlt
    omega
  · rw [sub64_of_le hplt (by omega)] at hoff
    rw [sub64_of_le (by omega) (by omega)] at hleft
    unfold heapGetPayload
    rw [u64_of_lt (by omega)]
    omega

/-- What carving an aligned block out of the held one achieves. -/
structure Carved (m : Mem) (heap : ℕ) (xs : List Block) (b : Block) (ys : List Block) (bsize : ℕ)
    (align : Bool) (m' : Mem) (xs' : List Block) (b' : Block) : Prop where
  held : Held m' heap xs' b' ys
  used : usedBlocks xs' = usedBlocks xs
  rest : RestOk bsize b'.size
  aligned : align = true → heapIsPageAligned (heapGetPayload b'.addr) = true
  frame : AgreeOff m m' (workBytes heap (usedBlocks (xs ++ ys)) (heapEndAddr m heap))

/-- **Carving an aligned block.** -/
theorem heapCarve_spec (h : Held m heap xs b ys) (hmin : HEAP_LIST_MIN ≤ bsize)
    (hok : PieceOk bsize align b.addr b.size) :
    ∃ m' xs' b', Returns (fun n => heapCarve n m heap b.addr align) (m', b'.addr) ∧
      Carved m heap xs b ys bsize align m' xs' b' := by
  have hbm : b ∈ xs ++ [b] ++ ys := by simp
  obtain ⟨hlow, hlt⟩ := h.rep.mem_low hbm
  have hb16 := (h.rep.bounds hbm).2.2.2
  have hbd := b.size_dvd
  have hbmin := b.size_min
  unfold heapCarve
  unfold PieceOk at hok
  by_cases hc : (align && !heapIsPageAligned (heapGetPayload b.addr)) = true
  · rw [if_pos hc] at hok
    obtain ⟨hl48, hlidx, hlle, hrest⟩ := hok
    have hr48 : HEAP_LIST_MIN ≤ b.size - alignedLeft b.addr := le_trans hmin hrest.1
    rw [HEAP_LIST_MIN] at hl48 hr48
    have hna : heapIsPageAligned (heapGetPayload b.addr) = false := by
      rw [Bool.and_eq_true] at hc
      simpa using hc.2
    obtain ⟨hoff, hl16, hal⟩ := alignedOffset_spec hb16 hlt hbd hna (by omega) (by omega)
    set a : Block := ⟨b.addr, alignedLeft b.addr, false, hl48, hl16⟩ with ha
    set c : Block := ⟨b.addr + alignedLeft b.addr, b.size - alignedLeft b.addr, false, hr48,
      by omega⟩ with hcdef
    have haddr : a.addr = b.addr := rfl
    have hasz : a.size = alignedLeft b.addr := rfl
    have hcaddr : c.addr = b.addr + alignedLeft b.addr := rfl
    have hcsz : c.size = b.size - alignedLeft b.addr := rfl
    obtain ⟨h1, h2, h3⟩ := heapCreateBlock_pair (m := m) (a := a) (c := c) (.inl (by omega))
      (by omega) (by omega) rfl rfl
    obtain ⟨hrep, hf⟩ := h.split haddr (by omega) (by omega) rfl rfl h1 h2 (h3.mono fun x hx => by
      rcases hx with ⟨hx1, hx2⟩ | ⟨hx1, hx2⟩ <;> omega)
    have ham : a ∈ xs ++ [a, c] ++ ys := by simp
    have han : a.addr ∉ freeAddrs (xs ++ ys) := by
      have ht := hrep.tiles
      have e : xs ++ [a, c] ++ ys = xs ++ a :: ([c] ++ ys) := by simp
      rw [e] at ht
      refine fun hm => ht.not_free ?_
      rw [← List.append_assoc]
      exact freeAddrs_around [c] hm
    obtain ⟨m2, hret, hrep2, hf2⟩ := hrep.insert ham rfl han hlidx
    have e : xs ++ [a, c] ++ ys = xs ++ [a] ++ [c] ++ ys := by simp
    have hS : insert a.addr (freeAddrs (xs ++ ys)) = freeAddrs (xs ++ [a] ++ ys) := by
      have e' : xs ++ [a] ++ ys = xs ++ a :: ys := by simp
      rw [e', freeAddrs_middle rfl]
    have hU : usedBlocks (xs ++ [a, c] ++ ys) = usedBlocks (xs ++ ys) :=
      usedBlocks_around (by simp [ha, hcdef])
    have hUx : usedBlocks (xs ++ [a]) = usedBlocks xs := by
      rw [usedBlocks_append, usedBlocks_cons_free rfl]
      simp
    have hend : heapEndAddr (heapCreateBlock (heapCreateBlock m a.addr a.size) c.addr c.size) heap =
        heapEndAddr m heap := HeapRep.rd_struct hf (by omega)
    rw [hU, hend] at hf2
    rw [e, hS] at hrep2
    refine ⟨m2, xs ++ [a], c, ?_, ⟨hrep2, rfl⟩, hUx, hrest, fun _ => ?_, hf.trans hf2⟩
    · filter_upwards [hret] with n hn
      rw [if_pos hc, h.rep.getSize hbm, hoff]
      dsimp only
      rw [sub64_of_le (by omega) hlle]
      rw [haddr, hasz, hcaddr, hcsz] at hn
      simp only [hn]
      rfl
    · rw [hcaddr, ← hoff]
      exact hal
  · rw [if_neg hc] at hok
    refine ⟨m, xs, b, Returns.of_eq fun n => if_neg hc, h, rfl, hok, fun hal => ?_,
      AgreeOff.refl _ _⟩
    rw [hal] at hc
    simpa using hc

end carve

/-! ### Extension -/

/-- The bytes that an allocation may write besides the lock: work up to `hi`, and the end of the
heap. -/
def allocBytes (heap : ℕ) (U : Set Block) (hi x : ℕ) : Prop :=
  (heap + 8 ≤ x ∧ x < heap + 16) ∨ workBytes heap U hi x

section extend

variable {m m' : Mem} {heap g : ℕ} {bs : List Block} {b : Block}

/-- The memory after the new pages became a block at the end of the heap. -/
def extended (m : Mem) (heap g : ℕ) : Mem :=
  heapCreateBlock (wr m (heap + 8) (heapEndAddr m heap + g)) (heapEndAddr m heap) g

/-- The bytes that making the new block writes. -/
theorem extended_frame (h : HeapRep m heap bs (freeAddrs bs)) (hb : b.addr = heapEndAddr m heap)
    (hs : b.size = g) (hu : b.used = false) (hg : heapEndAddr m heap + g < 2 ^ 64) :
    Tagged (extended m heap g) b ∧ heapEndAddr (extended m heap g) heap = heapEndAddr m heap + g ∧
      AgreeOff m (extended m heap g) fun x => (heap + 8 ≤ x ∧ x < heap + 16) ∨ b.bytes x := by
  have hle := h.tiles.le
  rw [HEAP_T_SIZE] at hle
  obtain ⟨h1, h2⟩ := heapCreateBlock_spec (wr m (heap + 8) (heapEndAddr m heap + g)) b
    (by omega) hu
  rw [hb, hs] at h1 h2
  refine ⟨h1, ?_, ?_⟩
  · have e : heapEndAddr (extended m heap g) heap =
        heapEndAddr (wr m (heap + 8) (heapEndAddr m heap + g)) heap :=
      h2.rd fun x hx1 hx2 hx => by
        have := hx.1
        omega
    rw [e]
    exact (rd_wr_same m _ _).trans (Nat.mod_eq_of_lt hg)
  · refine AgreeOff.trans ((AgreeOff.refl m _).wr _ fun x hx1 hx2 => .inl ⟨hx1, by omega⟩)
      (h2.mono fun x hx => .inr hx)

/-- **The new block at the end of the heap.** -/
theorem HeapRep.extend (h : HeapRep m heap bs (freeAddrs bs)) (hb : b.addr = heapEndAddr m heap)
    (hs : b.size = g) (hu : b.used = false) (hg : heapEndAddr m heap + g < 2 ^ 64) :
    Held (extended m heap g) heap bs b [] := by
  obtain ⟨h1, h2, h3⟩ := extended_frame h hb hs hu hg
  have hle := h.tiles.le
  have hmin := b.size_min
  -- the old blocks and the array are off the new block
  have hout : ∀ x, heap + 16 ≤ x → x < heapEndAddr m heap → extended m heap g x = m x :=
    fun x hx1 hx2 => h3 x fun hc => by
      rcases hc with hc | hc
      · omega
      · have := hc.1
        omega
  have hst : heapStartAddr (extended m heap g) heap = heapStartAddr m heap :=
    rd_congr fun x hx1 hx2 => h3 x fun hc => by
      rw [HEAP_T_SIZE] at hle
      rcases hc with hc | hc
      · omega
      · have := hc.1
        omega
  refine ⟨⟨h.aligned, hst.trans h.start, ?_, fun c hc => ?_, fun a ha => ?_, ?_⟩, hu⟩
  · rw [h2, List.append_assoc]
    exact Tiles.append_iff.mpr ⟨_, h.tiles, hb, by rw [hs]; rfl⟩
  · rcases mem_segment.mp hc with hc | hc
    · rw [List.mem_singleton.mp hc]
      exact h1
    · rw [List.append_nil] at hc
      have hcb := h.bounds hc
      have hcm := c.size_min
      rw [HEAP_T_SIZE] at hcb
      exact (h.tagged c hc).congr fun x hx => hout x (by cases hx <;> omega)
        (by cases hx <;> omega)
  · exact freeAddrs_around [b] ha
  · rw [List.append_nil]
    refine h.index.congr (fun a ha x hx1 hx2 => ?_) fun x hx1 hx2 => hout x (by omega) (by omega)
    obtain ⟨c, hc, -, rfl⟩ := ha
    have hcb := h.bounds hc
    have hcm := c.size_min
    rw [HEAP_T_SIZE] at hcb
    exact hout x (by omega) (by omega)

/-- The left neighbour of the end of the heap is the last block, before and after. -/
theorem HeapRep.mergeableLeft_end (h : HeapRep m heap bs (freeAddrs bs))
    (h' : HeapRep m' heap (bs ++ [b] ++ []) (freeAddrs (bs ++ []))) :
    mergeableLeft m' heap (heapEndAddr m heap) = mergeableLeft m heap (heapEndAddr m heap) ∧
      ∀ l, mergeableLeft m heap (heapEndAddr m heap) = some l → l ∈ freeAddrs bs := by
  rcases List.eq_nil_or_concat bs with rfl | ⟨ws, l, rfl⟩
  · have he : heap + HEAP_T_SIZE = heapEndAddr m heap := h.tiles
    rw [← he, h.mergeableLeft_first, h'.mergeableLeft_first]
    exact ⟨rfl, fun l e => by cases e⟩
  · rw [List.concat_eq_append] at h h' ⊢
    obtain ⟨q, -, h1, h2⟩ := Tiles.append_iff.mp h.tiles
    have hadj : l.addr + l.size = heapEndAddr m heap := by
      have h2 : q + l.size = heapEndAddr m heap := h2
      omega
    rw [← hadj, h.mergeableLeft_next (by simp), h'.mergeableLeft_next (by simp)]
    refine ⟨rfl, fun a e => ?_⟩
    split_ifs at e with hu
    cases e
    exact ⟨l, by simp, hu, rfl⟩

/-- The condition under which a grant of `g` bytes at the end of the heap serves a request. -/
def ExtendOk (m : Mem) (heap bsize : ℕ) (align : Bool) (g : ℕ) : Prop :=
  let fin := heapEndAddr m heap
  fin + g < 2 ^ 64 ∧ (∀ l ∈ mergeableLeft m heap fin, Removable m l) ∧
    PieceOk bsize align ((mergeableLeft m heap fin).getD fin)
      (neighbourSize m (mergeableLeft m heap fin) + g)

instance (m : Mem) (heap bsize : ℕ) (align : Bool) (g : ℕ) :
    Decidable (ExtendOk m heap bsize align g) :=
  inferInstanceAs (Decidable (_ ∧ _ ∧ _))

/-- A grant becomes a block that is merged to the left. -/
theorem heapExtend_grant {pageAlloc : PageAlloc} {bsize : ℕ}
    (hp : pageAlloc (heapEndAddr m heap) bsize m = .ok (g, m')) (hg : 0 < g)
    (hend : heapEndAddr m' heap = heapEndAddr m heap) :
    heapExtend pageAlloc m heap bsize =
      heapMergeLeft (extended m' heap g) heap (heapEndAddr m heap) := by
  simp only [heapExtend, hp, ok_bind, if_pos hg, extended, hend]

/-- **Extending the heap** by a grant of `g` bytes. -/
theorem heapExtend_spec {bsize : ℕ} {align : Bool} (h : HeapRep m heap bs (freeAddrs bs))
    (hm : ∀ x, metaBytes heap bs (freeAddrs bs) x → m' x = m x) (hmin : HEAP_LIST_MIN ≤ g)
    (hdvd : g % 16 = 0) (hok : ExtendOk m heap bsize align g) :
    ∃ m'' xs b, (∀ pageAlloc : PageAlloc, pageAlloc (heapEndAddr m heap) bsize m = .ok (g, m') →
        heapExtend pageAlloc m heap bsize = .ok (m'', b.addr)) ∧
      Held m'' heap xs b [] ∧ usedBlocks xs = usedBlocks bs ∧ PieceOk bsize align b.addr b.size ∧
      heapEndAddr m'' heap = heapEndAddr m heap + g ∧
      AgreeOff m' m'' (allocBytes heap (usedBlocks bs) (heapEndAddr m heap + g)) := by
  obtain ⟨hlt, hrem, hpiece⟩ := hok
  have h' := h.congr hm
  have hend : heapEndAddr m' heap = heapEndAddr m heap :=
    rd_congr fun x h1 h2 => hm x (.inl ⟨by omega, by omega⟩)
  have hle := h.tiles.le
  rw [HEAP_T_SIZE] at hle
  rw [HEAP_LIST_MIN] at hmin
  obtain ⟨b, hba, hbs, hbu⟩ : ∃ b : Block, b.addr = heapEndAddr m heap ∧ b.size = g ∧
      b.used = false := ⟨⟨heapEndAddr m heap, g, false, hmin, hdvd⟩, rfl, rfl, rfl⟩
  have hbm : b.addr = heapEndAddr m' heap := hba.trans hend.symm
  have hlt' : heapEndAddr m' heap + g < 2 ^ 64 := hend.symm ▸ hlt
  have hheld := h'.extend hbm hbs hbu hlt'
  obtain ⟨-, hend2, hfx⟩ := extended_frame h' hbm hbs hbu hlt'
  obtain ⟨hml, hmem⟩ := h.mergeableLeft_end hheld.rep
  -- the neighbour has the same size and is as removable as before
  have hnsz : neighbourSize (extended m' heap g) (mergeableLeft m heap (heapEndAddr m heap)) =
      neighbourSize m (mergeableLeft m heap (heapEndAddr m heap)) := by
    cases e : mergeableLeft m heap (heapEndAddr m heap) with
    | none => rw [neighbourSize_none, neighbourSize_none]
    | some l =>
        obtain ⟨c, hc, -, rfl⟩ := hmem l e
        rw [neighbourSize_some, neighbourSize_some, h.getSize hc, hheld.rep.getSize (by simp [hc])]
  have hrem2 : ∀ l, mergeableLeft (extended m' heap g) heap b.addr = some l →
      Removable (extended m' heap g) l := fun l e => by
    have e2 : mergeableLeft m heap (heapEndAddr m heap) = some l := by rwa [hba, hml] at e
    refine (hrem l e2).congr fun x hx1 hx2 => ?_
    obtain ⟨c, hc, hcu, rfl⟩ := hmem l e2
    have hcb := h.bounds hc
    have hcm := c.size_min
    rw [HEAP_T_SIZE] at hcb
    rw [hfx x fun hx => ?_, hm x (.inr (.inr (.inr ⟨c.addr, ⟨c, hc, hcu, rfl⟩, hx1, hx2⟩)))]
    rcases hx with hx | hx
    · omega
    · have := hx.1
      omega
  obtain ⟨m'', xs, b', hret, hmerged⟩ := heapMergeLeft_spec hheld hrem2
  have hend3 : heapEndAddr m'' heap = heapEndAddr m heap + g := by
    rw [← hend, ← hend2]
    exact HeapRep.rd_struct hmerged.frame (by omega)
  refine ⟨m'', xs, b', fun pageAlloc hp => ?_, hmerged.held, hmerged.used, ?_, hend3, ?_⟩
  · rw [heapExtend_grant hp (by omega) hend, ← hret, hba]
  · rw [hmerged.addr, hmerged.size, hba, hml, hnsz, hbs]
    exact hpiece
  · refine (hfx.mono fun x hx => ?_).trans (hmerged.frame.mono fun x hx => .inr ?_)
    · rcases hx with hx | hx
      · exact .inl hx
      · have h1 := hx.1
        have h2 := hx.2
        refine .inr ⟨⟨by omega, by omega⟩, fun c hc hcx => ?_⟩
        have := h.bounds hc.1
        omega
    · rw [List.append_nil, hend2, hend] at hx
      exact hx

end extend

end Dawos
