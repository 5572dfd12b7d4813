import Dawos.HeapSpec

/-! # Whole heap operations

`heap_alloc`, `heap_free` and `heap_create` keep the invariant `HeapRep`, on the condition
`AllocOk` or `FreeOk` on the state before the call.  The conditions say that every block that is
put back into the index has a place there, that no block is removed whose removal promotes a
child in the tree, and that an aligned payload fits into the block that it is carved from. -/

namespace Dawos

/-! ### Lock -/

/-- The heap with its lock flag set. -/
def heapLock (m : Mem) (heap : ℕ) : Mem := wr m (heap + 24) (rd m (heap + 24) / 2 * 2 + 1)

/-- The bytes of the lock word. -/
def lockBytes (heap x : ℕ) : Prop := heap + 24 ≤ x ∧ x < heap + 32

section lock

variable {m : Mem} {heap : ℕ} {bs : List Block} {S : Set ℕ}

theorem heapWaitLock_clear (h : heapLocked m heap = 0) :
    heapWaitLock m heap = .ok (heapLock m heap) := if_neg (by simpa using h)

theorem heapLock_locked (m : Mem) (heap : ℕ) : heapLocked (heapLock m heap) heap = 1 := by
  unfold heapLocked heapLock
  rw [rd_wr_same]
  omega

theorem heapUnlock_locked (m : Mem) (heap : ℕ) : heapLocked (heapUnlock m heap) heap = 0 := by
  unfold heapLocked heapUnlock
  rw [rd_wr_same]
  omega

theorem heapLock_frame (m : Mem) (heap : ℕ) : AgreeOff m (heapLock m heap) (lockBytes heap) :=
  (AgreeOff.refl m _).wr _ fun x h1 h2 => ⟨h1, by omega⟩

theorem heapUnlock_frame (m : Mem) (heap : ℕ) : AgreeOff m (heapUnlock m heap) (lockBytes heap) :=
  (AgreeOff.refl m _).wr _ fun x h1 h2 => ⟨h1, by omega⟩

/-- The lock word is not among the bytes of the invariant. -/
theorem HeapRep.lock_apart (h : HeapRep m heap bs S) (x : ℕ) (hx : metaBytes heap bs S x) :
    ¬ lockBytes heap x := by
  rintro ⟨h1, h2⟩
  rcases hx with hx | hx | ⟨b, hb, hx⟩ | ⟨a, ha, hx⟩
  · omega
  · omega
  · have hlow := (h.mem_low hb).1
    have hmin := b.size_min
    cases hx <;> omega
  · obtain ⟨b, hb, -, rfl⟩ := h.sub ha
    have hlow := (h.mem_low hb).1
    omega

theorem HeapRep.lock (h : HeapRep m heap bs S) : HeapRep (heapLock m heap) heap bs S :=
  h.congr fun x hx => heapLock_frame m heap x (h.lock_apart x hx)

theorem HeapRep.unlock (h : HeapRep m heap bs S) : HeapRep (heapUnlock m heap) heap bs S :=
  h.congr fun x hx => heapUnlock_frame m heap x (h.lock_apart x hx)

end lock

/-! ### Finding a block for a request -/

/-- The condition under which a block for a request is found, with a grant of `g` bytes if the
search finds none. -/
def TakeOk (m : Mem) (heap bsize : ℕ) (align : Bool) (g : ℕ) : Prop :=
  ∀ b, Returns (fun n => heapSearch n m heap bsize align) b →
    if b = 0 then 0 < g → ExtendOk m heap bsize align g
    else Removable m b ∧ PieceOk bsize align b (heapGetSize m b)

/-- What the heap relies on in a call for more pages: `g` bytes or none are granted, and the
writes fall into `P`. -/
structure PageGrant (pa : ℕ → PageAlloc) (m : Mem) (heap bsize g : ℕ) (P : ℕ → Prop) : Prop where
  returns : ∃ m', Returns (fun n => pa n (heapEndAddr m heap) bsize m) (g, m') ∧ AgreeOff m m' P
  min : g = 0 ∨ HEAP_LIST_MIN ≤ g
  dvd : g % 16 = 0

/-- What finding a block achieves. -/
structure Taken (m : Mem) (heap : ℕ) (bs : List Block) (bsize : ℕ) (align : Bool) (g : ℕ)
    (P : ℕ → Prop) (m' : Mem) (xs : List Block) (b : Block) (ys : List Block) : Prop where
  held : Held m' heap xs b ys
  used : usedBlocks (xs ++ ys) = usedBlocks bs
  piece : PieceOk bsize align b.addr b.size
  le : heapEndAddr m heap ≤ heapEndAddr m' heap
  grow : heapEndAddr m' heap ≤ heapEndAddr m heap + g
  frame : AgreeOff m m' fun x =>
    P x ∨ allocBytes heap (usedBlocks bs) (heapEndAddr m' heap) x

section take

variable {m m' : Mem} {heap bsize g : ℕ} {align : Bool} {bs : List Block} {P : ℕ → Prop}
  {pa : ℕ → PageAlloc}

/-- A free block that is taken out of the index is held. -/
theorem HeapRep.take (h : HeapRep m heap bs (freeAddrs bs)) {a : ℕ} (ha : a ∈ freeAddrs bs)
    (hr : Removable m a) (hp : PieceOk bsize align a (heapGetSize m a)) (P : ℕ → Prop) :
    ∃ m' xs b ys, heapRemove m heap a = .ok m' ∧ b.addr = a ∧
      Taken m heap bs bsize align g P m' xs b ys := by
  obtain ⟨b, hb, hu, rfl⟩ := ha
  obtain ⟨m', h1, h2, h3, -⟩ := h.remove ⟨b, hb, hu, rfl⟩ hr
  rw [h.getSize hb] at hp
  obtain ⟨xs, ys, rfl⟩ := List.append_of_mem hb
  have hU : usedBlocks (xs ++ b :: ys) = usedBlocks (xs ++ ys) := by
    rw [usedBlocks_append, usedBlocks_cons_free hu, ← usedBlocks_append]
  have hend : heapEndAddr m' heap = heapEndAddr m heap := HeapRep.rd_struct h3 (by omega)
  rw [h.tiles.freeAddrs_sdiff hu] at h2
  refine ⟨m', xs, b, ys, h1, rfl, ⟨by simpa using h2, hu⟩, hU.symm, hp, hend.ge,
    by omega, ?_⟩
  rw [hend]
  exact h3.mono fun x hx => .inr (.inr hx)

/-- **Finding a block for a request.** -/
theorem heapTake_spec (h : HeapRep m heap bs (freeAddrs bs)) (hmin : HEAP_LIST_MIN ≤ bsize)
    (hdvd : bsize % 16 = 0) (hok : TakeOk m heap bsize align g)
    (hg : PageGrant pa m heap bsize g P) (hP : ∀ x, P x → ¬ metaBytes heap bs (freeAddrs bs) x) :
    (∃ m', Returns (fun n => heapTake (pa n) n m heap bsize align) (m', 0) ∧ AgreeOff m m' P) ∨
      ∃ m' xs b ys, Returns (fun n => heapTake (pa n) n m heap bsize align) (m', b.addr) ∧
        Taken m heap bs bsize align g P m' xs b ys := by
  obtain ⟨a, hsearch, ha⟩ := heapSearch_spec align h.index (fun a ha => by
    obtain ⟨b, hb, -, rfl⟩ := ha
    rw [h.getSize hb]
    exact b.size_min) hmin hdvd
  have hcond := hok a hsearch
  by_cases ha0 : a = 0
  · -- nothing suitable: ask for pages
    rw [if_pos ha0] at hcond
    obtain ⟨m1, hret, hf⟩ := hg.returns
    have hmeta : ∀ x, metaBytes heap bs (freeAddrs bs) x → m1 x = m x :=
      fun x hx => hf x fun hp => hP x hp hx
    rcases hg.min with rfl | hg48
    · refine .inl ⟨m1, ?_, hf⟩
      filter_upwards [hsearch, hret] with n h1 h2
      simp only [heapTake, h1, ok_bind, ha0, if_true, heapExtend, h2, lt_irrefl, if_false]
      rfl
    · obtain ⟨m2, xs, b, hext, hheld, hused, hpiece, hend, hf2⟩ :=
        heapExtend_spec h hmeta hg48 hg.dvd (hcond (by rw [HEAP_LIST_MIN] at hg48; omega))
      rw [← List.append_nil xs] at hused
      refine .inr ⟨m2, xs, b, [], ?_, hheld, hused, hpiece, by omega, by omega, ?_⟩
      · filter_upwards [hsearch, hret] with n h1 h2
        simp only [heapTake, h1, ok_bind, ha0, if_true, hext (pa n) h2]
      · rw [hend]
        exact (hf.mono fun x hx => .inl hx).trans (hf2.mono fun x hx => .inr hx)
  · rw [if_neg ha0] at hcond
    obtain ⟨m', xs, b, ys, h1, rfl, ht⟩ := h.take (ha.resolve_left ha0).1 hcond.1 hcond.2 P
    refine .inr ⟨m', xs, b, ys, ?_, ht⟩
    filter_upwards [hsearch] with n h2
    simp only [heapTake, h2, ok_bind, ha0, if_false, h1]
    rfl

end take

/-! ### Allocation -/

/-- The condition on the state before an allocation. -/
def AllocOk (m : Mem) (heap size : ℕ) (align : Bool) (g : ℕ) : Prop :=
  size = 0 ∨ (size + 47 < 2 ^ 64 ∧
    TakeOk (heapLock m heap) heap (heapBsize (heapSizeAlign size)) align g)

/-- What an allocation that is served by the block `b` achieves. -/
structure Served (m : Mem) (heap : ℕ) (bs : List Block) (bsize : ℕ) (align : Bool) (g : ℕ)
    (P : ℕ → Prop) (m' : Mem) (bs' : List Block) (b : Block) : Prop where
  rep : HeapRep m' heap bs' (freeAddrs bs')
  used : usedBlocks bs' = insert b (usedBlocks bs)
  fresh : ∀ c ∈ usedBlocks bs, c.addr ≠ b.addr
  size : bsize ≤ b.size
  aligned : align = true → (b.addr + 16) % 4096 = 0
  le : heapEndAddr m heap ≤ heapEndAddr m' heap
  grow : heapEndAddr m' heap ≤ heapEndAddr m heap + g
  frame : AgreeOff m m' fun x =>
    P x ∨ allocBytes heap (usedBlocks bs) (heapEndAddr m' heap) x

section alloc

variable {m m' : Mem} {heap size bsize g : ℕ} {align : Bool} {bs xs ys : List Block} {b : Block}
  {P : ℕ → Prop} {pa : ℕ → PageAlloc}

/-- **Serving a request** from a block that was found. -/
theorem Taken.serve (ht : Taken m heap bs bsize align g P m' xs b ys) (hmin : HEAP_LIST_MIN ≤ bsize)
    (hdvd : bsize % 16 = 0) : ∃ m1 m2 c bs',
      Returns (fun n => heapCarve n m' heap b.addr align) (m1, c.addr) ∧
      Returns (fun n => heapPlace n m1 heap c.addr bsize) m2 ∧ heapGetPayload c.addr = c.addr + 16 ∧
      Served m heap bs bsize align g P m2 bs' c := by
  obtain ⟨m1, xs', b', hcarve, hc⟩ := heapCarve_spec ht.held hmin ht.piece
  obtain ⟨m2, c, ys', hplace, hp⟩ := heapPlace_spec hc.held hmin hdvd hc.rest
  have hU : usedBlocks (xs' ++ ys) = usedBlocks bs := by
    rw [← ht.used, usedBlocks_append, usedBlocks_append, hc.used]
  have hU' : usedBlocks (xs' ++ ys') = usedBlocks bs := by
    rw [← hU, usedBlocks_append, usedBlocks_append, hp.others]
  have hcm : c ∈ xs' ++ [c] ++ ys' := by simp
  have hend1 : heapEndAddr m1 heap = heapEndAddr m' heap := HeapRep.rd_struct hc.frame (by omega)
  have hend2 : heapEndAddr m2 heap = heapEndAddr m1 heap := HeapRep.rd_struct hp.frame (by omega)
  have hlt := (hp.rep.mem_low hcm).2
  have hmin' := c.size_min
  have hpay : heapGetPayload c.addr = c.addr + 16 := u64_of_lt (by omega)
  refine ⟨m1, m2, c, xs' ++ [c] ++ ys', ?_, ?_, hpay, hp.rep, ?_, fun d hd => ?_, hp.size,
    fun hal => ?_, ?_, ?_, ?_⟩
  · rwa [hp.addr]
  · rwa [hp.addr]
  · have e : xs' ++ [c] ++ ys' = xs' ++ c :: ys' := by simp
    rw [e, usedBlocks_append, usedBlocks_cons_used hp.used, Set.union_insert, ← usedBlocks_append, hU']
  · -- a block with the address of the new one would be the new one
    rw [← hU'] at hd
    have hne := hp.rep.tiles
    have e : xs' ++ [c] ++ ys' = xs' ++ c :: ys' := by simp
    rw [e] at hne
    obtain ⟨h1, h2⟩ := hne.split
    have hdm := d.size_min
    rcases List.mem_append.mp hd.1 with hd | hd
    · have := h1.bounds d hd
      omega
    · have := h2.bounds d hd
      omega
  · rw [← hpay, hp.addr]
    exact (heapIsPageAligned_iff _).mp (hc.aligned hal)
  · rw [hend2, hend1]
    exact ht.le
  · rw [hend2, hend1]
    exact ht.grow
  · have h1 := ht.frame
    have h2 := hc.frame
    have h3 := hp.frame
    rw [hend2, hend1]
    rw [ht.used] at h2
    rw [hU, hend1] at h3
    exact (h1.trans (h2.mono fun x hx => .inr (.inr hx))).trans (h3.mono fun x hx => .inr (.inr hx))

/-- What an allocation achieves: nothing was found, or a new used block serves it. -/
def Allocated (m : Mem) (heap : ℕ) (bs : List Block) (bsize : ℕ) (align : Bool) (g : ℕ)
    (P : ℕ → Prop) (m' : Mem) (p : ℕ) : Prop :=
  (p = 0 ∧ AgreeOff m m' P) ∨
    ∃ bs' b, p = b.addr + 16 ∧ Served m heap bs bsize align g P m' bs' b

theorem heapAlloc_zero {pageAlloc : PageAlloc} {n : ℕ} (hlock : heapLocked m heap = 0) :
    heapAlloc pageAlloc n m heap 0 align = .ok (heapUnlock (heapLock m heap) heap, 0) := by
  unfold heapAlloc
  rw [heapWaitLock_clear hlock, ok_bind, if_neg (lt_irrefl 0)]
  rfl

/-- A request that nothing is found for. -/
theorem heapAlloc_none {pageAlloc : PageAlloc} {n : ℕ} (hlock : heapLocked m heap = 0)
    (hs : size ≠ 0) (h : heapTake pageAlloc n (heapLock m heap) heap
      (heapBsize (heapSizeAlign size)) align = .ok (m', 0)) :
    heapAlloc pageAlloc n m heap size align = .ok (heapUnlock m' heap, 0) := by
  unfold heapAlloc
  rw [heapWaitLock_clear hlock, ok_bind, if_pos (Nat.pos_of_ne_zero hs)]
  dsimp only
  rw [h, ok_bind]
  rfl

/-- A request that is served. -/
theorem heapAlloc_some {pageAlloc : PageAlloc} {n f c : ℕ} {m1 m2 : Mem}
    (hlock : heapLocked m heap = 0) (hs : size ≠ 0) (hf : f ≠ 0)
    (h : heapTake pageAlloc n (heapLock m heap) heap (heapBsize (heapSizeAlign size)) align =
      .ok (m', f)) (h1 : heapCarve n m' heap f align = .ok (m1, c))
    (h2 : heapPlace n m1 heap c (heapBsize (heapSizeAlign size)) = .ok m2) :
    heapAlloc pageAlloc n m heap size align = .ok (heapUnlock m2 heap, heapGetPayload c) := by
  unfold heapAlloc
  rw [heapWaitLock_clear hlock, ok_bind, if_pos (Nat.pos_of_ne_zero hs)]
  dsimp only
  rw [h, ok_bind]
  dsimp only
  rw [if_pos hf, h1, ok_bind]
  dsimp only
  rw [h2, ok_bind]
  rfl

/-- **Allocation.** -/
theorem heapAlloc_spec (h : HeapRep m heap bs (freeAddrs bs)) (hlock : heapLocked m heap = 0)
    (hok : AllocOk m heap size align g)
    (hg : PageGrant pa (heapLock m heap) heap (heapBsize (heapSizeAlign size)) g P)
    (hP : ∀ x, P x → ¬ metaBytes heap bs (freeAddrs bs) x) :
    ∃ m' p, Returns (fun n => heapAlloc (pa n) n m heap size align) (heapUnlock m' heap, p) ∧
      Allocated (heapLock m heap) heap bs (heapBsize (heapSizeAlign size)) align g P m' p := by
  by_cases hs0 : size = 0
  · refine ⟨heapLock m heap, 0, ?_, .inl ⟨rfl, AgreeOff.refl _ _⟩⟩
    rw [hs0]
    exact Returns.of_eq fun n => heapAlloc_zero hlock
  · obtain ⟨hsz, hok⟩ := hok.resolve_left hs0
    have hbsize := heapBsize_eq hsz
    have hmin : HEAP_LIST_MIN ≤ heapBsize (heapSizeAlign size) := by
      rw [hbsize, HEAP_LIST_MIN]
      omega
    have hdvd : heapBsize (heapSizeAlign size) % 16 = 0 := by
      rw [hbsize]
      omega
    rcases heapTake_spec h.lock hmin hdvd hok hg hP with ⟨m', hret, hf⟩ | ⟨m', xs, b, ys, hret, ht⟩
    · refine ⟨m', 0, ?_, .inl ⟨rfl, hf⟩⟩
      filter_upwards [hret] with n hn
      exact heapAlloc_none hlock hs0 hn
    · obtain ⟨m1, m2, c, bs', hcarve, hplace, hpay, hserved⟩ := ht.serve hmin hdvd
      have hb0 : b.addr ≠ 0 := by
        have hbm : b ∈ xs ++ [b] ++ ys := by simp
        have := (ht.held.rep.mem_low hbm).1
        omega
      refine ⟨m2, c.addr + 16, ?_, .inr ⟨bs', c, rfl, hserved⟩⟩
      filter_upwards [hret, hcarve, hplace] with n h1 h2 h3
      rw [← hpay]
      exact heapAlloc_some hlock hs0 hb0 h1 h2 h3

end alloc

/-! ### Release -/

/-- The heap as `heap_free` has locked it and cleared the flag of the block. -/
def released (m : Mem) (heap block : ℕ) : Mem := heapSetUsed (heapLock m heap) block 0

/-- The condition on the released heap under which its block can be merged and indexed. -/
def MergeOk (m : Mem) (heap block : ℕ) : Prop :=
  (∀ l ∈ mergeableLeft m heap block, Removable m l) ∧
    (∀ r ∈ mergeableRight m heap block, RemovableNext m (mergeableLeft m heap block) r) ∧
    Indexable (neighbourSize m (mergeableLeft m heap block) + heapGetSize m block +
      neighbourSize m (mergeableRight m heap block))

instance (m : Mem) (heap block : ℕ) : Decidable (MergeOk m heap block) :=
  inferInstanceAs (Decidable ((∀ l ∈ mergeableLeft m heap block, Removable m l) ∧
    (∀ r ∈ mergeableRight m heap block, RemovableNext m (mergeableLeft m heap block) r) ∧
    Indexable (neighbourSize m (mergeableLeft m heap block) + heapGetSize m block +
      neighbourSize m (mergeableRight m heap block))))

/-- The condition on the state before a release. -/
def FreeOk (m : Mem) (heap p : ℕ) : Prop :=
  MergeOk (released m heap (heapPayloadHeader p)) heap (heapPayloadHeader p)

instance (m : Mem) (heap p : ℕ) : Decidable (FreeOk m heap p) :=
  inferInstanceAs (Decidable (MergeOk (released m heap (heapPayloadHeader p)) heap
    (heapPayloadHeader p)))

/-- What releasing the block `b` achieves. -/
structure Freed (m : Mem) (heap : ℕ) (bs : List Block) (b : Block) (m' : Mem) (bs' : List Block) :
    Prop where
  rep : HeapRep m' heap bs' (freeAddrs bs')
  used : usedBlocks bs' = usedBlocks bs \ {b}
  fin : heapEndAddr m' heap = heapEndAddr m heap
  frame : AgreeOff m m' fun x =>
    lockBytes heap x ∨ workBytes heap (usedBlocks bs \ {b}) (heapEndAddr m heap) x

section free

variable {m m' : Mem} {heap p : ℕ} {bs xs ys : List Block} {b : Block} {S : Set ℕ}

/-- The free block right after a segment. -/
def nextFree : List Block → Option Block
  | [] => none
  | c :: _ => if c.used = false then some c else none

theorem nextFree_mem {c : Block} (h : nextFree ys = some c) : c ∈ ys ∧ c.used = false := by
  cases ys with
  | nil => cases h
  | cons d ds =>
      simp only [nextFree] at h
      split_ifs at h with hu
      cases h
      exact ⟨List.mem_cons_self, hu⟩

/-- The right neighbour of a block, by the blocks after it. -/
theorem HeapRep.mergeableRight_eq (h : HeapRep m heap (xs ++ [b] ++ ys) S) :
    mergeableRight m heap b.addr = (nextFree ys).map Block.addr := by
  have hbm : b ∈ xs ++ [b] ++ ys := by simp
  have ht := h.tiles
  rw [List.append_assoc] at ht
  obtain ⟨q, -, h2, h3⟩ := Tiles.append_iff.mp ht
  cases ys with
  | nil =>
      have hlast : q + b.size = heapEndAddr m heap := h3
      exact h.mergeableRight_last hbm (by omega)
  | cons c cs =>
      have hadj : c.addr = q + b.size := h3.1
      rw [h.mergeableRight_next hbm (c := c) (by simp) (by omega)]
      simp only [nextFree]
      split_ifs <;> rfl

/-- The size of the right neighbour. -/
theorem HeapRep.rightSize_eq (h : HeapRep m heap (xs ++ [b] ++ ys) S) :
    neighbourSize m (mergeableRight m heap b.addr) = ((nextFree ys).map Block.size).getD 0 := by
  rw [h.mergeableRight_eq]
  cases e : nextFree ys with
  | none => rfl
  | some c =>
      rw [Option.map_some, neighbourSize_some, h.getSize (by simp [(nextFree_mem e).1])]
      rfl

/-- The two merges, one after the other. -/
structure BothMerged (m : Mem) (heap : ℕ) (xs : List Block) (b : Block) (ys : List Block) (m₁ : Mem)
    (xs' : List Block) (b₁ : Block) (m₂ : Mem) (b₂ : Block) (ys' : List Block) : Prop where
  left_eq : heapMergeLeft m heap b.addr = .ok (m₁, b₁.addr)
  left : LeftMerged m heap xs b ys m₁ xs' b₁
  removable : ∀ r, mergeableRight m₁ heap b₁.addr = some r → Removable m₁ r
  right_eq : heapMergeRight m₁ heap b₁.addr = .ok m₂
  right : RightMerged m₁ heap xs' b₁ ys m₂ b₂ ys'
  indexable : Indexable b₂.size
  fresh : b₂.addr ∉ freeAddrs (xs' ++ ys')

theorem Held.merges (h : Held m heap xs b ys) (hok : MergeOk m heap b.addr) :
    ∃ m₁ xs' b₁ m₂ b₂ ys', BothMerged m heap xs b ys m₁ xs' b₁ m₂ b₂ ys' := by
  have hbm : b ∈ xs ++ [b] ++ ys := by simp
  obtain ⟨hleft, hright, hidx⟩ := hok
  obtain ⟨m1, xs', b1, hret1, h1⟩ := heapMergeLeft_spec h hleft
  have hr1 : ∀ r, mergeableRight m1 heap b1.addr = some r → Removable m1 r := fun r e => by
    rw [h1.held.rep.mergeableRight_eq, ← h.rep.mergeableRight_eq] at e
    refine h1.keeps r ?_ (hright r e)
    rw [h.rep.mergeableRight_eq, Option.map_eq_some_iff] at e
    obtain ⟨c, hc, rfl⟩ := e
    obtain ⟨hcm, hcu⟩ := nextFree_mem hc
    exact ⟨c, hcm, hcu, rfl⟩
  obtain ⟨m2, b2, ys', hret2, h2⟩ := heapMergeRight_spec h1.held hr1
  have hsize : b2.size = neighbourSize m (mergeableLeft m heap b.addr) + heapGetSize m b.addr +
      neighbourSize m (mergeableRight m heap b.addr) := by
    rw [h2.size, h1.size, h1.held.rep.rightSize_eq, ← h.rep.rightSize_eq, h.rep.getSize hbm]
  have hn : b2.addr ∉ freeAddrs (xs' ++ ys') := by
    have ht := h2.held.rep.tiles
    have e : xs' ++ [b2] ++ ys' = xs' ++ b2 :: ys' := by simp
    rw [e] at ht
    exact ht.not_free
  exact ⟨m1, xs', b1, m2, b2, ys', hret1, h1, hr1, hret2, h2, hsize ▸ hidx, hn⟩

/-- **Merging on both sides and indexing the result.** -/
theorem Held.merged (h : Held m heap xs b ys) (hok : MergeOk m heap b.addr) :
    ∃ (m1 m2 m3 : Mem) (a : ℕ) (bs' : List Block), heapMergeLeft m heap b.addr = .ok (m1, a) ∧ heapMergeRight m1 heap a = .ok m2 ∧
      Returns (fun n => heapInsert n m2 heap a) m3 ∧
      HeapRep m3 heap bs' (freeAddrs bs') ∧ usedBlocks bs' = usedBlocks (xs ++ ys) ∧
      heapEndAddr m3 heap = heapEndAddr m heap ∧
      AgreeOff m m3 (workBytes heap (usedBlocks (xs ++ ys)) (heapEndAddr m heap)) := by
  obtain ⟨m1, xs', b1, m2, b2, ys', hm⟩ := h.merges hok
  have h1 := hm.left
  have h2 := hm.right
  have hend1 : heapEndAddr m1 heap = heapEndAddr m heap := HeapRep.rd_struct h1.frame (by omega)
  have hend2 : heapEndAddr m2 heap = heapEndAddr m1 heap := HeapRep.rd_struct h2.frame (by omega)
  have hb2 : b2 ∈ xs' ++ [b2] ++ ys' := by simp
  obtain ⟨m3, hret3, hrep3, hf3⟩ := h2.held.rep.insert hb2 h2.held.free hm.fresh hm.indexable
  have hU : usedBlocks (xs' ++ ys) = usedBlocks (xs ++ ys) := by
    rw [usedBlocks_append, h1.used, ← usedBlocks_append]
  have hU2 : usedBlocks (xs' ++ ys') = usedBlocks (xs ++ ys) := by
    rw [usedBlocks_append, h2.used, ← usedBlocks_append, hU]
  have hU3 : usedBlocks (xs' ++ [b2] ++ ys') = usedBlocks (xs ++ ys) := by
    rw [usedBlocks_around (by simp [h2.held.free]), hU2]
  have hS : insert b2.addr (freeAddrs (xs' ++ ys')) = freeAddrs (xs' ++ [b2] ++ ys') := by
    have e : xs' ++ [b2] ++ ys' = xs' ++ b2 :: ys' := by simp
    rw [e, freeAddrs_middle h2.held.free]
  have hf2 := h2.frame
  rw [hS] at hrep3
  rw [hU3, hend2, hend1] at hf3
  rw [hU, hend1] at hf2
  refine ⟨m1, m2, m3, b1.addr, xs' ++ [b2] ++ ys', hm.left_eq, hm.right_eq, ?_, hrep3, hU3, ?_,
    (h1.frame.trans hf2).trans hf3⟩
  · rwa [← h2.addr]
  · rw [← hend1, ← hend2]
    exact HeapRep.rd_struct hf3 (by omega)

/-- The released block is in no list yet. -/
theorem HeapRep.held_released (h : HeapRep m heap (xs ++ b :: ys) (freeAddrs (xs ++ b :: ys)))
    (hbu : b.used = true) : Held (released m heap b.addr) heap xs (b.setUsed false) ys := by
  have e : xs ++ b :: ys = xs ++ [b] ++ ys := by simp
  have hS : freeAddrs (xs ++ [b] ++ ys) = freeAddrs (xs ++ ys) := by
    rw [← e, freeAddrs_append, freeAddrs_cons_used hbu, ← freeAddrs_append]
  have hrep := h.lock
  rw [e, hS] at hrep
  exact ⟨(hrep.setUsed Set.Subset.rfl false).1, rfl⟩

/-- **Release.** -/
theorem heapFree_spec (h : HeapRep m heap bs (freeAddrs bs)) (hlock : heapLocked m heap = 0)
    (hb : b ∈ usedBlocks bs) (hp : p = b.addr + 16) (hok : FreeOk m heap p) :
    ∃ m' bs', Returns (fun n => heapFree n m heap p) (heapUnlock m' heap) ∧
      Freed m heap bs b m' bs' := by
  obtain ⟨hbm, hbu⟩ := hb
  obtain ⟨hlow, hlt⟩ := h.mem_low hbm
  have hmin := b.size_min
  have hheader : heapPayloadHeader p = b.addr := by
    unfold heapPayloadHeader
    rw [hp, sub64_of_le (by omega) (by omega), Nat.add_sub_cancel]
  have hcheck := (h.tagged b hbm).checkHeader hlt
  unfold FreeOk at hok
  rw [hheader] at hok
  obtain ⟨xs, ys, rfl⟩ := List.append_of_mem hbm
  have hU : usedBlocks (xs ++ ys) = usedBlocks (xs ++ b :: ys) \ {b} := by
    rw [@usedBlocks_append xs (b :: ys), usedBlocks_cons_used hbu, Set.union_insert, ← usedBlocks_append]
    refine (Set.insert_sdiff_self_of_notMem fun hmem => ?_).symm
    obtain ⟨h1, h2⟩ := h.tiles.split
    rcases List.mem_append.mp hmem.1 with hm | hm
    · have := h1.bounds b hm
      omega
    · have := h2.bounds b hm
      omega
  have hheld := h.held_released hbu
  obtain ⟨m1, m2, m3, a, bs', hl, hr, hins, hrep3, hU3, hend, hf⟩ := hheld.merged hok
  have hend1 : heapEndAddr (released m heap b.addr) heap = heapEndAddr m heap := by
    have h1 : heapEndAddr (released m heap b.addr) heap = heapEndAddr (heapLock m heap) heap :=
      rd_wr_apart _ _ (by omega)
    exact h1.trans (rd_wr_apart _ _ (by omega))
  refine ⟨m3, bs', ?_, hrep3, hU3.trans hU, hend.trans hend1, ?_⟩
  · filter_upwards [hins] with n hn
    have hl' : heapMergeLeft (heapSetUsed (heapLock m heap) b.addr 0) heap b.addr = .ok (m1, a) := hl
    unfold heapFree
    rw [if_pos (by omega), hheader]
    dsimp only
    rw [if_pos hcheck, heapWaitLock_clear hlock, ok_bind, hl', ok_bind]
    dsimp only
    rw [hr, ok_bind, hn, ok_bind]
    rfl
  · rw [hU, hend1] at hf
    refine AgreeOff.trans (AgreeOff.trans ((heapLock_frame m heap).mono fun x hx => .inl hx) ?_)
      (hf.mono fun x hx => .inr hx)
    refine (AgreeOff.refl _ _).wr _ fun x h1 h2 => .inr ⟨⟨by omega, ?_⟩, fun d hd hdx => ?_⟩
    · have := (h.bounds hbm).2.1
      omega
    · have hdm := d.size_min
      rcases eq_or_ne b.addr d.addr with hne | hne
      · exact hd.2 (h.tiles.eq_of_addr hd.1.1 hbm hne.symm)
      · have := h.tiles.apart hbm hd.1.1 hne
        omega

end free

/-! ### Creation -/

/-- Clear the first `k` entries of the array. -/
def clearSlots (m : Mem) (heap k : ℕ) : Mem :=
  (List.range k).foldl (fun m i => wr m (heapFreeSlot heap i) 0) m

section create

variable {m : Mem} {heap size maxSize : ℕ}

theorem clearSlots_succ (m : Mem) (heap k : ℕ) :
    clearSlots m heap (k + 1) = wr (clearSlots m heap k) (heapFreeSlot heap k) 0 := by
  unfold clearSlots
  rw [List.range_succ, List.foldl_append]
  rfl

theorem clearSlots_spec (m : Mem) (heap k : ℕ) :
    (∀ i < k, rd (clearSlots m heap k) (heapFreeSlot heap i) = 0) ∧
      AgreeOff m (clearSlots m heap k) fun x => heap + 32 ≤ x ∧ x < heap + 32 + 8 * k := by
  induction k with
  | zero => exact ⟨fun i hi => absurd hi (Nat.not_lt_zero i), AgreeOff.refl _ _⟩
  | succ k ih =>
      rw [clearSlots_succ]
      constructor
      · intro i hi
        rw [rd_wr_slot (by norm_num)]
        split_ifs with h
        · rfl
        · exact ih.1 i (by omega)
      · refine (ih.2.mono fun x hx => ⟨hx.1, by omega⟩).wr _ fun x h1 h2 => ?_
        unfold heapFreeSlot at h1 h2
        exact ⟨by omega, by omega⟩

/-- The sizes that `heap_create` makes a heap of: there is room for one block, which has a place
in the index. -/
def CreateOk (heap size : ℕ) : Prop :=
  heap % 16 = 0 ∧ size % 16 = 0 ∧ HEAP_T_SIZE + HEAP_LIST_MIN ≤ size ∧ heap + size < 2 ^ 64 ∧
    Indexable (size - HEAP_T_SIZE)

/-- The heap structure that `heap_create` writes, with an empty index. -/
def createdStruct (m : Mem) (heap size maxSize : ℕ) : Mem :=
  clearSlots (wr (wr (wr (wr m heap (heap + HEAP_T_SIZE)) (heap + 8) (heap + size)) (heap + 16)
    (heap + HEAP_T_SIZE + sub64 maxSize HEAP_T_SIZE)) (heap + 24) 0) heap (HEAP_LIST_COUNT + 1)

theorem createdStruct_spec (m : Mem) (maxSize : ℕ) (h : CreateOk heap size) :
    heapStartAddr (createdStruct m heap size maxSize) heap = heap + HEAP_T_SIZE ∧
      heapEndAddr (createdStruct m heap size maxSize) heap = heap + size ∧
      heapMaxAddr (createdStruct m heap size maxSize) heap =
        u64 (heap + HEAP_T_SIZE + sub64 maxSize HEAP_T_SIZE) ∧
      heapLocked (createdStruct m heap size maxSize) heap = 0 ∧
      HeapIndex (createdStruct m heap size maxSize) heap ∅ := by
  obtain ⟨-, -, h1, h2, -⟩ := h
  rw [HEAP_T_SIZE, HEAP_LIST_MIN] at h1
  obtain ⟨hz, hf⟩ := clearSlots_spec (wr (wr (wr (wr m heap (heap + HEAP_T_SIZE)) (heap + 8)
    (heap + size)) (heap + 16) (heap + HEAP_T_SIZE + sub64 maxSize HEAP_T_SIZE)) (heap + 24) 0) heap
    (HEAP_LIST_COUNT + 1)
  have hword : ∀ a, a ≤ heap + 24 → rd (createdStruct m heap size maxSize) a =
      rd (wr (wr (wr (wr m heap (heap + HEAP_T_SIZE)) (heap + 8) (heap + size)) (heap + 16)
        (heap + HEAP_T_SIZE + sub64 maxSize HEAP_T_SIZE)) (heap + 24) 0) a :=
    fun a ha => hf.rd fun x hx1 hx2 hx => by omega
  refine ⟨?_, ?_, ?_, ?_, ⟨fun a ha => ha.elim, fun _ => [], [], ?_⟩⟩
  · refine (hword heap (by omega)).trans ?_
    rw [rd_wr_apart _ _ (by omega), rd_wr_apart _ _ (by omega), rd_wr_apart _ _ (by omega), rd_wr_same,
      HEAP_T_SIZE, Nat.mod_eq_of_lt (by omega)]
  · refine (hword (heap + 8) (by omega)).trans ?_
    rw [rd_wr_apart _ _ (by omega), rd_wr_apart _ _ (by omega), rd_wr_same, Nat.mod_eq_of_lt (by omega)]
  · refine (hword (heap + 16) (by omega)).trans ?_
    rw [rd_wr_apart _ _ (by omega), rd_wr_same]
    rfl
  · unfold heapLocked
    rw [hword (heap + 24) le_rfl, rd_wr_same, Nat.zero_mod]
  · have hroot : rd (createdStruct m heap size maxSize) (heapFreeSlot heap HEAP_LIST_COUNT) = 0 :=
      hz _ (Nat.lt_succ_self _)
    rw [hroot]
    exact FreeIndex.empty fun i hi => hz i (Nat.lt_succ_of_lt hi)

theorem heapCreate_eq {n : ℕ} (h : CreateOk heap size) : heapCreate n m heap size maxSize =
    heapInsert n (heapCreateBlock (createdStruct m heap size maxSize)
      (heapStartAddr (createdStruct m heap size maxSize) heap) (size - HEAP_T_SIZE)) heap
      (heapStartAddr (createdStruct m heap size maxSize) heap) := by
  obtain ⟨-, -, hmin, hlt, -⟩ := h
  have hT : HEAP_T_SIZE = 544 := rfl
  rw [hT, HEAP_LIST_MIN] at hmin
  have e1 : u64 (heap + HEAP_T_SIZE) = heap + HEAP_T_SIZE := u64_of_lt (by omega)
  have e2 : sub64 size HEAP_T_SIZE = size - HEAP_T_SIZE := sub64_of_le (by omega) (by omega)
  have e3 : heap + HEAP_T_SIZE + (size - HEAP_T_SIZE) = heap + size := by omega
  simp only [heapCreate, e1, e2, e3, createdStruct, clearSlots]

/-- **Creation.** -/
theorem heapCreate_spec (m : Mem) (maxSize : ℕ) (h : CreateOk heap size) : ∃ m' b,
    Returns (fun n => heapCreate n m heap size maxSize) m' ∧
      HeapRep m' heap [b] (freeAddrs [b]) ∧ b.used = false ∧ heapLocked m' heap = 0 ∧
      heapEndAddr m' heap = heap + size ∧
      heapMaxAddr m' heap = u64 (heap + HEAP_T_SIZE + sub64 maxSize HEAP_T_SIZE) := by
  obtain ⟨hst, hen, hmx, hlk, hix⟩ :=
    createdStruct_spec m maxSize h
  have h0 := h
  obtain ⟨ha, hd, hmin, hlt, hidx⟩ := h
  have hT : HEAP_T_SIZE = 544 := rfl
  have hM : HEAP_LIST_MIN = 48 := rfl
  obtain ⟨b, hba, hbs, hbu⟩ : ∃ b : Block, b.addr = heap + HEAP_T_SIZE ∧ b.size = size - HEAP_T_SIZE ∧
      b.used = false := ⟨⟨_, _, false, by omega, by omega⟩, rfl, rfl, rfl⟩
  obtain ⟨h1, h2⟩ := heapCreateBlock_spec (createdStruct m heap size maxSize) b (by omega) hbu
  have hlow : ∀ x, x < heap + 544 → heapCreateBlock (createdStruct m heap size maxSize) b.addr b.size x =
      createdStruct m heap size maxSize x := fun x hx => h2 x fun hc => by
    have := hc.1
    omega
  have hword : ∀ a, a ≤ heap + 24 → rd (heapCreateBlock (createdStruct m heap size maxSize) b.addr b.size) a =
      rd (createdStruct m heap size maxSize) a :=
    fun a ha => rd_congr fun x hx1 hx2 => hlow x (by omega)
  have hrep : HeapRep (heapCreateBlock (createdStruct m heap size maxSize) b.addr b.size) heap [b] ∅ := by
    refine ⟨ha, (hword heap (by omega)).trans hst, ?_, fun c hc => ?_, Set.empty_subset _, ?_⟩
    · have e : heapEndAddr (heapCreateBlock (createdStruct m heap size maxSize) b.addr b.size) heap =
          heap + size := (hword (heap + 8) (by omega)).trans hen
      rw [e]
      exact ⟨hba, show heap + HEAP_T_SIZE + b.size = heap + size by omega⟩
    · rw [List.mem_singleton.mp hc]
      exact h1
    · exact hix.congr (fun a ha => ha.elim) fun x hx1 hx2 => hlow x (by omega)
  obtain ⟨m', hret, hrep', hf⟩ := hrep.insert List.mem_cons_self hbu (fun hm => hm.elim) (by rwa [hbs])
  have hS : insert b.addr ∅ = freeAddrs [b] := by rw [freeAddrs_cons_free hbu, freeAddrs_nil]
  rw [hS] at hrep'
  have hword' : ∀ a, a ≤ heap + 24 → rd m' a = rd (createdStruct m heap size maxSize) a :=
    fun a ha => (HeapRep.rd_struct hf ha).trans (hword a ha)
  refine ⟨m', b, ?_, hrep', hbu, ?_, (hword' (heap + 8) (by omega)).trans hen,
    (hword' (heap + 16) (by omega)).trans hmx⟩
  · filter_upwards [hret] with n hn
    rw [heapCreate_eq h0, hst, ← hba, ← hbs]
    exact hn
  · unfold heapLocked
    rw [hword' (heap + 24) le_rfl]
    exact hlk

end create

end Dawos
