import Dawos.HeapGuarantee
import Dawos.HeapCarve

/-! # What the calls of the heap leave

The payloads of live pointers are where they were and as they were after an allocation, and after the
release of another one (`HeapInv.alloc_left`, `HeapInv.free_left`); creation writes into the heap only. -/

namespace Dawos

/-- The payload of `p` is where it was and as it was. -/
structure Kept (m m' : Mem) (p : ℕ) : Prop where
  size : heapAllocSize m' p = heapAllocSize m p
  byte : ∀ i < heapAllocSize m p, m' (p + i) = m (p + i)

/-- What a call leaves: the payloads of `live`, and below the heap everything outside `P`. -/
structure Left (heap : ℕ) (P : ℕ → Prop) (live : List ℕ) (m m' : Mem) : Prop where
  kept : ∀ q ∈ live, Kept m m' q
  below : ∀ x < heap, ¬ P x → m' x = m x

/-- The page allocator grants what the heap relies on, and writes into `P`. -/
structure GrantsIn (P : ℕ → Prop) (pa : ℕ → PageAlloc) (m : Mem) (heap bsize g : ℕ) : Prop where
  granted : g = 0 ∨ g = pageSizeAlign bsize
  returns : ∃ m', Returns (fun n => pa n (heapEndAddr m heap) bsize m) (g, m') ∧ AgreeOff m m' P
  outside : ∀ x, P x → x < heap ∨ heapEndAddr m heap ≤ x

/-- The bytes that a call may write: `P`, the lock, and what is neither the beginning of the heap nor
the payload of a block of `U`. -/
def callBytes (P : ℕ → Prop) (heap t : ℕ) (U : Set Block) (x : ℕ) : Prop :=
  P x ∨ lockBytes heap x ∨ allocBytes heap U t x

section kept

variable {heap p g size t : ℕ} {align : Bool} {bs bs' : List Block} {s s' : HeapState} {m m' : Mem}
  {live : List ℕ} {b : Block} {P : ℕ → Prop} {pa : ℕ → PageAlloc}

theorem GrantsIn.grants (h : GrantsIn P pa m heap size g) : Grants pa m heap size g := by
  obtain ⟨m', hret, hm⟩ := h.returns
  exact ⟨h.granted, m', hret, hm.mono h.outside⟩

theorem GrantsIn.pageGrant (h : GrantsIn P pa m heap size g) (hmin : HEAP_LIST_MIN ≤ size)
    (hlt : size < 2 ^ 64) : PageGrant pa m heap size g P :=
  ⟨h.returns, (h.grants.pageGrant hmin hlt).min, (h.grants.pageGrant hmin hlt).dvd⟩

theorem Kept.refl (m : Mem) (p : ℕ) : Kept m m p := ⟨rfl, fun _ _ => rfl⟩

theorem Kept.trans {m'' : Mem} (h : Kept m m' p) (h' : Kept m' m'' p) : Kept m m'' p := by
  refine ⟨h'.size.trans h.size, fun i hi => (h'.byte i ?_).trans (h.byte i hi)⟩
  rw [h.size]
  exact hi

theorem Left.trans {m'' : Mem} (h : Left heap P live m m') (h' : Left heap (fun _ => False) live m' m'') :
    Left heap P live m m'' :=
  ⟨fun q hq => (h.kept q hq).trans (h'.kept q hq),
    fun x hx hP => (h'.below x hx id).trans (h.below x hx hP)⟩

/-- What a call leaves when the blocks of `U` stay in use. -/
theorem HeapInv.left {U : Set Block} {S : Set ℕ} (h : HeapInv heap bs ⟨m, live⟩)
    (h' : HeapRep m' heap bs' S) (hm : AgreeOff m m' (callBytes P heap t U))
    (hP : ∀ x, P x → x < heap ∨ heapEndAddr m heap ≤ x) (hU : ∀ b ∈ U, b ∈ bs ∧ b ∈ bs')
    {ps : List ℕ} (hps : ∀ p ∈ ps, ∃ b ∈ U, b.addr + 16 = p) : Left heap P ps m m' := by
  refine ⟨fun p hp => ?_, fun x hx hxP => hm x ?_⟩
  · obtain ⟨b, hbU, rfl⟩ := hps p hp
    have hsize := h.rep.allocSize (hU b hbU).1
    have hbnd := h.rep.bounds (hU b hbU).1
    have hmin := b.size_min
    rw [HEAP_T_SIZE] at hbnd
    dsimp only at hbnd hsize
    refine ⟨(h'.allocSize (hU b hbU).2).trans hsize.symm, fun i hi => hm _ ?_⟩
    rw [hsize] at hi
    rintro (hx | hx | hx | ⟨-, hx⟩)
    · have := hP _ hx
      omega
    · unfold lockBytes at hx
      omega
    · omega
    · exact hx b hbU (by omega)
  · rintro (hc | hc | hc | ⟨hc, -⟩)
    · exact hxP hc
    · unfold lockBytes at hc
      omega
    · omega
    · omega

/-- An allocation returns. -/
theorem HeapInv.alloc_returns (h : HeapInv heap bs ⟨m, live⟩) (hok : AllocOk m heap size align g)
    (hpa : GrantsIn P pa (heapLock m heap) heap (heapBsize (heapSizeAlign size)) g) :
    ∃ m' p, Returns (fun n => heapAlloc (pa n) n m heap size align) (m', p) := by
  by_cases hs0 : size = 0
  · subst hs0
    exact ⟨_, _, Returns.of_eq fun n => heapAlloc_zero h.lock⟩
  · have hsz := (hok.resolve_left hs0).1
    have hbsize := heapBsize_eq hsz
    obtain ⟨m₁, q, hret, -⟩ := heapAlloc_spec h.rep h.lock hok
      (hpa.pageGrant (by rw [hbsize, HEAP_LIST_MIN]; omega) (by rw [hbsize]; omega)) fun x hx =>
        h.rep.outside x (by have := hpa.outside x hx; rwa [(lock_bounded m heap).2.1] at this)
    exact ⟨_, _, hret⟩

/-- **An allocation** leaves the live payloads, and what it hands out meets the request. -/
theorem HeapInv.alloc_left (h : HeapInv heap bs ⟨m, live⟩) (hok : AllocOk m heap size align g)
    (hpa : GrantsIn P pa (heapLock m heap) heap (heapBsize (heapSizeAlign size)) g)
    (hret : Returns (fun n => heapAlloc (pa n) n m heap size align) (m', p)) :
    Left heap P live m m' ∧
      (p ≠ 0 → p ∉ live ∧ heap ≤ p ∧ size ≤ heapAllocSize m' p ∧ (align = true → p % PAGE_SIZE = 0)) := by
  have hend := (lock_bounded m heap).2.1
  have hP : ∀ x, P x → x < heap ∨ heapEndAddr m heap ≤ x := fun x hx => by
    have := hpa.outside x hx
    rwa [hend] at this
  have hlive : ∀ q ∈ live, ∃ b ∈ usedBlocks bs, b.addr + 16 = q := fun q hq => (h.live q).mp hq
  -- the lock is written before and after everything else
  have hleft : ∀ {m₁ : Mem} {bs₁ : List Block} {t : ℕ}, HeapRep m₁ heap bs₁ (freeAddrs bs₁) →
      usedBlocks bs ⊆ usedBlocks bs₁ →
      AgreeOff (heapLock m heap) m₁ (callBytes P heap t (usedBlocks bs)) →
      Left heap P live m (heapUnlock m₁ heap) := by
    intro m₁ bs₁ t hrep hU hm
    refine h.left (t := t) hrep.unlock ?_ hP (fun b hb => ⟨hb.1, (hU hb).1⟩) hlive
    exact (((heapLock_frame m heap).mono fun x hx => .inr (.inl hx)).trans hm).trans
      ((heapUnlock_frame m₁ heap).mono fun x hx => .inr (.inl hx))
  by_cases hs0 : size = 0
  · subst hs0
    have hret0 : Returns (fun n => heapAlloc (pa n) n m heap 0 align)
        (heapUnlock (heapLock m heap) heap, 0) := Returns.of_eq fun n => heapAlloc_zero h.lock
    obtain ⟨rfl, rfl⟩ := Prod.mk.inj (hret.unique hret0)
    exact ⟨hleft (t := 0) h.rep.lock subset_rfl (AgreeOff.refl _ _), fun hp => absurd rfl hp⟩
  · have hsz := (hok.resolve_left hs0).1
    have hbsize := heapBsize_eq hsz
    obtain ⟨m₁, q, hret₁, hres⟩ := heapAlloc_spec h.rep h.lock hok
      (hpa.pageGrant (by rw [hbsize, HEAP_LIST_MIN]; omega) (by rw [hbsize]; omega))
      fun x hx => h.rep.outside x (hP x hx)
    obtain ⟨rfl, rfl⟩ := Prod.mk.inj (hret.unique hret₁)
    rcases hres with ⟨rfl, hf⟩ | ⟨bs', b, rfl, hserved⟩
    · have hrep : HeapRep m₁ heap bs (freeAddrs bs) :=
        h.rep.lock.congr fun x hx => hf x fun hc => h.rep.outside x (hP x hc) hx
      exact ⟨hleft (t := 0) hrep subset_rfl (hf.mono fun x hx => .inl hx), fun hp => absurd rfl hp⟩
    · have hsub : usedBlocks bs ⊆ usedBlocks bs' := by
        rw [hserved.used]
        exact Set.subset_insert b _
      refine ⟨hleft hserved.rep hsub (hserved.frame.mono fun x hx => hx.imp_right .inr),
        fun hp => ⟨fun hl => ?_, ?_, ?_⟩⟩
      · obtain ⟨c, hc, he⟩ := (h.live _).mp hl
        exact hserved.fresh c hc (by omega)
      · have hb : b ∈ usedBlocks bs' := by
          rw [hserved.used]
          exact Set.mem_insert b _
        have hbnd := hserved.rep.bounds hb.1
        omega
      · exact heapAlloc_guarantee h.rep (Nat.pos_of_ne_zero hs0) hsz (hok.resolve_left hs0).2 hpa.grants
          hret hp

/-- **A release** leaves the other live payloads. -/
theorem HeapInv.free_left (h : HeapInv heap bs ⟨m, live⟩) (hp : p ∈ live) (hok : FreeOk m heap p)
    (hret : Returns (fun n => heapFree n m heap p) m') :
    Left heap (fun _ => False) (live.erase p) m m' := by
  obtain ⟨b, hb, hbp⟩ := (h.live p).mp hp
  obtain ⟨m₁, bs', hret₁, hfreed⟩ := heapFree_spec h.rep h.lock hb hbp.symm hok
  obtain rfl := hret.unique hret₁
  have hsub : ∀ c ∈ usedBlocks bs \ {b}, c ∈ bs ∧ c ∈ bs' := fun c hc => by
    have hc' : c ∈ usedBlocks bs' := by rwa [hfreed.used]
    exact ⟨hc.1.1, hc'.1⟩
  refine h.left (t := heapEndAddr m heap) hfreed.rep.unlock ?_ (fun _ hx => hx.elim) hsub fun q hq => ?_
  · exact (hfreed.frame.mono fun x hx => .inr (hx.imp_right .inr)).trans
      ((heapUnlock_frame m₁ heap).mono fun x hx => .inr (.inl hx))
  · obtain ⟨hne, hq⟩ := h.nodup.mem_erase_iff.mp hq
    obtain ⟨c, hc, rfl⟩ := (h.live q).mp hq
    exact ⟨c, ⟨hc, fun e => hne (by rw [Set.mem_singleton_iff.mp e, hbp])⟩, rfl⟩

/-- A reallocation that returns found the payload large enough. -/
theorem realloc_fits {q : ℕ} (hlock : heapLocked m heap = 0)
    (hret : Returns (fun n => heapRealloc (pa n) n m heap p size align) (m', q)) :
    heapAlign size < heapAllocSize m p ∧ m' = m ∧ q = p := by
  refine ⟨?_, realloc_same hlock hret⟩
  obtain ⟨n, hn⟩ := hret.exists
  simp only [heapRealloc_eq hlock] at hn
  split_ifs at hn with hlt
  exact hlt

/-- The sizes of payloads while the blocks stay. -/
theorem HeapInv.size_eq (h : HeapInv heap bs ⟨m, live⟩) (h' : HeapInv heap bs ⟨m', live⟩)
    (hp : p ∈ live) : heapAllocSize m' p = heapAllocSize m p := by
  obtain ⟨b, hb, rfl⟩ := (h.live p).mp hp
  exact (h'.rep.allocSize hb.1).trans (h.rep.allocSize hb.1).symm

/-- What the owner of one payload writes is in no other payload. -/
theorem HeapInv.payload_ne (h : HeapInv heap bs ⟨m, live⟩) {q i j : ℕ} (hp : p ∈ live) (hq : q ∈ live)
    (hne : q ≠ p) (hi : i < heapAllocSize m p) (hj : j < heapAllocSize m q) : q + j ≠ p + i := by
  obtain ⟨b, hb, rfl⟩ := (h.live p).mp hp
  obtain ⟨c, hc, rfl⟩ := (h.live q).mp hq
  rw [h.rep.allocSize hb.1] at hi
  rw [h.rep.allocSize hc.1] at hj
  have hapart := h.rep.tiles.apart hb.1 hc.1 fun e => hne (by rw [e])
  have hbmin := b.size_min
  have hcmin := c.size_min
  omega

/-- A payload is inside the heap. -/
theorem HeapInv.payload_inside (h : HeapInv heap bs ⟨m, live⟩) (hp : p ∈ live) :
    heap ≤ p ∧ p + heapAllocSize m p ≤ heapEndAddr m heap := by
  obtain ⟨b, hb, rfl⟩ := (h.live p).mp hp
  have hsize := h.rep.allocSize hb.1
  have hbnd := h.rep.bounds hb.1
  have hmin := b.size_min
  dsimp only at hsize hbnd
  omega

/-- **The owner of a payload** writes into it. -/
theorem HeapInv.own (h : HeapInv heap bs ⟨m, live⟩) (hp : p ∈ live)
    (hm : ∀ x, ¬ (p ≤ x ∧ x < p + heapAllocSize m p) → m' x = m x) :
    HeapInv heap bs ⟨m', live⟩ ∧ Left heap (fun _ => False) (live.erase p) m m' := by
  have h' := (h.other fun x _ _ hx => hm x (hx p hp)).1
  obtain ⟨hle, -⟩ := h.payload_inside hp
  refine ⟨h', fun q hq => ?_, fun x hx _ => hm x (by omega)⟩
  obtain ⟨hne, hq⟩ := h.nodup.mem_erase_iff.mp hq
  refine ⟨h.size_eq h' hq, fun i hi => hm _ fun hx => ?_⟩
  have hin : q + i - p < heapAllocSize m p := by omega
  exact h.payload_ne hp hq hne hin hi (by omega)

end kept

/-! ### Creation -/

section create

variable {heap size maxSize n block : ℕ} {m m' : Mem}

/-- The first block of an index. -/
theorem heapInsert_first (hz : ∀ i ≤ HEAP_LIST_COUNT, rd m (heapFreeSlot heap i) = 0)
    (hb : heap + HEAP_T_SIZE ≤ block) (h : heapInsert n m heap block = .ok m') :
    AgreeOff m m' fun x => (heap ≤ x ∧ x < heap + HEAP_T_SIZE) ∨ (block ≤ x ∧ x < block + 48) := by
  have hslot : ∀ i ≤ HEAP_LIST_COUNT, ∀ x, heapFreeSlot heap i ≤ x → x < heapFreeSlot heap i + 8 →
      heap ≤ x ∧ x < heap + HEAP_T_SIZE := by
    intro i hi x h1 h2
    have hC : HEAP_LIST_COUNT = 63 := rfl
    have hT : HEAP_T_SIZE = 544 := rfl
    unfold heapFreeSlot at h1 h2
    omega
  unfold heapInsert at h
  dsimp only at h
  split_ifs at h with hi hcount
  · have hle : (heapSizeIdx (heapGetSize m block)).toNat ≤ HEAP_LIST_COUNT := by omega
    rw [hz _ hle, pushItem_zero] at h
    obtain rfl := Except.ok.inj h
    refine AgreeOff.wr ?_ _ fun x h1 h2 => .inl (hslot _ hle x h1 h2)
    exact ((AgreeOff.refl m _).wr _ fun x h1 h2 => .inr (by omega)).wr _
      fun x h1 h2 => .inr (by omega)
  · have hclear := clearLinks_frame m block
    have hroot : rd (clearLinks m block) (heapFreeSlot heap HEAP_LIST_COUNT) = 0 :=
      (hclear.rd fun x h1 h2 hx => by
        obtain ⟨a, ha, hx⟩ := hx
        have := hslot _ le_rfl x h1 h2
        rw [Set.mem_singleton_iff.mp ha] at hx
        omega).trans (hz _ le_rfl)
    have hlinks : AgreeOff m (clearLinks m block) fun x =>
        (heap ≤ x ∧ x < heap + HEAP_T_SIZE) ∨ (block ≤ x ∧ x < block + 48) :=
      hclear.mono fun x hx => by
        obtain ⟨a, ha, hx⟩ := hx
        rw [Set.mem_singleton_iff.mp ha] at hx
        exact .inr (by omega)
    unfold heapTreeInsert at h
    dsimp only at h
    rw [hroot, if_pos rfl] at h
    split_ifs at h
    · obtain rfl := Except.ok.inj h
      exact hlinks.wr _ fun x h1 h2 => .inl (hslot _ le_rfl x h1 h2)
    · obtain rfl := Except.ok.inj h
      exact AgreeOff.refl _ _

/-- **Creation writes into the heap only.** -/
theorem heapCreate_frame (h : CreateOk heap size)
    (hret : Returns (fun n => heapCreate n m heap size maxSize) m') :
    AgreeOff m m' fun x => heap ≤ x ∧ x < heap + size := by
  obtain ⟨hst, -, -, -, -⟩ := createdStruct_spec m maxSize h
  obtain ⟨n, hn⟩ := hret.exists
  dsimp only at hn
  rw [heapCreate_eq h, hst] at hn
  obtain ⟨ha, hd, hmin, hlt, -⟩ := h
  have hT : HEAP_T_SIZE = 544 := rfl
  have hC : HEAP_LIST_COUNT = 63 := rfl
  have hM : HEAP_LIST_MIN = 48 := rfl
  obtain ⟨hz, hslots⟩ := clearSlots_spec (wr (wr (wr (wr m heap (heap + HEAP_T_SIZE)) (heap + 8)
    (heap + size)) (heap + 16) (heap + HEAP_T_SIZE + sub64 maxSize HEAP_T_SIZE)) (heap + 24) 0) heap
    (HEAP_LIST_COUNT + 1)
  obtain ⟨-, hblock⟩ := heapCreateBlock_tags (createdStruct m heap size maxSize)
    (show 32 ≤ size - HEAP_T_SIZE by omega) (by omega)
    (show heap + HEAP_T_SIZE + (size - HEAP_T_SIZE) < 2 ^ 64 by omega)
  have hstruct : AgreeOff m (createdStruct m heap size maxSize) fun x => heap ≤ x ∧ x < heap + size := by
    refine AgreeOff.trans ?_ (hslots.mono fun x hx => by omega)
    refine ((((AgreeOff.refl m _).wr _ ?_).wr _ ?_).wr _ ?_).wr _ ?_ <;> intro x h1 h2 <;> omega
  have hinsert := heapInsert_first (fun i hi => ?_) le_rfl hn
  · refine (hstruct.trans (hblock.mono fun x hx => by omega)).trans (hinsert.mono fun x hx => by omega)
  · refine Eq.trans (hblock.rd fun x h1 h2 => ?_) (hz i (by omega))
    unfold heapFreeSlot at h1 h2
    omega

end create

end Dawos
