import Dawos.HeapOps

/-! # Runs of the heap

A heap that `heap_create` made, and any sequence of calls of `heap_alloc`, `heap_free` and
`heap_realloc`, interleaved with writes of everybody else: the owners of live payloads and the
programs outside the heap.  The page allocator answers every request with the request rounded
up to pages, or with nothing.

`Run heap good s s'` is a run in which every call satisfied `good` in the state before it.
`HeapInv` is the invariant; it holds in every state of a run whose calls satisfy `StepOk`
(`Run.invariant`).  From it follow the three properties of such runs: payloads of live pointers
are disjoint and inside the heap, the free index is coherent, and the blocks tile the heap. -/

namespace Dawos

/-! ### Calls -/

/-- Memory, and the pointers handed out and not released. -/
structure HeapState where
  mem : Mem
  live : List ℕ

/-- A call, with what the page allocator would grant during it. -/
inductive HeapCall where
  | alloc (size : ℕ) (align : Bool) (grant : ℕ)
  | free (p : ℕ)
  | realloc (p size : ℕ) (align : Bool) (grant : ℕ)
  /-- Everybody else writes. -/
  | other

/-- The page allocator grants a request rounded up to pages, or nothing, and writes outside the
heap. -/
structure Grants (pa : ℕ → PageAlloc) (m : Mem) (heap bsize g : ℕ) : Prop where
  granted : g = 0 ∨ g = pageSizeAlign bsize
  returns : ∃ m', Returns (fun n => pa n (heapEndAddr m heap) bsize m) (g, m') ∧
    AgreeOff m m' fun x => x < heap ∨ heapEndAddr m heap ≤ x

/-- One step of a run. -/
inductive Step (heap : ℕ) : HeapState → HeapCall → HeapState → Prop
  | alloc {m m' : Mem} {live : List ℕ} {p size g : ℕ} {align : Bool} {pa : ℕ → PageAlloc}
      (hpa : Grants pa (heapLock m heap) heap (heapBsize (heapSizeAlign size)) g)
      (hret : Returns (fun n => heapAlloc (pa n) n m heap size align) (m', p)) :
      Step heap ⟨m, live⟩ (.alloc size align g) ⟨m', if p = 0 then live else p :: live⟩
  | free {m m' : Mem} {live : List ℕ} {p : ℕ}
      (hret : Returns (fun n => heapFree n m heap p) m') :
      Step heap ⟨m, live⟩ (.free p) ⟨m', live.erase p⟩
  | realloc {m m' : Mem} {live : List ℕ} {p q size g : ℕ} {align : Bool} {pa : ℕ → PageAlloc}
      (hret : Returns (fun n => heapRealloc (pa n) n m heap p size align) (m', q)) :
      Step heap ⟨m, live⟩ (.realloc p size align g)
        ⟨m', if q = 0 then live.erase p else q :: live.erase p⟩
  | other {m m' : Mem} {live : List ℕ} (h : ∀ x, heap ≤ x → x < heapEndAddr m heap →
      (∀ p ∈ live, ¬ (p ≤ x ∧ x < p + heapAllocSize m p)) → m' x = m x) :
      Step heap ⟨m, live⟩ .other ⟨m', live⟩

/-- The pointer arguments of a call are live. -/
def Legal (_ : ℕ) (s : HeapState) : HeapCall → Prop
  | .free p => p ∈ s.live
  | .realloc p _ _ _ => p ∈ s.live
  | _ => True

/-- The condition on the state before a call. -/
def StepOk (heap : ℕ) (s : HeapState) : HeapCall → Prop
  | .alloc size align g => AllocOk s.mem heap size align g
  | .free p => p ∈ s.live ∧ FreeOk s.mem heap p
  | .realloc p _ _ _ => p ∈ s.live
  | .other => True

/-- A run whose calls satisfy `good`. -/
inductive Run (heap : ℕ) (good : ℕ → HeapState → HeapCall → Prop) : HeapState → HeapState → Prop
  | refl (s : HeapState) : Run heap good s s
  | step {s s' s'' : HeapState} {c : HeapCall} (h : Run heap good s s') (hg : good heap s' c)
      (hs : Step heap s' c s'') : Run heap good s s''

/-- The state after `heap_create`. -/
structure Created (heap size maxSize : ℕ) (s : HeapState) : Prop where
  mem : ∃ m, Returns (fun n => heapCreate n m heap size maxSize) s.mem
  live : s.live = []

/-- A property that every good step keeps holds at the end of a run of good steps. -/
theorem Run.invariant {heap : ℕ} {good : ℕ → HeapState → HeapCall → Prop} {P : HeapState → Prop}
    (hstep : ∀ {s c s'}, P s → good heap s c → Step heap s c s' → P s') {s s' : HeapState}
    (h : Run heap good s s') (hs : P s) : P s' := by
  induction h with
  | refl => exact hs
  | step _ hc hst ih => exact hstep ih hc hst

/-! ### The invariant -/

/-- The heap consists of blocks, its lock is clear, and the live pointers are the payloads of
the used blocks. -/
structure HeapInv (heap : ℕ) (bs : List Block) (s : HeapState) : Prop where
  rep : HeapRep s.mem heap bs (freeAddrs bs)
  lock : heapLocked s.mem heap = 0
  nodup : s.live.Nodup
  live : ∀ p, p ∈ s.live ↔ ∃ b ∈ usedBlocks bs, b.addr + 16 = p

section invariant

variable {heap size maxSize p : ℕ} {bs : List Block} {s s' : HeapState} {m m' : Mem} {b : Block}

/-- The payload size that `heap_alloc_size` reports. -/
theorem HeapRep.allocSize {S : Set ℕ} (h : HeapRep m heap bs S) (hb : b ∈ bs) :
    heapAllocSize m (b.addr + 16) = b.size - 32 := by
  obtain ⟨hlow, hlt⟩ := h.mem_low hb
  have hmin := b.size_min
  have hd := b.size_dvd
  have hheader : heapPayloadHeader (b.addr + 16) = b.addr := by
    unfold heapPayloadHeader
    rw [sub64_of_le (by omega) (by omega), Nat.add_sub_cancel]
  unfold heapAllocSize
  rw [if_pos (by omega), hheader]
  dsimp only
  rw [if_pos ((h.tagged b hb).checkHeader hlt), h.getSize hb]
  unfold heapPsize
  rw [heapAlign_of_dvd (by omega) hd, HEAP_OVERHEAD, sub64_of_le (by omega) (by omega)]

/-- Creation establishes the invariant. -/
theorem Created.inv (hc : Created heap size maxSize s) (h : CreateOk heap size) :
    ∃ bs, HeapInv heap bs s ∧ heapEndAddr s.mem heap = heap + size ∧
      heapMaxAddr s.mem heap = u64 (heap + HEAP_T_SIZE + sub64 maxSize HEAP_T_SIZE) := by
  obtain ⟨m, hret⟩ := hc.mem
  obtain ⟨m', b, hret', hrep, hbu, hlock, hend, hmax⟩ := heapCreate_spec m maxSize h
  obtain rfl := hret.unique hret'
  refine ⟨[b], ⟨hrep, hlock, ?_, fun p => ?_⟩, hend, hmax⟩
  · rw [hc.live]
    exact List.nodup_nil
  · rw [hc.live, usedBlocks_cons_free hbu, usedBlocks_nil]
    simp

/-- The bytes outside the heap are not bytes of the invariant. -/
theorem HeapRep.outside {S : Set ℕ} (h : HeapRep m heap bs S) (x : ℕ)
    (hx : x < heap ∨ heapEndAddr m heap ≤ x) : ¬ metaBytes heap bs S x := by
  have hle := h.tiles.le
  rw [HEAP_T_SIZE] at hle
  rintro (hc | hc | ⟨b, hb, hc⟩ | ⟨a, ha, hc⟩)
  · omega
  · rw [HEAP_T_SIZE] at hc
    omega
  · have hbnd := h.bounds hb
    have hmin := b.size_min
    rw [HEAP_T_SIZE] at hbnd
    cases hc <;> omega
  · obtain ⟨b, hb, -, rfl⟩ := h.sub ha
    have hbnd := h.bounds hb
    have hmin := b.size_min
    rw [HEAP_T_SIZE] at hbnd
    omega

/-- A page grant as the heap's specification needs it. -/
theorem Grants.pageGrant {pa : ℕ → PageAlloc} {bsize g : ℕ} (h : Grants pa m heap bsize g)
    (hmin : HEAP_LIST_MIN ≤ bsize) (hlt : bsize < 2 ^ 64) :
    PageGrant pa m heap bsize g fun x => x < heap ∨ heapEndAddr m heap ≤ x := by
  rw [HEAP_LIST_MIN] at hmin
  refine ⟨h.returns, ?_, ?_⟩
  · rcases h.granted with h0 | h1
    · exact .inl h0
    · rcases pageSizeAlign_cases hlt with h2 | h2
      · exact .inl (h1.trans h2)
      · rw [HEAP_LIST_MIN]
        omega
  · rcases h.granted with h0 | h1
    · rw [h0]
    · rcases pageSizeAlign_cases hlt with h2 | h2 <;> omega

/-- The invariant after a new used block. -/
theorem HeapInv.push {bs' : List Block} {live : List ℕ} (h : HeapInv heap bs ⟨m, live⟩)
    (hrep : HeapRep m' heap bs' (freeAddrs bs')) (hlock : heapLocked m' heap = 0)
    (hused : usedBlocks bs' = insert b (usedBlocks bs)) (hb : ∀ c ∈ usedBlocks bs, c.addr ≠ b.addr) :
    HeapInv heap bs' ⟨m', (b.addr + 16) :: live⟩ := by
  refine ⟨hrep, hlock, List.nodup_cons.mpr ⟨fun hm => ?_, h.nodup⟩, fun p => ?_⟩
  · obtain ⟨c, hc, he⟩ := (h.live _).mp hm
    exact hb c hc (by omega)
  · rw [hused, List.mem_cons, h.live p]
    constructor
    · rintro (rfl | ⟨c, hc, he⟩)
      · exact ⟨b, Set.mem_insert _ _, rfl⟩
      · exact ⟨c, Set.mem_insert_of_mem _ hc, he⟩
    · rintro ⟨c, rfl | hc, he⟩
      · exact .inl he.symm
      · exact .inr ⟨c, hc, he⟩

/-- The invariant after the block of a live pointer is released. -/
theorem HeapInv.pop {bs' : List Block} {live : List ℕ} (h : HeapInv heap bs ⟨m, live⟩)
    (hrep : HeapRep m' heap bs' (freeAddrs bs')) (hlock : heapLocked m' heap = 0)
    (hb : b ∈ usedBlocks bs) (hused : usedBlocks bs' = usedBlocks bs \ {b}) :
    HeapInv heap bs' ⟨m', live.erase (b.addr + 16)⟩ := by
  refine ⟨hrep, hlock, h.nodup.erase _, fun p => ?_⟩
  rw [h.nodup.mem_erase_iff, h.live p, hused]
  constructor
  · rintro ⟨hne, c, hc, rfl⟩
    exact ⟨c, ⟨hc, fun e => hne (by rw [Set.mem_singleton_iff.mp e])⟩, rfl⟩
  · rintro ⟨c, ⟨hc, hcb⟩, rfl⟩
    refine ⟨fun e => hcb ?_, c, hc, rfl⟩
    exact h.rep.tiles.eq_of_addr hc.1 hb.1 (by omega)

/-- What a step leaves in place and how far it moves the end. -/
structure Bounded (heap g : ℕ) (m m' : Mem) : Prop where
  max : heapMaxAddr m' heap = heapMaxAddr m heap
  grow : heapEndAddr m' heap ≤ heapEndAddr m heap + g

/-- Locking and unlocking leave the ends in place. -/
theorem lock_bounded (m : Mem) (heap : ℕ) :
    heapMaxAddr (heapLock m heap) heap = heapMaxAddr m heap ∧
      heapEndAddr (heapLock m heap) heap = heapEndAddr m heap ∧
      heapMaxAddr (heapUnlock m heap) heap = heapMaxAddr m heap ∧
      heapEndAddr (heapUnlock m heap) heap = heapEndAddr m heap := by
  refine ⟨rd_wr_apart _ _ ?_, rd_wr_apart _ _ ?_, rd_wr_apart _ _ ?_, rd_wr_apart _ _ ?_⟩ <;> omega

/-- **An allocation keeps the invariant.** -/
theorem HeapInv.alloc {pa : ℕ → PageAlloc} {live : List ℕ} {g : ℕ} {align : Bool}
    (h : HeapInv heap bs ⟨m, live⟩) (hok : AllocOk m heap size align g)
    (hpa : Grants pa (heapLock m heap) heap (heapBsize (heapSizeAlign size)) g)
    (hret : Returns (fun n => heapAlloc (pa n) n m heap size align) (m', p)) :
    (∃ bs', HeapInv heap bs' ⟨m', if p = 0 then live else p :: live⟩) ∧ Bounded heap g m m' := by
  obtain ⟨hmax, hend, -⟩ := lock_bounded m heap
  have hunlock := fun m => (lock_bounded m heap).2.2
  have hle : heap + HEAP_T_SIZE ≤ heapEndAddr m heap := h.rep.tiles.le
  rw [HEAP_T_SIZE] at hle
  by_cases hs0 : size = 0
  · subst hs0
    have hret0 : Returns (fun n => heapAlloc (pa n) n m heap 0 align)
        (heapUnlock (heapLock m heap) heap, 0) := Returns.of_eq fun n => heapAlloc_zero h.lock
    obtain ⟨rfl, rfl⟩ := Prod.mk.inj (hret.unique hret0)
    refine ⟨⟨bs, h.rep.lock.unlock, heapUnlock_locked _ _, h.nodup, h.live⟩, ?_, ?_⟩
    · exact (hunlock _).1.trans hmax
    · rw [(hunlock _).2, hend]
      omega
  · have hsz := (hok.resolve_left hs0).1
    have hbsize := heapBsize_eq hsz
    obtain ⟨m1, q, hret1, hres⟩ := heapAlloc_spec h.rep h.lock hok
      (hpa.pageGrant (by rw [hbsize, HEAP_LIST_MIN]; omega) (by rw [hbsize]; omega))
      fun x hx => h.rep.outside x (by rwa [← hend])
    obtain ⟨rfl, rfl⟩ := Prod.mk.inj (hret.unique hret1)
    rcases hres with ⟨rfl, hf⟩ | ⟨bs', b, rfl, hserved⟩
    · have hrep : HeapRep m1 heap bs (freeAddrs bs) := h.rep.lock.congr fun x hx => hf x fun hc =>
        h.rep.outside x (by rwa [← hend]) hx
      refine ⟨⟨bs, hrep.unlock, heapUnlock_locked _ _, h.nodup, h.live⟩, ?_, ?_⟩
      · refine (hunlock _).1.trans (Eq.trans (hf.rd fun x h1 h2 hc => ?_) hmax)
        rw [hend] at hc
        omega
      · have e : heapEndAddr m1 heap = heapEndAddr (heapLock m heap) heap :=
          hf.rd fun x h1 h2 hc => by
            rw [hend] at hc
            omega
        rw [(hunlock _).2, e, hend]
        omega
    · have hp0 : ¬ b.addr + 16 = 0 := by omega
      simp only [hp0, if_false]
      refine ⟨⟨bs', h.push hserved.rep.unlock (heapUnlock_locked _ _) hserved.used hserved.fresh⟩, ?_, ?_⟩
      · refine (hunlock _).1.trans (Eq.trans (hserved.frame.rd fun x h1 h2 hc => ?_) hmax)
        have hle' := hserved.le
        rcases hc with hc | hc | hc
        · rw [hend] at hc
          omega
        · omega
        · have := hc.1
          omega
      · rw [(hunlock _).2, ← hend]
        exact hserved.grow

/-- **A release keeps the invariant.** -/
theorem HeapInv.free {live : List ℕ} (h : HeapInv heap bs ⟨m, live⟩) (hp : p ∈ live)
    (hok : FreeOk m heap p) (hret : Returns (fun n => heapFree n m heap p) m') :
    (∃ bs', HeapInv heap bs' ⟨m', live.erase p⟩) ∧ Bounded heap 0 m m' := by
  obtain ⟨b, hb, hbp⟩ := (h.live p).mp hp
  obtain ⟨m1, bs', hret1, hfreed⟩ := heapFree_spec h.rep h.lock hb hbp.symm hok
  obtain rfl := hret.unique hret1
  have hunlock := (lock_bounded m1 heap).2.2
  subst hbp
  refine ⟨⟨bs', h.pop hfreed.rep.unlock (heapUnlock_locked _ _) hb hfreed.used⟩, ?_, ?_⟩
  · refine hunlock.1.trans (hfreed.frame.rd fun x h1 h2 hc => ?_)
    rcases hc with hc | hc
    · have := hc.1
      omega
    · have := hc.1
      omega
  · rw [hunlock.2, hfreed.fin]
    exact Nat.le_add_right _ _

/-- Growing waits for the lock that the call itself holds. -/
theorem heapRealloc_eq {pageAlloc : PageAlloc} {n : ℕ} {align : Bool}
    (hlock : heapLocked m heap = 0) : heapRealloc pageAlloc n m heap p size align =
      if heapAlign size < heapAllocSize m p then .ok (m, p) else .error .deadlock := by
  have hwait : heapAlloc pageAlloc n (heapLock m heap) heap (heapBsize (heapAlign size)) align =
      .error .deadlock := by
    unfold heapAlloc heapWaitLock
    rw [if_pos (by rw [heapLock_locked]; exact one_ne_zero), error_bind]
  simp only [heapRealloc, heapWaitLock_clear hlock, ok_bind, hwait, error_bind]

/-- A reallocation that returns leaves everything in place. -/
theorem realloc_same {pa : ℕ → PageAlloc} {q : ℕ} {align : Bool} (hlock : heapLocked m heap = 0)
    (hret : Returns (fun n => heapRealloc (pa n) n m heap p size align) (m', q)) :
    m' = m ∧ q = p := by
  obtain ⟨n, hn⟩ := hret.exists
  simp only [heapRealloc_eq hlock] at hn
  split_ifs at hn
  cases hn
  exact ⟨rfl, rfl⟩

/-- Writes of everybody else keep the invariant. -/
theorem HeapInv.other {live : List ℕ} (h : HeapInv heap bs ⟨m, live⟩)
    (hm : ∀ x, heap ≤ x → x < heapEndAddr m heap →
      (∀ p ∈ live, ¬ (p ≤ x ∧ x < p + heapAllocSize m p)) → m' x = m x) :
    HeapInv heap bs ⟨m', live⟩ ∧ Bounded heap 0 m m' := by
  have hle : heap + HEAP_T_SIZE ≤ heapEndAddr m heap := h.rep.tiles.le
  rw [HEAP_T_SIZE] at hle
  -- payloads lie between the tags of used blocks
  have hpay : ∀ x, (x < heap + 544 ∨ metaBytes heap bs (freeAddrs bs) x) →
      ∀ p ∈ live, ¬ (p ≤ x ∧ x < p + heapAllocSize m p) := by
    intro x hx p hp hc
    obtain ⟨b, hb, rfl⟩ := (h.live p).mp hp
    rw [h.rep.allocSize hb.1] at hc
    have hlow := (h.rep.mem_low hb.1).1
    have hmin := b.size_min
    rcases hx with hx | hx | hx | ⟨c, hcm, hx⟩ | ⟨a, ⟨c, hcm, hcu, rfl⟩, hx⟩
    · omega
    · omega
    · rw [HEAP_T_SIZE] at hx
      omega
    · have hcmin := c.size_min
      by_cases e : b.addr = c.addr
      · obtain rfl := h.rep.tiles.eq_of_addr hb.1 hcm e
        cases hx <;> omega
      · have := h.rep.tiles.apart hb.1 hcm e
        cases hx <;> omega
    · have hcmin := c.size_min
      by_cases e : b.addr = c.addr
      · obtain rfl := h.rep.tiles.eq_of_addr hb.1 hcm e
        rw [hb.2] at hcu
        cases hcu
      · have := h.rep.tiles.apart hb.1 hcm e
        omega
  have hkeep : ∀ x, heap ≤ x → x < heap + 544 → m' x = m x :=
    fun x h1 h2 => hm x h1 (by omega) (hpay x (.inl h2))
  have hmeta : ∀ x, metaBytes heap bs (freeAddrs bs) x → m' x = m x := fun x hx => by
    have hout : ¬ (x < heap ∨ heapEndAddr m heap ≤ x) := fun hc => h.rep.outside x hc hx
    have hin : heap ≤ x ∧ x < heapEndAddr m heap := by omega
    exact hm x hin.1 hin.2 (hpay x (.inr hx))
  have hword : ∀ a, heap ≤ a → a ≤ heap + 24 → rd m' a = rd m a :=
    fun a h1 h2 => rd_congr fun x h3 h4 => hkeep x (by omega) (by omega)
  refine ⟨⟨h.rep.congr hmeta, ?_, h.nodup, h.live⟩, hword _ (by omega) (by omega), ?_⟩
  · unfold heapLocked
    rw [hword _ (by omega) le_rfl]
    exact h.lock
  · rw [Nat.add_zero]
    exact (hword (heap + 8) (by omega) (by omega)).le

/-- The pages granted in a call. -/
def HeapCall.grant : HeapCall → ℕ
  | .alloc _ _ g => g
  | _ => 0

/-- **A step keeps the invariant.** -/
theorem Step.inv {c : HeapCall} (hst : Step heap s c s') (hok : StepOk heap s c)
    (h : ∃ bs, HeapInv heap bs s) :
    (∃ bs, HeapInv heap bs s') ∧ Bounded heap c.grant s.mem s'.mem := by
  obtain ⟨bs, h⟩ := h
  cases hst with
  | alloc hpa hret => exact h.alloc hok hpa hret
  | free hret => exact h.free hok.1 hok.2 hret
  | realloc hret =>
      obtain ⟨rfl, rfl⟩ := realloc_same h.lock hret
      obtain ⟨b, hb, hbq⟩ := (h.live _).mp hok
      have hq0 : ¬ b.addr + 16 = 0 := by omega
      rw [hbq] at hq0
      have hperm := List.perm_cons_erase (show _ ∈ _ from hok)
      simp only [hq0, if_false]
      exact ⟨⟨bs, h.rep, h.lock, hperm.nodup_iff.mp h.nodup,
        fun p => (hperm.mem_iff (a := p)).symm.trans (h.live p)⟩, rfl, Nat.le_add_right _ _⟩
  | other hm =>
      obtain ⟨h1, h2⟩ := h.other hm
      exact ⟨⟨bs, h1⟩, h2⟩

/-- **The invariant holds in every state of a run whose calls satisfy the condition.** -/
theorem Run.inv (h : Run heap StepOk s s') (hs : ∃ bs, HeapInv heap bs s) :
    ∃ bs, HeapInv heap bs s' :=
  h.invariant (P := fun s => ∃ bs, HeapInv heap bs s) (fun hP hg hst => (hst.inv hg hP).1) hs

end invariant

end Dawos
