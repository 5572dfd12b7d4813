import Dawos.HeapRun

/-! # Safety of runs of the heap

The properties of a heap state, in terms of the walk from `start_addr` by `HEAP_GET_SIZE`:
`PayloadsOk` (payloads of live pointers), `IndexOk` (the free index) and `Walk` (the blocks tile
the heap).  Each holds in every state of a run whose calls satisfy `StepOk`; without that
condition each fails in a short run. -/

namespace Dawos

/-! ### The walk -/

/-- The addresses that the walk over the blocks visits. -/
inductive OnWalk (m : Mem) (heap : ℕ) : ℕ → Prop
  | start (h : heapStartAddr m heap < heapEndAddr m heap) : OnWalk m heap (heapStartAddr m heap)
  | next {a : ℕ} (ha : OnWalk m heap a) (h : a + heapGetSize m a < heapEndAddr m heap) :
      OnWalk m heap (a + heapGetSize m a)

/-- A well-formed block at `a`. -/
structure GoodBlock (m : Mem) (a : ℕ) : Prop where
  dvd : heapGetSize m a % 16 = 0
  min : HEAP_LIST_MIN ≤ heapGetSize m a
  magic : rd m a = HEAP_MAGIC
  footMagic : rd m (heapGetFooter m a) = HEAP_MAGIC
  footHeader : heapGetHeader m (heapGetFooter m a) = a

/-- From `a` on, the walk visits well-formed blocks and ends exactly at `fin`. -/
inductive Walk (m : Mem) (fin : ℕ) : ℕ → Prop
  | done : Walk m fin fin
  | block {a : ℕ} (hb : GoodBlock m a) (h : Walk m fin (a + heapGetSize m a)) : Walk m fin a

theorem Walk.le {m : Mem} {fin a : ℕ} (h : Walk m fin a) : a ≤ fin := by
  induction h with
  | done => exact le_rfl
  | block _ _ ih => omega

theorem Walk.next {m : Mem} {fin a : ℕ} (h : Walk m fin a) (ha : a ≠ fin) :
    Walk m fin (a + heapGetSize m a) := by
  cases h with
  | done => exact absurd rfl ha
  | block _ h => exact h

section walk

variable {m : Mem} {heap lo hi a : ℕ} {bs : List Block} {b : Block} {S : Set ℕ}

theorem Tagged.good (h : Tagged m b) (hb : b.addr + b.size < 2 ^ 64) : GoodBlock m b.addr := by
  have hmin := b.size_min
  have hs := h.getSize
  have hf := h.getFooter hb
  refine ⟨by rw [hs]; exact b.size_dvd, by rw [hs]; exact hmin, h.magic, ?_, ?_⟩
  · rw [hf, h.footMagic]
  · rw [hf]
    exact h.checkFooter.2

/-- Tagged blocks end to end are a walk. -/
theorem Tiles.walk : ∀ {bs : List Block} {lo : ℕ}, Tiles lo bs hi → hi < 2 ^ 64 →
    (∀ b ∈ bs, Tagged m b) → Walk m hi lo
  | [], _, h, _, _ => h ▸ .done
  | b :: bs, lo, ⟨h1, h2⟩, hlt, ht => by
      have hb := ht b List.mem_cons_self
      have hle := h2.le
      subst h1
      refine .block (hb.good (by omega)) ?_
      rw [hb.getSize]
      exact h2.walk hlt fun c hc => ht c (List.mem_cons_of_mem _ hc)

theorem HeapRep.walk (h : HeapRep m heap bs S) :
    Walk m (heapEndAddr m heap) (heapStartAddr m heap) := by
  rw [h.start]
  exact h.tiles.walk (rd_lt m _) h.tagged

/-- The walk visits the first block of a tiling. -/
theorem HeapRep.onWalk_mem (h : HeapRep m heap bs S) (ha : OnWalk m heap a) :
    ∃ b ∈ bs, b.addr = a := by
  induction ha with
  | start hlt =>
      have ht := h.tiles
      rw [h.start] at hlt ⊢
      cases bs with
      | nil =>
          have ht : heap + HEAP_T_SIZE = heapEndAddr m heap := ht
          omega
      | cons b bs => exact ⟨b, List.mem_cons_self, ht.1⟩
  | next _ hlt ih =>
      obtain ⟨b, hb, rfl⟩ := ih
      rw [h.getSize hb] at hlt ⊢
      obtain ⟨xs, ys, rfl⟩ := List.append_of_mem hb
      obtain ⟨-, h2⟩ := h.tiles.split
      cases ys with
      | nil =>
          have h2 : b.addr + b.size = heapEndAddr m heap := h2
          omega
      | cons c cs => exact ⟨c, by simp, h2.1⟩

/-- The walk visits every block. -/
theorem HeapRep.onWalk_of_mem (h : HeapRep m heap bs S) (hb : b ∈ bs) : OnWalk m heap b.addr := by
  obtain ⟨xs, ys, rfl⟩ := List.append_of_mem hb
  induction xs using List.reverseRecOn generalizing b ys with
  | nil =>
      have hbnd := h.bounds hb
      have hmin := b.size_min
      have e : b.addr = heapStartAddr m heap := h.tiles.1.trans h.start.symm
      rw [e]
      exact .start (by omega)
  | append_singleton xs c ih =>
      have e : xs ++ [c] ++ b :: ys = xs ++ c :: b :: ys := by simp
      have hc : c ∈ xs ++ [c] ++ b :: ys := by simp
      have hbnd := h.bounds hb
      have hmin := b.size_min
      have hsize := h.getSize hc
      rw [e] at h hc
      obtain ⟨-, h2⟩ := h.tiles.split
      have hadj : b.addr = c.addr + heapGetSize m c.addr := by
        rw [hsize]
        exact h2.1
      rw [hadj]
      exact .next (ih _ h hc) (by omega)

end walk

/-! ### Payloads -/

/-- The ranges of `n` bytes at `a` and `k` bytes at `b` are disjoint. -/
def Apart (a n b k : ℕ) : Prop := a + n ≤ b ∨ b + k ≤ a

/-- The payloads of live pointers are pairwise disjoint, inside the heap, and off the headers and
footers of all blocks. -/
structure PayloadsOk (heap : ℕ) (s : HeapState) : Prop where
  apart : s.live.Pairwise fun p q => Apart p (heapAllocSize s.mem p) q (heapAllocSize s.mem q)
  inside : ∀ p ∈ s.live, heapStartAddr s.mem heap ≤ p ∧
    p + heapAllocSize s.mem p ≤ heapEndAddr s.mem heap
  tags : ∀ p ∈ s.live, ∀ a, OnWalk s.mem heap a → Apart p (heapAllocSize s.mem p) a 16 ∧
    Apart p (heapAllocSize s.mem p) (heapGetFooter s.mem a) 16

theorem HeapInv.payloads {heap : ℕ} {bs : List Block} {s : HeapState} (h : HeapInv heap bs s) :
    PayloadsOk heap s := by
  have hblock : ∀ p ∈ s.live, ∃ b ∈ bs, p = b.addr + 16 ∧ heapAllocSize s.mem p = b.size - 32 := by
    intro p hp
    obtain ⟨b, hb, rfl⟩ := (h.live p).mp hp
    exact ⟨b, hb.1, rfl, h.rep.allocSize hb.1⟩
  refine ⟨h.nodup.pairwise_of_forall_ne fun p hp q hq hne => ?_, fun p hp => ?_, fun p hp a ha => ?_⟩
  · obtain ⟨b, hb, rfl, hbs⟩ := hblock p hp
    obtain ⟨c, hc, rfl, hcs⟩ := hblock q hq
    have h1 := b.size_min
    have h2 := c.size_min
    rw [hbs, hcs]
    rcases h.rep.tiles.apart hb hc (fun e => hne (by omega)) with h3 | h3
    · exact .inl (by omega)
    · exact .inr (by omega)
  · obtain ⟨b, hb, rfl, hbs⟩ := hblock p hp
    have h1 := b.size_min
    have h2 := h.rep.bounds hb
    rw [hbs, h.rep.start]
    omega
  · obtain ⟨b, hb, rfl, hbs⟩ := hblock p hp
    obtain ⟨c, hc, rfl⟩ := h.rep.onWalk_mem ha
    have h1 := b.size_min
    have h2 := c.size_min
    rw [hbs, (h.rep.tagged c hc).getFooter (h.rep.mem_low hc).2]
    by_cases e : b.addr = c.addr
    · obtain rfl := h.rep.tiles.eq_of_addr hb hc e
      exact ⟨.inr (by omega), .inl (by omega)⟩
    · rcases h.rep.tiles.apart hb hc e with h3 | h3
      · exact ⟨.inl (by omega), .inl (by omega)⟩
      · exact ⟨.inr (by omega), .inr (by omega)⟩

/-! ### The free index -/

/-- A call accesses the array `free` beyond its last entry. -/
def OutOfBounds (heap : ℕ) (s : HeapState) : HeapCall → Prop
  | .alloc size align g => ∃ pa : ℕ → PageAlloc,
      Grants pa (heapLock s.mem heap) heap (heapBsize (heapSizeAlign size)) g ∧
        Stops (fun n => heapAlloc (pa n) n s.mem heap size align) .bounds
  | .free p => Stops (fun n => heapFree n s.mem heap p) .bounds
  | .realloc p size align _ => ∃ pa : ℕ → PageAlloc,
      Stops (fun n => heapRealloc (pa n) n s.mem heap p size align) .bounds
  | .other => False

/-- Exactly the free blocks of the heap are linked, each once, in the list of its size or in the
tree. -/
def IndexOk (heap : ℕ) (s : HeapState) : Prop :=
  HeapIndex s.mem heap {a | OnWalk s.mem heap a ∧ heapGetUsed s.mem a = 0}

theorem HeapInv.indexOk {heap : ℕ} {bs : List Block} {s : HeapState} (h : HeapInv heap bs s) :
    IndexOk heap s := by
  have e : {a | OnWalk s.mem heap a ∧ heapGetUsed s.mem a = 0} = freeAddrs bs := by
    ext a
    rw [Set.mem_ofPred_eq]
    constructor
    · rintro ⟨ha, hu⟩
      obtain ⟨b, hb, rfl⟩ := h.rep.onWalk_mem ha
      rw [(h.rep.tagged b hb).getUsed] at hu
      exact ⟨b, hb, by simpa using hu, rfl⟩
    · rintro ⟨b, hb, hu, rfl⟩
      refine ⟨h.rep.onWalk_of_mem hb, ?_⟩
      rw [(h.rep.tagged b hb).getUsed, hu]
      rfl
  unfold IndexOk
  rw [e]
  exact h.rep.index

/-- A call that satisfies the condition stays inside the array. -/
theorem HeapInv.in_bounds {heap : ℕ} {bs : List Block} {s : HeapState} (h : HeapInv heap bs s)
    {c : HeapCall} (hok : StepOk heap s c) : ¬ OutOfBounds heap s c := by
  intro hout
  cases c with
  | alloc size align g =>
      obtain ⟨pa, hpa, hstop⟩ := hout
      by_cases hs0 : size = 0
      · subst hs0
        exact Returns.not_stops (Returns.of_eq fun n => heapAlloc_zero h.lock) hstop
      · have hbsize := heapBsize_eq (hok.resolve_left hs0).1
        have hsz := (hok.resolve_left hs0).1
        obtain ⟨m1, q, hret, -⟩ := heapAlloc_spec h.rep h.lock hok
          (hpa.pageGrant (by rw [hbsize, HEAP_LIST_MIN]; omega) (by rw [hbsize]; omega))
          fun x hx => h.rep.outside x (by rwa [← (lock_bounded s.mem heap).2.1])
        exact hret.not_stops hstop
  | free p =>
      obtain ⟨b, hb, hbp⟩ := (h.live p).mp hok.1
      obtain ⟨m1, bs', hret, -⟩ := heapFree_spec h.rep h.lock hb hbp.symm hok.2
      exact hret.not_stops hout
  | realloc p size align g =>
      obtain ⟨pa, hstop⟩ := hout
      obtain ⟨n, hn⟩ := hstop.exists
      simp only [heapRealloc_eq h.lock] at hn
      split_ifs at hn
      cases hn
  | other => exact hout

/-! ### Runs on given inputs -/

/-- A page allocator with a fixed answer. -/
def granting (g : ℕ) : ℕ → PageAlloc := fun _ _ _ m => .ok (g, m)

/-- A heap of one page, made in cleared memory. -/
def madeHeap (heap maxSize : ℕ) : HeapState :=
  ⟨resultOf (heapCreate 9 (fun _ => 0) heap PAGE_SIZE maxSize), []⟩

/-- The state after an allocation that returns. -/
def allocState (heap size : ℕ) (align : Bool) (g : ℕ) (s : HeapState) : HeapState :=
  let r := resultOf (heapAlloc (granting g 9) 9 s.mem heap size align)
  ⟨r.1, if r.2 = 0 then s.live else r.2 :: s.live⟩

/-- The state after a release that returns. -/
def freeState (heap p : ℕ) (s : HeapState) : HeapState :=
  ⟨resultOf (heapFree 9 s.mem heap p), s.live.erase p⟩

/-- The block that the search finds, or an extension of the heap, can serve the request. -/
def FoundOk (m : Mem) (heap bsize : ℕ) (align : Bool) (g b : ℕ) : Prop :=
  if b = 0 then ExtendOk m heap bsize align g
  else Removable m b ∧ PieceOk bsize align b (heapGetSize m b)

instance (m : Mem) (heap bsize : ℕ) (align : Bool) (g b : ℕ) :
    Decidable (FoundOk m heap bsize align g b) :=
  inferInstanceAs (Decidable (if b = 0 then ExtendOk m heap bsize align g
    else Removable m b ∧ PieceOk bsize align b (heapGetSize m b)))

/-- An allocation returns and satisfies its condition. -/
def Serves (heap size : ℕ) (align : Bool) (g : ℕ) (s : HeapState) : Prop :=
  let m := heapLock s.mem heap
  let bsize := heapBsize (heapSizeAlign size)
  let r := heapSearch 9 m heap bsize align
  size + 47 < 2 ^ 64 ∧ (heapAlloc (granting g 9) 9 s.mem heap size align).isOk = true ∧
    r.isOk = true ∧ FoundOk m heap bsize align g (resultOf r)

instance (heap size : ℕ) (align : Bool) (g : ℕ) (s : HeapState) :
    Decidable (Serves heap size align g s) :=
  inferInstanceAs (Decidable (_ ∧ _ ∧ _ ∧ _))

/-- A release returns and satisfies its condition. -/
def Releases (heap p : ℕ) (s : HeapState) : Prop :=
  p ∈ s.live ∧ FreeOk s.mem heap p ∧ (heapFree 9 s.mem heap p).isOk = true

instance (heap p : ℕ) (s : HeapState) : Decidable (Releases heap p s) :=
  inferInstanceAs (Decidable (_ ∧ _ ∧ _))

/-- Calls without an alignment on live pointers. -/
def Unaligned (_ : ℕ) (s : HeapState) : HeapCall → Prop
  | .alloc _ align _ => align = false
  | .free p => p ∈ s.live
  | .realloc _ _ _ _ => False
  | .other => True

section given

variable {heap maxSize size g : ℕ} {align : Bool} {s : HeapState}

/-- A page-aligned start and one page make a heap. -/
theorem createOk_page (ha : heap % 4096 = 0) (hlt : heap + 4096 < 2 ^ 64) :
    CreateOk heap PAGE_SIZE := by
  refine ⟨by omega, rfl, by decide, hlt, by decide⟩

/-- A zero written over zeros changes nothing. -/
theorem wr_zero {m : Mem} {a : ℕ} (h : ∀ x, a ≤ x → x < a + 8 → m x = 0) : wr m a 0 = m := by
  funext x
  unfold wr wrN
  split_ifs with hx
  · rw [h x hx.1 hx.2, Nat.zero_div]
    rfl
  · rfl

theorem clearSlots_zero {m : Mem} {k : ℕ}
    (h : ∀ x, heap + 32 ≤ x → x < heap + 32 + 8 * k → m x = 0) : clearSlots m heap k = m := by
  induction k with
  | zero => rfl
  | succ k ih =>
      rw [clearSlots_succ, ih fun x h1 h2 => h x h1 (by omega)]
      refine wr_zero fun x h1 h2 => ?_
      unfold heapFreeSlot at h1 h2
      exact h x (by omega) (by omega)

/-- The first four words of a heap of one page in cleared memory. -/
def pageStruct (heap maxSize : ℕ) : Mem :=
  wr (wr (wr (wr (fun _ => 0) heap (heap + HEAP_T_SIZE)) (heap + 8) (heap + PAGE_SIZE)) (heap + 16)
    (heap + HEAP_T_SIZE + sub64 maxSize HEAP_T_SIZE)) (heap + 24) 0

/-- In cleared memory the entries of the array need no clearing. -/
theorem madeHeap_eq (h : CreateOk heap PAGE_SIZE) (maxSize : ℕ) : madeHeap heap maxSize =
    ⟨resultOf (heapInsert 9 (heapCreateBlock (pageStruct heap maxSize) (heap + HEAP_T_SIZE)
      (PAGE_SIZE - HEAP_T_SIZE)) heap (heap + HEAP_T_SIZE)), []⟩ := by
  have hstart := (createdStruct_spec (fun _ => 0) maxSize h).1
  have hzero : createdStruct (fun _ => 0) heap PAGE_SIZE maxSize = pageStruct heap maxSize := by
    unfold createdStruct pageStruct
    refine clearSlots_zero fun x h1 h2 => ?_
    rw [wr_off _ _ (by omega), wr_off _ _ (by omega), wr_off _ _ (by omega), wr_off _ _ (by omega)]
  rw [hzero] at hstart
  unfold madeHeap
  rw [heapCreate_eq h, hzero, hstart]

theorem madeHeap_created
    (h : (heapCreate 9 (fun _ => 0) heap PAGE_SIZE maxSize).isOk = true) :
    Created heap PAGE_SIZE maxSize (madeHeap heap maxSize) :=
  ⟨⟨_, (heapCreate_steady _ _ _ _).returns (resultOf_eq h)⟩, rfl⟩

theorem granting_grants (m : Mem) (h : g = 0 ∨ g = pageSizeAlign size) :
    Grants (granting g) m heap size g :=
  ⟨h, m, Returns.of_eq fun _ => rfl, AgreeOff.refl _ _⟩

theorem Step.alloc_of_returns {pa : ℕ → PageAlloc} {r : Mem × ℕ}
    (hpa : Grants pa (heapLock s.mem heap) heap (heapBsize (heapSizeAlign size)) g)
    (h : Returns (fun n => heapAlloc (pa n) n s.mem heap size align) r) :
    Step heap s (.alloc size align g) ⟨r.1, if r.2 = 0 then s.live else r.2 :: s.live⟩ := by
  obtain ⟨m, live⟩ := s
  obtain ⟨m', p⟩ := r
  exact .alloc hpa h

theorem granting_returns {m : Mem} (g : ℕ)
    (h : (heapAlloc (granting g 9) 9 m heap size align).isOk = true) :
    Returns (fun n => heapAlloc (granting g n) n m heap size align)
      (resultOf (heapAlloc (granting g 9) 9 m heap size align)) :=
  (heapAlloc_steady (fun _ _ _ => Steady.const (.ok (g, _))) m heap size align).returns (resultOf_eq h)

theorem allocState_step (size : ℕ) (align : Bool) (g : ℕ)
    (hg : g = 0 ∨ g = pageSizeAlign (heapBsize (heapSizeAlign size)))
    (h : (heapAlloc (granting g 9) 9 s.mem heap size align).isOk = true) :
    Step heap s (.alloc size align g) (allocState heap size align g s) :=
  Step.alloc_of_returns (granting_grants _ hg) (granting_returns g h)

/-- What the search finds can serve the request. -/
theorem takeOk_of_found {m : Mem} {bsize : ℕ} (h : (heapSearch 9 m heap bsize align).isOk = true)
    (hf : FoundOk m heap bsize align g (resultOf (heapSearch 9 m heap bsize align))) :
    TakeOk m heap bsize align g := by
  intro b hret
  obtain rfl := hret.unique ((heapSearch_steady _ _ _ _).returns (resultOf_eq h))
  unfold FoundOk at hf
  split_ifs at hf ⊢
  · exact fun _ => hf
  · exact hf

theorem takeOk_of_search {m : Mem} {bsize : ℕ} (h : (heapSearch 9 m heap bsize align).isOk = true)
    (hb : let b := resultOf (heapSearch 9 m heap bsize align)
      b ≠ 0 ∧ Removable m b ∧ PieceOk bsize align b (heapGetSize m b)) :
    TakeOk m heap bsize align g := by
  refine takeOk_of_found h ?_
  unfold FoundOk
  rw [if_neg hb.1]
  exact hb.2

theorem Serves.allocOk (h : Serves heap size align g s) : AllocOk s.mem heap size align g :=
  .inr ⟨h.1, takeOk_of_found h.2.2.1 h.2.2.2⟩

theorem Serves.step (h : Serves heap size align g s)
    (hg : g = 0 ∨ g = pageSizeAlign (heapBsize (heapSizeAlign size))) :
    Step heap s (.alloc size align g) (allocState heap size align g s) :=
  allocState_step size align g hg h.2.1

theorem Releases.step {p : ℕ} (h : Releases heap p s) : Step heap s (.free p) (freeState heap p s) := by
  obtain ⟨m, live⟩ := s
  exact .free ((heapFree_steady m heap p).returns (resultOf_eq h.2.2))

theorem unaligned_alloc : Unaligned heap s (.alloc size false g) := rfl

theorem legal_alloc : Legal heap s (.alloc size align g) := trivial

end given

/-! ### Safety of runs -/

section runs

variable {heap maxSize : ℕ} {s s' : HeapState}

/-- **Payloads of live pointers stay disjoint, inside the heap and off the tags.** -/
theorem heap_payloads (ha : heap % 4096 = 0) (hlt : heap + 4096 < 2 ^ 64)
    (hc : Created heap PAGE_SIZE maxSize s) (hr : Run heap StepOk s s') : PayloadsOk heap s' := by
  obtain ⟨bs, hinv, -⟩ := hc.inv (createOk_page ha hlt)
  obtain ⟨bs', hinv'⟩ := hr.inv ⟨bs, hinv⟩
  exact hinv'.payloads

theorem pageHeap_eq (maxSize : ℕ) : madeHeap 0x104000 maxSize =
    ⟨resultOf (heapInsert 9 (heapCreateBlock (pageStruct 0x104000 maxSize) (0x104000 + HEAP_T_SIZE)
      (PAGE_SIZE - HEAP_T_SIZE)) 0x104000 (0x104000 + HEAP_T_SIZE)), []⟩ :=
  madeHeap_eq (createOk_page (by decide) (by decide)) maxSize

/-- A heap of one page before and after an allocation of 100 bytes. -/
theorem pageHeap_facts :
    (heapCreate 9 (fun _ => 0) 0x104000 PAGE_SIZE 0x100000).isOk = true ∧
      let s := madeHeap 0x104000 0x100000
      let m := heapLock s.mem 0x104000
      let r := heapSearch 9 m 0x104000 (heapBsize (heapSizeAlign 100)) false
      let s' := allocState 0x104000 100 false 0 s
      (r.isOk = true ∧ resultOf r ≠ 0 ∧ Removable m (resultOf r) ∧
          PieceOk (heapBsize (heapSizeAlign 100)) false (resultOf r) (heapGetSize m (resultOf r))) ∧
        (heapAlloc (granting 0 9) 9 s.mem 0x104000 100 false).isOk = true ∧
        0x104230 ∈ s'.live ∧ heapAllocSize s'.mem 0x104230 = 112 := by
  rw [heapCreate_eq (createOk_page (by decide) (by decide)), pageHeap_eq]
  decide +kernel

theorem pageHeap_created : Created 0x104000 PAGE_SIZE 0x100000 (madeHeap 0x104000 0x100000) :=
  madeHeap_created pageHeap_facts.1

/-- What the search finds for a request in a new heap. -/
theorem pageHeap_takeOk : TakeOk (heapLock (madeHeap 0x104000 0x100000).mem 0x104000) 0x104000
    (heapBsize (heapSizeAlign 100)) false 0 :=
  takeOk_of_search pageHeap_facts.2.1.1 pageHeap_facts.2.1.2

theorem pageHeap_allocOk : AllocOk (madeHeap 0x104000 0x100000).mem 0x104000 100 false 0 :=
  .inr ⟨by decide, pageHeap_takeOk⟩

theorem pageHeap_step : Step 0x104000 (madeHeap 0x104000 0x100000) (.alloc 100 false 0)
    (allocState 0x104000 100 false 0 (madeHeap 0x104000 0x100000)) :=
  allocState_step 100 false 0 (by decide) pageHeap_facts.2.2.1

/-- One allocation in a new heap. -/
theorem heap_one_alloc : Run 0x104000 StepOk (madeHeap 0x104000 0x100000)
    (allocState 0x104000 100 false 0 (madeHeap 0x104000 0x100000)) :=
  .step (.refl _) (c := .alloc 100 false 0) pageHeap_allocOk pageHeap_step

/-- A heap of one page after three allocations and the release of the second block. -/
def pairHeap : HeapState :=
  let s := madeHeap 0x104000 0x100000
  freeState 0x104000 0x1042C0 (allocState 0x104000 300 false 0
    (allocState 0x104000 200 false 0 (allocState 0x104000 100 false 0 s)))

theorem pairHeap_facts :
    let s := madeHeap 0x104000 0x100000
    let s₁ := allocState 0x104000 100 false 0 s
    let s₂ := allocState 0x104000 200 false 0 s₁
    let s₃ := allocState 0x104000 300 false 0 s₂
    (Serves 0x104000 100 false 0 s ∧ Serves 0x104000 200 false 0 s₁ ∧ Serves 0x104000 300 false 0 s₂ ∧
        Releases 0x104000 0x1042C0 s₃) ∧
      pairHeap.live = [0x1043B0, 0x104230] ∧ Releases 0x104000 0x104230 pairHeap := by
  unfold pairHeap
  rw [pageHeap_eq]
  decide +kernel

/-- Three allocations and a release in a new heap. -/
theorem heap_pair_run : Run 0x104000 StepOk (madeHeap 0x104000 0x100000) pairHeap := by
  obtain ⟨⟨h1, h2, h3, h4⟩, -⟩ := pairHeap_facts
  have hrun : Run 0x104000 StepOk (madeHeap 0x104000 0x100000)
      (allocState 0x104000 300 false 0
        (allocState 0x104000 200 false 0 (allocState 0x104000 100 false 0
          (madeHeap 0x104000 0x100000)))) :=
    .step (c := .alloc 300 false 0) (.step (c := .alloc 200 false 0) (.step (c := .alloc 100 false 0)
      (.refl _) h1.allocOk (h1.step (.inl rfl))) h2.allocOk (h2.step (.inl rfl))) h3.allocOk
      (h3.step (.inl rfl))
  exact hrun.step (c := .free 0x1042C0) ⟨h4.1, h4.2.1⟩ h4.step

/-- An aligned allocation from an extension of a heap whose only page is in use: the block is handed
out at the end of the heap, and the walk over the blocks runs over the end. -/
theorem fullHeap_facts :
    let s := madeHeap 0x104000 0x100000
    let s₁ := allocState 0x104000 3520 false 0 s
    let s₂ := allocState 0x104000 64 true 4096 s₁
    let fin := heapEndAddr s₂.mem 0x104000
    let a₀ := heapStartAddr s₂.mem 0x104000
    let a₁ := a₀ + heapGetSize s₂.mem a₀
    let a₂ := a₁ + heapGetSize s₂.mem a₁
    ((heapAlloc (granting 0 9) 9 s.mem 0x104000 3520 false).isOk = true ∧
        (heapAlloc (granting 4096 9) 9 s₁.mem 0x104000 64 true).isOk = true) ∧
      (0x106000 ∈ s₂.live ∧ ¬ 0x106000 + heapAllocSize s₂.mem 0x106000 ≤ fin) ∧
      a₀ ≠ fin ∧ a₁ ≠ fin ∧ a₂ ≠ fin ∧ ¬ a₂ + heapGetSize s₂.mem a₂ ≤ fin := by
  rw [pageHeap_eq]
  decide +kernel

theorem heap_full_run : Run 0x104000 Legal (madeHeap 0x104000 0x100000)
    (allocState 0x104000 64 true 4096
      (allocState 0x104000 3520 false 0 (madeHeap 0x104000 0x100000))) := by
  have h1 : Run 0x104000 Legal _ _ := Run.step (Run.refl (madeHeap 0x104000 0x100000)) legal_alloc
    (allocState_step 3520 false 0 (by decide) fullHeap_facts.1.1)
  exact Run.step h1 legal_alloc (allocState_step 64 true 4096 (by decide) fullHeap_facts.1.2)

/-- Two live pointers around a released block. -/
theorem heap_payloads_pair : pairHeap.live = [0x1043B0, 0x104230] ∧ PayloadsOk 0x104000 pairHeap :=
  ⟨pairHeap_facts.2.1, heap_payloads (by decide) (by decide) pageHeap_created heap_pair_run⟩

/-- An aligned request that the block of an extension cannot hold is handed out at the end of the
heap. -/
theorem heap_payloads_overrun : ∃ s s', Created 0x104000 PAGE_SIZE 0x100000 s ∧
    Run 0x104000 Legal s s' ∧ ¬ PayloadsOk 0x104000 s' := by
  refine ⟨madeHeap 0x104000 0x100000, allocState 0x104000 64 true 4096
    (allocState 0x104000 3520 false 0 (madeHeap 0x104000 0x100000)),
    pageHeap_created, heap_full_run, fun h => ?_⟩
  obtain ⟨-, ⟨hlive, hend⟩, -⟩ := fullHeap_facts
  exact hend (h.inside 0x106000 hlive).2

/-- **The free index stays coherent, and the next call stays inside the array.** -/
theorem heap_index (ha : heap % 4096 = 0) (hlt : heap + 4096 < 2 ^ 64)
    (hc : Created heap PAGE_SIZE maxSize s) (hr : Run heap StepOk s s') :
    IndexOk heap s' ∧ ∀ c, StepOk heap s' c → ¬ OutOfBounds heap s' c := by
  obtain ⟨bs, hinv, -⟩ := hc.inv (createOk_page ha hlt)
  obtain ⟨bs', hinv'⟩ := hr.inv ⟨bs, hinv⟩
  exact ⟨hinv'.indexOk, fun c hok => hinv'.in_bounds hok⟩

/-- The released block is indexed, and the release of its neighbour stays inside the array. -/
theorem heap_index_pair : IndexOk 0x104000 pairHeap ∧ ¬ OutOfBounds 0x104000 pairHeap (.free 0x104230) := by
  obtain ⟨-, -, hlive, hok, -⟩ := pairHeap_facts
  obtain ⟨hindex, hcall⟩ := heap_index (by decide) (by decide) pageHeap_created heap_pair_run
  exact ⟨hindex, hcall (.free 0x104230) ⟨hlive, hok⟩⟩

/-- A block of 1056 bytes is allocated in front of another one, and released. -/
theorem wideBlock_facts :
    let s := madeHeap 0x104000 0x100000
    let s₁ := allocState 0x104000 1024 false 0 s
    let s₂ := allocState 0x104000 16 false 0 s₁
    ((heapAlloc (granting 0 9) 9 s.mem 0x104000 1024 false).isOk = true ∧
        (heapAlloc (granting 0 9) 9 s₁.mem 0x104000 16 false).isOk = true) ∧
      0x104230 ∈ s₂.live ∧ errorOf (heapFree 9 s₂.mem 0x104000 0x104230) = some .bounds := by
  rw [pageHeap_eq]
  decide +kernel

/-- The release of a block of 1056 bytes puts it into an entry beyond the last one. -/
theorem heap_index_overrun : ∃ s s' p, Created 0x104000 PAGE_SIZE 0x100000 s ∧
    Run 0x104000 Unaligned s s' ∧ p ∈ s'.live ∧ OutOfBounds 0x104000 s' (.free p) := by
  obtain ⟨⟨hok, hok'⟩, hlive, herr⟩ := wideBlock_facts
  refine ⟨madeHeap 0x104000 0x100000, allocState 0x104000 16 false 0
    (allocState 0x104000 1024 false 0 (madeHeap 0x104000 0x100000)), 0x104230,
    pageHeap_created, ?_, hlive, ?_⟩
  · have h1 : Run 0x104000 Unaligned _ _ := Run.step (Run.refl (madeHeap 0x104000 0x100000)) unaligned_alloc
      (allocState_step 1024 false 0 (by decide) hok)
    exact Run.step h1 unaligned_alloc (allocState_step 16 false 0 (by decide) hok')
  · exact (heapFree_steady _ _ _).stops (n := 9) (errorOf_eq herr) (by decide)

/-- **The blocks tile the heap.** -/
theorem heap_tiles (ha : heap % 4096 = 0) (hlt : heap + 4096 < 2 ^ 64)
    (hc : Created heap PAGE_SIZE maxSize s) (hr : Run heap StepOk s s') :
    Walk s'.mem (heapEndAddr s'.mem heap) (heapStartAddr s'.mem heap) := by
  obtain ⟨bs, hinv, -⟩ := hc.inv (createOk_page ha hlt)
  obtain ⟨bs', hinv'⟩ := hr.inv ⟨bs, hinv⟩
  exact hinv'.rep.walk

theorem heap_tiles_pair : Walk pairHeap.mem (heapEndAddr pairHeap.mem 0x104000)
    (heapStartAddr pairHeap.mem 0x104000) :=
  heap_tiles (by decide) (by decide) pageHeap_created heap_pair_run

/-- The same aligned request leaves a block that runs over the end of the heap. -/
theorem heap_tiles_overrun : ∃ s s', Created 0x104000 PAGE_SIZE 0x100000 s ∧
    Run 0x104000 Legal s s' ∧
      ¬ Walk s'.mem (heapEndAddr s'.mem 0x104000) (heapStartAddr s'.mem 0x104000) := by
  refine ⟨madeHeap 0x104000 0x100000, allocState 0x104000 64 true 4096
    (allocState 0x104000 3520 false 0 (madeHeap 0x104000 0x100000)),
    pageHeap_created, heap_full_run, fun h => ?_⟩
  obtain ⟨-, -, h0, h1, h2, h3⟩ := fullHeap_facts
  exact h3 (((h.next h0).next h1).next h2).le

/-- The condition under which a call keeps the heap below its maximum: what is granted fits. -/
def GrowOk (heap : ℕ) (s : HeapState) (c : HeapCall) : Prop :=
  StepOk heap s c ∧ heapEndAddr s.mem heap + c.grant ≤ heapMaxAddr s.mem heap

/-- **The heap stays below its maximum.** -/
theorem heap_max {size : ℕ} (hok : CreateOk heap size) (hle : size ≤ maxSize)
    (hlt : heap + maxSize < 2 ^ 64) (hc : Created heap size maxSize s) (hr : Run heap GrowOk s s') :
    heapEndAddr s'.mem heap ≤ heapMaxAddr s'.mem heap := by
  obtain ⟨bs, hinv, hend, hmax⟩ := hc.inv hok
  have hmin := hok.2.2.1
  rw [HEAP_T_SIZE, HEAP_LIST_MIN] at hmin
  have hs : heapEndAddr s.mem heap ≤ heapMaxAddr s.mem heap := by
    rw [hend, hmax, HEAP_T_SIZE, sub64_of_le (by omega) (by omega), u64_of_lt (by omega)]
    omega
  refine (hr.invariant (P := fun s => (∃ bs, HeapInv heap bs s) ∧
    heapEndAddr s.mem heap ≤ heapMaxAddr s.mem heap) (fun hP hg hst => ?_) ⟨⟨bs, hinv⟩, hs⟩).2
  obtain ⟨h1, h2⟩ := hst.inv hg.1 hP.1
  refine ⟨h1, ?_⟩
  rw [h2.max]
  exact h2.grow.trans hg.2

/-- An allocation of 100 bytes, and one for which the heap is extended by three pages. -/
theorem extendedHeap_facts :
    let s := madeHeap 0x104000 0x100000
    let s₁ := allocState 0x104000 100 false 0 s
    let s₂ := allocState 0x104000 8192 false 12288 s₁
    (Serves 0x104000 100 false 0 s ∧ heapEndAddr s.mem 0x104000 + 0 ≤ heapMaxAddr s.mem 0x104000) ∧
      (Serves 0x104000 8192 false 12288 s₁ ∧
        heapEndAddr s₁.mem 0x104000 + 12288 ≤ heapMaxAddr s₁.mem 0x104000) ∧
      heapEndAddr s₂.mem 0x104000 = 0x108000 := by
  rw [pageHeap_eq]
  decide +kernel

theorem heap_max_extended : ∃ s, Run 0x104000 GrowOk (madeHeap 0x104000 0x100000) s ∧
    heapEndAddr s.mem 0x104000 = 0x108000 ∧
      heapEndAddr s.mem 0x104000 ≤ heapMaxAddr s.mem 0x104000 := by
  obtain ⟨⟨h1, hg1⟩, ⟨h2, hg2⟩, hend⟩ := extendedHeap_facts
  have hrun := (@Run.refl 0x104000 GrowOk (madeHeap 0x104000 0x100000)).step
    (c := .alloc 100 false 0) ⟨h1.allocOk, hg1⟩ (h1.step (.inl rfl))
  have hrun := hrun.step (c := .alloc 8192 false 12288) ⟨h2.allocOk, hg2⟩ (h2.step (by decide +kernel))
  exact ⟨_, hrun, hend, heap_max (createOk_page (by decide) (by decide)) (by decide) (by decide)
    pageHeap_created hrun⟩

/-- An extension goes beyond the maximum. -/
theorem heap_max_overrun : ∃ s s', Created 0x104000 PAGE_SIZE PAGE_SIZE s ∧
    Run 0x104000 Legal s s' ∧ heapMaxAddr s'.mem 0x104000 < heapEndAddr s'.mem 0x104000 := by
  refine ⟨madeHeap 0x104000 PAGE_SIZE, allocState 0x104000 8192 false 12288
    (madeHeap 0x104000 PAGE_SIZE), madeHeap_created ?_, ?_, by rw [pageHeap_eq]; decide +kernel⟩
  · rw [heapCreate_eq (createOk_page (by decide) (by decide))]
    decide +kernel
  · exact Run.step (Run.refl _) legal_alloc
      (allocState_step 8192 false 12288 (by decide +kernel) (by rw [pageHeap_eq]; decide +kernel))

end runs

end Dawos
