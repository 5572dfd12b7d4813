import Dawos.HeapSafety

/-! # What an allocation guarantees

A pointer that `heap_alloc` returns is large enough and aligned as requested (`heap_alloc_size`),
as long as the block size that is computed from the request does not wrap.  For each of the sizes
at which it wraps, a heap of one page hands out a block without a payload (`wrapMem_facts`). -/

namespace Dawos

/-- What a caller of `heap_alloc` may rely on. -/
def Guarantees (m : Mem) (p size : ℕ) (align : Bool) : Prop :=
  p ≠ 0 → size ≤ heapAllocSize m p ∧ (align = true → p % PAGE_SIZE = 0)

section guarantee

variable {m m' : Mem} {heap size size' p g : ℕ} {align : Bool} {bs : List Block} {pa : ℕ → PageAlloc}

/-- A locked heap allocates nothing. -/
theorem heapAlloc_locked {pageAlloc : PageAlloc} {n : ℕ} (h : heapLocked m heap ≠ 0) :
    heapAlloc pageAlloc n m heap size align = .error .deadlock := by
  unfold heapAlloc heapWaitLock
  rw [if_pos h, error_bind]

/-- An allocation depends on the block size only. -/
theorem heapAlloc_congr {pageAlloc : PageAlloc} {n : ℕ} (h : 0 < size) (h' : 0 < size')
    (hb : heapBsize (heapSizeAlign size) = heapBsize (heapSizeAlign size')) :
    heapAlloc pageAlloc n m heap size align = heapAlloc pageAlloc n m heap size' align := by
  unfold heapAlloc
  dsimp only
  simp only [if_pos h, if_pos h', hb]

/-- A request whose block size does not wrap. -/
theorem heapAlloc_guarantee (h : HeapRep m heap bs (freeAddrs bs)) (hpos : 0 < size)
    (hs : size + 47 < 2 ^ 64)
    (hok : TakeOk (heapLock m heap) heap (heapBsize (heapSizeAlign size)) align g)
    (hpa : Grants pa (heapLock m heap) heap (heapBsize (heapSizeAlign size)) g)
    (hret : Returns (fun n => heapAlloc (pa n) n m heap size align) (m', p)) :
    Guarantees m' p size align := by
  have hbsize := heapBsize_eq hs
  have hend := (lock_bounded m heap).2.1
  by_cases hlock : heapLocked m heap = 0
  · obtain ⟨m1, q, hret1, hres⟩ := heapAlloc_spec h hlock (.inr ⟨hs, hok⟩)
      (hpa.pageGrant (by rw [hbsize, HEAP_LIST_MIN]; omega) (by rw [hbsize]; omega))
      fun x hx => h.outside x (by rwa [← hend])
    obtain ⟨rfl, rfl⟩ := Prod.mk.inj (hret.unique hret1)
    intro hp
    rcases hres with ⟨hp0, -⟩ | ⟨bs', b, rfl, hserved⟩
    · exact absurd hp0 hp
    · have hmem : b ∈ usedBlocks bs' := by
        rw [hserved.used]
        exact Set.mem_insert b _
      have hsize := hserved.size
      refine ⟨?_, hserved.aligned⟩
      rw [hserved.rep.unlock.allocSize hmem.1]
      rw [hbsize] at hsize
      omega
  · have hstop : Stops (fun n => heapAlloc (pa n) n m heap size align) .deadlock :=
      Filter.Eventually.of_forall fun _ => heapAlloc_locked hlock
    exact absurd hstop hret.not_stops

end guarantee

/-! ### A block size that wraps -/

/-- A heap of one page that ends 16 bytes after a page. -/
def wrapMem : Mem := (madeHeap 0x104010 0x100000).mem

theorem wrapMem_createOk : CreateOk 0x104010 PAGE_SIZE :=
  ⟨by decide, by decide, by decide, by decide, by decide⟩

theorem wrapMem_eq : wrapMem = resultOf (heapInsert 9
    (heapCreateBlock (pageStruct 0x104010 0x100000) (0x104010 + HEAP_T_SIZE)
      (PAGE_SIZE - HEAP_T_SIZE)) 0x104010 (0x104010 + HEAP_T_SIZE)) := by
  unfold wrapMem
  rw [madeHeap_eq wrapMem_createOk]

/-- The sizes of 32, 16 and 1 byte less than all. -/
def wrapSizes : List ℕ := [2 ^ 64 - 32, 2 ^ 64 - 16, 2 ^ 64 - 1]

theorem wrap_size {size : ℕ} (h1 : 2 ^ 64 ≤ size + 47) (h2 : size < 2 ^ 64) :
    ∃ r ∈ wrapSizes, 0 < r ∧ heapBsize (heapSizeAlign size) = heapBsize (heapSizeAlign r) := by
  unfold heapBsize u64
  simp only [heapSizeAlign_eq, wrapSizes, List.mem_cons, List.not_mem_nil, or_false, exists_eq_or_imp,
    exists_eq_left]
  rcases Nat.lt_or_ge size (2 ^ 64 - 31) with h | h
  · exact .inl (by omega)
  rcases Nat.lt_or_ge size (2 ^ 64 - 15) with h | h
  · exact .inr (.inl (by omega))
  · exact .inr (.inr (by omega))

/-- The heap can be made; the search finds a block for each of these sizes, and what is handed out is
a block without a payload. -/
theorem wrapMem_facts : (heapCreate 9 (fun _ => 0) 0x104010 PAGE_SIZE 0x100000).isOk = true ∧
    ∀ r ∈ wrapSizes,
      let m := heapLock wrapMem 0x104010
      let s := heapSearch 9 m 0x104010 (heapBsize (heapSizeAlign r)) true
      let a := heapAlloc (granting 0 9) 9 wrapMem 0x104010 r true
      (s.isOk = true ∧ resultOf s ≠ 0 ∧ Removable m (resultOf s) ∧
          PieceOk (heapBsize (heapSizeAlign r)) true (resultOf s) (heapGetSize m (resultOf s))) ∧
        a.isOk = true ∧ (resultOf a).2 ≠ 0 ∧ heapAllocSize (resultOf a).1 (resultOf a).2 = 0 := by
  rw [heapCreate_eq wrapMem_createOk, wrapMem_eq]
  decide +kernel

theorem wrapMem_rep : ∃ bs, HeapRep wrapMem 0x104010 bs (freeAddrs bs) := by
  have hc : Created 0x104010 PAGE_SIZE 0x100000 (madeHeap 0x104010 0x100000) :=
    madeHeap_created wrapMem_facts.1
  obtain ⟨bs, hinv, -⟩ := hc.inv wrapMem_createOk
  exact ⟨bs, hinv.rep⟩

/-- The guarantee fails for every size whose block size wraps. -/
theorem wrapMem_fails {size : ℕ} (h1 : 2 ^ 64 ≤ size + 47) (h2 : size < 2 ^ 64) :
    TakeOk (heapLock wrapMem 0x104010) 0x104010 (heapBsize (heapSizeAlign size)) true 0 ∧
      ∃ m' p, Returns (fun n => heapAlloc (granting 0 n) n wrapMem 0x104010 size true) (m', p) ∧
        ¬ Guarantees m' p size true := by
  obtain ⟨r, hr, hr0, he⟩ := wrap_size h1 h2
  obtain ⟨⟨s1, s2⟩, a1, a2, a3⟩ := wrapMem_facts.2 r hr
  have hret := granting_returns 0 a1
  rw [he]
  refine ⟨takeOk_of_search s1 s2, (resultOf (heapAlloc (granting 0 9) 9 wrapMem 0x104010 r true)).1,
    (resultOf (heapAlloc (granting 0 9) 9 wrapMem 0x104010 r true)).2, ?_, fun hg => ?_⟩
  · filter_upwards [hret] with n hn
    rw [heapAlloc_congr (by omega) hr0 he]
    exact hn
  · have hle := (hg a2).1
    rw [a3] at hle
    omega

/-- **A pointer that `heap_alloc` returns is as large as requested and aligned if requested**, for
every heap from which the call can be served, exactly if the block size does not wrap. -/
theorem heap_alloc_size {size : ℕ} (hpos : 0 < size) (hlt : size < 2 ^ 64) :
    (∀ (pa : ℕ → PageAlloc) (g : ℕ) (m : Mem) (heap : ℕ) (bs : List Block) (align : Bool) (m' : Mem)
      (p : ℕ), HeapRep m heap bs (freeAddrs bs) →
      TakeOk (heapLock m heap) heap (heapBsize (heapSizeAlign size)) align g →
      Grants pa (heapLock m heap) heap (heapBsize (heapSizeAlign size)) g →
      Returns (fun n => heapAlloc (pa n) n m heap size align) (m', p) →
      Guarantees m' p size align) ↔ size + 47 < 2 ^ 64 := by
  constructor
  · intro h
    by_contra hc
    obtain ⟨bs, hrep⟩ := wrapMem_rep
    obtain ⟨hok, m', p, hret, hnot⟩ := wrapMem_fails (not_lt.mp hc) hlt
    exact hnot (h _ _ _ _ bs _ _ _ hrep hok (granting_grants _ (.inl rfl)) hret)
  · intro hs pa g m heap bs align m' p hrep hok hpa hret
    exact heapAlloc_guarantee hrep hpos hs hok hpa hret

/-- A request of 100 bytes in a heap of one page. -/
theorem heap_alloc_size_hundred :
    let r := resultOf (heapAlloc (granting 0 9) 9 (madeHeap 0x104000 0x100000).mem 0x104000 100 false)
    Guarantees r.1 r.2 100 false := by
  suffices h : ∀ r : Mem × ℕ, Returns (fun n => heapAlloc (granting 0 n) n
      (madeHeap 0x104000 0x100000).mem 0x104000 100 false) r → Guarantees r.1 r.2 100 false from
    h _ (granting_returns 0 pageHeap_facts.2.2.1)
  intro r hret
  obtain ⟨bs, hinv, -⟩ := pageHeap_created.inv (createOk_page (by decide) (by decide))
  exact (heap_alloc_size (by norm_num) (by norm_num)).mpr (by norm_num) _ _ _ _ bs _ _ _ hinv.rep
    pageHeap_takeOk (granting_grants _ (.inl rfl)) hret

/-- A request of all bytes but one. -/
theorem heap_alloc_size_wrap : ∃ m heap bs m' p, HeapRep m heap bs (freeAddrs bs) ∧
    Returns (fun n => heapAlloc (granting 0 n) n m heap (2 ^ 64 - 1) true) (m', p) ∧
      ¬ Guarantees m' p (2 ^ 64 - 1) true := by
  obtain ⟨bs, hrep⟩ := wrapMem_rep
  obtain ⟨-, m', p, hret, hnot⟩ := wrapMem_fails
    (show 2 ^ 64 ≤ 2 ^ 64 - 1 + 47 by norm_num) (by norm_num)
  exact ⟨_, _, bs, m', p, hrep, hret, hnot⟩

end Dawos
