import Dawos.HeapSafety

/-! # Reallocation

`heap_realloc` either returns its argument or calls `heap_alloc` with the lock of the heap taken,
and waits forever.  `page_alloc` and the state of the lock do not matter for this. -/

namespace Dawos

/-- The payload of a used block. -/
def LivePtr (bs : List Block) (p : ℕ) : Prop := ∃ b ∈ usedBlocks bs, b.addr + 16 = p

/-- What a reallocation owes its caller: it returns; a pointer `r` that is not null is large enough
and aligned as requested, holds the old contents, and `p` is released exactly if it is another
pointer; with a null pointer `p` is still live, with its contents. -/
def Reallocates (pa : ℕ → PageAlloc) (m : Mem) (heap p size : ℕ) (align : Bool) : Prop :=
  ∃ m' r, Returns (fun n => heapRealloc (pa n) n m heap p size align) (m', r) ∧
    (r ≠ 0 → size ≤ heapAllocSize m' r ∧ (align = true → r % PAGE_SIZE = 0) ∧
      (∀ i < min (heapAllocSize m p) size, m' (r + i) = m (p + i)) ∧
      ∃ bs', HeapRep m' heap bs' (freeAddrs bs') ∧ (LivePtr bs' p ↔ r = p)) ∧
    (r = 0 → (∀ i < heapAllocSize m p, m' (p + i) = m (p + i)) ∧
      ∃ bs', HeapRep m' heap bs' (freeAddrs bs') ∧ LivePtr bs' p)

section realloc

variable {pa : ℕ → PageAlloc} {pageAlloc : PageAlloc} {m : Mem} {heap p size n : ℕ} {align : Bool}
  {bs : List Block} {b : Block}

/-- Growing waits for a lock, its own if not another one. -/
theorem heapRealloc_grow (h : heapAllocSize m p ≤ heapAlign size) :
    heapRealloc pageAlloc n m heap p size align = .error .deadlock := by
  by_cases hlock : heapLocked m heap = 0
  · rw [heapRealloc_eq hlock, if_neg (not_lt.mpr h)]
  · unfold heapRealloc heapWaitLock
    dsimp only
    rw [if_neg (not_lt.mpr h), if_pos hlock, error_bind]

theorem heapRealloc_keep (h : heapAlign size < heapAllocSize m p) :
    heapRealloc pageAlloc n m heap p size align = .ok (m, p) := if_pos h

/-- The capacity of a live pointer exceeds a size if it exceeds the size rounded down. -/
theorem LivePtr.capacity (hrep : HeapRep m heap bs (freeAddrs bs)) (hp : LivePtr bs p)
    (hs : size < 2 ^ 64) (h : heapAlign size < heapAllocSize m p) : size < heapAllocSize m p := by
  obtain ⟨b, hb, rfl⟩ := hp
  have hmin := b.size_min
  have hd := b.size_dvd
  rw [hrep.allocSize hb.1] at h ⊢
  rw [heapAlign_eq hs] at h
  omega

/-- **A reallocation does what it owes exactly if the pointer can stay where it is**: the rounded
size is below the capacity, and the pointer is aligned if that is requested. -/
theorem heap_realloc (hrep : HeapRep m heap bs (freeAddrs bs)) (hp : LivePtr bs p)
    (hs : size < 2 ^ 64) : Reallocates pa m heap p size align ↔
      heapAlign size < heapAllocSize m p ∧ (align = true → p % PAGE_SIZE = 0) := by
  have hp0 : p ≠ 0 := by
    obtain ⟨b, -, rfl⟩ := hp
    omega
  by_cases h : heapAlign size < heapAllocSize m p
  · have hkeep : Returns (fun n => heapRealloc (pa n) n m heap p size align) (m, p) :=
      Returns.of_eq fun _ => heapRealloc_keep h
    constructor
    · rintro ⟨m', r, hret, hr, -⟩
      obtain ⟨rfl, rfl⟩ := Prod.mk.inj (hret.unique hkeep)
      exact ⟨h, (hr hp0).2.1⟩
    · rintro ⟨-, halign⟩
      refine ⟨m, p, hkeep, fun _ => ⟨?_, halign, fun _ _ => rfl, bs, hrep, iff_of_true hp rfl⟩,
        fun h0 => absurd h0 hp0⟩
      exact (hp.capacity hrep hs h).le
  · refine iff_of_false ?_ fun hc => h hc.1
    rintro ⟨m', r, hret, -⟩
    have hstop : Stops (fun n => heapRealloc (pa n) n m heap p size align) .deadlock :=
      Filter.Eventually.of_forall fun _ => heapRealloc_grow (not_lt.mp h)
    exact hret.not_stops hstop

end realloc

/-! ### A pointer of 112 bytes -/

/-- A heap of one page with a live pointer. -/
theorem heap_one_live : ∃ bs, HeapRep
    (allocState 0x104000 100 false 0 (madeHeap 0x104000 0x100000)).mem 0x104000 bs (freeAddrs bs) ∧
      LivePtr bs 0x104230 := by
  obtain ⟨bs, hinv, -⟩ := pageHeap_created.inv (createOk_page (by decide) (by decide))
  obtain ⟨bs', hinv'⟩ := heap_one_alloc.inv ⟨bs, hinv⟩
  exact ⟨bs', hinv'.rep, (hinv'.live _).mp pageHeap_facts.2.2.2.1⟩

/-- Its capacity. -/
theorem heap_one_capacity : heapAllocSize
    (allocState 0x104000 100 false 0 (madeHeap 0x104000 0x100000)).mem 0x104230 = 112 :=
  pageHeap_facts.2.2.2.2

/-- Shrinking keeps the pointer. -/
theorem heap_realloc_shrink : Reallocates (fun n => granting 0 n)
    (allocState 0x104000 100 false 0 (madeHeap 0x104000 0x100000)).mem 0x104000 0x104230 50 false := by
  obtain ⟨bs, hrep, hp⟩ := heap_one_live
  refine (heap_realloc hrep hp (by norm_num)).mpr ⟨?_, fun h => nomatch h⟩
  rw [heap_one_capacity]
  decide

/-- Growing deadlocks. -/
theorem heap_realloc_deadlock : ∃ m heap bs p, HeapRep m heap bs (freeAddrs bs) ∧ LivePtr bs p ∧
    ¬ Reallocates (fun n => granting 0 n) m heap p 200 false := by
  obtain ⟨bs, hrep, hp⟩ := heap_one_live
  refine ⟨_, _, bs, _, hrep, hp, fun ⟨m', r, hret, _⟩ => ?_⟩
  refine hret.not_stops (e := .deadlock) (Filter.Eventually.of_forall fun _ => heapRealloc_grow ?_)
  rw [heap_one_capacity]
  decide

end Dawos
