import Dawos.HeapSafety
import Dawos.PageAlloc
import Dawos.PageResolve

/-! # The heap lock

The lock of the heap is a flag that a call sets before it does anything, and waits for if it is set.
`heap_realloc` calls `heap_alloc` with the flag set, and `heap_alloc` extends the heap by
`page_alloc`, which calls `mem_alloc_align` for a new page table, and so `heap_alloc` again.

`heapRun_waits` says exactly which calls wait for the flag that they have set themselves; all others
that return clear it (`heapRun_unlocked`), and in a well-formed heap they do return
(`heapRun_returns`). -/

namespace Dawos

/-! ### The code -/

/-- What `page_alloc` reads beside the memory: the PML4 table, `_page_list` and `_page_tree`. -/
structure LoaderVars where
  root : ℕ
  list : ℕ → ℕ
  tree : ℕ

/-- `page_alloc` as the heap calls it, with the tables from `alloc`. -/
def loaderPageAlloc (v : LoaderVars) (alloc : TableAlloc) (fuel : ℕ) : PageAlloc := fun vaddr size m =>
  pageAlloc alloc v.root fuel ⟨⟨m, v.list, v.tree⟩, 0⟩ vaddr size >>= fun r => .ok (r.2, r.1.pool.mem)

/-- `mem_alloc_align` for a page table, when there is a heap; `depth` bounds the calls of it inside
each other. -/
def memAllocAlign (v : LoaderVars) (heap fuel : ℕ) : ℕ → TableAlloc
  | 0 => fun _ _ => .error .fuel
  | depth + 1 => fun _ m =>
      heapAlloc (loaderPageAlloc v (memAllocAlign v heap fuel depth) fuel) fuel m heap (8 * 512) true

/-- `page_alloc` with the tables from the heap. -/
def heapPageAlloc (v : LoaderVars) (heap n : ℕ) : PageAlloc :=
  loaderPageAlloc v (memAllocAlign v heap n (n + 1)) n

/-- A call of the heap. -/
inductive LockCall where
  | alloc (size : ℕ) (align : Bool)
  | realloc (p size : ℕ) (align : Bool)
  | free (p : ℕ)

/-- The memory after a call. -/
def heapRun (v : LoaderVars) (heap n : ℕ) (m : Mem) : LockCall → Except Halt Mem
  | .alloc size align => (heapAlloc (heapPageAlloc v heap n) n m heap size align).map Prod.fst
  | .realloc p size align => (heapRealloc (heapPageAlloc v heap n) n m heap p size align).map Prod.fst
  | .free p => heapFree n m heap p

/-- The calls that need the lock twice: an allocation that finds no block while a table on the path
of the end of the heap is missing, and a reallocation to a size that is not smaller. -/
def Waits (v : LoaderVars) (heap : ℕ) (m : Mem) : LockCall → Prop
  | .alloc size align => 0 < size ∧
      (∃ n, heapSearch n (heapLock m heap) heap (heapBsize (heapSizeAlign size)) align = .ok 0) ∧
      tableAt (heapLock m heap) v.root (heapEndAddr m heap) 3 = none
  | .realloc p size _ => heapAllocSize m p ≤ heapAlign size
  | .free _ => False

/-! ### Errors of a sequence of calls -/

section noWait

variable {σ α β : Type} {x : Except Halt α} {f : α → Except Halt β} {step : σ → σ ⊕ β} {s : σ}
  {n : ℕ} {P : β → Prop}

/-- It does not wait for a lock that it holds. -/
def NoWait (x : Except Halt α) : Prop := x ≠ .error .deadlock

theorem NoWait.ok (a : α) : NoWait (.ok a) := fun h => by cases h

theorem NoWait.bounds : NoWait (.error .bounds : Except Halt α) := fun h => by cases h

theorem NoWait.bind (hx : NoWait x) (hf : ∀ a, NoWait (f a)) : NoWait (x >>= f) := by
  cases x with
  | error e =>
      rw [error_bind]
      exact fun h => hx (by cases h; rfl)
  | ok a => exact hf a

theorem NoWait.ite {p : Prop} [Decidable p] {x y : Except Halt α} (hx : NoWait x) (hy : NoWait y) :
    NoWait (if p then x else y) := by
  split_ifs
  · exact hx
  · exact hy

theorem loop_noWait : NoWait (loop step n s) := by
  induction n generalizing s with
  | zero => exact fun h => by cases h
  | succ n ih =>
      unfold loop
      cases step s with
      | inl s' => exact ih
      | inr b => exact NoWait.ok b

/-- Only the first of two computations may wait. -/
theorem bind_waits (hf : ∀ a, NoWait (f a)) :
    (x >>= f) = .error .deadlock ↔ x = .error .deadlock := by
  cases x with
  | error e =>
      rw [error_bind]
      exact ⟨fun h => by cases h; rfl, fun h => by cases h; rfl⟩
  | ok a => exact ⟨fun h => absurd h (hf a), fun h => by cases h⟩

theorem map_waits {g : α → β} : x.map g = .error .deadlock ↔ x = .error .deadlock := by
  cases x with
  | error e =>
      constructor
      · intro h
        cases h
        rfl
      · intro h
        cases h
        rfl
  | ok a =>
      constructor
      · intro h
        cases h
      · intro h
        cases h

/-- Whatever it returns satisfies `P`. -/
def Yields (P : β → Prop) (x : Except Halt β) : Prop := ∀ b, x = .ok b → P b

theorem Yields.ok {b : β} (h : P b) : Yields P (.ok b) := fun c hc => by
  cases hc
  exact h

theorem Yields.bind (hf : ∀ a, Yields P (f a)) : Yields P (x >>= f) := by
  cases x with
  | error e => exact fun b hb => by cases hb
  | ok a => exact hf a

theorem Yields.map {g : α → β} (hx : Yields (fun a => P (g a)) x) : Yields P (x.map g) := by
  cases x with
  | error e => exact fun b hb => by cases hb
  | ok a => exact .ok (hx a rfl)

theorem Yields.ite {p : Prop} [Decidable p] {x y : Except Halt β} (hx : Yields P x)
    (hy : Yields P y) : Yields P (if p then x else y) := by
  split_ifs
  · exact hx
  · exact hy

end noWait

/-! ### The functions that do not take the lock -/

section calls

variable {m : Mem} {heap block bsize size n k i : ℕ} {align : Bool} {p : PagePool} {pa : PageAlloc}

theorem heapInsert_noWait : NoWait (heapInsert n m heap block) := by
  unfold heapInsert heapTreeInsert
  refine .ite (.ite (.ok _) .bounds) (.bind (.ite (.ite (.ok _) ?_) (.ok _)) fun r => .ok _)
  exact .bind loop_noWait fun m => .ok _

theorem heapRemove_noWait : NoWait (heapRemove m heap block) := by
  unfold heapRemove
  refine .ite ?_ (.ok _)
  match unlinkItem m block with
  | (m, none) => exact .ok _
  | (m, some first) => exact .ite (.ok _) .bounds

theorem heapSearchLists_noWait : NoWait (heapSearchLists n m heap bsize align k i) := by
  induction k generalizing i with
  | zero => exact .ok _
  | succ k ih =>
      unfold heapSearchLists
      refine .ite ih (.ite (.ok _) (.bind loop_noWait fun r => ?_))
      cases r with
      | none => exact ih
      | some b => exact .ok _

theorem heapSearch_noWait : NoWait (heapSearch n m heap bsize align) := by
  unfold heapSearch heapListSearch heapTreeSearch heapTreeSearchAligned
  refine .bind (.ite heapSearchLists_noWait (.ok _)) fun r => ?_
  cases r with
  | some b => exact .ok _
  | none =>
      have htree : ∀ {f : ℕ → Except Halt ℕ} {g : ℕ}, (∀ b, NoWait (f b)) →
          NoWait (if g = 0 then .ok 0 else loop (walkLarger m bsize) n g >>= f) := fun hf =>
        .ite (.ok _) (.bind loop_noWait hf)
      refine .ite (htree fun b => ?_) (htree fun b => ?_)
      · exact .ite (.ok _) loop_noWait
      · exact .ite (.ok _) loop_noWait

theorem heapMergeLeft_noWait : NoWait (heapMergeLeft m heap block) := by
  unfold heapMergeLeft
  exact .ite (.bind heapRemove_noWait fun m => .ok _) (.ok _)

theorem heapMergeRight_noWait : NoWait (heapMergeRight m heap block) := by
  unfold heapMergeRight
  exact .ite (.bind heapRemove_noWait fun m => .ok _) (.ok _)

theorem heapCarve_noWait : NoWait (heapCarve n m heap block align) := by
  unfold heapCarve
  exact .ite (.bind heapInsert_noWait fun m => .ok _) (.ok _)

theorem heapPlace_noWait : NoWait (heapPlace n m heap block bsize) := by
  unfold heapPlace
  exact .ite (.bind heapInsert_noWait fun m => .ok _) (.ok _)

theorem pageFreeSearch_noWait : NoWait (pageFreeSearch n p size) := by
  unfold pageFreeSearch
  dsimp only
  split
  · exact .ok _
  · exact .ite loop_noWait (.ite loop_noWait (.ok _))

/-! ### The functions that take it -/

variable {v : LoaderVars} {alloc : TableAlloc} {s : LoaderPages} {root va t e : ℕ} {err : Halt}

/-- The loop of `page_id_map` stops at the first missing table, if the allocator does. -/
theorem pageTables_stops (ha : ∀ k, alloc k m = .error err) {i t : ℕ} (hi : i ≤ 3)
    (ht : tableAt m root va (3 - i) = some t) (hn : tableAt m root va 3 = none) :
    pageTables alloc va i k m t = .error err := by
  induction i generalizing t with
  | zero =>
      rw [Nat.sub_zero, hn] at ht
      cases ht
  | succ i ih =>
      have hlvl : 4 - (3 - (i + 1)) = i + 2 := by omega
      have hnext : 3 - (i + 1) + 1 = 3 - i := by omega
      have hstep : tableAt m root va (3 - i) =
          if pmPresent (pmEntry m t (pagePmlIdx va (i + 2))) then
            some (pageAddress m t (pagePmlIdx va (i + 2)))
          else none := by
        rw [← hnext, tableAt_succ, ht, hlvl]
        rfl
      unfold pageTables
      dsimp only
      split_ifs at hstep ⊢
      · exact ih (by omega) hstep
      · rw [ha, error_bind]

/-- `page_alloc` waits iff it needs a table, where making one waits. -/
theorem pageAlloc_waits (ha : ∀ k, alloc k s.pool.mem = .error .deadlock) (hva : va < 2 ^ 64) :
    pageAlloc alloc root n s va size = .error .deadlock ↔ tableAt s.pool.mem root va 3 = none := by
  have hroot : tableAt s.pool.mem root (pageCanonical (pageAlign va)) (3 - 3) = some root := rfl
  have hsearch : ∀ s : LoaderPages, NoWait (pageFreeSearch n s.pool (pageSizeAlign size) >>=
      fun pages => (.ok (s, if pages ≠ 0 then pageSizeAlign size else 0) : Except Halt _)) :=
    fun s => .bind pageFreeSearch_noWait fun _ => .ok _
  unfold pageAlloc
  dsimp only
  cases ht : tableAt s.pool.mem root va 3 with
  | none =>
      have hstop : pageIdMap alloc s.calls s.pool.mem root va va = .error .deadlock := by
        unfold pageIdMap
        dsimp only
        rw [pageTables_stops ha le_rfl hroot ((tableAt_vaddr hva (by omega)).trans ht), error_bind]
      rw [if_pos (pageResolve_none ht), hstop, error_bind]
      exact iff_of_true rfl rfl
  | some t =>
      have htab : pageTables alloc (pageCanonical (pageAlign va)) 3 s.calls s.pool.mem root =
          .ok (s.calls, s.pool.mem, t) :=
        pageTables_present le_rfl hroot ((tableAt_vaddr hva (by omega)).trans ht)
      have hmap : NoWait (pageIdMap alloc s.calls s.pool.mem root va va) := by
        unfold pageIdMap
        dsimp only
        rw [htab, ok_bind]
        exact .ite (.ok _) (.ok _)
      refine iff_of_false ?_ (fun h => by cases h)
      exact NoWait.ite (.bind hmap fun r =>
        .ite (hsearch ⟨{ s.pool with mem := r.2.1 }, r.1⟩) (.ok _)) (hsearch s)

/-- With the lock set `mem_alloc_align` waits. -/
theorem memAllocAlign_waits (hlock : heapLocked m heap ≠ 0) (i : ℕ) :
    memAllocAlign v heap n (k + 1) i m = .error .deadlock := by
  unfold memAllocAlign heapAlloc heapWaitLock
  rw [if_pos hlock, error_bind]

/-- Called with the lock set, `page_alloc` waits iff it needs a table. -/
theorem heapPageAlloc_waits (hlock : heapLocked m heap ≠ 0) (hva : va < 2 ^ 64) :
    heapPageAlloc v heap n va size m = .error .deadlock ↔ tableAt m v.root va 3 = none := by
  unfold heapPageAlloc loaderPageAlloc
  rw [bind_waits fun r => .ok _]
  exact pageAlloc_waits (s := ⟨⟨m, v.list, v.tree⟩, 0⟩) (memAllocAlign_waits hlock) hva

/-- `heap_alloc` waits iff no block is found and `page_alloc` waits. -/
theorem heapAlloc_waits (hlock : heapLocked m heap = 0) :
    heapAlloc pa n m heap size align = .error .deadlock ↔ 0 < size ∧
      heapSearch n (heapLock m heap) heap (heapBsize (heapSizeAlign size)) align = .ok 0 ∧
      pa (heapEndAddr (heapLock m heap) heap) (heapBsize (heapSizeAlign size)) (heapLock m heap) =
        .error .deadlock := by
  have hrest : ∀ r : Mem × ℕ, NoWait (if r.2 ≠ 0 then
      heapCarve n r.1 heap r.2 align >>= fun c => heapPlace n c.1 heap c.2
        (heapBsize (heapSizeAlign size)) >>= fun m =>
          (.ok (heapUnlock m heap, heapGetPayload c.2) : Except Halt (Mem × ℕ))
      else .ok (heapUnlock r.1 heap, 0)) := fun r =>
    .ite (.bind heapCarve_noWait fun c => .bind heapPlace_noWait fun m => .ok _) (.ok _)
  have hextend : ∀ bsize, heapExtend pa (heapLock m heap) heap bsize = .error .deadlock ↔
      pa (heapEndAddr (heapLock m heap) heap) bsize (heapLock m heap) = .error .deadlock := by
    intro bsize
    unfold heapExtend
    exact bind_waits fun r => .ite heapMergeLeft_noWait (.ok _)
  have htake : ∀ bsize, heapTake pa n (heapLock m heap) heap bsize align = .error .deadlock ↔
      heapSearch n (heapLock m heap) heap bsize align = .ok 0 ∧
        heapExtend pa (heapLock m heap) heap bsize = .error .deadlock := by
    intro bsize
    unfold heapTake
    cases hs : heapSearch n (heapLock m heap) heap bsize align with
    | error e =>
        rw [error_bind]
        refine iff_of_false (fun h => ?_) (fun h => by cases h.1)
        cases h
        exact heapSearch_noWait hs
    | ok b =>
        rw [ok_bind]
        by_cases hb : b = 0
        · rw [hb, if_pos rfl]
          exact ⟨fun h => ⟨rfl, h⟩, fun h => h.2⟩
        · rw [if_neg hb]
          refine iff_of_false ?_ fun h => hb (Except.ok.inj h.1)
          exact NoWait.bind heapRemove_noWait fun m => .ok _
  unfold heapAlloc
  rw [heapWaitLock_clear hlock, ok_bind]
  by_cases hs : 0 < size
  · rw [if_pos hs]
    dsimp only
    rw [← hextend, ← htake]
    exact (bind_waits hrest).trans ⟨fun h => ⟨hs, h⟩, fun h => h.2⟩
  · rw [if_neg hs]
    exact iff_of_false (fun h => by cases h) fun h => hs h.1

theorem heapLock_end (m : Mem) (heap : ℕ) :
    heapEndAddr (heapLock m heap) heap = heapEndAddr m heap :=
  (heapLock_frame m heap).rd fun x h1 h2 hx => by
    unfold lockBytes at hx
    omega

theorem heapRun_alloc_waits (hlock : heapLocked m heap = 0) :
    heapRun v heap n m (.alloc size align) = .error .deadlock ↔ 0 < size ∧
      heapSearch n (heapLock m heap) heap (heapBsize (heapSizeAlign size)) align = .ok 0 ∧
      tableAt (heapLock m heap) v.root (heapEndAddr m heap) 3 = none := by
  have hlocked : heapLocked (heapLock m heap) heap ≠ 0 := by
    rw [heapLock_locked]
    exact one_ne_zero
  have hpa : heapPageAlloc v heap n (heapEndAddr m heap) (heapBsize (heapSizeAlign size))
      (heapLock m heap) = .error .deadlock ↔
        tableAt (heapLock m heap) v.root (heapEndAddr m heap) 3 = none :=
    heapPageAlloc_waits hlocked (rd_lt _ _)
  rw [heapRun, map_waits, heapAlloc_waits hlock, heapLock_end, hpa]

theorem heapRun_realloc_waits (hlock : heapLocked m heap = 0) {ptr : ℕ} :
    heapRun v heap n m (.realloc ptr size align) = .error .deadlock ↔
      heapAllocSize m ptr ≤ heapAlign size := by
  rw [heapRun, map_waits, heapRealloc_eq hlock]
  split_ifs with h
  · exact iff_of_false (fun h => by cases h) (by omega)
  · exact iff_of_true rfl (by omega)

theorem heapFree_noWait (hlock : heapLocked m heap = 0) {ptr : ℕ} : NoWait (heapFree n m heap ptr) := by
  unfold heapFree
  refine .ite (.ite ?_ (.ok _)) (.ok _)
  rw [heapWaitLock_clear hlock, ok_bind]
  exact .bind heapMergeLeft_noWait fun _ => .bind heapMergeRight_noWait fun _ =>
    .bind heapInsert_noWait fun _ => .ok _

/-- Exactly the calls of `Waits` wait for the lock that they have set. -/
theorem heapRun_waits (hlock : heapLocked m heap = 0) (c : LockCall) :
    (∃ n, heapRun v heap n m c = .error .deadlock) ↔ Waits v heap m c := by
  cases c with
  | alloc size align =>
      constructor
      · rintro ⟨n, h⟩
        obtain ⟨hs, hsearch, ht⟩ := (heapRun_alloc_waits hlock).mp h
        exact ⟨hs, ⟨n, hsearch⟩, ht⟩
      · rintro ⟨hs, ⟨n, hsearch⟩, ht⟩
        exact ⟨n, (heapRun_alloc_waits hlock).mpr ⟨hs, hsearch, ht⟩⟩
  | realloc ptr size align =>
      exact ⟨fun ⟨n, h⟩ => (heapRun_realloc_waits hlock).mp h, fun h =>
        ⟨0, (heapRun_realloc_waits hlock).mpr h⟩⟩
  | free ptr => exact iff_of_false (fun ⟨n, h⟩ => heapFree_noWait hlock h) id

/-- They never return. -/
theorem Waits.stops (hlock : heapLocked m heap = 0) {c : LockCall} (h : Waits v heap m c) :
    Stops (fun n => heapRun v heap n m c) .deadlock := by
  cases c with
  | alloc size align =>
      obtain ⟨hs, ⟨n, hsearch⟩, ht⟩ := h
      have hsteady := heapSearch_steady (heapLock m heap) heap (heapBsize (heapSizeAlign size)) align
      filter_upwards [hsteady.returns hsearch] with k hk
      exact (heapRun_alloc_waits hlock).mpr ⟨hs, hk, ht⟩
  | realloc ptr size align =>
      exact Filter.Eventually.of_forall fun n => (heapRun_realloc_waits hlock).mpr h
  | free ptr => exact h.elim

/-- A call that returns has cleared the lock. -/
theorem heapRun_unlocked (hlock : heapLocked m heap = 0) (c : LockCall) :
    Yields (fun m' => heapLocked m' heap = 0) (heapRun v heap n m c) := by
  cases c with
  | alloc size align =>
      rw [heapRun, heapAlloc]
      refine .map ?_
      refine .bind fun m => .ite (.bind fun r => .ite (.bind fun r => .bind fun m => ?_) ?_) ?_
      all_goals exact .ok (heapUnlock_locked _ heap)
  | realloc p size align =>
      rw [heapRun, heapRealloc_eq hlock]
      refine .map ?_
      exact .ite (.ok hlock) fun r hr => by cases hr
  | free p =>
      rw [heapRun, heapFree]
      refine .ite (.ite (.bind fun m => .bind fun r => .bind fun m => .bind fun m => ?_) ?_) ?_
      · exact .ok (heapUnlock_locked m heap)
      · exact .ok hlock
      · exact .ok hlock

/-! ### Calls that return -/

variable {bs : List Block}

/-- What the heap relies on in a call: that its own operations return, and that `page_alloc` answers
where it does not wait. -/
def LockCallOk (v : LoaderVars) (heap : ℕ) (m : Mem) (bs : List Block) : LockCall → Prop
  | .alloc size align => ∃ g, AllocOk m heap size align g ∧
      (g = 0 ∨ g = pageSizeAlign (heapBsize (heapSizeAlign size))) ∧
      (tableAt (heapLock m heap) v.root (heapEndAddr m heap) 3 ≠ none →
        Grants (heapPageAlloc v heap) (heapLock m heap) heap (heapBsize (heapSizeAlign size)) g)
  | .realloc _ _ _ => True
  | .free p => p ≠ 0 → heapCheckHeader m (heapPayloadHeader p) = true →
      ∃ b ∈ usedBlocks bs, p = b.addr + 16 ∧ FreeOk m heap p

/-- An allocation for which the search finds a block does not call `page_alloc`. -/
theorem heapAlloc_found {pa' : PageAlloc} (hlock : heapLocked m heap = 0)
    (hs : heapSearch n (heapLock m heap) heap (heapBsize (heapSizeAlign size)) align ≠ .ok 0) :
    heapAlloc pa n m heap size align = heapAlloc pa' n m heap size align := by
  have htake : heapTake pa n (heapLock m heap) heap (heapBsize (heapSizeAlign size)) align =
      heapTake pa' n (heapLock m heap) heap (heapBsize (heapSizeAlign size)) align := by
    unfold heapTake
    cases hsearch : heapSearch n (heapLock m heap) heap (heapBsize (heapSizeAlign size)) align with
    | error e => rfl
    | ok b =>
        have hb : b ≠ 0 := by
          rintro rfl
          exact hs hsearch
        rw [ok_bind, ok_bind, if_neg hb, if_neg hb]
  unfold heapAlloc
  rw [heapWaitLock_clear hlock, ok_bind, ok_bind]
  dsimp only
  rw [htake]

/-- In a well-formed heap all other calls return. -/
theorem heapRun_returns (h : HeapRep m heap bs (freeAddrs bs)) (hlock : heapLocked m heap = 0)
    {c : LockCall} (hok : LockCallOk v heap m bs c) (hw : ¬ Waits v heap m c) :
    ∃ m', Returns (fun n => heapRun v heap n m c) m' := by
  cases c with
  | alloc size align =>
      obtain ⟨g, halloc, hg, hpa⟩ := hok
      suffices hret : ∃ r, Returns (fun n => heapAlloc (heapPageAlloc v heap n) n m heap size align) r by
        obtain ⟨r, hr⟩ := hret
        refine ⟨r.1, ?_⟩
        filter_upwards [hr] with n hn
        rw [heapRun, hn]
        rfl
      by_cases hs0 : size = 0
      · rw [hs0]
        exact ⟨_, Returns.of_eq fun n => heapAlloc_zero hlock⟩
      · obtain ⟨hsz, -⟩ := halloc.resolve_left hs0
        have hbsize := heapBsize_eq hsz
        have served : ∀ {pa : ℕ → PageAlloc},
            Grants pa (heapLock m heap) heap (heapBsize (heapSizeAlign size)) g →
            ∃ r, Returns (fun n => heapAlloc (pa n) n m heap size align) r := by
          intro pa hgrant
          obtain ⟨m', q, hret, -⟩ := heapAlloc_spec h hlock halloc
            (hgrant.pageGrant (by rw [hbsize, HEAP_LIST_MIN]; omega) (by rw [hbsize]; omega))
            fun x hx => h.outside x (by rwa [heapLock_end] at hx)
          exact ⟨_, hret⟩
        by_cases ht : tableAt (heapLock m heap) v.root (heapEndAddr m heap) 3 = none
        · obtain ⟨r, hr⟩ := served (granting_grants (heapLock m heap) hg)
          refine ⟨r, hr.congr fun n => heapAlloc_found hlock fun hsearch => ?_⟩
          exact hw ⟨Nat.pos_of_ne_zero hs0, ⟨n, hsearch⟩, ht⟩
        · exact served (hpa ht)
  | realloc ptr size align =>
      have hlt : heapAlign size < heapAllocSize m ptr := Nat.not_le.mp hw
      refine ⟨m, Returns.of_eq fun n => ?_⟩
      rw [heapRun, heapRealloc_eq hlock, if_pos hlt]
      rfl
  | free ptr =>
      by_cases hp : ptr = 0
      · refine ⟨m, Returns.of_eq fun n => ?_⟩
        rw [heapRun, heapFree, if_neg (not_not.mpr hp)]
      · by_cases hc : heapCheckHeader m (heapPayloadHeader ptr) = true
        · obtain ⟨b, hb, hbp, hfree⟩ := hok hp hc
          obtain ⟨m', bs', hret, -⟩ := heapFree_spec h hlock hb hbp hfree
          exact ⟨_, hret⟩
        · refine ⟨m, Returns.of_eq fun n => ?_⟩
          rw [heapRun, heapFree, if_pos hp]
          dsimp only
          rw [if_neg hc]

/-- **A call waits for the lock that it has set itself exactly if `Waits` holds of it; it clears the
lock whenever it returns, and in a well-formed heap it returns exactly if it does not wait.** -/
theorem heap_lock (v : LoaderVars) (hlock : heapLocked m heap = 0) (c : LockCall) :
    ((∃ n, heapRun v heap n m c = .error .deadlock) ↔ Waits v heap m c) ∧
      (∀ n m', heapRun v heap n m c = .ok m' → heapLocked m' heap = 0) ∧
      ∀ bs, HeapRep m heap bs (freeAddrs bs) → LockCallOk v heap m bs c →
        ((∃ m', Returns (fun n => heapRun v heap n m c) m' ∧ heapLocked m' heap = 0) ↔
          ¬ Waits v heap m c) := by
  refine ⟨heapRun_waits hlock c, fun n => heapRun_unlocked hlock c, fun bs hrep hok => ?_⟩
  constructor
  · rintro ⟨m', hret, -⟩ hw
    exact hret.not_stops (hw.stops hlock)
  · intro hw
    obtain ⟨m', hret⟩ := heapRun_returns hrep hlock hok hw
    obtain ⟨n, hn⟩ := hret.exists
    exact ⟨m', hret, heapRun_unlocked hlock c m' hn⟩

end calls

/-! ### A new heap -/

/-- The loader with an empty PML4 table and no free pages. -/
def emptyLoader : LoaderVars := ⟨0x1000, fun _ => 0, 0⟩

/-- The page after the heap has no tables, and the heap has no block for 8192 bytes. -/
theorem pageHeap_grow :
    tableAt (heapLock (madeHeap 0x104000 0x100000).mem 0x104000) emptyLoader.root
        (heapEndAddr (madeHeap 0x104000 0x100000).mem 0x104000) 3 = none ∧
      heapSearch 9 (heapLock (madeHeap 0x104000 0x100000).mem 0x104000) 0x104000
        (heapBsize (heapSizeAlign 8192)) false = .ok 0 := by
  rw [pageHeap_eq]
  decide +kernel

theorem pageHeap_unlocked : heapLocked (madeHeap 0x104000 0x100000).mem 0x104000 = 0 := by
  obtain ⟨bs, hinv, -⟩ := pageHeap_created.inv (createOk_page (by decide) (by decide))
  exact hinv.lock

/-- A request that a block is found for. -/
theorem heap_lock_new : ∃ m', Returns (fun n => heapRun emptyLoader 0x104000 n
    (madeHeap 0x104000 0x100000).mem (.alloc 100 false)) m' ∧ heapLocked m' 0x104000 = 0 := by
  obtain ⟨bs, hinv, -⟩ := pageHeap_created.inv (createOk_page (by decide) (by decide))
  obtain ⟨hok, hne, -⟩ := pageHeap_facts.2.1
  refine ((heap_lock emptyLoader pageHeap_unlocked (.alloc 100 false)).2.2 bs hinv.rep
    ⟨0, pageHeap_allocOk, .inl rfl, fun h => absurd pageHeap_grow.1 h⟩).mpr ?_
  rintro ⟨-, ⟨n, hn⟩, -⟩
  have hsteady := heapSearch_steady (heapLock (madeHeap 0x104000 0x100000).mem 0x104000) 0x104000
    (heapBsize (heapSizeAlign 100)) false
  exact hne ((hsteady.returns (resultOf_eq hok)).unique (hsteady.returns hn))

/-- A request for more than the heap has, and a reallocation, wait for the lock that they hold. -/
theorem heap_lock_deadlock : ∃ (v : LoaderVars) (s : HeapState), Created 0x104000 PAGE_SIZE 0x100000 s ∧
    heapLocked s.mem 0x104000 = 0 ∧
    Stops (fun n => heapRun v 0x104000 n s.mem (.alloc 8192 false)) .deadlock ∧
    Stops (fun n => heapRun v 0x104000 n s.mem (.realloc 0 100 false)) .deadlock := by
  refine ⟨emptyLoader, madeHeap 0x104000 0x100000, pageHeap_created, pageHeap_unlocked, ?_, ?_⟩
  · exact Waits.stops pageHeap_unlocked ⟨by norm_num, ⟨9, pageHeap_grow.2⟩, pageHeap_grow.1⟩
  · exact Waits.stops pageHeap_unlocked (Nat.zero_le _)

end Dawos
