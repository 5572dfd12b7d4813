import Dawos.PageMap

/-! # The first page tables

`setup_pages` of `main32.c` builds the tables for Long Mode in 32-bit code: one PML4 table and three
arrays of tables behind it, taken from the placement address.  Pointers and the placement address
are 32-bit words.

The entries of each array are the entries of its tables one after the other, so the walk of the
processor reads entry `va / 2 ^ 39` of the first array, then entry `va / 2 ^ 30` of the second, and
so on (`linear_step`). -/

namespace Dawos

/-- The value a 32-bit register keeps of `n`. -/
def u32 (n : ℕ) : ℕ := n % 2 ^ 32

/-- `sizeof(pm_t) * 512`. -/
def PM_TABLE_SIZE : ℕ := 8 * 512

/-- The flags present, writable and write-through. -/
def PM_FLAGS32 : ℕ := 0x0B

/-- `mem_alloc` of `main32.c` with alignment: the block and the placement address after it. -/
def memAlloc32 (placementAddr32 psize : ℕ) : ℕ × ℕ :=
  let aligned := u32 (placementAddr32 + PAGE_IMASK) / PAGE_SIZE * PAGE_SIZE
  (aligned, u32 (aligned + psize))

/-- The tables, and the placement address behind them. -/
structure PageAreas where
  pml4 : ℕ
  pml3 : ℕ
  pml2 : ℕ
  pml1 : ℕ
  placementAddr32 : ℕ

/-- The number of pages, tables, directories and drawers for an amount of memory. -/
def pageCount (ammount : ℕ) : ℕ := ammount / PAGE_SIZE
def tableCount (ammount : ℕ) : ℕ := (pageCount ammount + 511) / 512
def directoryCount (ammount : ℕ) : ℕ := (tableCount ammount + 511) / 512
def drawerCount (ammount : ℕ) : ℕ := (directoryCount ammount + 511) / 512

/-- Position the page table structures in memory. -/
def pageAreas (placementAddr32 ammount : ℕ) : PageAreas :=
  let pml4 := memAlloc32 placementAddr32 PM_TABLE_SIZE
  let pml3 := memAlloc32 pml4.2 (u32 (PM_TABLE_SIZE * u32 (drawerCount ammount)))
  let pml2 := memAlloc32 pml3.2 (u32 (PM_TABLE_SIZE * u32 (directoryCount ammount)))
  let pml1 := memAlloc32 pml2.2 (u32 (PM_TABLE_SIZE * u32 (tableCount ammount)))
  ⟨pml4.1, pml3.1, pml2.1, pml1.1, pml1.2⟩

/-- The loop that sets the first `n` entries behind `pt` to the pages `ptr 0`, `ptr 1`, and so on. -/
def setEntries (pt : ℕ) (ptr : ℕ → ℕ) (m : Mem) : ℕ → Mem
  | 0 => m
  | n + 1 =>
      let m := setEntries pt ptr m n
      wr m (u32 (pt + 8 * n)) (pmSet (rd m (u32 (pt + 8 * n))) (pageFrame (ptr n)) PM_FLAGS32)

/-- Set up the tables: the memory after it. -/
def setupPages (m : Mem) (placementAddr32 ammount : ℕ) : Mem :=
  let areas := pageAreas placementAddr32 ammount
  -- clear the memory region where the page tables will reside
  let m := fill m areas.pml4 0 PM_TABLE_SIZE
  let m := fill m areas.pml3 0 (u32 (PM_TABLE_SIZE * u32 (drawerCount ammount)))
  let m := fill m areas.pml2 0 (u32 (PM_TABLE_SIZE * u32 (directoryCount ammount)))
  let m := fill m areas.pml1 0 (u32 (PM_TABLE_SIZE * u32 (tableCount ammount)))
  let m := setEntries areas.pml1 (fun p => u64 (p * PAGE_SIZE)) m (pageCount ammount)
  let m := setEntries areas.pml2 (fun t => areas.pml1 + PM_TABLE_SIZE * t) m (tableCount ammount)
  let m := setEntries areas.pml3 (fun d => areas.pml2 + PM_TABLE_SIZE * d) m (directoryCount ammount)
  setEntries areas.pml4 (fun r => areas.pml3 + PM_TABLE_SIZE * r) m (drawerCount ammount)

/-! ### Arrays of entries -/

section entries

variable {m : Mem} {pt a n c c' b b' d root va : ℕ} {ptr : ℕ → ℕ}

/-- The loop sets its entries and no other words. -/
theorem rd_setEntries (hpt : pt % 8 = 0) (ha : a % 8 = 0) (hn : pt + 8 * n ≤ 2 ^ 32) :
    rd (setEntries pt ptr m n) a =
      if pt ≤ a ∧ a < pt + 8 * n then
        pmSet (rd m a) (pageFrame (ptr ((a - pt) / 8))) PM_FLAGS32
      else rd m a := by
  induction n with
  | zero =>
      have hne : ¬ (pt ≤ a ∧ a < pt + 8 * 0) := by omega
      rw [if_neg hne]
      rfl
  | succ n ih =>
      have hw : u32 (pt + 8 * n) = pt + 8 * n := Nat.mod_eq_of_lt (by omega)
      have hlt : ∀ e f, pmSet e f PM_FLAGS32 % 2 ^ 64 = pmSet e f PM_FLAGS32 := fun e f =>
        Nat.mod_eq_of_lt (pmSet_lt (by norm_num [PM_FLAGS32]))
      unfold setEntries
      dsimp only
      rw [hw, rd_wr _ _ (by omega), hlt]
      by_cases he : a = pt + 8 * n
      · subst he
        have hold := ih (by omega)
        rw [if_neg (by omega)] at hold
        have hidx : (pt + 8 * n - pt) / 8 = n := by omega
        rw [if_pos rfl, if_pos (by omega), hold, hidx]
      · rw [if_neg he, ih (by omega)]
        have hiff : (pt ≤ a ∧ a < pt + 8 * n) ↔ (pt ≤ a ∧ a < pt + 8 * (n + 1)) := by omega
        simp only [hiff]

theorem rd_setEntries_at {i : ℕ} (hpt : pt % 8 = 0) (hn : pt + 8 * n ≤ 2 ^ 32) :
    rd (setEntries pt ptr m n) (pt + 8 * i) =
      if i < n then pmSet (rd m (pt + 8 * i)) (pageFrame (ptr i)) PM_FLAGS32
      else rd m (pt + 8 * i) := by
  have hiff : pt ≤ pt + 8 * i ∧ pt + 8 * i < pt + 8 * n ↔ i < n := by omega
  have hidx : (pt + 8 * i - pt) / 8 = i := by omega
  rw [rd_setEntries hpt (by omega) hn, hidx]
  simp only [hiff]

theorem rd_setEntries_off (hpt : pt % 8 = 0) (ha : a % 8 = 0) (hn : pt + 8 * n ≤ 2 ^ 32)
    (h : a < pt ∨ pt + 8 * n ≤ a) : rd (setEntries pt ptr m n) a = rd m a := by
  rw [rd_setEntries hpt ha hn, if_neg (by omega)]

/-- A word after the words behind `b` have been cleared. -/
theorem rd_clear {len : ℕ} (hb : b % 8 = 0) (hlen : len % 8 = 0) (ha : a % 8 = 0) :
    rd (fill m b 0 len) a = if b ≤ a ∧ a < b + len then 0 else rd m a := by
  by_cases h : b ≤ a ∧ a < b + len
  · rw [if_pos h]
    exact rdN_fill_zero m h.1 (by omega)
  · rw [if_neg h]
    apply rd_congr
    intro x h1 h2
    have hx : ¬ (b ≤ x ∧ x < b + len) := by omega
    rw [fill, if_neg hx]

/-- One level of the walk through an array of tables. -/
theorem linear_step (hd : d ≤ 3) (hva : va < 2 ^ 48)
    (ht : tableAt m root va d = some (b + 4096 * (va / 2 ^ (48 - 9 * d))))
    (hc : va / 2 ^ (48 - 9 * d) < c)
    (harr : ∀ i < 512 * c, rd m (b + 8 * i) =
      if i < c' then pmSet 0 (pageFrame (b' + 4096 * i)) PM_FLAGS32 else 0)
    (hb' : b' % 4096 = 0) (hlt : b' + 4096 * c' ≤ 2 ^ 52) :
    tableAt m root va (d + 1) = if va / 2 ^ (48 - 9 * (d + 1)) < c' then
      some (b' + 4096 * (va / 2 ^ (48 - 9 * (d + 1)))) else none := by
  have hpre := @pre_succ va d hd
  unfold pre at hpre
  rw [Nat.mod_eq_of_lt hva] at hpre
  have hidx := @pagePmlIdx_lt va (4 - d)
  have haddr : b + 4096 * (va / 2 ^ (48 - 9 * d)) + 8 * pagePmlIdx va (4 - d) =
      b + 8 * (va / 2 ^ (48 - 9 * (d + 1))) := by omega
  have hentry := harr (va / 2 ^ (48 - 9 * (d + 1))) (by omega)
  rw [tableAt_succ, ht, Option.bind_some]
  unfold pageAddress pmEntry
  rw [haddr, hentry]
  by_cases hi : va / 2 ^ (48 - 9 * (d + 1)) < c'
  · rw [if_pos hi, if_pos hi, if_pos (pmSet_present (by decide)),
      pmSet_frame (by norm_num [PM_FLAGS32]) (by omega)]
    exact congrArg some (by omega)
  · rw [if_neg hi, if_neg hi]
    rfl

end entries

/-! ### The result -/

/-- The number of tables. -/
def tablesTotal (ammount : ℕ) : ℕ :=
  1 + drawerCount ammount + directoryCount ammount + tableCount ammount

/-- The tables from `PADDR_LOC` on end below 4GB. -/
def TablesFit (ammount : ℕ) : Prop := PADDR_LOC + PM_TABLE_SIZE * tablesTotal ammount < 2 ^ 32

section result

variable {ammount va : ℕ}

/-- The arrays hold the tables of the next level. -/
theorem counts_le (hfit : TablesFit ammount) :
    pageCount ammount ≤ 512 * tableCount ammount ∧
      tableCount ammount ≤ 512 * directoryCount ammount ∧
      directoryCount ammount ≤ 512 * drawerCount ammount ∧ drawerCount ammount ≤ 512 ∧
      PADDR_LOC + 4096 * (1 + drawerCount ammount + directoryCount ammount + tableCount ammount) <
        2 ^ 32 := by
  have hfit' : PADDR_LOC + 4096 * (1 + drawerCount ammount + directoryCount ammount +
    tableCount ammount) < 2 ^ 32 := hfit
  refine ⟨?_, ?_, ?_, ?_, hfit'⟩
  · unfold tableCount
    omega
  · unfold directoryCount
    omega
  · unfold drawerCount
    omega
  · rw [drawerCount, directoryCount] at hfit' ⊢
    omega

/-- The areas follow one another. -/
theorem pageAreas_eq (hfit : TablesFit ammount) : pageAreas PADDR_LOC ammount =
    ⟨PADDR_LOC, PADDR_LOC + 4096, PADDR_LOC + 4096 * (1 + drawerCount ammount),
      PADDR_LOC + 4096 * (1 + drawerCount ammount + directoryCount ammount),
      PADDR_LOC + 4096 * (1 + drawerCount ammount + directoryCount ammount + tableCount ammount)⟩ := by
  obtain ⟨-, -, -, -, h⟩ := counts_le hfit
  unfold pageAreas memAlloc32 u32 PM_TABLE_SIZE PAGE_IMASK PAGE_SIZE
  simp only [PADDR_LOC] at h ⊢
  rw [PageAreas.mk.injEq]
  refine ⟨by omega, by omega, by omega, by omega, by omega⟩

/-- Entry `i` of an array whose first `n` entries lead to the pages behind `ptr`. -/
def entryOf (n ptr i : ℕ) : ℕ :=
  if i < n then pmSet 0 (pageFrame (ptr + 4096 * i)) PM_FLAGS32 else 0

/-- The words of the four arrays behind `base`, for `pc` pages, `tc` tables, `dc` directories and
`rc` drawers. -/
structure Arrays (m : Mem) (base pc tc dc rc : ℕ) : Prop where
  pml4 : ∀ i < 512, rd m (base + 8 * i) = entryOf rc (base + 4096) i
  pml3 : ∀ i < 512 * rc, rd m (base + 4096 + 8 * i) = entryOf dc (base + 4096 * (1 + rc)) i
  pml2 : ∀ i < 512 * dc, rd m (base + 4096 * (1 + rc) + 8 * i) =
    entryOf tc (base + 4096 * (1 + rc + dc)) i
  pml1 : ∀ i < 512 * tc, rd m (base + 4096 * (1 + rc + dc) + 8 * i) = entryOf pc 0 i

theorem setupPages_arrays (m : Mem) (hfit : TablesFit ammount) :
    Arrays (setupPages m PADDR_LOC ammount) PADDR_LOC (pageCount ammount) (tableCount ammount)
      (directoryCount ammount) (drawerCount ammount) := by
  obtain ⟨h1, h2, h3, h4, h⟩ := counts_le hfit
  unfold setupPages
  rw [pageAreas_eq hfit]
  dsimp only
  generalize pageCount ammount = pc at *
  generalize tableCount ammount = tc at *
  generalize directoryCount ammount = dc at *
  generalize drawerCount ammount = rc at *
  have e3 : u32 (PM_TABLE_SIZE * u32 rc) = 4096 * rc := by
    unfold u32 PM_TABLE_SIZE
    omega
  have e2 : u32 (PM_TABLE_SIZE * u32 dc) = 4096 * dc := by
    unfold u32 PM_TABLE_SIZE
    omega
  have e1 : u32 (PM_TABLE_SIZE * u32 tc) = 4096 * tc := by
    unfold u32 PM_TABLE_SIZE
    omega
  have hs : PM_TABLE_SIZE = 4096 := rfl
  rw [e1, e2, e3, hs]
  have hp : PADDR_LOC % 4096 = 0 := rfl
  generalize PADDR_LOC = P at *
  have hclear : ∀ a, a % 8 = 0 → P ≤ a → a < P + 4096 * (1 + rc + dc + tc) →
      rd (fill (fill (fill (fill m P 0 4096) (P + 4096) 0 (4096 * rc)) (P + 4096 * (1 + rc)) 0
        (4096 * dc)) (P + 4096 * (1 + rc + dc)) 0 (4096 * tc)) a = 0 := by
    intro a ha hlo hhi
    rw [rd_clear (by omega) (by omega) ha, rd_clear (by omega) (by omega) ha,
      rd_clear (by omega) (by omega) ha, rd_clear (by omega) (by omega) ha]
    split_ifs <;> omega
  generalize fill _ (P + 4096 * (1 + rc + dc)) 0 (4096 * tc) = m₀ at hclear ⊢
  refine ⟨fun i hi => ?_, fun i hi => ?_, fun i hi => ?_, fun i hi => ?_⟩
  · rw [rd_setEntries_at (by omega) (by omega),
      rd_setEntries_off (by omega) (by omega) (by omega) (by omega),
      rd_setEntries_off (by omega) (by omega) (by omega) (by omega),
      rd_setEntries_off (by omega) (by omega) (by omega) (by omega),
      hclear _ (by omega) (by omega) (by omega), entryOf]
  · rw [rd_setEntries_off (by omega) (by omega) (by omega) (by omega),
      rd_setEntries_at (by omega) (by omega),
      rd_setEntries_off (by omega) (by omega) (by omega) (by omega),
      rd_setEntries_off (by omega) (by omega) (by omega) (by omega),
      hclear _ (by omega) (by omega) (by omega), entryOf]
  · rw [rd_setEntries_off (by omega) (by omega) (by omega) (by omega),
      rd_setEntries_off (by omega) (by omega) (by omega) (by omega),
      rd_setEntries_at (by omega) (by omega),
      rd_setEntries_off (by omega) (by omega) (by omega) (by omega),
      hclear _ (by omega) (by omega) (by omega), entryOf]
  · have hptr : i < pc → u64 (i * PAGE_SIZE) = 0 + 4096 * i := by
      intro hlt
      unfold u64 PAGE_SIZE
      omega
    rw [rd_setEntries_off (by omega) (by omega) (by omega) (by omega),
      rd_setEntries_off (by omega) (by omega) (by omega) (by omega),
      rd_setEntries_off (by omega) (by omega) (by omega) (by omega),
      rd_setEntries_at (by omega) (by omega),
      hclear _ (by omega) (by omega) (by omega), entryOf]
    split_ifs with hlt
    · rw [hptr hlt]
    · rfl

/-- The walk through the arrays: to the page itself, if there is an entry for it. -/
theorem Arrays.walk {m : Mem} {base pc tc dc rc : ℕ} (h : Arrays m base pc tc dc rc)
    (hbase : base % 4096 = 0) (hlt : base + 4096 * (1 + rc + dc + tc) < 2 ^ 32)
    (h1 : pc ≤ 512 * tc) (h2 : tc ≤ 512 * dc) (h3 : dc ≤ 512 * rc) (hva : va < 2 ^ 48) :
    tableAt m base va 4 = if va / 4096 < pc then some (va / 4096 * 4096) else none := by
  have h0 : tableAt m base va 0 = some (base + 4096 * (va / 2 ^ (48 - 9 * 0))) :=
    congrArg some (by omega)
  have s1 := linear_step (by omega) hva h0 (c := 1) (by omega) h.pml4 (by omega) (by omega)
  by_cases c1 : va / 2 ^ (48 - 9 * 1) < rc
  swap
  · rw [if_neg c1] at s1
    rw [tableAt_none s1 (by omega), if_neg (by omega)]
  rw [if_pos c1] at s1
  have s2 := linear_step (by omega) hva s1 c1 h.pml3 (by omega) (by omega)
  by_cases c2 : va / 2 ^ (48 - 9 * 2) < dc
  swap
  · rw [if_neg c2] at s2
    rw [tableAt_none s2 (by omega), if_neg (by omega)]
  rw [if_pos c2] at s2
  have s3 := linear_step (by omega) hva s2 c2 h.pml2 (by omega) (by omega)
  by_cases c3 : va / 2 ^ (48 - 9 * 3) < tc
  swap
  · rw [if_neg c3] at s3
    rw [tableAt_none s3 (by omega), if_neg (by omega)]
  rw [if_pos c3] at s3
  have s4 := linear_step (by omega) hva s3 c3 h.pml1 (by omega) (by omega)
  have hq : va / 2 ^ (48 - 9 * (0 + 1 + 1 + 1 + 1)) = va / 4096 := by norm_num
  rw [s4, hq, Nat.zero_add, Nat.mul_comm]

/-- **The areas are pages behind one another and below the placement address, every address below
the amount translates to itself, and no other address is mapped.** -/
theorem setupPages_spec (m : Mem) (hal : ammount % PAGE_SIZE = 0) (hfit : TablesFit ammount)
    {areas : PageAreas} (hareas : areas = pageAreas PADDR_LOC ammount) :
    (areas.pml4 % PAGE_SIZE = 0 ∧ areas.pml3 % PAGE_SIZE = 0 ∧ areas.pml2 % PAGE_SIZE = 0 ∧
        areas.pml1 % PAGE_SIZE = 0) ∧
      (areas.pml4 + PM_TABLE_SIZE ≤ areas.pml3 ∧
        areas.pml3 + PM_TABLE_SIZE * drawerCount ammount ≤ areas.pml2 ∧
        areas.pml2 + PM_TABLE_SIZE * directoryCount ammount ≤ areas.pml1 ∧
        areas.pml1 + PM_TABLE_SIZE * tableCount ammount ≤ areas.placementAddr32) ∧
      (∀ va < ammount, translate (setupPages m PADDR_LOC ammount) areas.pml4 va = some va) ∧
      ∀ va, ammount ≤ va → va < 2 ^ 48 →
        translate (setupPages m PADDR_LOC ammount) areas.pml4 va = none := by
  obtain ⟨h1, h2, h3, h4, h⟩ := counts_le hfit
  have harr := setupPages_arrays m hfit
  have hp : PADDR_LOC % 4096 = 0 := rfl
  have hpc : pageCount ammount * 4096 = ammount := by
    unfold pageCount
    rw [PAGE_SIZE] at hal ⊢
    omega
  have hs : PM_TABLE_SIZE = 4096 := rfl
  rw [hareas, pageAreas_eq hfit, hs, PAGE_SIZE]
  dsimp only
  generalize setupPages m PADDR_LOC ammount = m' at harr ⊢
  generalize PADDR_LOC = base at *
  refine ⟨⟨by omega, by omega, by omega, by omega⟩, ⟨by omega, by omega, by omega, by omega⟩,
    fun va hva => ?_, fun va hva hlt => ?_⟩
  · rw [translate, harr.walk hp h h1 h2 h3 (by omega), if_pos (by omega), PAGE_SIZE]
    exact congrArg some (Nat.div_add_mod' va 4096)
  · rw [translate, harr.walk hp h h1 h2 h3 hlt, if_neg (by omega)]
    rfl

theorem setupPages_init : ((pageAreas PADDR_LOC INIT_MEM).pml4 % PAGE_SIZE = 0 ∧
        (pageAreas PADDR_LOC INIT_MEM).pml3 % PAGE_SIZE = 0 ∧
        (pageAreas PADDR_LOC INIT_MEM).pml2 % PAGE_SIZE = 0 ∧
        (pageAreas PADDR_LOC INIT_MEM).pml1 % PAGE_SIZE = 0) ∧
      ((pageAreas PADDR_LOC INIT_MEM).pml4 + PM_TABLE_SIZE ≤ (pageAreas PADDR_LOC INIT_MEM).pml3 ∧
        (pageAreas PADDR_LOC INIT_MEM).pml3 + PM_TABLE_SIZE * drawerCount INIT_MEM ≤
          (pageAreas PADDR_LOC INIT_MEM).pml2 ∧
        (pageAreas PADDR_LOC INIT_MEM).pml2 + PM_TABLE_SIZE * directoryCount INIT_MEM ≤
          (pageAreas PADDR_LOC INIT_MEM).pml1 ∧
        (pageAreas PADDR_LOC INIT_MEM).pml1 + PM_TABLE_SIZE * tableCount INIT_MEM ≤
          (pageAreas PADDR_LOC INIT_MEM).placementAddr32) ∧
      (∀ va < INIT_MEM, translate (setupPages (fun _ => 0) PADDR_LOC INIT_MEM)
        (pageAreas PADDR_LOC INIT_MEM).pml4 va = some va) ∧
      ∀ va, INIT_MEM ≤ va → va < 2 ^ 48 → translate (setupPages (fun _ => 0) PADDR_LOC INIT_MEM)
        (pageAreas PADDR_LOC INIT_MEM).pml4 va = none :=
  have hal : INIT_MEM % PAGE_SIZE = 0 := by decide +kernel
  have hfit : TablesFit INIT_MEM := by
    unfold TablesFit
    decide +kernel
  @setupPages_spec INIT_MEM (fun _ => 0) hal hfit (pageAreas PADDR_LOC INIT_MEM) rfl

/-- The amount of memory whose tables end at 4GB. -/
def wrapAmmount : ℕ := 1046271 * 2 ^ 21

/-- Tables that end at 4GB wrap the placement address around to zero. -/
theorem setupPages_wraps : wrapAmmount % PAGE_SIZE = 0 ∧ 0 < wrapAmmount ∧
    PADDR_LOC + PM_TABLE_SIZE * tablesTotal wrapAmmount = 2 ^ 32 ∧
    (pageAreas PADDR_LOC wrapAmmount).pml4 = PADDR_LOC ∧
    (pageAreas PADDR_LOC wrapAmmount).placementAddr32 = 0 := by
  decide +kernel

end result

end Dawos
