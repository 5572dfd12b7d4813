import Dawos.Config
import Dawos.Loop

/-! # Page tables

The page tables of the loader in physical memory.  A table is a page of 512 entries; an entry is a
64-bit word with a present bit, flags, and the frame of a page in bits 12 to 51.

`translate` is the walk of the processor: four levels, every entry on the way present.
`pageIdMap` and `pageResolve` are `page_id_map` and `page_resolve` of `paging.c`.  The page that
`mem_alloc_align` returns for a new table is a parameter: `alloc k m` is its `k`-th call, with the
memory before it, and yields the memory after it and the page. -/

namespace Dawos

/-! ### Entries -/

/-- Page frame mask (40 bits shifted 12 bits left). -/
def PAGE_FRAME_MASK : ℕ := 0xFFFFFFFFFF000
/-- Page table entry index mask. -/
def PAGE_PML_IDX_MASK : ℕ := 0x1FF
/-- Page offset mask. -/
def PAGE_OFFSET_MASK : ℕ := 0xFFF
/-- The flags present, writable, write-through and cache-disable. -/
def PM_FLAGS : ℕ := 0x1B

/-- The index of the entry for a virtual address in a table of level `lvl`. -/
def pagePmlIdx (va lvl : ℕ) : ℕ := va >>> (12 + (lvl - 1) * 9) &&& PAGE_PML_IDX_MASK

/-- Entry `idx` of a table. -/
def pmEntry (m : Mem) (pt idx : ℕ) : ℕ := rd m (pt + 8 * idx)

/-- The physical address in entry `idx` of a table. -/
def pageAddress (m : Mem) (pt idx : ℕ) : ℕ := pmEntry m pt idx &&& PAGE_FRAME_MASK

/-- The frame number of a physical address. -/
def pageFrame (paddr : ℕ) : ℕ := (paddr &&& PAGE_FRAME_MASK) >>> 12

/-- The present bit of an entry. -/
def pmPresent (e : ℕ) : Bool := e.testBit 0

/-- Assign the frame of an entry and set flags in it. -/
def pmSet (e frame flags : ℕ) : ℕ :=
  (e % 2 ^ 12 ||| flags) + frame % 2 ^ 40 * 2 ^ 12 + e / 2 ^ 52 % 2 ^ 12 * 2 ^ 52

/-- A virtual address without the bits above bit 47. -/
def pageCanonical (va : ℕ) : ℕ := u64 (va <<< 16) >>> 16

/-! ### The walk of the processor -/

/-- The table on the path of a virtual address after `d` entries; after four it is the page. -/
def tableAt (m : Mem) (root va : ℕ) : ℕ → Option ℕ
  | 0 => some root
  | d + 1 => (tableAt m root va d).bind fun pt =>
      if pmPresent (pmEntry m pt (pagePmlIdx va (4 - d))) then
        some (pageAddress m pt (pagePmlIdx va (4 - d)))
      else none

/-- The physical address of a virtual address. -/
def translate (m : Mem) (root va : ℕ) : Option ℕ :=
  (tableAt m root va 4).map (· + va % PAGE_SIZE)

/-! ### Mapping a page -/

/-- Calls of `mem_alloc_align` for a table. -/
abbrev TableAlloc := ℕ → Mem → Except Halt (Mem × ℕ)

/-- The loop of `page_id_map` with `i` levels above the last one left: the number of calls of the
allocator, the memory, and the table. -/
def pageTables (alloc : TableAlloc) (vaddr : ℕ) : ℕ → ℕ → Mem → ℕ → Except Halt (ℕ × Mem × ℕ)
  | 0, k, m, table => .ok (k, m, table)
  | i + 1, k, m, table =>
      let idx := pagePmlIdx vaddr (i + 2)
      if pmPresent (pmEntry m table idx) then
        pageTables alloc vaddr i k m (pageAddress m table idx)
      else
        -- next level table does not exist - create one
        alloc k m >>= fun r =>
        let m := fill r.1 r.2 0 (8 * 512)
        let m := wr m (table + 8 * idx) (pmSet (pmEntry m table idx) (pageFrame r.2) PM_FLAGS)
        pageTables alloc vaddr i (k + 1) m r.2

/-- Map the page of a virtual address, unless it is mapped already. -/
def pageIdMap (alloc : TableAlloc) (k : ℕ) (m : Mem) (root paddr vaddr : ℕ) :
    Except Halt (ℕ × Mem × Bool) :=
  let paddr := pageAlign paddr
  let vaddr := pageCanonical (pageAlign vaddr)
  pageTables alloc vaddr 3 k m root >>= fun r =>
  let idx := pagePmlIdx vaddr 1
  if pmPresent (pmEntry r.2.1 r.2.2 idx) then .ok (r.1, r.2.1, false)
  else
    .ok (r.1, wr r.2.1 (r.2.2 + 8 * idx) (pmSet (pmEntry r.2.1 r.2.2 idx) (pageFrame paddr) PM_FLAGS),
      true)

/-! ### Resolving an address -/

/-- The loop of `page_resolve` for the levels from `i` down: the table and the index of the entry
in it. -/
def pageResolveLoop (m : Mem) (vaddr : ℕ) : ℕ → ℕ → ℕ → Option (ℕ × ℕ)
  | 0, table, idx => some (table, idx)
  | i + 1, table, idx =>
      if pmPresent (pmEntry m table idx) then
        pageResolveLoop m vaddr i (pageAddress m table idx) (pagePmlIdx vaddr (i + 1))
      else none

def pageResolve (m : Mem) (root vaddr : ℕ) : ℕ :=
  match pageResolveLoop m vaddr 3 root (pagePmlIdx vaddr 4) with
  | none => 0
  | some (table, idx) => u64 (pageAddress m table idx + (vaddr &&& PAGE_OFFSET_MASK))

/-! ### Arithmetic of entries and addresses -/

section arithmetic

variable {e frame flags p va va' lvl d n : ℕ}

/-- The mask keeps the bits of the frame. -/
theorem and_frameMask (n : ℕ) : n &&& PAGE_FRAME_MASK = n % 2 ^ 52 / 2 ^ 12 * 2 ^ 12 := by
  have hmask : n &&& PAGE_FRAME_MASK = n % 2 ^ 52 &&& (2 ^ 52 - 2 ^ 12) := by
    apply Nat.eq_of_testBit_eq
    intro i
    rw [Nat.testBit_and, Nat.testBit_and, Nat.testBit_mod_two_pow]
    have hm : PAGE_FRAME_MASK = 2 ^ 52 - 2 ^ 12 := by norm_num [PAGE_FRAME_MASK]
    rw [hm]
    by_cases hi : i < 52
    · simp [hi]
    · have hz : (2 ^ 52 - 2 ^ 12 : ℕ).testBit i = false :=
        Nat.testBit_lt_two_pow (lt_of_lt_of_le (by norm_num) (Nat.pow_le_pow_right (by norm_num)
          (Nat.not_lt.mp hi)))
      rw [hz, Bool.and_false, Bool.and_false]
  rw [hmask]
  exact and_highMask (by norm_num) (Nat.mod_lt _ (by norm_num))

theorem pagePmlIdx_eq : pagePmlIdx va lvl = va / 2 ^ (12 + (lvl - 1) * 9) % 512 := by
  unfold pagePmlIdx PAGE_PML_IDX_MASK
  rw [Nat.shiftRight_eq_div_pow]
  exact Nat.and_two_pow_sub_one_eq_mod _ 9

theorem pagePmlIdx_lt : pagePmlIdx va lvl < 512 := by
  rw [pagePmlIdx_eq]
  exact Nat.mod_lt _ (by norm_num)

theorem pageFrame_eq : pageFrame p = p / 2 ^ 12 % 2 ^ 40 := by
  unfold pageFrame
  rw [and_frameMask, Nat.shiftRight_eq_div_pow]
  omega

theorem pageCanonical_eq : pageCanonical va = va % 2 ^ 48 := by
  unfold pageCanonical u64
  rw [Nat.shiftLeft_eq, Nat.shiftRight_eq_div_pow]
  omega

theorem offset_eq : va &&& PAGE_OFFSET_MASK = va % 2 ^ 12 := Nat.and_two_pow_sub_one_eq_mod _ 12

theorem pmSet_low (hf : flags < 2 ^ 12) : (e % 2 ^ 12 ||| flags) < 2 ^ 12 :=
  Nat.or_lt_two_pow (Nat.mod_lt _ (by norm_num)) hf

theorem pmSet_lt (hf : flags < 2 ^ 12) : pmSet e frame flags < 2 ^ 64 := by
  have h := @pmSet_low e flags hf
  unfold pmSet
  omega

theorem pmSet_present (hp : flags.testBit 0 = true) :
    pmPresent (pmSet e frame flags) = true := by
  have hbit : (e % 2 ^ 12 ||| flags).testBit 0 = true := by
    rw [Nat.testBit_or, hp, Bool.or_true]
  unfold pmPresent pmSet
  rw [Nat.testBit_zero] at hbit ⊢
  rw [decide_eq_true_eq] at hbit ⊢
  omega

theorem pmSet_address (hf : flags < 2 ^ 12) :
    pmSet e frame flags &&& PAGE_FRAME_MASK = frame % 2 ^ 40 * 2 ^ 12 := by
  have h := @pmSet_low e flags hf
  rw [and_frameMask]
  unfold pmSet
  omega

/-- A frame number is the page of an address below `2 ^ 52`. -/
theorem pmSet_frame (hf : flags < 2 ^ 12) (hp : p < 2 ^ 52) :
    pmSet e (pageFrame p) flags &&& PAGE_FRAME_MASK = p / 4096 * 4096 := by
  rw [pmSet_address hf, pageFrame_eq]
  omega

/-- What `page_id_map` stores is a present entry. -/
theorem pmSet_flags {e' : ℕ} (h : pmSet e frame PM_FLAGS = e') :
    e' < 2 ^ 64 ∧ pmPresent e' = true := by
  subst h
  exact ⟨pmSet_lt (by norm_num [PM_FLAGS]), pmSet_present (by decide)⟩

theorem pmSet_table {e' : ℕ} (h : pmSet e (pageFrame p) PM_FLAGS = e') (hp : p < 2 ^ 52) :
    e' &&& PAGE_FRAME_MASK = p / 4096 * 4096 := by
  subst h
  exact pmSet_frame (by norm_num [PM_FLAGS]) hp

end arithmetic

end Dawos
