import Dawos.Store

/-! # Build configuration and page arithmetic

The constants of `config.h` and the page rounding macros shared by `main32.h` and `paging.h`. -/

namespace Dawos

/-- Default page size (4KB). -/
def PAGE_SIZE : ℕ := 0x1000
/-- Initial memory mapped to enter Long Mode (2MB). -/
def INIT_MEM : ℕ := 0x200000
/-- Placement address start. -/
def PADDR_LOC : ℕ := 0x100000

def PAGE_IMASK : ℕ := PAGE_SIZE - 1
/-- `~PAGE_IMASK`, sign-extended to 64 bits. -/
def PAGE_MASK : ℕ := 0xFFFFFFFFFFFFF000

/-- Align an address to the start of its page. -/
def pageAlign (n : ℕ) : ℕ := n &&& PAGE_MASK

/-- Align an address to the next page start. -/
def pageSizeAlign (n : ℕ) : ℕ := u64 (n + PAGE_IMASK) &&& PAGE_MASK

theorem pageAlign_eq {n : ℕ} (h : n < 2 ^ 64) : pageAlign n = n / 4096 * 4096 :=
  and_highMask (k := 12) (w := 64) (by norm_num) h

theorem pageSizeAlign_eq (n : ℕ) : pageSizeAlign n = (n + 4095) % 2 ^ 64 / 4096 * 4096 :=
  pageAlign_eq (u64_lt _)

theorem pageSizeAlign_lt (n : ℕ) : pageSizeAlign n < 2 ^ 64 := by
  rw [pageSizeAlign_eq]
  omega

/-- Rounding up either wraps to zero or reaches the next multiple of the page size. -/
theorem pageSizeAlign_cases {n : ℕ} (h : n < 2 ^ 64) : pageSizeAlign n = 0 ∨
    (n ≤ pageSizeAlign n ∧ pageSizeAlign n < n + 4096 ∧ pageSizeAlign n % 4096 = 0) := by
  rw [pageSizeAlign_eq]
  omega

end Dawos
