import Dawos.KernelPaging

/-! # Single entries of the page tables

`page_get_pml_entry` and `page_set_pml_entry` of `kernel/memory/paging.c`.  Both walk down from the
PML4.  The first one returns at its level; the second one stores the entry at its level, goes on
down from the entry it has just stored, and stores it in the last table again.

`page_set_pml_entry` says when the second store makes no difference. -/

namespace Dawos.Kernel

/-! ### The code -/

/-- Get the PMLx entry from virtual address. -/
def pageGetPmlEntry (l : Layout) (m : Mem) (vaddr level : ℕ) : ℕ :=
  let table := l.pml4
  if 3 ≤ level then pmEntry m table (drawerIdx vaddr)
  else
    let table := pageAlign (pmEntry m table (drawerIdx vaddr))
    if level = 2 then pmEntry m table (directoryIdx vaddr)
    else
      let table := pageAlign (pmEntry m table (directoryIdx vaddr))
      if level = 1 then pmEntry m table (tableIdx vaddr)
      else
        let table := pageAlign (pmEntry m table (tableIdx vaddr))
        pmEntry m table (pageIdx vaddr)

/-- Set the PML4 entry for virtual address. -/
def pageSetPmlEntry (l : Layout) (m : Mem) (vaddr level pe : ℕ) : Mem :=
  let va := pageNormalizeVaddr vaddr
  let table := l.pml4
  let m := if 3 ≤ level then wr m (table + 8 * drawerIdx va) pe else m
  let table := pageAlign (pmEntry m table (drawerIdx va))
  let m := if level = 2 then wr m (table + 8 * directoryIdx va) pe else m
  let table := pageAlign (pmEntry m table (directoryIdx va))
  let m := if level = 1 then wr m (table + 8 * tableIdx va) pe else m
  let table := pageAlign (pmEntry m table (tableIdx va))
  wr m (table + 8 * pageIdx va) pe

/-! ### The walk -/

/-- The index of an address in the tables of a level, from 3 for the PML4 to 0 for the last one. -/
def levelIdx (va level : ℕ) : ℕ := pagePmlIdx va (level + 1)

/-- The table that `d` steps lead to, from a table of a level. -/
def walk (m : Mem) (va level table : ℕ) : ℕ → ℕ
  | 0 => table
  | d + 1 => pageAlign (pmEntry m (walk m va level table d) (levelIdx va (level - d)))

/-- The table of a level on the path of an address. -/
def levelTable (l : Layout) (m : Mem) (va level : ℕ) : ℕ := walk m va 3 l.pml4 (3 - level)

/-- The address of the entry of a level. -/
def levelAddr (l : Layout) (m : Mem) (va level : ℕ) : ℕ :=
  levelTable l m va level + 8 * levelIdx va level

/-- The address of the last entry that the path of an address leads to, from a table of a level. -/
def lastAddr (m : Mem) (va level table : ℕ) : ℕ := walk m va level table level + 8 * levelIdx va 0

/-- All four entries on the path of an address are present. -/
def AllPresent (l : Layout) (m : Mem) (va : ℕ) : Prop :=
  ∀ level ≤ 3, pmPresent (pageGetPmlEntry l m va level) = true

instance (l : Layout) (m : Mem) (va : ℕ) : Decidable (AllPresent l m va) :=
  decidable_of_iff (∀ level < 4, pmPresent (pageGetPmlEntry l m va level) = true)
    ⟨fun h level hl => h level (Nat.lt_succ_of_le hl), fun h level hl => h level (Nat.le_of_lt_succ hl)⟩

section walk

variable {l : Layout} {m : Mem} {va level e : ℕ}

/-- The normalized address has the same indices. -/
theorem levelIdx_normalize (hl : level ≤ 3) :
    levelIdx (pageNormalizeVaddr va) level = levelIdx va level := by
  have h := @pageNormalizeVaddr_low va
  unfold levelIdx
  rw [pagePmlIdx_eq, pagePmlIdx_eq]
  interval_cases level <;> norm_num <;> omega

/-- All indices of the normalized address. -/
theorem pmlIdx_normalize :
    pagePmlIdx (pageNormalizeVaddr va) 1 = pagePmlIdx va 1 ∧
      pagePmlIdx (pageNormalizeVaddr va) 2 = pagePmlIdx va 2 ∧
      pagePmlIdx (pageNormalizeVaddr va) 3 = pagePmlIdx va 3 ∧
      pagePmlIdx (pageNormalizeVaddr va) 4 = pagePmlIdx va 4 :=
  ⟨@levelIdx_normalize va 0 (by omega), @levelIdx_normalize va 1 (by omega),
    @levelIdx_normalize va 2 (by omega), @levelIdx_normalize va 3 le_rfl⟩

/-- The entry that is returned is the one at the address of its level. -/
theorem pageGetPmlEntry_eq (hl : level ≤ 3) :
    pageGetPmlEntry l m va level = rd m (levelAddr l m va level) := by
  unfold pageGetPmlEntry levelAddr levelTable
  simp only [drawerIdx_eq, directoryIdx_eq, tableIdx_eq, pageIdx_eq]
  interval_cases level <;> rfl

/-- Level 0 is stored once. -/
theorem pageSetPmlEntry_zero : pageSetPmlEntry l m va 0 e = wr m (levelAddr l m va 0) e := by
  unfold pageSetPmlEntry levelAddr levelTable
  simp only [drawerIdx_eq, directoryIdx_eq, tableIdx_eq, pageIdx_eq]
  obtain ⟨h0, h1, h2, h3⟩ := @pmlIdx_normalize va
  rw [if_neg (by omega), if_neg (by omega), if_neg (by omega), h0, h1, h2, h3]
  rfl

/-- An entry of an upper level is stored, and once more where the path then ends. -/
theorem pageSetPmlEntry_pos {m' : Mem} (hpos : 0 < level) (hl : level ≤ 3)
    (hm : m' = wr m (levelAddr l m va level) e) :
    pageSetPmlEntry l m va level e = wr m' (lastAddr m' va level (levelTable l m va level)) e := by
  obtain ⟨h0, h1, h2, h3⟩ := @pmlIdx_normalize va
  unfold pageSetPmlEntry
  simp only [drawerIdx_eq, directoryIdx_eq, tableIdx_eq, pageIdx_eq]
  rw [h0, h1, h2, h3]
  subst hm
  interval_cases level <;> rfl

/-! ### One word -/

/-- The word at `a` is set to `e`, and nothing else changes. -/
structure SetsWord (m m' : Mem) (a e : ℕ) : Prop where
  word : rd m' a = e
  frame : AgreeOff m m' fun x => a ≤ x ∧ x < a + 8

/-- A word determines its bytes. -/
theorem rdN_inj {m m' : Mem} : ∀ {n a : ℕ}, rdN m' n a = rdN m n a →
    ∀ x, a ≤ x → x < a + n → m' x = m x
  | 0, _, _, x, h1, h2 => by omega
  | n + 1, a, h, x, h1, h2 => by
      simp only [rdN] at h
      have hb := (m a).toNat_lt
      have hb' := (m' a).toNat_lt
      by_cases hx : x = a
      · rw [hx]
        exact UInt8.toNat_inj.mp (by omega)
      · exact rdN_inj (n := n) (a := a + 1) (by omega) x (by omega) (by omega)

/-- Storing the word that is there. -/
theorem wr_rd (m : Mem) (a : ℕ) : wr m a (rd m a) = m := by
  funext x
  by_cases hx : a ≤ x ∧ x < a + 8
  · refine rdN_inj (n := 8) (a := a) ?_ x hx.1 hx.2
    exact (rd_wr_same m a _).trans (Nat.mod_eq_of_lt (rd_lt m a))
  · exact wr_off m _ (by omega)

theorem SetsWord.store {a : ℕ} (he : e < 2 ^ 64) : SetsWord m (wr m a e) a e :=
  ⟨(rd_wr_same m a e).trans (Nat.mod_eq_of_lt he), (AgreeOff.refl m _).wr e fun _ h1 h2 => ⟨h1, h2⟩⟩

/-- There is one memory in which just this word is set. -/
theorem SetsWord.unique {m₁ m₂ : Mem} {a : ℕ} (h₁ : SetsWord m m₁ a e) (h₂ : SetsWord m m₂ a e) :
    m₁ = m₂ := by
  funext x
  by_cases hx : a ≤ x ∧ x < a + 8
  · exact rdN_inj (n := 8) (h₁.word.trans h₂.word.symm) x hx.1 hx.2
  · rw [h₁.frame x hx, h₂.frame x hx]

/-- A second store of the same value makes no difference iff the value is there. -/
theorem SetsWord.again {a b : ℕ} (he : e < 2 ^ 64) :
    SetsWord m (wr (wr m a e) b e) a e ↔ rd (wr m a e) b = e := by
  constructor
  · intro h
    have hsame := SetsWord.unique h (SetsWord.store he)
    have hb := rd_wr_same (wr m a e) b e
    rwa [hsame, Nat.mod_eq_of_lt he] at hb
  · intro h
    have hsame := wr_rd (wr m a e) b
    rw [h] at hsame
    rw [hsame]
    exact SetsWord.store he

/-- **Setting an entry changes one word, the entry that `page_get_pml_entry` returns, iff it is an
entry of the last level, or the path goes on from it to an entry that has the same value.** -/
theorem page_set_pml_entry (l : Layout) (m : Mem) (va : ℕ) (hl : level ≤ 3) (he : e < 2 ^ 64) :
    pageGetPmlEntry l m va level = rd m (levelAddr l m va level) ∧
    (SetsWord m (pageSetPmlEntry l m va level e) (levelAddr l m va level) e ↔
      level = 0 ∨ rd (wr m (levelAddr l m va level) e)
        (lastAddr (wr m (levelAddr l m va level) e) va level (levelTable l m va level)) = e) := by
  refine ⟨pageGetPmlEntry_eq hl, ?_⟩
  rcases Nat.eq_zero_or_pos level with rfl | hpos
  · rw [pageSetPmlEntry_zero]
    exact iff_of_true (SetsWord.store he) (.inl rfl)
  · rw [pageSetPmlEntry_pos hpos hl rfl, SetsWord.again he]
    exact ⟨.inr, fun h => h.resolve_left hpos.ne'⟩

end walk

/-! ### The entries of the local APIC -/

/-- The address of the local APIC. -/
def lapicAddr : ℕ := 0xFEE00000

/-- The tables in which `lapic_init` has mapped it. -/
def lapicMem : Mem := (pageMapMmio emptyLayout emptyState lapicAddr).1.mem

/-- The entry of level 0; an entry of level 1 that maps its own table, where the path ends at itself;
and an entry of level 1 whose path ends at another one. -/
theorem page_set_pml_entry_levels :
    SetsWord lapicMem (pageSetPmlEntry emptyLayout lapicMem lapicAddr 0 0xFEE0001B)
      (levelAddr emptyLayout lapicMem lapicAddr 0) 0xFEE0001B ∧
    SetsWord lapicMem (pageSetPmlEntry emptyLayout lapicMem 0xFEFF7000 1 0x4003)
      (levelAddr emptyLayout lapicMem 0xFEFF7000 1) 0x4003 ∧
    ¬ SetsWord lapicMem (pageSetPmlEntry emptyLayout lapicMem lapicAddr 1 0x501B)
      (levelAddr emptyLayout lapicMem lapicAddr 1) 0x501B := by
  refine ⟨?_, ?_, fun h => ?_⟩
  · exact (page_set_pml_entry emptyLayout lapicMem lapicAddr (Nat.zero_le 3) (by norm_num)).2.mpr
      (.inl rfl)
  · exact (page_set_pml_entry emptyLayout lapicMem 0xFEFF7000 (by norm_num) (by norm_num)).2.mpr
      (.inr (by decide +kernel))
  · rcases (page_set_pml_entry emptyLayout lapicMem lapicAddr (by norm_num) (by norm_num)).2.mp h with
      h0 | hlast
    · exact absurd h0 (by norm_num)
    · exact absurd hlast (by decide +kernel)

/-- Setting the entry of level 1 maps the page of the local APIC to its own table. -/
theorem page_set_pml_entry_twice : ∃ l m va level e, AllPresent l m va ∧ level ≤ 3 ∧ e < 2 ^ 64 ∧
    ¬ SetsWord m (pageSetPmlEntry l m va level e) (levelAddr l m va level) e := by
  refine ⟨emptyLayout, lapicMem, lapicAddr, 1, 0x501B, by decide +kernel, by omega, by norm_num,
    fun h => ?_⟩
  have hleaf : levelAddr emptyLayout lapicMem lapicAddr 1 = 0x4FB8 ∧
      rd (pageSetPmlEntry emptyLayout lapicMem lapicAddr 1 0x501B) 0x5000 ≠ rd lapicMem 0x5000 := by
    decide +kernel
  rw [hleaf.1] at h
  exact hleaf.2 (h.frame.rd fun x h1 h2 => by omega)

end Dawos.Kernel
