import Dawos.PageMap

/-! # The page tables of the kernel

`page_map`, `page_map_mmio` and `page_resolve` of `kernel/memory/paging.c`.  The tables start at
`PT_LOC`; a new table is the page at the bump pointer `_page_offset`, which is marked in the frame
bitmap first.

The walk of the kernel keeps all bits from 12 on of an entry (`PAGE_MASK`), and the one of the
processor the bits 12 to 51.  They agree on entries below `2 ^ 52`, which those of the upper three
levels are (`IdTables.low`).

`IdTables` is the invariant of any sequence of calls: the tables are distinct pages below the bump
pointer, and a present entry of the last level maps a page to itself, up to the bits from 48 on. -/

namespace Dawos.Kernel

/-! ### Addresses -/

/-- Page index (in pml1). -/
def pageIdx (va : ℕ) : ℕ := va / 2 ^ 12 % 2 ^ 9
/-- Table index (in pml2). -/
def tableIdx (va : ℕ) : ℕ := va / 2 ^ 21 % 2 ^ 9
/-- Directory index (in pml3). -/
def directoryIdx (va : ℕ) : ℕ := va / 2 ^ 30 % 2 ^ 9
/-- Drawer index (in pml4). -/
def drawerIdx (va : ℕ) : ℕ := va / 2 ^ 39 % 2 ^ 9

/-- Assign the bits above bit 47. -/
def setCanonical (va v : ℕ) : ℕ := va % 2 ^ 48 + v % 2 ^ 16 * 2 ^ 48

/-- Normalize a virtual address to canonical form. -/
def pageNormalizeVaddr (vaddr : ℕ) : ℕ :=
  if drawerIdx vaddr &&& 0x100 ≠ 0 then setCanonical vaddr 0xFFFF else setCanonical vaddr 0

/-! ### The frame bitmap -/

/-- The frame number that the bitmap has for an address. -/
def frameOf (paddr : ℕ) : ℕ := paddr / 4069

/-- Get bitset index. -/
def BIT_INDEX (b : ℕ) : ℕ := b / 64
/-- Get bit offset in bitset. -/
def BIT_OFFSET (b : ℕ) : ℕ := b % 64

/-- `0x1 << offset` as a 64-bit word: the shift of a 32-bit `int`, which takes the low five bits of
the offset and is sign-extended. -/
def frameBit (offset : ℕ) : ℕ :=
  if offset % 32 = 31 then 2 ^ 64 - 2 ^ 31 else 2 ^ (offset % 32)

/-- The word of the bitmap `_page_frames` for an address. -/
def frameWord (frames paddr : ℕ) : ℕ := frames + 8 * BIT_INDEX (frameOf paddr)

/-- Mark frame allocated. -/
def pageSetFrame (frames : ℕ) (m : Mem) (paddr : ℕ) : Mem :=
  let offset := BIT_OFFSET (frameOf paddr)
  wr m (frameWord frames paddr) (rd m (frameWord frames paddr) ||| frameBit offset)

/-! ### Mapping -/

/-- `_pml4` and `_page_frames`. -/
structure Layout where
  pml4 : ℕ
  frames : ℕ

/-- Memory and `_page_offset`. -/
structure PageState where
  mem : Mem
  pageOffset : ℕ

/-- Make the next table of an entry, unless it is present. -/
def pageNewTable (l : Layout) (flags : ℕ) (s : PageState) (table idx : ℕ) : PageState :=
  if pmPresent (pmEntry s.mem table idx) then s
  else
    let m := pageSetFrame l.frames s.mem s.pageOffset
    let m := fill m s.pageOffset 0 (8 * 512)
    let m := wr m (table + 8 * idx) (s.pageOffset ||| flags)
    ⟨m, u64 (s.pageOffset + 8 * 512)⟩

/-- Identity map a physical address, with the flags of the new entries. -/
def pageMapFlags (l : Layout) (flags : ℕ) (s : PageState) (paddr : ℕ) : PageState × ℕ :=
  let va := pageNormalizeVaddr paddr
  let s := pageNewTable l flags s l.pml4 (drawerIdx va)
  let pml3 := pageAlign (pmEntry s.mem l.pml4 (drawerIdx va))
  let s := pageNewTable l flags s pml3 (directoryIdx va)
  let pml2 := pageAlign (pmEntry s.mem pml3 (directoryIdx va))
  let s := pageNewTable l flags s pml2 (tableIdx va)
  let pml1 := pageAlign (pmEntry s.mem pml2 (tableIdx va))
  if pmPresent (pmEntry s.mem pml1 (pageIdx va)) then (s, va)
  else ({ s with mem := wr s.mem (pml1 + 8 * pageIdx va) (pageAlign paddr ||| flags) }, va)

/-- The flags present and writable. -/
def MAP_FLAGS : ℕ := 0x03
/-- The flags present, writable, write-through and cache-disable. -/
def MMIO_FLAGS : ℕ := 0x1B

/-- Identity map a physical address. -/
def pageMap (l : Layout) (s : PageState) (paddr : ℕ) : PageState × ℕ :=
  pageMapFlags l MAP_FLAGS s paddr

/-- Identity map a physical address for memory mapped IO (no cache!). -/
def pageMapMmio (l : Layout) (s : PageState) (paddr : ℕ) : PageState × ℕ :=
  pageMapFlags l MMIO_FLAGS s paddr

/-- Resolve physical address from virtual address. -/
def pageResolve (l : Layout) (m : Mem) (vaddr : ℕ) : ℕ :=
  if pmPresent (pmEntry m l.pml4 (drawerIdx vaddr)) then
    let table := pageAlign (pmEntry m l.pml4 (drawerIdx vaddr))
    if pmPresent (pmEntry m table (directoryIdx vaddr)) then
      let table := pageAlign (pmEntry m table (directoryIdx vaddr))
      if pmPresent (pmEntry m table (tableIdx vaddr)) then
        let table := pageAlign (pmEntry m table (tableIdx vaddr))
        if pmPresent (pmEntry m table (pageIdx vaddr)) then
          vaddr % 2 ^ 12 ||| pageAlign (pmEntry m table (pageIdx vaddr))
        else 0
      else 0
    else 0
  else 0

/-! ### Runs -/

/-- Calls of the two functions. -/
inductive MapCall where
  | map (paddr : ℕ)
  | mmio (paddr : ℕ)

/-- The address of a call. -/
def MapCall.paddr : MapCall → ℕ
  | .map p => p
  | .mmio p => p

/-- The flags of a call. -/
def MapCall.flags : MapCall → ℕ
  | .map _ => MAP_FLAGS
  | .mmio _ => MMIO_FLAGS

/-- Make a call. -/
def MapCall.exec (l : Layout) (s : PageState) : MapCall → PageState × ℕ
  | .map p => pageMap l s p
  | .mmio p => pageMapMmio l s p

/-- The state after a sequence of calls. -/
def run (l : Layout) (s : PageState) : List MapCall → PageState
  | [] => s
  | c :: cs => run l (c.exec l s).1 cs

/-! ### The invariant -/

/-- The pages from the bump pointer on. -/
def bump (off k : ℕ) : ℕ := off + 4096 * k

/-- The bytes of the bitmap. -/
def bitmap (frames len x : ℕ) : Prop := frames ≤ x ∧ x < frames + len

/-- The `n` pages from `off` on are clear of other data, and their bits are inside the bitmap of
`len` bytes. -/
structure Room (l : Layout) (len off n : ℕ) : Prop where
  page : off % 4096 = 0
  fits : off + 4096 * n ≤ 2 ^ 52
  clear : l.frames + len ≤ off ∨ off + 4096 * n ≤ l.frames
  inside : ∀ k < n, frameWord l.frames (bump off k) + 8 ≤ l.frames + len

/-- Tables of which `k` have been taken from the `n` pages.  Those of the last level map pages to
themselves, up to the bits from 48 on; and in these bits as well if `exact` holds. -/
structure IdTables (l : Layout) (len off n : ℕ) (exact : Prop) (m : Mem) (k : ℕ) : Prop where
  pages : PagesOk (bump off) (bitmap l.frames len) n m l.pml4 k
  low : ∀ va d, d ≤ 2 → entryAt m l.pml4 va d < 2 ^ 52
  same : ∀ va, pmPresent (entryAt m l.pml4 va 3) = true →
    pageAlign (entryAt m l.pml4 va 3) % 2 ^ 48 = va % 2 ^ 48 / 4096 * 4096 ∧
      (exact → pageAlign (entryAt m l.pml4 va 3) < 2 ^ 48)

/-! ### Arithmetic of addresses and entries -/

section arithmetic

variable {va v p e flags a : ℕ}

theorem pageIdx_eq : pageIdx va = pagePmlIdx va 1 := (@pagePmlIdx_eq va 1).symm
theorem tableIdx_eq : tableIdx va = pagePmlIdx va 2 := (@pagePmlIdx_eq va 2).symm
theorem directoryIdx_eq : directoryIdx va = pagePmlIdx va 3 := (@pagePmlIdx_eq va 3).symm
theorem drawerIdx_eq : drawerIdx va = pagePmlIdx va 4 := (@pagePmlIdx_eq va 4).symm

/-- Bits 47 to 63 are equal. -/
def Canonical (v : ℕ) : Prop := v / 2 ^ 47 = 0 ∨ v / 2 ^ 47 = 2 ^ 17 - 1

/-- The high bit of the drawer index is bit 47. -/
theorem drawerIdx_high : drawerIdx va &&& 0x100 ≠ 0 ↔ va / 2 ^ 47 % 2 = 1 := by
  have hbit : (drawerIdx va).testBit 8 = decide (va / 2 ^ 47 % 2 = 1) := by
    unfold drawerIdx
    rw [Nat.testBit_mod_two_pow, Nat.testBit_div_two_pow, Nat.testBit_eq_decide_div_mod_eq]
    simp
  have hand : drawerIdx va &&& 2 ^ 8 = ((drawerIdx va).testBit 8).toNat * 2 ^ 8 :=
    Nat.and_two_pow _ _
  rw [show (0x100 : ℕ) = 2 ^ 8 from rfl, hand, hbit]
  rcases Nat.mod_two_eq_zero_or_one (va / 2 ^ 47) with h | h <;> rw [h] <;> decide

theorem pageNormalizeVaddr_low : pageNormalizeVaddr va % 2 ^ 48 = va % 2 ^ 48 := by
  unfold pageNormalizeVaddr setCanonical
  split_ifs <;> omega

theorem pageNormalizeVaddr_canonical : Canonical (pageNormalizeVaddr va) := by
  have h := @drawerIdx_high va
  unfold pageNormalizeVaddr setCanonical Canonical
  split_ifs with hc
  · have := h.mp hc
    right
    omega
  · have : ¬ va / 2 ^ 47 % 2 = 1 := fun he => hc (h.mpr he)
    left
    omega

/-- An aligned address and flags have no bits in common. -/
theorem or_flags (ha : a % 4096 = 0) (hf : flags < 4096) : a ||| flags = a + flags := by
  have h : a = 2 ^ 12 * (a / 4096) := by omega
  rw [h]
  exact (Nat.two_pow_add_eq_or_of_lt (by simpa using hf) _).symm

theorem frameMask_of_lt (h : e < 2 ^ 52) : e &&& PAGE_FRAME_MASK = pageAlign e := by
  rw [and_frameMask, pageAlign_eq (by omega)]
  omega

/-- What an entry with an address and flags is. -/
theorem entry_flags (ha : a % 4096 = 0) (hlt : a < 2 ^ 64) (hf : flags < 4096)
    (hp : flags.testBit 0 = true) : a ||| flags < a + 4096 ∧ pageAlign (a ||| flags) = a ∧
      pmPresent (a ||| flags) = true := by
  refine ⟨by rw [or_flags ha hf]; omega, ?_, ?_⟩
  · rw [or_flags ha hf, pageAlign_eq (by omega)]
    omega
  · unfold pmPresent
    rw [Nat.testBit_or, hp, Bool.or_true]

end arithmetic

/-! ### One call -/

section calls

variable {l : Layout} {len off n k va va' d t flags p : ℕ} {exact : Prop} {m : Mem} {s : PageState}

/-- The pages from the bump pointer on, as they are handed out. -/
def bumpAlloc (l : Layout) (off : ℕ) : TableAlloc := fun k m =>
  .ok (pageSetFrame l.frames m (bump off k), bump off k)

theorem Room.fresh (h : Room l len off n) :
    FreshTables (bumpAlloc l off) (bump off) (bitmap l.frames len) n where
  alloc_eq := fun {k} hk m => ⟨_, rfl, (AgreeOff.refl m _).wr _ fun x h1 h2 => by
    have hin := h.inside k hk
    have hword : l.frames ≤ frameWord l.frames (bump off k) := Nat.le_add_right _ _
    exact ⟨hword.trans h1, by omega⟩⟩
  page := fun hk => by
    have h1 := h.page
    have h2 := h.fits
    unfold bump
    omega
  inj := fun hkj hj => by
    unfold bump
    omega
  apart := fun hk h1 h2 hx => by
    have h3 := h.clear
    unfold bump at h1 h2
    unfold bitmap at hx
    omega

/-- The kernel resolves an address by the last entry on its path. -/
theorem pageResolve_eq (hlow : ∀ d ≤ 2, entryAt m l.pml4 va d < 2 ^ 52) :
    pageResolve l m va = if pmPresent (entryAt m l.pml4 va 3) then
      va % 4096 + pageAlign (entryAt m l.pml4 va 3) else 0 := by
  have hstep : ∀ d ≤ 2, ∀ t, tableAt m l.pml4 va d = some t →
      tableAt m l.pml4 va (d + 1) = if pmPresent (pmEntry m t (pagePmlIdx va (4 - d))) then
        some (pageAlign (pmEntry m t (pagePmlIdx va (4 - d)))) else none := by
    intro d hd t ht
    have he := entryAt_some ht
    rw [tableAt_entry, frameMask_of_lt (hlow d hd), he]
  have hend : ∀ d ≤ 3, tableAt m l.pml4 va d = none →
      0 = if pmPresent (entryAt m l.pml4 va 3) then
        va % 4096 + pageAlign (entryAt m l.pml4 va 3) else 0 := by
    intro d hd h
    rw [entryAt_none (tableAt_none h hd)]
    rfl
  unfold pageResolve
  rw [drawerIdx_eq, directoryIdx_eq, tableIdx_eq, pageIdx_eq]
  have h1 : tableAt m l.pml4 va 1 = if pmPresent (pmEntry m l.pml4 (pagePmlIdx va 4)) then
    some (pageAlign (pmEntry m l.pml4 (pagePmlIdx va 4))) else none := hstep 0 (by omega) _ rfl
  split_ifs at h1 with c1
  swap
  · rw [if_neg c1]
    exact hend 1 (by omega) h1
  rw [if_pos c1]
  dsimp only
  generalize pageAlign (pmEntry m l.pml4 (pagePmlIdx va 4)) = pml3 at h1
  have h2 : tableAt m l.pml4 va 2 = if pmPresent (pmEntry m pml3 (pagePmlIdx va 3)) then
    some (pageAlign (pmEntry m pml3 (pagePmlIdx va 3))) else none := hstep 1 (by omega) _ h1
  split_ifs at h2 with c2
  swap
  · rw [if_neg c2]
    exact hend 2 (by omega) h2
  rw [if_pos c2]
  generalize pageAlign (pmEntry m pml3 (pagePmlIdx va 3)) = pml2 at h2
  have h3 : tableAt m l.pml4 va 3 = if pmPresent (pmEntry m pml2 (pagePmlIdx va 2)) then
    some (pageAlign (pmEntry m pml2 (pagePmlIdx va 2))) else none := hstep 2 le_rfl _ h2
  split_ifs at h3 with c3
  swap
  · rw [if_neg c3]
    exact hend 3 le_rfl h3
  rw [if_pos c3, entryAt_some h3]
  generalize pageAlign (pmEntry m pml2 (pagePmlIdx va 2)) = pml1
  have hlt : pmEntry m pml1 (pagePmlIdx va 1) < 2 ^ 64 := rd_lt m _
  have hoff : va % 2 ^ 12 < 4096 := Nat.mod_lt _ (by norm_num)
  have hmod : pageAlign (pmEntry m pml1 (pagePmlIdx va 1)) % 4096 = 0 := by
    rw [pageAlign_eq hlt]
    omega
  rw [Nat.or_comm, or_flags hmod hoff, Nat.add_comm]
  rfl

/-- Which flags a new entry gets. -/
def FlagsOk (flags : ℕ) : Prop := flags < 4096 ∧ flags.testBit 0 = true

/-- What making the table behind entry `d` of the path of `va` does. -/
structure NewTable (l : Layout) (len off n : ℕ) (exact : Prop) (s : PageState) (k va d t : ℕ)
    (s' : PageState) (k' : ℕ) : Prop where
  le : k' ≤ k + 1
  offset : s'.pageOffset = bump off k'
  tables : IdTables l len off n exact s'.mem k'
  table : tableAt s'.mem l.pml4 va (d + 1) = some (pageAlign (pmEntry s'.mem t (pagePmlIdx va (4 - d))))
  last : ∀ va', entryAt s'.mem l.pml4 va' 3 = entryAt s.mem l.pml4 va' 3

theorem pageNewTable_spec (hr : Room l len off n) (hf : FlagsOk flags)
    (h : IdTables l len off n exact s.mem k) (hs : s.pageOffset = bump off k) (hk : k < n) (hd : d ≤ 2)
    (ht : tableAt s.mem l.pml4 va d = some t) : ∃ k', NewTable l len off n exact s k va d t
      (pageNewTable l flags s t (pagePmlIdx va (4 - d))) k' := by
  have hlow := h.low va d hd
  rw [entryAt_some ht] at hlow
  unfold pageNewTable
  cases hp : pmPresent (pmEntry s.mem t (pagePmlIdx va (4 - d))) with
  | true =>
      rw [if_pos rfl]
      refine ⟨k, by omega, hs, h, ?_, fun _ => rfl⟩
      rw [tableAt_entry, entryAt_some ht, hp, if_pos rfl, frameMask_of_lt hlow]
  | false =>
      rw [if_neg Bool.false_ne_true, hs]
      dsimp only
      obtain ⟨m', hm', hagree⟩ := hr.fresh.alloc_eq hk s.mem
      cases hm'
      obtain ⟨hmod, hlt⟩ := hr.fresh.page hk
      obtain ⟨he, haddr, hpres⟩ := entry_flags hmod (by omega) hf.1 hf.2
      have he' : bump off k ||| flags < 2 ^ 52 := by omega
      have hlink := h.pages.linkEntry hr.fresh hk hd ht hp hagree (by omega) hpres
        ((frameMask_of_lt he').trans haddr)
      have hentry := hlink.entry
      have hlast : ∀ va', entryAt _ l.pml4 va' 3 = entryAt s.mem l.pml4 va' 3 := fun va' => by
        rw [hentry va' 3 le_rfl, if_neg (by omega)]
      refine ⟨k + 1, le_rfl, ?_, ⟨hlink.pages, fun va' j hj => ?_, fun va' hpr => ?_⟩, ?_, hlast⟩
      · show u64 (bump off k + 8 * 512) = bump off (k + 1)
        unfold bump at hlt ⊢
        rw [u64_of_lt (by omega)]
        omega
      · rw [hentry va' j (by omega)]
        split_ifs
        · exact he'
        · exact h.low va' j hj
      · rw [hlast] at hpr ⊢
        exact h.same va' hpr
      · have hself : ∀ m₀, pmEntry (wr m₀ (t + 8 * pagePmlIdx va (4 - d)) (bump off k ||| flags)) t
            (pagePmlIdx va (4 - d)) = bump off k ||| flags := fun m₀ =>
          (rd_wr_same m₀ _ _).trans (Nat.mod_eq_of_lt (by omega))
        dsimp only
        rw [hself, haddr]
        exact hlink.table

/-- The last entry of a page is set, with the page of an address. -/
theorem IdTables.setLeaf (h : IdTables l len off n exact m k) (hf : FlagsOk flags)
    (ht : tableAt m l.pml4 va 3 = some t) (hp : p < 2 ^ 64) (hva : va % 2 ^ 48 = p % 2 ^ 48)
    (he : exact → p < 2 ^ 48) :
    IdTables l len off n exact (wr m (t + 8 * pagePmlIdx va 1) (pageAlign p ||| flags)) k ∧
      ∀ va', entryAt (wr m (t + 8 * pagePmlIdx va 1) (pageAlign p ||| flags)) l.pml4 va' 3 =
        if SamePage va' va then pageAlign p ||| flags else entryAt m l.pml4 va' 3 := by
  have halign := pageAlign_eq hp
  have hmod : pageAlign p % 4096 = 0 := by omega
  obtain ⟨hlt, haddr, -⟩ := entry_flags hmod (by omega) hf.1 hf.2
  have hset : ∀ va' j, j ≤ 3 →
      entryAt (wr m (t + 8 * pagePmlIdx va 1) (pageAlign p ||| flags)) l.pml4 va' j =
        if j = 3 ∧ pre va' (3 + 1) = pre va (3 + 1) then pageAlign p ||| flags
        else entryAt m l.pml4 va' j := fun va' j hj =>
    h.pages.entryAt_set (d := 3) le_rfl hj ht (by omega) (by omega)
  have hlast : ∀ va', entryAt (wr m (t + 8 * pagePmlIdx va 1) (pageAlign p ||| flags)) l.pml4 va' 3 =
      if SamePage va' va then pageAlign p ||| flags else entryAt m l.pml4 va' 3 := fun va' => by
    rw [hset va' 3 le_rfl]
    exact if_congr (by rw [samePage_iff]; simp) rfl rfl
  refine ⟨⟨h.pages.setLeaf ht, fun va' j hj => ?_, fun va' hpr => ?_⟩, hlast⟩
  · rw [hset va' j (by omega), if_neg (by omega)]
    exact h.low va' j hj
  · rw [hlast] at hpr ⊢
    split_ifs at hpr ⊢ with hc
    · rw [haddr, halign]
      unfold SamePage at hc
      rw [PAGE_SIZE] at hc
      refine ⟨by omega, fun hex => ?_⟩
      have := he hex
      omega
    · exact h.same va' hpr

/-- What a call does. -/
structure Mapped (l : Layout) (len off n : ℕ) (exact : Prop) (s : PageState) (k p flags : ℕ)
    (r : PageState × ℕ) (k' : ℕ) : Prop where
  le : k' ≤ k + 3
  offset : r.1.pageOffset = bump off k'
  tables : IdTables l len off n exact r.1.mem k'
  vaddr : r.2 = pageNormalizeVaddr p
  last : ∀ va', entryAt r.1.mem l.pml4 va' 3 =
    if SamePage va' p ∧ pmPresent (entryAt s.mem l.pml4 p 3) = false then pageAlign p ||| flags
    else entryAt s.mem l.pml4 va' 3

/-- The three upper levels of a call: the states after each of them, with the tables behind. -/
structure Walked (l : Layout) (flags len off n : ℕ) (exact : Prop) (s : PageState) (k va : ℕ)
    (s₁ s₂ s₃ : PageState) (pml3 pml2 pml1 k₁ k₂ k₃ : ℕ) : Prop where
  first : NewTable l len off n exact s k va 0 l.pml4 s₁ k₁
  first_eq : pageNewTable l flags s l.pml4 (pagePmlIdx va 4) = s₁
  table₁ : tableAt s₁.mem l.pml4 va 1 = some pml3
  second : NewTable l len off n exact s₁ k₁ va 1 pml3 s₂ k₂
  second_eq : pageNewTable l flags s₁ pml3 (pagePmlIdx va 3) = s₂
  table₂ : tableAt s₂.mem l.pml4 va 2 = some pml2
  third : NewTable l len off n exact s₂ k₂ va 2 pml2 s₃ k₃
  third_eq : pageNewTable l flags s₂ pml2 (pagePmlIdx va 2) = s₃
  table₃ : tableAt s₃.mem l.pml4 va 3 = some pml1

/-- A call goes down three levels and sets the entry of the last one. -/
theorem pageMapFlags_walk (hr : Room l len off n) (hf : FlagsOk flags)
    (h : IdTables l len off n exact s.mem k) (hs : s.pageOffset = bump off k) (hk : k + 3 ≤ n)
    (hva : pageNormalizeVaddr p = va) : ∃ s₁ s₂ s₃ pml3 pml2 pml1 k₁ k₂ k₃,
      Walked l flags len off n exact s k va s₁ s₂ s₃ pml3 pml2 pml1 k₁ k₂ k₃ ∧
      pageMapFlags l flags s p = if pmPresent (pmEntry s₃.mem pml1 (pagePmlIdx va 1)) then (s₃, va)
        else (⟨wr s₃.mem (pml1 + 8 * pagePmlIdx va 1) (pageAlign p ||| flags), s₃.pageOffset⟩, va) := by
  unfold pageMapFlags
  simp only [drawerIdx_eq, directoryIdx_eq, tableIdx_eq, pageIdx_eq, hva]
  have h0 : tableAt s.mem l.pml4 va 0 = some l.pml4 := rfl
  obtain ⟨k₁, n₁⟩ := pageNewTable_spec hr hf h hs (by omega) (by omega) h0
  have hk₁ := n₁.le
  rw [Nat.sub_zero] at n₁
  generalize e₁ : pageNewTable l flags s l.pml4 (pagePmlIdx va 4) = s₁ at n₁ ⊢
  have h1 : tableAt s₁.mem l.pml4 va 1 = some (pageAlign (pmEntry s₁.mem l.pml4 (pagePmlIdx va 4))) :=
    n₁.table
  generalize pageAlign (pmEntry s₁.mem l.pml4 (pagePmlIdx va 4)) = pml3 at h1 ⊢
  obtain ⟨k₂, n₂⟩ := pageNewTable_spec hr hf n₁.tables n₁.offset (by omega) (by omega) h1
  have hk₂ := n₂.le
  rw [show 4 - 1 = 3 from rfl] at n₂
  generalize e₂ : pageNewTable l flags s₁ pml3 (pagePmlIdx va 3) = s₂ at n₂ ⊢
  have h2 : tableAt s₂.mem l.pml4 va 2 = some (pageAlign (pmEntry s₂.mem pml3 (pagePmlIdx va 3))) :=
    n₂.table
  generalize pageAlign (pmEntry s₂.mem pml3 (pagePmlIdx va 3)) = pml2 at h2 ⊢
  obtain ⟨k₃, n₃⟩ := pageNewTable_spec hr hf n₂.tables n₂.offset (by omega) le_rfl h2
  rw [show 4 - 2 = 2 from rfl] at n₃
  generalize e₃ : pageNewTable l flags s₂ pml2 (pagePmlIdx va 2) = s₃ at n₃ ⊢
  have h3 : tableAt s₃.mem l.pml4 va 3 = some (pageAlign (pmEntry s₃.mem pml2 (pagePmlIdx va 2))) :=
    n₃.table
  generalize pageAlign (pmEntry s₃.mem pml2 (pagePmlIdx va 2)) = pml1 at h3 ⊢
  exact ⟨s₁, s₂, s₃, pml3, pml2, pml1, k₁, k₂, k₃, ⟨n₁, e₁, h1, n₂, e₂, h2, n₃, e₃, h3⟩, rfl⟩

theorem pageMapFlags_spec (hr : Room l len off n) (hf : FlagsOk flags)
    (h : IdTables l len off n exact s.mem k) (hs : s.pageOffset = bump off k) (hk : k + 3 ≤ n)
    (hp : p < 2 ^ 64) (he : exact → p < 2 ^ 48) :
    ∃ k', Mapped l len off n exact s k p flags (pageMapFlags l flags s p) k' := by
  obtain ⟨va, hvar⟩ : ∃ va, pageNormalizeVaddr p = va := ⟨_, rfl⟩
  obtain ⟨s₁, s₂, s₃, pml3, pml2, pml1, k₁, k₂, k₃, hw, heq⟩ :=
    pageMapFlags_walk hr hf h hs hk hvar
  have hva := @pageNormalizeVaddr_low p
  rw [hvar] at hva
  have hsame : ∀ va', SamePage va' va ↔ SamePage va' p := fun va' => by
    unfold SamePage
    rw [hva]
  rw [heq]
  have hentry : ∀ m, entryAt m l.pml4 p 3 = entryAt m l.pml4 va 3 := fun m =>
    entryAt_pre le_rfl (by unfold pre; rw [hva])
  have hk₁ := hw.first.le
  have hk₂ := hw.second.le
  have hk₃ := hw.third.le
  have hlast : ∀ va', entryAt s₃.mem l.pml4 va' 3 = entryAt s.mem l.pml4 va' 3 := fun va' =>
    (hw.third.last va').trans ((hw.second.last va').trans (hw.first.last va'))
  -- the last level
  have hpres : pmEntry s₃.mem pml1 (pagePmlIdx va 1) = entryAt s.mem l.pml4 p 3 := by
    rw [hentry, ← hlast, entryAt_some hw.table₃]
  cases hp' : pmPresent (entryAt s.mem l.pml4 p 3) with
  | true =>
      rw [hpres, hp', if_pos rfl]
      refine ⟨k₃, by omega, hw.third.offset, hw.third.tables, hvar.symm, fun va' => ?_⟩
      rw [hp', if_neg (by simp)]
      exact hlast va'
  | false =>
      rw [hpres, hp', if_neg Bool.false_ne_true]
      obtain ⟨hset, hleaf⟩ := hw.third.tables.setLeaf hf hw.table₃ hp hva he
      refine ⟨k₃, by omega, hw.third.offset, hset, hvar.symm, fun va' => ?_⟩
      refine (hleaf va').trans ?_
      rw [hlast, hp']
      exact if_congr (by simp [hsame]) rfl rfl

theorem mapFlags_ok : FlagsOk MAP_FLAGS := ⟨by decide, by decide⟩

theorem mmioFlags_ok : FlagsOk MMIO_FLAGS := ⟨by decide, by decide⟩

theorem MapCall.exec_spec (hr : Room l len off n) (h : IdTables l len off n exact s.mem k)
    (hs : s.pageOffset = bump off k) (hk : k + 3 ≤ n) (c : MapCall) (hp : c.paddr < 2 ^ 64)
    (he : exact → c.paddr < 2 ^ 48) :
    FlagsOk c.flags ∧ ∃ k', Mapped l len off n exact s k c.paddr c.flags (c.exec l s) k' := by
  cases c with
  | map p => exact ⟨mapFlags_ok, pageMapFlags_spec hr mapFlags_ok h hs hk hp he⟩
  | mmio p => exact ⟨mmioFlags_ok, pageMapFlags_spec hr mmioFlags_ok h hs hk hp he⟩

/-- Any sequence of calls keeps the invariant. -/
theorem run_tables (hr : Room l len off n) {cs : List MapCall}
    (h : IdTables l len off n exact s.mem k) (hs : s.pageOffset = bump off k)
    (hk : k + 3 * cs.length ≤ n) (hp : ∀ c ∈ cs, c.paddr < 2 ^ 64)
    (he : exact → ∀ c ∈ cs, c.paddr < 2 ^ 48) :
    ∃ k' ≤ k + 3 * cs.length, (run l s cs).pageOffset = bump off k' ∧
      IdTables l len off n exact (run l s cs).mem k' := by
  induction cs generalizing s k with
  | nil => exact ⟨k, le_rfl, hs, h⟩
  | cons c cs ih =>
      rw [List.length_cons] at hk
      obtain ⟨-, k₁, h1⟩ := c.exec_spec hr h hs (by omega) (hp c List.mem_cons_self)
        fun hex => he hex c List.mem_cons_self
      have hle := h1.le
      obtain ⟨k₂, hk₂, h2, h3⟩ := ih h1.tables h1.offset (by omega)
        (fun d hd => hp d (List.mem_cons_of_mem c hd))
        fun hex d hd => he hex d (List.mem_cons_of_mem c hd)
      refine ⟨k₂, ?_, h2, h3⟩
      rw [List.length_cons]
      omega

theorem IdTables.mono {exact' : Prop} (h : IdTables l len off n exact m k) (he : exact' → exact) :
    IdTables l len off n exact' m k :=
  ⟨h.pages, h.low, fun va hp => ⟨(h.same va hp).1, fun hex => (h.same va hp).2 (he hex)⟩⟩

/-- What an address of the page of a call resolves to after it, up to the upper bits. -/
theorem Mapped.resolve {r : PageState × ℕ} {k' : ℕ} (hm : Mapped l len off n exact s k p flags r k')
    (hf : FlagsOk flags) (hp : p < 2 ^ 64) {v : ℕ} (hv : SamePage v p) :
    pageResolve l r.1.mem v % 2 ^ 48 = v % 2 ^ 48 := by
  have halign := pageAlign_eq hp
  obtain ⟨-, -, hnew⟩ := entry_flags (by omega : pageAlign p % 4096 = 0) (by omega) hf.1 hf.2
  have hpres : pmPresent (entryAt r.1.mem l.pml4 v 3) = true := by
    rw [hm.last]
    split_ifs with hc
    · exact hnew
    · rw [entryAt_pre le_rfl (samePage_iff.mp hv)]
      have hor := not_and_or.mp hc
      simpa using hor.resolve_left (not_not.mpr hv)
  have hmod := (hm.tables.same v hpres).1
  rw [pageResolve_eq (hm.tables.low v), hpres, if_pos rfl]
  omega

/-- What every other address resolves to. -/
theorem Mapped.frame {r : PageState × ℕ} {k' : ℕ} (hm : Mapped l len off n exact s k p flags r k')
    (h : IdTables l len off n exact s.mem k) {v : ℕ} (hv : ¬ SamePage v p) :
    pageResolve l r.1.mem v = pageResolve l s.mem v := by
  have hlast := hm.last v
  rw [if_neg fun hc => hv hc.1] at hlast
  rw [pageResolve_eq (hm.tables.low v), pageResolve_eq (h.low v), hlast]

theorem MapCall.flags_ok (c : MapCall) : FlagsOk c.flags := by
  cases c with
  | map p => exact mapFlags_ok
  | mmio p => exact mmioFlags_ok

theorem run_concat (s : PageState) (cs : List MapCall) (c : MapCall) :
    run l s (cs ++ [c]) = (c.exec l (run l s cs)).1 := by
  induction cs generalizing s with
  | nil => rfl
  | cons _ _ ih => exact ih _

/-- The last entry of a page after a run is the one it had if that is present, and else the one of
the first call for the page. -/
theorem run_entry (hr : Room l len off n) {cs : List MapCall} {v : ℕ}
    (h : IdTables l len off n exact s.mem k) (hs : s.pageOffset = bump off k)
    (hk : k + 3 * cs.length ≤ n) (hp : ∀ c ∈ cs, c.paddr < 2 ^ 64)
    (he : exact → ∀ c ∈ cs, c.paddr < 2 ^ 48) :
    entryAt (run l s cs).mem l.pml4 v 3 =
      if pmPresent (entryAt s.mem l.pml4 v 3) then entryAt s.mem l.pml4 v 3
      else ((cs.find? fun c => SamePage v c.paddr).map fun c => pageAlign c.paddr ||| c.flags).getD
        (entryAt s.mem l.pml4 v 3) := by
  induction cs generalizing s k with
  | nil => exact (ite_self _).symm
  | cons c cs ih =>
      rw [List.length_cons] at hk
      have hpc := hp c List.mem_cons_self
      obtain ⟨hf, k₁, h1⟩ := c.exec_spec hr h hs (by omega) hpc fun hex => he hex c List.mem_cons_self
      have hle := h1.le
      have hlast := h1.last v
      have halign := pageAlign_eq hpc
      obtain ⟨-, -, hnew⟩ := entry_flags (by omega : pageAlign c.paddr % 4096 = 0) (by omega) hf.1 hf.2
      rw [show run l s (c :: cs) = run l (c.exec l s).1 cs from rfl,
        ih h1.tables h1.offset (by omega) (fun d hd => hp d (List.mem_cons_of_mem c hd))
          fun hex d hd => he hex d (List.mem_cons_of_mem c hd)]
      by_cases hv : SamePage v c.paddr
      · have hpage : entryAt s.mem l.pml4 c.paddr 3 = entryAt s.mem l.pml4 v 3 :=
          (entryAt_pre le_rfl (samePage_iff.mp hv)).symm
        rw [hpage] at hlast
        have hfind : ((c :: cs).find? fun c => SamePage v c.paddr) = some c :=
          List.find?_cons_of_pos (decide_eq_true hv)
        rw [hfind]
        cases hpr : pmPresent (entryAt s.mem l.pml4 v 3) with
        | true =>
            rw [hpr, if_neg (by simp)] at hlast
            rw [hlast, hpr, if_pos rfl, if_pos rfl]
        | false =>
            rw [hpr, if_pos ⟨hv, rfl⟩] at hlast
            rw [hlast, hnew, if_pos rfl, if_neg Bool.false_ne_true]
            rfl
      · rw [if_neg fun hc => hv hc.1] at hlast
        have hfind : ((c :: cs).find? fun c => SamePage v c.paddr) =
            cs.find? fun c => SamePage v c.paddr := List.find?_cons_of_neg (by simpa using hv)
        rw [hfind, hlast]

/-- What an address of the page of a call resolves to after the run with that call is the address
itself exactly when the entry that stays has no bits from 48 on. -/
theorem run_resolve (hr : Room l len off n) {cs : List MapCall} {c : MapCall} {v : ℕ}
    (h : IdTables l len off n True s.mem 0) (hs : s.pageOffset = off)
    (hn : 3 * (cs.length + 1) ≤ n) (hcs : ∀ c' ∈ cs, c'.paddr < 2 ^ 64) (hp : c.paddr < 2 ^ 48)
    (hv : SamePage v c.paddr) (hlow : v % 2 ^ 48 = c.paddr) :
    pageResolve l (run l s (cs ++ [c])).mem v = c.paddr ↔
      pmPresent (entryAt s.mem l.pml4 c.paddr 3) = true ∨
        ∀ c' ∈ cs.find? fun c' => SamePage c.paddr c'.paddr, c'.paddr < 2 ^ 48 := by
  have hall : ∀ c' ∈ cs ++ [c], c'.paddr < 2 ^ 64 := fun c' hc' => by
    rcases List.mem_append.mp hc' with hc' | hc'
    · exact hcs c' hc'
    · rw [List.mem_singleton.mp hc']
      omega
  have hlen : 0 + 3 * (cs ++ [c]).length ≤ n := by
    rw [List.length_append, List.length_singleton]
    omega
  have h' : IdTables l len off n False s.mem 0 := h.mono fun _ => trivial
  obtain ⟨k', -, -, htab⟩ := run_tables hr h' (by rw [hs]; rfl) hlen hall False.elim
  have hentry := run_entry (v := v) hr h' (by rw [hs]; rfl) hlen hall False.elim
  have hpage : entryAt s.mem l.pml4 c.paddr 3 = entryAt s.mem l.pml4 v 3 :=
    (entryAt_pre le_rfl (samePage_iff.mp hv)).symm
  have hpred : (fun c' : MapCall => decide (SamePage v c'.paddr)) =
      fun c' => decide (SamePage c.paddr c'.paddr) := funext fun c' => by
    rw [decide_eq_decide]
    unfold SamePage at hv ⊢
    rw [hv]
  rw [pageResolve_eq (htab.low v), hentry, hpage, hpred, List.find?_append]
  cases hpr : pmPresent (entryAt s.mem l.pml4 v 3) with
  | true =>
      rw [if_pos rfl, hpr, if_pos rfl]
      have := (h.same v hpr).2 trivial
      have := (h.same v hpr).1
      simp only [true_or, iff_true]
      omega
  | false =>
      -- the page is mapped by the first call for it
      obtain ⟨c', hc', hfind, hsame⟩ : ∃ c', c'.paddr < 2 ^ 64 ∧
          ((cs.find? fun c' => SamePage c.paddr c'.paddr).or
            ([c].find? fun c' => SamePage c.paddr c'.paddr)) = some c' ∧
          SamePage c.paddr c'.paddr ∧
          ((∀ d ∈ cs.find? fun c' => SamePage c.paddr c'.paddr, d.paddr < 2 ^ 48) ↔
            c'.paddr < 2 ^ 48) := by
        cases hcs' : cs.find? fun c' => SamePage c.paddr c'.paddr with
        | none =>
            have hself : SamePage c.paddr c.paddr := rfl
            have hone : ([c].find? fun c' => SamePage c.paddr c'.paddr) = some c :=
              List.find?_cons_of_pos (by exact decide_eq_true hself)
            exact ⟨c, by omega, hone, hself, by simpa using hp⟩
        | some d =>
            have hd : decide (SamePage c.paddr d.paddr) = true := by
              have := List.find?_some hcs'
              exact this
            exact ⟨d, hcs d (List.mem_of_find?_eq_some hcs'), rfl, of_decide_eq_true hd, by simp⟩
      obtain ⟨hsame, hiff⟩ := hsame
      have halign := pageAlign_eq hc'
      have hflags := c'.flags_ok
      obtain ⟨-, haddr, hnew⟩ := entry_flags (by omega : pageAlign c'.paddr % 4096 = 0) (by omega)
        hflags.1 hflags.2
      rw [if_neg Bool.false_ne_true, hfind, Option.map_some, Option.getD_some, hnew, if_pos rfl, haddr,
        hiff]
      unfold SamePage at hsame
      rw [PAGE_SIZE] at hsame
      simp only [Bool.false_eq_true, false_or]
      omega

/-- **After any sequence of calls from identity-mapped tables on, a call for an address below
`2 ^ 48` returns its canonical form, which resolves to the address up to the upper bits, and to the
address itself exactly when the page was mapped from the start or the first call before for an
address on it, if there is one, was for an address below `2 ^ 48`.  Addresses on other pages resolve
as before.** -/
theorem page_map_identity (hr : Room l len off n) (h : IdTables l len off n True s.mem 0)
    (hs : s.pageOffset = off) {cs : List MapCall} {c : MapCall} (hn : 3 * (cs.length + 1) ≤ n)
    (hcs : ∀ c' ∈ cs, c'.paddr < 2 ^ 64) (hp : c.paddr < 2 ^ 48) :
    ∃ s' v, c.exec l (run l s cs) = (s', v) ∧ Canonical v ∧ v % 2 ^ 48 = c.paddr ∧
      pageResolve l s'.mem v % 2 ^ 48 = c.paddr ∧
      (pageResolve l s'.mem v = c.paddr ↔ pmPresent (entryAt s.mem l.pml4 c.paddr 3) = true ∨
        ∀ c' ∈ cs.find? fun c' => SamePage c.paddr c'.paddr, c'.paddr < 2 ^ 48) ∧
      ∀ x, ¬ SamePage x c.paddr →
        pageResolve l s'.mem x = pageResolve l (run l s cs).mem x := by
  have h' : IdTables l len off n False s.mem 0 := h.mono fun _ => trivial
  obtain ⟨k, hk, hoff, htab⟩ := run_tables hr h' (by rw [hs]; rfl) (by omega) hcs False.elim
  obtain ⟨hf, k', hm⟩ := c.exec_spec hr htab hoff (by omega) (by omega) fun _ => hp
  have hlow : (c.exec l (run l s cs)).2 % 2 ^ 48 = c.paddr := by
    rw [hm.vaddr, pageNormalizeVaddr_low, Nat.mod_eq_of_lt hp]
  have hsame : SamePage (c.exec l (run l s cs)).2 c.paddr := by
    unfold SamePage
    rw [hlow, Nat.mod_eq_of_lt hp]
  have hcan : Canonical (c.exec l (run l s cs)).2 := by
    rw [hm.vaddr]
    exact pageNormalizeVaddr_canonical
  have hexact := run_resolve hr h hs hn hcs hp hsame hlow
  rw [run_concat] at hexact
  exact ⟨_, _, rfl, hcan, hlow, (hm.resolve hf (by omega) hsame).trans hlow, hexact,
    fun x hx => hm.frame htab hx⟩

end calls

/-! ### Memory apart from the tables -/

/-- The bytes `P` are not in the bitmap, and neither in the `n` pages from `off` on. -/
structure Elsewhere (l : Layout) (len off n : ℕ) (P : ℕ → Prop) : Prop where
  map : ∀ x, bitmap l.frames len x → ¬ P x
  pool : ∀ x, off ≤ x → x < off + 4096 * n → ¬ P x

/-- What the tables stay clear of. -/
def clearOf (l : Layout) (len : ℕ) (P : ℕ → Prop) (x : ℕ) : Prop := bitmap l.frames len x ∨ P x

section kept

variable {l : Layout} {len off n k va d t flags p : ℕ} {exact : Prop} {m : Mem} {s : PageState}
  {P : ℕ → Prop}

theorem Elsewhere.fresh (h : Elsewhere l len off n P) (hr : Room l len off n) :
    FreshTables (bumpAlloc l off) (bump off) (clearOf l len P) n where
  alloc_eq := fun hk m => by
    obtain ⟨m', h1, h2⟩ := hr.fresh.alloc_eq hk m
    exact ⟨m', h1, h2.mono fun x hx => .inl hx⟩
  page := hr.fresh.page
  inj := hr.fresh.inj
  apart := fun {j x} hj h1 h2 hx => by
    rcases hx with hx | hx
    · exact hr.fresh.apart hj h1 h2 hx
    · refine h.pool x ?_ ?_ hx
      · unfold bump at h1
        omega
      · unfold bump at h2
        omega

/-- The bytes `P` are as they were, and the tables are clear of them. -/
structure Kept (l : Layout) (len off n : ℕ) (P : ℕ → Prop) (m : Mem) (s : PageState) : Prop where
  same : ∀ x, P x → s.mem x = m x
  tables : ∃ k, s.pageOffset = bump off k ∧
    PagesOk (bump off) (clearOf l len P) n s.mem l.pml4 k

theorem bump_inj {j : ℕ} (h : bump off k = bump off j) : k = j := by
  unfold bump at h
  omega

theorem pageNewTable_kept (hr : Room l len off n) (hP : Elsewhere l len off n P)
    (hf : FlagsOk flags) (h : Kept l len off n P m s) (hs : s.pageOffset = bump off k) (hk : k < n)
    (hd : d ≤ 2) (ht : tableAt s.mem l.pml4 va d = some t) :
    Kept l len off n P m (pageNewTable l flags s t (pagePmlIdx va (4 - d))) := by
  obtain ⟨hsame, j, hj, hpages⟩ := h
  obtain rfl := bump_inj (hs.symm.trans hj)
  unfold pageNewTable
  cases hp : pmPresent (pmEntry s.mem t (pagePmlIdx va (4 - d))) with
  | true =>
      rw [if_pos rfl]
      exact ⟨hsame, _, hs, hpages⟩
  | false =>
      rw [if_neg Bool.false_ne_true, hs]
      dsimp only
      have hfresh := hP.fresh hr
      obtain ⟨m', hm', hagree⟩ := hr.fresh.alloc_eq hk s.mem
      cases hm'
      obtain ⟨hmod, hlt⟩ := hfresh.page hk
      obtain ⟨he, haddr, hpres⟩ := entry_flags hmod (by omega) hf.1 hf.2
      have he' : bump off k ||| flags < 2 ^ 52 := by omega
      have hlink := hpages.linkEntry hfresh hk hd ht hp (hagree.mono fun x hx => .inl hx) (by omega)
        hpres ((frameMask_of_lt he').trans haddr)
      refine ⟨fun x hx => ?_, k + 1, ?_, hlink.pages⟩
      · have hn : ¬ (bump off k ≤ x ∧ x < bump off k + 8 * 512) := fun hc =>
          hfresh.apart hk hc.1 (by omega) (.inr hx)
        dsimp only
        rw [hpages.wr_apart (by omega) ht pagePmlIdx_lt (.inr hx), fill, if_neg hn,
          hagree x fun hb => hP.map x hb hx]
        exact hsame x hx
      · show u64 (bump off k + 8 * 512) = bump off (k + 1)
        unfold bump at hlt ⊢
        rw [u64_of_lt (by omega)]
        omega

/-- The last entry of a page is set. -/
theorem Kept.setLeaf {e : ℕ} (h : Kept l len off n P m s) (ht : tableAt s.mem l.pml4 va 3 = some t) :
    Kept l len off n P m ⟨wr s.mem (t + 8 * pagePmlIdx va 1) e, s.pageOffset⟩ := by
  obtain ⟨hsame, j, hj, hpages⟩ := h
  refine ⟨fun x hx => ?_, j, hj, hpages.setLeaf ht⟩
  dsimp only
  rw [hpages.wr_apart le_rfl ht pagePmlIdx_lt (.inr hx)]
  exact hsame x hx

/-- **A call** leaves the bytes apart from the tables. -/
theorem pageMapFlags_kept (hr : Room l len off n) (hP : Elsewhere l len off n P)
    (hf : FlagsOk flags) (h : IdTables l len off n exact s.mem k) (hs : s.pageOffset = bump off k)
    (hk : k + 3 ≤ n) (hkept : Kept l len off n P m s) :
    Kept l len off n P m (pageMapFlags l flags s p).1 := by
  obtain ⟨va, hvar⟩ : ∃ va, pageNormalizeVaddr p = va := ⟨_, rfl⟩
  obtain ⟨s₁, s₂, s₃, pml3, pml2, pml1, k₁, k₂, k₃, hw, heq⟩ :=
    pageMapFlags_walk hr hf h hs hk hvar
  have hk₁ := hw.first.le
  have hk₂ := hw.second.le
  have h0 : tableAt s.mem l.pml4 va 0 = some l.pml4 := rfl
  have q₁ := pageNewTable_kept hr hP hf hkept hs (by omega) (by omega) h0
  rw [Nat.sub_zero, hw.first_eq] at q₁
  have q₂ := pageNewTable_kept hr hP hf q₁ hw.first.offset (by omega) (by omega) hw.table₁
  rw [show 4 - 1 = 3 from rfl, hw.second_eq] at q₂
  have q₃ := pageNewTable_kept hr hP hf q₂ hw.second.offset (by omega) le_rfl hw.table₂
  rw [show 4 - 2 = 2 from rfl, hw.third_eq] at q₃
  rw [heq]
  split_ifs
  · exact q₃
  · exact q₃.setLeaf hw.table₃

end kept

/-! ### Empty tables -/

/-- The tables at page 1 and the bitmap at page 2. -/
def emptyLayout : Layout := ⟨0x1000, 0x2000⟩

/-- Memory full of zeros, with the bump pointer at page 3. -/
def emptyState : PageState := ⟨fun _ => 0, 0x3000⟩

theorem emptyLayout_room {n : ℕ} (hn : n ≤ 36) : Room emptyLayout 0x1000 0x3000 n where
  page := rfl
  fits := by omega
  clear := .inl le_rfl
  inside := fun k hk => by
    unfold frameWord BIT_INDEX frameOf bump emptyLayout
    dsimp only
    omega

/-- With an empty root nothing is mapped. -/
theorem emptyLayout_tables {m : Mem} {n : ℕ} (hm : ∀ i < 512, pmEntry m 0x1000 i = 0) :
    IdTables emptyLayout 0x1000 0x3000 n True m 0 := by
  have hzero : ∀ va d, entryAt m 0x1000 va d = 0 := by
    intro va d
    cases ht : tableAt m 0x1000 va d with
    | none => exact entryAt_none ht
    | some t =>
        obtain ⟨-, rfl⟩ := empty_tables hm ht
        exact (entryAt_some ht).trans (hm _ pagePmlIdx_lt)
  refine ⟨empty_pagesOk rfl hm (fun j _ => ?_) fun x h1 h2 hx => ?_,
    fun va d _ => ?_, fun va hp => ?_⟩
  · show bump 0x3000 j ≠ 0x1000
    unfold bump
    omega
  · have hlow : 0x2000 ≤ x := hx.1
    have hhigh : x < 0x1000 + 4096 := h2
    omega
  · exact (hzero va d).trans_lt (by norm_num)
  · rw [show entryAt m emptyLayout.pml4 va 3 = 0 from hzero va 3] at hp
    cases hp

theorem emptyState_tables : IdTables emptyLayout 0x1000 0x3000 12 True emptyState.mem 0 :=
  emptyLayout_tables fun _ _ => zero_entry

theorem page_map_identity_two : ∃ s' v,
    MapCall.exec emptyLayout (run emptyLayout emptyState [.map 0x1000000005000, .mmio 0xFEE00000])
        (.mmio 0xFEE00010) = (s', v) ∧ Canonical v ∧ v % 2 ^ 48 = 0xFEE00010 ∧
      pageResolve emptyLayout s'.mem v % 2 ^ 48 = 0xFEE00010 ∧
      (pageResolve emptyLayout s'.mem v = 0xFEE00010 ↔
        pmPresent (entryAt emptyState.mem emptyLayout.pml4 0xFEE00010 3) = true ∨
          ∀ c' ∈ [MapCall.map 0x1000000005000, .mmio 0xFEE00000].find? fun c' =>
            SamePage 0xFEE00010 c'.paddr, c'.paddr < 2 ^ 48) ∧
      ∀ x, ¬ SamePage x 0xFEE00010 → pageResolve emptyLayout s'.mem x = pageResolve emptyLayout
        (run emptyLayout emptyState [.map 0x1000000005000, .mmio 0xFEE00000]).mem x :=
  page_map_identity (c := .mmio 0xFEE00010) (emptyLayout_room (by norm_num)) emptyState_tables rfl
    (by decide) (by simp [MapCall.paddr]) (by norm_num [MapCall.paddr])

/-- A page that an earlier call mapped to an address from `2 ^ 48` on stays there. -/
theorem page_map_high : ∃ (l : Layout) (len off n : ℕ) (s : PageState) (cs : List MapCall)
    (c : MapCall), Room l len off n ∧ IdTables l len off n True s.mem 0 ∧ s.pageOffset = off ∧
      3 * (cs.length + 1) ≤ n ∧ (∀ c' ∈ cs, c'.paddr < 2 ^ 64) ∧ c.paddr < 2 ^ 48 ∧
      pageResolve l (c.exec l (run l s cs)).1.mem (c.exec l (run l s cs)).2 ≠ c.paddr :=
  ⟨emptyLayout, 0x1000, 0x3000, 12, emptyState, [.map 0x1000000001000], .map 0x1000,
    emptyLayout_room (by norm_num), emptyState_tables, rfl, by decide, by simp [MapCall.paddr],
    by norm_num [MapCall.paddr], by decide +kernel⟩

end Dawos.Kernel
