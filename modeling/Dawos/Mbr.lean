import Dawos.Loop

/-! # The boot code of the master boot record

The part of `mbr/main.asm` that looks for the BIOS boot partition among the first four entries of
the partition array and copies it to memory.  Registers and the words of the disk address packet
are natural numbers below the power of two of their width.

Two things are assumed about the disk, as the boot code assumes them: the partition array begins at
LBA 2 (`read_part_arr` never looks at `part_arr_lba` of the header), and its entries are
`PART_ENTRY_SIZE` bytes apart.  `Mem` is `BUFF_LOC`, the buffer into which the sector at LBA 2 has
been read.

`mbr_copy_iff` says when the copy is the partition, cut off at `TRANSF_MAX` sectors. -/

namespace Dawos

/-- Location of the code of the boot partition. -/
def BOOT_LOC : ℕ := 0x7E00
/-- Sectors in one transfer. -/
def TRANSF_SECTORS : ℕ := 0x0001
/-- Bytes in one transfer. -/
def TRANSF_BYTES : ℕ := 0x0200
/-- 960 sectors max. -/
def TRANSF_MAX : ℕ := 0x03C0

/-- Bytes from one partition entry to the next, whatever the header says. -/
def PART_ENTRY_SIZE : ℕ := 0x0080

/-- The words of the disk address packet that the copy uses. -/
structure Dap where
  lbaCount : ℕ
  destBuff : ℕ
  destSegm : ℕ
  lbaStartL : ℕ
  lbaStartH : ℕ

/-- An extended read: first sector, number of sectors and address. -/
structure DiskRead where
  lba : ℕ
  count : ℕ
  phys : ℕ
deriving DecidableEq

/-- What a read with the packet does. -/
def Dap.read (dap : Dap) : DiskRead where
  lba := dap.lbaStartL + dap.lbaStartH * 2 ^ 32
  count := dap.lbaCount
  phys := dap.destSegm * 16 + dap.destBuff

/-- How the boot code ends. -/
inductive MbrEnd where
  /-- It hangs. -/
  | hang
  /-- It reads over itself, the packet or the stack. -/
  | overwrite
  /-- It passes control to the boot partition, after these reads. -/
  | boot (reads : List DiskRead)
deriving DecidableEq

/-! ### The boot partition -/

/-- The type of the entry at offset `bx` is the one of a BIOS boot partition. -/
def isBbp (buff : Mem) (bx : ℕ) : Bool :=
  rdN buff 4 bx == 0x21686148 && rdN buff 4 (bx + 4) == 0x6E6F6449 &&
    rdN buff 4 (bx + 8) == 0x65654E74 && rdN buff 4 (bx + 12) == 0x49464564

/-- The loop of `test_part` with `cx` entries left: the offset of the first boot partition. -/
def testPart (buff : Mem) : ℕ → Option ℕ
  | 0 => none
  | cx + 1 =>
      let bx := (4 - (cx + 1)) * PART_ENTRY_SIZE
      if isBbp buff bx then some bx else testPart buff cx

/-- `prepare_copy`: the sector count and the packet of the first read. -/
def prepareCopy (buff : Mem) (bx : ℕ) : Option (ℕ × Dap) :=
  if rdN buff 4 (bx + 36) = 0 ∧ rdN buff 4 (bx + 44) = 0 then
    some ((rdN buff 4 (bx + 40) + 2 ^ 32 - rdN buff 4 (bx + 32)) % 2 ^ 32,
      ⟨TRANSF_SECTORS, BOOT_LOC, 0, rdN buff 4 (bx + 32), rdN buff 4 (bx + 36)⟩)
  else none

/-! ### The copy -/

/-- A 32-bit word as a signed number. -/
def signed32 (n : ℕ) : ℤ := if n < 2 ^ 31 then n else n - 2 ^ 32

/-- The state of the copy loop. -/
structure CopyState where
  cx : ℕ
  dap : Dap
  reads : List DiskRead

/-- `copy_start`: the number of iterations. -/
def copyStart (bbpSize : ℕ) (dap : Dap) : CopyState :=
  -- the comparison is signed
  let eax := if signed32 bbpSize ≤ TRANSF_MAX then bbpSize else TRANSF_MAX
  -- the 16-bit division of `dx:ax`, where `dx` is zero
  ⟨eax % 2 ^ 16 / TRANSF_SECTORS, dap, []⟩

/-- The packet of the next read. -/
def Dap.next (dap : Dap) : Dap :=
  let segm := dap.destSegm / 2 ^ 12
  -- the buffer position and the segment are incremented as one double word
  let eax := (segm * 2 ^ 16 + dap.destBuff + TRANSF_BYTES) % 2 ^ 32
  { dap with
    destBuff := eax % 2 ^ 16
    destSegm := eax / 2 ^ 16 * 2 ^ 12 % 2 ^ 16
    lbaStartL := (dap.lbaStartL + TRANSF_SECTORS) % 2 ^ 32 }

/-- One round of `.copy_block`. -/
def copyBlock (s : CopyState) : CopyState ⊕ MbrEnd :=
  if s.dap.read.phys < BOOT_LOC then .inr .overwrite
  else
    let reads := s.reads ++ [s.dap.read]
    let cx := (s.cx + 2 ^ 16 - 1) % 2 ^ 16
    if cx = 0 then .inr (.boot reads) else .inl ⟨cx, s.dap.next, reads⟩

/-- The boot code from `test_part` on, with at most `n` rounds of the copy loop; `buff` is the sector
at LBA 2. -/
def mbrBoot (buff : Mem) (n : ℕ) : Except Halt MbrEnd :=
  match testPart buff 4 with
  | none => .ok .hang
  | some bx =>
      match prepareCopy buff bx with
      | none => .ok .hang
      | some (bbpSize, dap) => loop copyBlock n (copyStart bbpSize dap)

/-! ### The run of the copy loop -/

/-- The read of sector `k` of a partition that begins at `first`. -/
def sectorRead (first k : ℕ) : DiskRead := ⟨first + k, 1, BOOT_LOC + 512 * k⟩

/-- The packet for sector `k`. -/
def dapAt (first k : ℕ) : Dap where
  lbaCount := TRANSF_SECTORS
  destBuff := (BOOT_LOC + 512 * k) % 2 ^ 16
  destSegm := (BOOT_LOC + 512 * k) / 2 ^ 16 % 2 ^ 4 * 2 ^ 12
  lbaStartL := (first + k) % 2 ^ 32
  lbaStartH := 0

/-- The number of sectors from `BOOT_LOC` to the end of the address space. -/
def SECTORS_MAX : ℕ := 1985

section copy

variable {buff : Mem} {first last bx c d k n j : ℕ} {rs : List DiskRead}

/-- The increment carries from the buffer position to the segment. -/
theorem dapAt_next (first k : ℕ) : (dapAt first k).next = dapAt first (k + 1) := by
  simp only [Dap.next, dapAt, BOOT_LOC, TRANSF_BYTES, TRANSF_SECTORS, Dap.mk.injEq, true_and, and_true]
  refine ⟨by omega, by omega, by omega⟩

theorem dapAt_phys (hk : k < SECTORS_MAX) : (dapAt first k).read.phys = BOOT_LOC + 512 * k := by
  simp only [SECTORS_MAX] at hk
  simp only [Dap.read, dapAt, BOOT_LOC]
  omega

theorem dapAt_wraps : (dapAt first SECTORS_MAX).read.phys < BOOT_LOC := by
  simp [Dap.read, dapAt, BOOT_LOC, SECTORS_MAX]

theorem dapAt_read (hk : k < SECTORS_MAX) (hl : first + k < 2 ^ 32) :
    (dapAt first k).read = sectorRead first k := by
  have h := @dapAt_phys first k hk
  have hlba : (dapAt first k).lbaStartL = first + k := Nat.mod_eq_of_lt hl
  rw [Dap.read] at h ⊢
  rw [sectorRead, DiskRead.mk.injEq]
  exact ⟨by rw [hlba, dapAt, Nat.zero_mul, Nat.add_zero], rfl, h⟩

/-- One round within the address space. -/
theorem copyBlock_eq (hk : k < SECTORS_MAX) (hc : c < 2 ^ 16) :
    copyBlock ⟨(c + 1) % 2 ^ 16, dapAt first k, rs⟩ =
      if c = 0 then .inr (.boot (rs ++ [(dapAt first k).read]))
      else .inl ⟨c % 2 ^ 16, dapAt first (k + 1), rs ++ [(dapAt first k).read]⟩ := by
  have hphys : ¬ (dapAt first k).read.phys < BOOT_LOC := by
    rw [dapAt_phys hk]
    omega
  have hcx : ((c + 1) % 2 ^ 16 + 2 ^ 16 - 1) % 2 ^ 16 = c % 2 ^ 16 := by omega
  have hz : c % 2 ^ 16 = 0 ↔ c = 0 := by omega
  unfold copyBlock
  dsimp only
  rw [if_neg hphys, hcx, dapAt_next]
  simp only [hz]

/-- The loop reads as many sectors as the counter says, up to the end of the address space. -/
theorem copyBlock_run (hc : c < 2 ^ 16) (hk : k + c < SECTORS_MAX) (hn : c < n) :
    loop copyBlock n ⟨(c + 1) % 2 ^ 16, dapAt first k, rs⟩ =
      .ok (.boot (rs ++ (List.range' k (c + 1)).map fun k => (dapAt first k).read)) := by
  induction c generalizing k n rs with
  | zero =>
      obtain ⟨n, rfl⟩ : ∃ i, n = i + 1 := ⟨n - 1, by omega⟩
      have hk' : k < SECTORS_MAX := hk
      simp only [loop, copyBlock_eq hk' hc, if_true]
      rfl
  | succ c ih =>
      obtain ⟨n, rfl⟩ : ∃ i, n = i + 1 := ⟨n - 1, by omega⟩
      have hk' : k < SECTORS_MAX := by omega
      simp only [loop, copyBlock_eq hk' hc, Nat.succ_ne_zero, if_false]
      have hl : List.range' k (c + 1 + 1) = k :: List.range' (k + 1) (c + 1) := List.range'_succ
      rw [ih (by omega) (by omega) (by omega), hl, List.map_cons, List.append_assoc]
      rfl

/-- A larger counter makes the loop wrap around in the address space. -/
theorem copyBlock_wraps (hc : SECTORS_MAX < k + c) (hc' : c ≤ 2 ^ 16) (hk : k ≤ SECTORS_MAX)
    (hn : SECTORS_MAX < k + n) :
    loop copyBlock n ⟨c % 2 ^ 16, dapAt first k, rs⟩ = .ok .overwrite := by
  obtain ⟨m, hm⟩ : ∃ m, k + m = SECTORS_MAX := ⟨SECTORS_MAX - k, by omega⟩
  induction m generalizing k c n rs with
  | zero =>
      obtain ⟨n, rfl⟩ : ∃ i, n = i + 1 := ⟨n - 1, by omega⟩
      obtain rfl : k = SECTORS_MAX := hm
      have hw := @dapAt_wraps first
      simp only [loop, copyBlock, hw, if_true]
  | succ m ih =>
      obtain ⟨n, rfl⟩ : ∃ i, n = i + 1 := ⟨n - 1, by omega⟩
      obtain ⟨c, rfl⟩ : ∃ i, c = i + 1 := ⟨c - 1, by omega⟩
      have hk' : k < SECTORS_MAX := by omega
      have hc₀ : c ≠ 0 := by omega
      simp only [loop, copyBlock_eq hk' hc', hc₀, if_false]
      exact ih (by omega) (by omega) (by omega) (by omega) (by omega)

/-! ### The copy of a partition -/

/-- The number of rounds for a partition whose last sector is `d` sectors after its first. -/
def rounds (d : ℕ) : ℕ :=
  if (copyStart d (dapAt 0 0)).cx = 0 then 2 ^ 16 else (copyStart d (dapAt 0 0)).cx

theorem rounds_eq (hd : d < 2 ^ 32) : rounds d =
    if d ≤ 960 ∨ 2 ^ 31 ≤ d then (if d % 2 ^ 16 = 0 then 2 ^ 16 else d % 2 ^ 16) else 960 := by
  have hs : signed32 d ≤ TRANSF_MAX ↔ d ≤ 960 ∨ 2 ^ 31 ≤ d := by
    unfold signed32 TRANSF_MAX
    split_ifs <;> omega
  unfold rounds copyStart
  simp only [hs, TRANSF_SECTORS, Nat.div_one]
  by_cases h : d ≤ 960 ∨ 2 ^ 31 ≤ d
  · rw [if_pos h, if_pos h]
  · rw [if_neg h, if_neg h]
    rfl

theorem rounds_pos (hd : d < 2 ^ 32) : 0 < rounds d ∧ rounds d ≤ 2 ^ 16 := by
  rw [rounds_eq hd]
  split_ifs <;> omega

theorem copyStart_eq (dap : Dap) : copyStart d dap = ⟨rounds d % 2 ^ 16, dap, []⟩ := by
  have hlt : (copyStart d (dapAt 0 0)).cx < 2 ^ 16 := by
    unfold copyStart TRANSF_SECTORS
    dsimp only
    rw [Nat.div_one]
    exact Nat.mod_lt _ (by norm_num)
  have hcx : rounds d % 2 ^ 16 = (copyStart d (dapAt 0 0)).cx := by
    unfold rounds
    split_ifs <;> omega
  rw [hcx]
  rfl

/-- The counter is the number of sectors, or 960 of them, iff the difference of the ends is
large enough. -/
theorem rounds_iff (hd : d < 2 ^ 32) : rounds d = min (d + 1) TRANSF_MAX ↔
    (960 ≤ d ∧ d < 2 ^ 31) ∨ (2 ^ 31 ≤ d ∧ d % 2 ^ 16 = 960) := by
  rw [rounds_eq hd, TRANSF_MAX]
  split_ifs <;> omega

/-- The search stops at the first boot partition. -/
theorem testPart_eq (hj : j < 4) (hb : isBbp buff (128 * j) = true)
    (hfirst : ∀ i < j, isBbp buff (128 * i) = false) {cx : ℕ} (hcx : cx ≤ 4) (hle : 4 ≤ cx + j) :
    testPart buff cx = some (128 * j) := by
  induction cx with
  | zero => omega
  | succ cx ih =>
      have hbx : (4 - (cx + 1)) * PART_ENTRY_SIZE = 128 * (3 - cx) := by
        rw [PART_ENTRY_SIZE]
        omega
      rw [testPart, hbx]
      by_cases he : 3 - cx = j
      · rw [he, if_pos hb]
      · rw [hfirst _ (by omega), if_neg Bool.false_ne_true]
        exact ih (by omega) (by omega)

/-- A word is its low part and its high part. -/
theorem rdN_add (m : Mem) (k : ℕ) : ∀ {j a : ℕ},
    rdN m (j + k) a = rdN m j a + 256 ^ j * rdN m k (a + j)
  | 0, a => by rw [rdN, Nat.zero_add, Nat.zero_add, pow_zero, one_mul, Nat.add_zero]
  | j + 1, a => by
      have ih : rdN m (j + k) (a + 1) = _ := rdN_add m k
      rw [Nat.add_right_comm, rdN, rdN, ih, Nat.add_assoc a 1 j, Nat.add_comm 1 j, pow_succ]
      ring

/-- The boot code runs the copy loop over the sectors of the partition. -/
theorem mbrBoot_eq (hj : j < 4) (hb : isBbp buff (128 * j) = true)
    (hfirst : ∀ i < j, isBbp buff (128 * i) = false) (hs : rdN buff 8 (128 * j + 32) = first)
    (he : rdN buff 8 (128 * j + 40) = last) (hle : first ≤ last) (hlt : last < 2 ^ 32) :
    mbrBoot buff n = loop copyBlock n ⟨rounds (last - first) % 2 ^ 16, dapAt first 0, []⟩ := by
  have hs' : rdN buff 4 (128 * j + 32) + 256 ^ 4 * rdN buff 4 (128 * j + 36) = first :=
    (rdN_add buff 4).symm.trans hs
  have he' : rdN buff 4 (128 * j + 40) + 256 ^ 4 * rdN buff 4 (128 * j + 44) = last :=
    (rdN_add buff 4).symm.trans he
  have hsl : rdN buff 4 (128 * j + 32) = first := by omega
  have hel : rdN buff 4 (128 * j + 40) = last := by omega
  have hsh : rdN buff 4 (128 * j + 36) = 0 := by omega
  have heh : rdN buff 4 (128 * j + 44) = 0 := by omega
  have hsize : (last + 2 ^ 32 - first) % 2 ^ 32 = last - first := by omega
  have hdap : (⟨TRANSF_SECTORS, BOOT_LOC, 0, first, 0⟩ : Dap) = dapAt first 0 := by
    rw [dapAt, Dap.mk.injEq]
    exact ⟨rfl, rfl, rfl, (Nat.mod_eq_of_lt (by omega)).symm, rfl⟩
  unfold mbrBoot prepareCopy
  rw [testPart_eq hj hb hfirst le_rfl (by omega)]
  dsimp only
  rw [hsh, heh, if_pos ⟨rfl, rfl⟩, hsl, hel, hsize, hdap]
  dsimp only
  rw [copyStart_eq]

/-- The boot code reads as many sectors as there are rounds. -/
theorem mbrBoot_run (hj : j < 4) (hb : isBbp buff (128 * j) = true)
    (hfirst : ∀ i < j, isBbp buff (128 * i) = false) (hs : rdN buff 8 (128 * j + 32) = first)
    (he : rdN buff 8 (128 * j + 40) = last) (hle : first ≤ last) (hlt : last < 2 ^ 32)
    (hc : rounds (last - first) ≤ SECTORS_MAX) : Returns (mbrBoot buff)
      (.boot ((List.range (rounds (last - first))).map fun k => (dapAt first k).read)) := by
  obtain ⟨hpos, hmax⟩ := @rounds_pos (last - first) (by omega)
  apply (Filter.eventually_ge_atTop (rounds (last - first))).mono
  intro n hn
  rw [mbrBoot_eq hj hb hfirst hs he hle hlt, List.range_eq_range']
  obtain ⟨c, hc'⟩ : ∃ i, rounds (last - first) = i + 1 := ⟨rounds (last - first) - 1, by omega⟩
  rw [hc'] at hn hmax hc ⊢
  exact copyBlock_run hmax (by omega) hn

/-- These are sectors of the disk, and their places in memory. -/
theorem map_dapAt (hc : c ≤ SECTORS_MAX) (hl : first + c ≤ 2 ^ 32) :
    (List.range c).map (fun k => (dapAt first k).read) = (List.range c).map (sectorRead first) := by
  apply List.map_congr_left
  intro k hk
  rw [List.mem_range] at hk
  exact dapAt_read (by omega) (by omega)

/-- **The boot code copies the partition, up to 960 sectors of it, iff the difference of its ends is
at least 960 as a signed number, or negative with 960 in its low word.** -/
theorem mbr_copy_iff (hj : j < 4) (hb : isBbp buff (128 * j) = true)
    (hfirst : ∀ i < j, isBbp buff (128 * i) = false) (hs : rdN buff 8 (128 * j + 32) = first)
    (he : rdN buff 8 (128 * j + 40) = last) (hle : first ≤ last) (hlt : last < 2 ^ 32) :
    Returns (mbrBoot buff) (.boot ((List.range (min (last - first + 1) TRANSF_MAX)).map
      (sectorRead first))) ↔
    (960 ≤ last - first ∧ last - first < 2 ^ 31) ∨
      (2 ^ 31 ≤ last - first ∧ (last - first) % 2 ^ 16 = 960) := by
  have hd : last - first < 2 ^ 32 := by omega
  obtain ⟨hpos, hmax⟩ := rounds_pos hd
  rw [← rounds_iff hd]
  by_cases hw : SECTORS_MAX < rounds (last - first)
  · have hover : Returns (mbrBoot buff) .overwrite := by
      apply (Filter.eventually_gt_atTop SECTORS_MAX).mono
      intro n hn
      rw [mbrBoot_eq hj hb hfirst hs he hle hlt]
      exact copyBlock_wraps (by omega) hmax (Nat.zero_le _) (by omega)
    apply iff_of_false
    · exact fun hc => by cases hover.unique hc
    · simp only [SECTORS_MAX, TRANSF_MAX] at hw ⊢
      omega
  · have hrun := mbrBoot_run hj hb hfirst hs he hle hlt (Nat.not_lt.mp hw)
    constructor
    · intro hc
      have h := congrArg List.length (MbrEnd.boot.inj (hrun.unique hc))
      rwa [List.length_map, List.length_map, List.length_range, List.length_range] at h
    · intro hc
      rwa [← hc, ← map_dapAt (Nat.not_lt.mp hw) (by omega)]

end copy

/-- A partition array whose first entry is a boot partition. -/
def bbpSector (first last : ℕ) : Mem :=
  wrN (wrN (wrN (wrN (wrN (wrN (fun _ => 0) 4 0 0x21686148) 4 4 0x6E6F6449) 4 8 0x65654E74) 4 12
    0x49464564) 8 32 first) 8 40 last

theorem mbr_copy_one : Returns (mbrBoot (bbpSector 34 2047))
    (.boot ((List.range (min (2047 - 34 + 1) TRANSF_MAX)).map (sectorRead 34))) ↔
    (960 ≤ 2047 - 34 ∧ 2047 - 34 < 2 ^ 31) ∨
      (2 ^ 31 ≤ 2047 - 34 ∧ (2047 - 34) % 2 ^ 16 = 960) :=
  @mbr_copy_iff (bbpSector 34 2047) 34 2047 0 (by norm_num) (by decide +kernel)
    (fun i hi => absurd hi (Nat.not_lt_zero i)) (by decide +kernel) (by decide +kernel) (by norm_num)
    (by norm_num)

/-- Of a partition with 64 sectors only 63 are read. -/
theorem mbr_copy_short : isBbp (bbpSector 100 163) (128 * 0) = true ∧
    rdN (bbpSector 100 163) 8 (128 * 0 + 32) = 100 ∧
    rdN (bbpSector 100 163) 8 (128 * 0 + 40) = 163 ∧
    Returns (mbrBoot (bbpSector 100 163)) (.boot ((List.range 63).map (sectorRead 100))) ∧
    ¬ Returns (mbrBoot (bbpSector 100 163))
      (.boot ((List.range (min (163 - 100 + 1) TRANSF_MAX)).map (sectorRead 100))) := by
  have hb : isBbp (bbpSector 100 163) (128 * 0) = true := by decide +kernel
  have hs : rdN (bbpSector 100 163) 8 (128 * 0 + 32) = 100 := by decide +kernel
  have he : rdN (bbpSector 100 163) 8 (128 * 0 + 40) = 163 := by decide +kernel
  have hc : rounds (163 - 100) = 63 := by decide +kernel
  have hrun := mbrBoot_run (by norm_num) hb (fun i hi => absurd hi (Nat.not_lt_zero i)) hs he
    (by norm_num) (by norm_num) (by rw [hc]; decide)
  rw [hc, map_dapAt (by decide) (by norm_num)] at hrun
  refine ⟨hb, hs, he, hrun, fun h => ?_⟩
  have hlen := congrArg List.length (MbrEnd.boot.inj (hrun.unique h))
  rw [List.length_map, List.length_map] at hlen
  exact absurd hlen (by decide)

end Dawos
