import Dawos.Store

/-! # The command of an AHCI read

What `ahci_read` of `kernel/bus/ahci.c` writes into the command header and the command table: the
descriptors of the memory regions, their number, and the command FIS with the number of sectors.
The fields of these structures that it does not set are left out, and so is `mem_fill`, which
concerns those only.

`ahci_read_command` says that the descriptors are right for every length, and the number of sectors
for none. -/

namespace Dawos.Kernel

/-! ### The command -/

def AHCI_BLOCK_SIZE : ℕ := 0x1000
def FIS_TYPE_REG_H2D : ℕ := 0x27
def ATA_CMD_READ_DMA_EX : ℕ := 0x25

/-- The bytes of a sector. -/
def AHCI_SECTOR_SIZE : ℕ := 512

/-- `cmd->desc`. -/
structure CmdDesc where
  cfl : ℕ
  w : ℕ
  c : ℕ
  prdtl : ℕ
deriving DecidableEq

/-- A physical region descriptor. -/
structure PrdtEntry where
  dba : ℕ
  dbc : ℕ
  i : ℕ
deriving DecidableEq

/-- A register FIS from host to device. -/
structure FisRegH2d where
  fisType : ℕ
  cmd : ℕ
  command : ℕ
  lba0 : ℕ
  lba1 : ℕ
  lba2 : ℕ
  device : ℕ
  lba3 : ℕ
  lba4 : ℕ
  lba5 : ℕ
  count : ℕ
deriving DecidableEq

/-- A command: its header, the descriptors of its table, and its FIS. -/
structure Command where
  desc : CmdDesc
  prdt : ℕ → PrdtEntry
  fis : FisRegH2d

/-- The variables of the loop over the descriptors, and the descriptors. -/
structure PrdtState where
  i : ℕ
  buff : ℕ
  len : ℕ
  prdt : ℕ → PrdtEntry

/-- The loop over the descriptors, with `n` rounds left: all but the last one. -/
def prdtLoop : ℕ → PrdtState → PrdtState
  | 0, s => s
  | n + 1, s =>
      prdtLoop n
        { i := s.i + 1
          buff := u64 (s.buff + AHCI_BLOCK_SIZE)
          len := sub64 s.len AHCI_BLOCK_SIZE
          prdt := Function.update s.prdt s.i ⟨s.buff, AHCI_BLOCK_SIZE, 1⟩ }

/-- The number of descriptors, in a field of 16 bits. -/
def prdtCount (len : ℕ) : ℕ := (sub64 len 1 / AHCI_BLOCK_SIZE % 2 ^ 16 + 1) % 2 ^ 16

/-- The descriptors after the loop and the last entry, which has the leftover size. -/
def prdtFill (prdt : ℕ → PrdtEntry) (prdtl buff len : ℕ) : ℕ → PrdtEntry :=
  let r := prdtLoop (sub64 prdtl 1) ⟨0, buff, len, prdt⟩
  Function.update r.prdt r.i ⟨r.buff, r.len % 2 ^ 22, 1⟩

/-- The command that is built to read `len` bytes from the sector `addr` on into `buff`; `prdt` are
the descriptors before. -/
def ahciRead (prdt : ℕ → PrdtEntry) (addr buff len : ℕ) : Command where
  desc := ⟨20 / 4, 0, 1, prdtCount len⟩
  prdt := prdtFill prdt (prdtCount len) buff len
  fis :=
    { fisType := FIS_TYPE_REG_H2D
      cmd := 1
      command := ATA_CMD_READ_DMA_EX
      lba0 := addr % 2 ^ 8
      lba1 := addr / 2 ^ 8 % 2 ^ 8
      lba2 := addr / 2 ^ 16 % 2 ^ 8
      device := 2 ^ 6
      lba3 := addr / 2 ^ 24 % 2 ^ 8
      lba4 := addr / 2 ^ 32 % 2 ^ 8
      lba5 := addr / 2 ^ 40 % 2 ^ 8
      count := len / AHCI_BLOCK_SIZE % 2 ^ 16 }

/-! ### What it is to say -/

/-- The regions follow each other from `buff` on and have `len` bytes together. -/
def Covers : ℕ → ℕ → List PrdtEntry → Prop
  | _, len, [] => len = 0
  | buff, len, e :: es => e.dba = u64 buff ∧ e.dbc ≤ len ∧ Covers (buff + e.dbc) (len - e.dbc) es

/-- The descriptors that the device takes. -/
def Command.regions (c : Command) : List PrdtEntry := (List.range c.desc.prdtl).map c.prdt

/-- The descriptors, and the number of sectors, are those of the buffer. -/
structure Command.Consistent (c : Command) (buff len : ℕ) : Prop where
  regions : Covers buff len c.regions
  sectors : c.fis.count * AHCI_SECTOR_SIZE = len

section regions

variable {n i j buff len addr : ℕ} {prdt : ℕ → PrdtEntry}

/-- The loop writes whole blocks. -/
theorem prdtLoop_eq (i buff : ℕ) (prdt : ℕ → PrdtEntry) (hlen : AHCI_BLOCK_SIZE * n ≤ len)
    (hlt : len < 2 ^ 64) :
    prdtLoop n ⟨i, u64 buff, len, prdt⟩ =
      ⟨i + n, u64 (buff + AHCI_BLOCK_SIZE * n), len - AHCI_BLOCK_SIZE * n, fun j =>
        if i ≤ j ∧ j < i + n then ⟨u64 (buff + AHCI_BLOCK_SIZE * (j - i)), AHCI_BLOCK_SIZE, 1⟩
        else prdt j⟩ := by
  induction n generalizing i buff len prdt with
  | zero =>
      have hnone : ∀ j, ¬ (i ≤ j ∧ j < i) := fun j => by omega
      simp only [prdtLoop, Nat.mul_zero, Nat.add_zero, Nat.sub_zero, hnone, if_false]
  | succ n ih =>
      rw [Nat.mul_succ] at hlen
      have hbuff : u64 (u64 buff + AHCI_BLOCK_SIZE) = u64 (buff + AHCI_BLOCK_SIZE) := by
        unfold u64
        omega
      rw [prdtLoop, hbuff, sub64_of_le hlt (by omega), ih _ _ _ (by omega) (by omega), Nat.mul_succ]
      simp only [PrdtState.mk.injEq]
      refine ⟨by omega, congrArg u64 (by omega), by omega, funext fun j => ?_⟩
      rcases Nat.lt_trichotomy j i with h | rfl | h
      · rw [if_neg (by omega), if_neg (by omega), Function.update_of_ne (by omega)]
      · rw [if_neg (by omega), if_pos (by omega), Function.update_self, Nat.sub_self, Nat.mul_zero,
          Nat.add_zero]
      · have hidx : buff + AHCI_BLOCK_SIZE + AHCI_BLOCK_SIZE * (j - (i + 1)) =
            buff + AHCI_BLOCK_SIZE * (j - i) := by
          rw [show j - i = j - (i + 1) + 1 by omega, Nat.mul_succ]
          omega
        rw [hidx]
        by_cases hj : j < i + 1 + n
        · rw [if_pos (by omega), if_pos (by omega)]
        · rw [if_neg (by omega), if_neg (by omega), Function.update_of_ne (by omega)]

/-- Whole blocks and a rest that follow each other. -/
theorem covers_blocks (hblock : ∀ j < n, prdt (i + j) =
      ⟨u64 (buff + AHCI_BLOCK_SIZE * j), AHCI_BLOCK_SIZE, 1⟩)
    (hlast : prdt (i + n) = ⟨u64 (buff + AHCI_BLOCK_SIZE * n), len, 1⟩) :
    Covers buff (AHCI_BLOCK_SIZE * n + len) ((List.range' i (n + 1)).map prdt) := by
  induction n generalizing i buff with
  | zero =>
      rw [Nat.mul_zero, Nat.add_zero] at hlast
      rw [List.range'_one, List.map_singleton, hlast, Covers, Covers, Nat.mul_zero, Nat.zero_add]
      exact ⟨rfl, le_rfl, Nat.sub_self len⟩
  | succ n ih =>
      have hfirst := hblock 0 (Nat.succ_pos n)
      rw [Nat.mul_zero, Nat.add_zero] at hfirst
      have htail : Covers (buff + AHCI_BLOCK_SIZE) (AHCI_BLOCK_SIZE * n + len)
          ((List.range' (i + 1) (n + 1)).map prdt) := by
        refine ih (fun j hj => ?_) ?_
        · rw [Nat.add_assoc i, Nat.add_comm 1 j, hblock (j + 1) (by omega), Nat.mul_succ,
            Nat.add_assoc, Nat.add_comm AHCI_BLOCK_SIZE]
        · rw [Nat.add_assoc i, Nat.add_comm 1 n, hlast, Nat.mul_succ, Nat.add_assoc,
            Nat.add_comm AHCI_BLOCK_SIZE]
      rw [List.range'_succ, List.map_cons, hfirst, Covers]
      have hsum : AHCI_BLOCK_SIZE * (n + 1) + len = AHCI_BLOCK_SIZE * n + len + AHCI_BLOCK_SIZE := by
        rw [Nat.mul_succ]
        omega
      rw [hsum]
      refine ⟨rfl, Nat.le_add_left _ _, ?_⟩
      rw [Nat.add_sub_cancel]
      exact htail

/-- The descriptors of `n` whole blocks and a rest, in place of those before. -/
def blocks (prdt : ℕ → PrdtEntry) (buff len n j : ℕ) : PrdtEntry :=
  if j < n then ⟨u64 (buff + AHCI_BLOCK_SIZE * j), AHCI_BLOCK_SIZE, 1⟩
  else if j = n then ⟨u64 (buff + AHCI_BLOCK_SIZE * n), len - AHCI_BLOCK_SIZE * n, 1⟩
  else prdt j

/-- Which descriptors are written. -/
theorem prdtFill_eq (prdt : ℕ → PrdtEntry) (hbuff : buff < 2 ^ 64) (hpos : 0 < len)
    (hmax : len ≤ 65535 * AHCI_SECTOR_SIZE) :
    ∃ n, prdtCount len = n + 1 ∧ AHCI_BLOCK_SIZE * n ≤ len ∧
      prdtFill prdt (prdtCount len) buff len = blocks prdt buff len n := by
  unfold AHCI_SECTOR_SIZE at hmax
  obtain ⟨n, hn⟩ : ∃ n, n = (len - 1) / AHCI_BLOCK_SIZE := ⟨_, rfl⟩
  have hblock : AHCI_BLOCK_SIZE = 4096 := rfl
  have hlt : n < 2 ^ 13 := by
    rw [hblock] at hn
    omega
  have hcount : prdtCount len = n + 1 := by
    rw [prdtCount, sub64_of_le (by omega) hpos, ← hn]
    omega
  have hrest : AHCI_BLOCK_SIZE * n ≤ len ∧ len ≤ AHCI_BLOCK_SIZE * n + 4096 := by
    rw [hblock] at hn ⊢
    omega
  have hround : sub64 (n + 1) 1 = n := by
    rw [sub64_of_le (by omega) (Nat.le_add_left 1 n), Nat.add_sub_cancel]
  have hloop := prdtLoop_eq 0 buff prdt hrest.1 (by omega)
  rw [u64_of_lt hbuff, Nat.zero_add] at hloop
  refine ⟨n, hcount, hrest.1, funext fun j => ?_⟩
  rw [hcount, prdtFill, hround, hloop, blocks]
  dsimp only
  rw [Nat.mod_eq_of_lt (by omega)]
  rcases Nat.lt_trichotomy j n with h | rfl | h
  · rw [if_pos h, Function.update_of_ne (by omega), if_pos (by omega), Nat.sub_zero]
  · rw [if_neg (by omega), if_pos rfl, Function.update_self]
  · rw [if_neg (by omega), if_neg (by omega), Function.update_of_ne (by omega), if_neg (by omega)]

/-- The descriptors cover the buffer, and no others are written. -/
theorem ahciRead_regions (prdt : ℕ → PrdtEntry) (addr : ℕ) (hbuff : buff < 2 ^ 64) (hpos : 0 < len)
    (hmax : len ≤ 65535 * AHCI_SECTOR_SIZE) :
    Covers buff len (ahciRead prdt addr buff len).regions ∧
      ∀ i, (ahciRead prdt addr buff len).desc.prdtl ≤ i →
        (ahciRead prdt addr buff len).prdt i = prdt i := by
  obtain ⟨n, hcount, hle, hfill⟩ := prdtFill_eq prdt hbuff hpos hmax
  have hsum : AHCI_BLOCK_SIZE * n + (len - AHCI_BLOCK_SIZE * n) = len := by omega
  have hcovers := @covers_blocks n 0 buff (len - AHCI_BLOCK_SIZE * n) (blocks prdt buff len n)
  rw [hsum, ← List.range_eq_range'] at hcovers
  constructor
  · show Covers buff len ((List.range (prdtCount len)).map (prdtFill prdt (prdtCount len) buff len))
    rw [hfill, hcount]
    refine hcovers (fun j hj => ?_) ?_
    · rw [Nat.zero_add, blocks, if_pos hj]
    · rw [Nat.zero_add, blocks, if_neg (by omega), if_pos rfl]
  · intro i hi
    have hi' : n + 1 ≤ i := hcount ▸ hi
    show prdtFill prdt (prdtCount len) buff len i = prdt i
    rw [hfill, blocks, if_neg (by omega), if_neg (by omega)]

/-- **For every buffer and every length up to 65535 sectors the descriptors are consistent with the
buffer, but the number of sectors in the FIS is not: it is the number of whole blocks.** -/
theorem ahci_read_command (prdt : ℕ → PrdtEntry) (addr : ℕ) (hbuff : buff < 2 ^ 64) (hpos : 0 < len)
    (hmax : len ≤ 65535 * AHCI_SECTOR_SIZE) :
    Covers buff len (ahciRead prdt addr buff len).regions ∧
      (∀ i, (ahciRead prdt addr buff len).desc.prdtl ≤ i →
        (ahciRead prdt addr buff len).prdt i = prdt i) ∧
      (ahciRead prdt addr buff len).fis.count = len / AHCI_BLOCK_SIZE ∧
      ¬ (ahciRead prdt addr buff len).Consistent buff len := by
  have hcount : (ahciRead prdt addr buff len).fis.count = len / AHCI_BLOCK_SIZE := by
    refine Nat.mod_eq_of_lt ?_
    unfold AHCI_SECTOR_SIZE at hmax
    unfold AHCI_BLOCK_SIZE
    omega
  obtain ⟨hcovers, hframe⟩ := ahciRead_regions prdt addr hbuff hpos hmax
  refine ⟨hcovers, hframe, hcount, fun hc => ?_⟩
  have hsectors := hc.sectors
  rw [hcount] at hsectors
  unfold AHCI_SECTOR_SIZE AHCI_BLOCK_SIZE at hsectors
  omega

end regions

/-- Nine sectors, in two descriptors. -/
theorem ahci_read_command_nine :
    Covers 0x100000 4608 (ahciRead (fun _ => ⟨0, 0, 0⟩) 63 0x100000 4608).regions ∧
      (∀ i, (ahciRead (fun _ => ⟨0, 0, 0⟩) 63 0x100000 4608).desc.prdtl ≤ i →
        (ahciRead (fun _ => ⟨0, 0, 0⟩) 63 0x100000 4608).prdt i = ⟨0, 0, 0⟩) ∧
      (ahciRead (fun _ => ⟨0, 0, 0⟩) 63 0x100000 4608).fis.count = 4608 / AHCI_BLOCK_SIZE ∧
      ¬ (ahciRead (fun _ => ⟨0, 0, 0⟩) 63 0x100000 4608).Consistent 0x100000 4608 :=
  ahci_read_command _ 63 (by norm_num) (by norm_num) (by norm_num [AHCI_SECTOR_SIZE])

/-- One sector: the FIS asks for none. -/
theorem ahci_read_command_one :
    ¬ (ahciRead (fun _ => ⟨0, 0, 0⟩) 0 0x100000 512).Consistent 0x100000 512 := fun h =>
  absurd h.sectors (by decide)

end Dawos.Kernel
