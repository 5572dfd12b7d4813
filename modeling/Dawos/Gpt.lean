import Dawos.Ata

/-! # GPT drives

`gpt_init`, `gpt_init_drive`, `gpt_num_part` and `gpt_part_entry` of `gpt.c`.  Every drive has
three cells in arrays of four: a buffer for its header, a buffer for 128 partition entries of 128
bytes, and a counter.  An access to one of the arrays or buffers outside its bounds is the error
`.bounds`.

The second part says what a call does in terms of the disk: `Protective` and `HasTable` are what
has to be found for the call to go on, `usedEntries` is the list of partitions that it should
count. -/

namespace Dawos

/-! ### Structures on the disk -/

/-- The number of cells of `_gpt_disks`, `_gpt_part` and `_part_count`. -/
def GPT_DRIVES : ℕ := 4
/-- The number of entries in a block of `_gpt_part`. -/
def GPT_PARTS : ℕ := 128
/-- `sizeof(gpt_part_entry_t)`. -/
def GPT_ENTRY_SIZE : ℕ := 128
/-- `sizeof(gpt_header_t)` and `sizeof(mbr_t)`. -/
def GPT_HEADER_SIZE : ℕ := 512

/-- `guid_t`. -/
structure Guid where
  data1 : ℕ
  data2 : ℕ
  data3 : ℕ
  data4 : ℕ → UInt8

/-- The GUID at an address. -/
def guidAt (m : Mem) (a : ℕ) : Guid where
  data1 := rdN m 4 a
  data2 := rdN m 2 (a + 4)
  data3 := rdN m 2 (a + 6)
  data4 i := m (a + 8 + i)

def emptyGuid : Guid := ⟨0, 0, 0, fun _ => 0⟩

def guidCompare (guid1 guid2 : Guid) : Bool :=
  guid1.data1 == guid2.data1 && guid1.data2 == guid2.data2 && guid1.data3 == guid2.data3 &&
    (List.range 8).all fun i => guid1.data4 i == guid2.data4 i

/-- The type GUID of entry `j` of a partition array. -/
def partGuid (arr : Mem) (j : ℕ) : Guid := guidAt arr (GPT_ENTRY_SIZE * j)

/-- The bytes of entry `j` of a partition array. -/
def partEntry (arr : Mem) (j : ℕ) : Fin GPT_ENTRY_SIZE → UInt8 := fun i => arr (GPT_ENTRY_SIZE * j + i)

/-- `type` of partition `i` of a master boot record. -/
def mbrType (mbr : Mem) (i : ℕ) : UInt8 := mbr (446 + 16 * i + 4)

def partArrLba (header : Mem) : ℕ := rdN header 8 72

def partItemCount (header : Mem) : ℕ := rdN header 4 80

/-- The signature is `EFI PART`. -/
def gptTestSign (sign : Mem) : Bool :=
  (List.range 8).all fun i => sign i == [0x45, 0x46, 0x49, 0x20, 0x50, 0x41, 0x52, 0x54].getD i 0

/-! ### Initialisation -/

/-- `_gpt_disks`, `_gpt_part` and `_part_count`. -/
structure GptState where
  disks : ℕ → Mem
  part : ℕ → Mem
  count : ℕ → ℕ

/-- Allocate the cells of the next `k` drives from drive `i` on. -/
def gptInitLoop : ℕ → ℕ → GptState → Except Halt GptState
  | 0, _, st => .ok st
  | k + 1, i, st =>
      if i < GPT_DRIVES then
        gptInitLoop k (i + 1)
          ⟨Function.update st.disks i fun _ => 0, Function.update st.part i fun _ => 0,
            Function.update st.count i 0⟩
      else .error .bounds

/-- The static data before any call. -/
def gptStatic : GptState := ⟨fun _ _ => 0, fun _ _ => 0, fun _ => 0⟩

def gptInit (numDevice : ℕ) : Except Halt GptState := gptInitLoop numDevice 0 gptStatic

/-- `ata_read` into a buffer of `cap` bytes: the result in the buffer, and the returned value. -/
def readInto (env : AtaEnv) (idx lba len cap : ℕ) (buff : Mem) : Except Halt (Mem × Bool) :=
  match ataRead env idx lba len with
  | none => .ok (buff, false)
  | some r =>
      if len ≤ cap then .ok (fun i => if i < len then r.bytes i else buff i, r.ok)
      else .error .bounds

/-- Count the used entries among the next `k` entries from entry `j` on. -/
def gptCount (arr : Mem) : ℕ → ℕ → ℕ → Except Halt ℕ
  | 0, _, n => .ok n
  | k + 1, j, n =>
      if j < GPT_PARTS then
        gptCount arr k (j + 1) (if guidCompare (partGuid arr j) emptyGuid then n else u64 (n + 1))
      else .error .bounds

/-- The body of the loop over the partitions of the master boot record, after a protective entry
has been found. -/
def gptReadTable (env : AtaEnv) (st : GptState) (drive : ℕ) : Except Halt (GptState × Bool) :=
  if drive < GPT_DRIVES then
    readInto env drive 1 GPT_HEADER_SIZE GPT_HEADER_SIZE (st.disks drive) >>= fun header =>
    let st := { st with disks := Function.update st.disks drive header.1 }
    if header.2 && gptTestSign header.1 then
      -- the length comes from the disk
      readInto env drive (partArrLba header.1) (GPT_ENTRY_SIZE * partItemCount header.1)
        (GPT_ENTRY_SIZE * GPT_PARTS) (st.part drive) >>= fun arr =>
      let st := { st with part := Function.update st.part drive arr.1 }
      if arr.2 then
        gptCount arr.1 (partItemCount header.1) 0 (st.count drive) >>= fun n =>
        .ok ({ st with count := Function.update st.count drive n }, true)
      else .ok (st, false)
    else .ok (st, false)
  else .error .bounds

/-- The loop over the next `k` partitions of the master boot record from partition `i` on. -/
def gptScan (env : AtaEnv) (st : GptState) (drive : ℕ) (mbr : Mem) :
    ℕ → ℕ → Except Halt (GptState × Bool)
  | 0, _ => .ok (st, false)
  | k + 1, i =>
      if mbrType mbr i = 0xEE then gptReadTable env st drive
      else gptScan env st drive mbr k (i + 1)

def gptInitDrive (env : AtaEnv) (st : GptState) (drive : ℕ) : Except Halt (GptState × Bool) :=
  if drive < env.devCount then
    readInto env drive 0 GPT_HEADER_SIZE GPT_HEADER_SIZE (fun _ => 0) >>= fun mbr =>
    if mbr.2 then gptScan env st drive mbr.1 4 0 else .ok (st, false)
  else .ok (st, false)

/-! ### Queries -/

def gptNumPart (st : GptState) (drive : ℕ) : Except Halt ℕ :=
  if drive < GPT_DRIVES then .ok (st.count drive) else .error .bounds

/-- The loop over the next `k` entries from entry `j` on.  The index `i` of the source is set to
zero again in every round. -/
def gptFind (arr : Mem) (part : ℕ) : ℕ → ℕ → Except Halt (Option (Fin GPT_ENTRY_SIZE → UInt8))
  | 0, _ => .ok none
  | k + 1, j =>
      if j < GPT_PARTS then
        let i := 0
        if guidCompare (partGuid arr j) emptyGuid = false ∧ i = part then .ok (some (partEntry arr j))
        else gptFind arr part k (j + 1)
      else .error .bounds

/-- The entry that is copied out, if the call returns true. -/
def gptPartEntry (numDevice : ℕ) (st : GptState) (drive part : ℕ) :
    Except Halt (Option (Fin GPT_ENTRY_SIZE → UInt8)) :=
  if drive < numDevice then
    gptNumPart st drive >>= fun n =>
    if part < n then gptFind (st.part drive) part (partItemCount (st.disks drive)) 0 else .ok none
  else .ok none

/-! ### What is on the disk -/

/-- Entry `j` of a partition array has a type. -/
def Used (arr : Mem) (j : ℕ) : Prop := ∃ i < 16, arr (GPT_ENTRY_SIZE * j + i) ≠ 0

instance (arr : Mem) (j : ℕ) : Decidable (Used arr j) :=
  inferInstanceAs (Decidable (∃ i < 16, arr (GPT_ENTRY_SIZE * j + i) ≠ 0))

/-- The used ones among the entries from `j` to `j + k`, in array order. -/
def usedFrom (arr : Mem) (j k : ℕ) : List (Fin GPT_ENTRY_SIZE → UInt8) :=
  ((List.range' j k).filter (Used arr ·)).map (partEntry arr)

section disk

variable {env : AtaEnv} {arr arr' m header : Mem} {idx lba len cap a n j k i drive part : ℕ} {buff : Mem}
  {st : GptState}

theorem rdN_eq_zero : ∀ {n a : ℕ}, rdN m n a = 0 ↔ ∀ i < n, m (a + i) = 0
  | 0, a => ⟨fun _ i hi => absurd hi (Nat.not_lt_zero i), fun _ => rfl⟩
  | n + 1, a => by
      have ih : rdN m n (a + 1) = 0 ↔ ∀ i < n, m (a + 1 + i) = 0 := rdN_eq_zero
      rw [rdN, Nat.add_eq_zero_iff, Nat.mul_eq_zero, ih]
      constructor
      · rintro ⟨h0, h | h⟩ i hi
        · cases h
        · cases i with
          | zero => exact UInt8.toNat_inj.mp h0
          | succ i =>
              have := h i (by omega)
              rwa [Nat.add_right_comm] at this
      · intro h
        refine ⟨by rw [show m a = 0 from h 0 (by omega)]; rfl, .inr fun i hi => ?_⟩
        have := h (i + 1) (by omega)
        rwa [Nat.add_right_comm]

/-- The comparison with the empty GUID tells the used entries. -/
theorem guidCompare_empty : guidCompare (partGuid arr j) emptyGuid = false ↔ Used arr j := by
  rw [← Bool.not_eq_true, Used]
  apply Iff.trans (not_congr (b := ∀ i < 16, arr (GPT_ENTRY_SIZE * j + i) = 0) ?_) (by push Not; rfl)
  simp only [guidCompare, partGuid, guidAt, emptyGuid, Bool.and_eq_true, beq_iff_eq, rdN_eq_zero,
    List.all_eq_true, List.mem_range]
  constructor
  · rintro ⟨⟨⟨h1, h2⟩, h3⟩, h4⟩ i hi
    by_cases c1 : i < 4
    · exact h1 i c1
    by_cases c2 : i < 6
    · rw [← h2 (i - 4) (by omega)]
      congr 1
      omega
    by_cases c3 : i < 8
    · rw [← h3 (i - 6) (by omega)]
      congr 1
      omega
    · rw [← h4 (i - 8) (by omega)]
      congr 1
      omega
  · intro h
    refine ⟨⟨⟨fun i hi => h i (by omega), fun i hi => ?_⟩, fun i hi => ?_⟩, fun i hi => ?_⟩
    · rw [← h (4 + i) (by omega), Nat.add_assoc]
    · rw [← h (6 + i) (by omega), Nat.add_assoc]
    · rw [← h (8 + i) (by omega), Nat.add_assoc]

theorem usedFrom_succ : usedFrom arr j (k + 1) =
    if Used arr j then partEntry arr j :: usedFrom arr (j + 1) k else usedFrom arr (j + 1) k := by
  unfold usedFrom
  rw [List.range'_succ, List.filter_cons]
  split_ifs <;> simp_all

theorem usedFrom_length_le : (usedFrom arr j k).length ≤ k := by
  unfold usedFrom
  rw [List.length_map]
  exact (List.length_filter_le _ _).trans_eq List.length_range'

theorem usedFrom_congr (h : ∀ x < GPT_ENTRY_SIZE * (j + k), arr' x = arr x) :
    usedFrom arr' j k = usedFrom arr j k := by
  induction k generalizing j with
  | zero => rfl
  | succ k ih =>
      have hj : ∀ i < GPT_ENTRY_SIZE, arr' (GPT_ENTRY_SIZE * j + i) = arr (GPT_ENTRY_SIZE * j + i) := by
        intro i hi
        apply h
        simp only [GPT_ENTRY_SIZE] at hi ⊢
        omega
      have he : partEntry arr' j = partEntry arr j := funext fun i => hj i i.isLt
      have hu : Used arr' j ↔ Used arr j := by
        unfold Used
        constructor
        · rintro ⟨i, hi, hx⟩
          exact ⟨i, hi, by rwa [← hj i (lt_trans hi (by decide))]⟩
        · rintro ⟨i, hi, hx⟩
          exact ⟨i, hi, by rwa [hj i (lt_trans hi (by decide))]⟩
      have hr : usedFrom arr' (j + 1) k = usedFrom arr (j + 1) k := by
        apply ih
        rwa [Nat.add_right_comm]
      rw [usedFrom_succ, usedFrom_succ, he, hr]
      simp only [hu]

/-- The counting loop adds the number of used entries, modulo the width of the counter. -/
theorem gptCount_eq (hk : j + k ≤ GPT_PARTS) (hn : n < 2 ^ 64) :
    gptCount arr k j n = .ok (u64 (n + (usedFrom arr j k).length)) := by
  induction k generalizing j n with
  | zero => exact congrArg Except.ok (u64_of_lt hn).symm
  | succ k ih =>
      rw [gptCount, if_pos (by omega), usedFrom_succ]
      by_cases hu : Used arr j
      · have hc : ¬ guidCompare (partGuid arr j) emptyGuid = true := by
          rw [guidCompare_empty.mpr hu]
          exact Bool.false_ne_true
        rw [if_neg hc, if_pos hu, ih (by omega) (u64_lt _), List.length_cons]
        unfold u64
        rw [Nat.mod_add_mod, Nat.add_assoc, Nat.add_comm 1]
      · have hc : guidCompare (partGuid arr j) emptyGuid = true := by
          rwa [← guidCompare_empty, Bool.not_eq_false] at hu
        rw [if_pos hc, if_neg hu]
        exact ih (by omega) hn

/-- The first entry is found. -/
theorem gptFind_zero (hk : j + k ≤ GPT_PARTS) : gptFind arr 0 k j = .ok (usedFrom arr j k)[0]? := by
  induction k generalizing j with
  | zero => rfl
  | succ k ih =>
      rw [gptFind, if_pos (by omega), usedFrom_succ]
      dsimp only
      by_cases hu : Used arr j
      · rw [if_pos ⟨guidCompare_empty.mpr hu, rfl⟩, if_pos hu, List.getElem?_cons_zero]
      · rw [if_neg fun h => hu (guidCompare_empty.mp h.1), if_neg hu]
        exact ih (by omega)

/-- No other entry is found. -/
theorem gptFind_succ (hk : j + k ≤ GPT_PARTS) (hp : 0 < part) : gptFind arr part k j = .ok none := by
  induction k generalizing j with
  | zero => rfl
  | succ k ih =>
      rw [gptFind, if_pos (by omega)]
      dsimp only
      rw [if_neg fun h => absurd h.2 hp.ne]
      exact ih (by omega)

/-! ### Reading into a buffer -/

/-- A request is answered without an error. -/
def AtaEnv.Reads (env : AtaEnv) (idx lba len : ℕ) : Prop :=
  (ataTransfer (env.answer idx lba).poll (ataSectors (env.dev idx) len) 0).2 = true

/-- The bytes of a device from sector `lba` on. -/
def AtaEnv.bytes (env : AtaEnv) (idx lba : ℕ) : Mem := fun i =>
  (env.answer idx lba).data (i / (env.dev idx).sectorSize) (i % (env.dev idx).sectorSize)

theorem ataTransfer_ok {poll : ℕ → ℕ} : ∀ {k i : ℕ}, (ataTransfer poll k i).2 = true →
    (ataTransfer poll k i).1 = i + k
  | 0, i, _ => rfl
  | k + 1, i, h => by
      rw [ataTransfer] at h ⊢
      split_ifs at h ⊢ with hp
      · rw [ataTransfer_ok h]
        omega

/-- The sectors of a read hold all its bytes. -/
theorem lt_ataSectors (hd : (env.dev idx).Ok) (hlen : len < 2 ^ 63) (hi : i < len) :
    i / (env.dev idx).sectorSize < ataSectors (env.dev idx) len := by
  have h1 := hd.size_pos
  have h2 := hd.size_le
  have hone : 1 ≤ (env.dev idx).sectorSize := h1
  unfold ataSectors
  rw [sub64_of_le (by omega) hone, u64_of_lt (by omega), Nat.div_lt_iff_lt_mul h1]
  have h3 := Nat.div_add_mod (len + ((env.dev idx).sectorSize - 1)) (env.dev idx).sectorSize
  have h4 := Nat.mod_lt (len + ((env.dev idx).sectorSize - 1)) h1
  rw [Nat.mul_comm] at h3
  omega

theorem readInto_eq (hidx : idx < env.devCount) : readInto env idx lba len cap buff =
    if len ≤ cap then
      .ok (fun i => if i < len then
          (ataReadSectors env idx lba (ataSectors (env.dev idx) len)).bytes i else buff i,
        (ataReadSectors env idx lba (ataSectors (env.dev idx) len)).ok)
    else .error .bounds := by
  unfold readInto ataRead
  rw [if_pos hidx]

theorem readInto_overrun (hidx : idx < env.devCount) (h : cap < len) :
    readInto env idx lba len cap buff = .error .bounds := by
  rw [readInto_eq hidx, if_neg (Nat.not_le.mpr h)]

theorem ataReadSectors_ok (n : ℕ) :
    (ataReadSectors env idx lba n).ok = (ataTransfer (env.answer idx lba).poll n 0).2 := rfl

theorem readInto_fails (hidx : idx < env.devCount) (h : len ≤ cap) (hr : ¬ env.Reads idx lba len) :
    ∃ b, readInto env idx lba len cap buff = .ok (b, false) := by
  have hok : (ataReadSectors env idx lba (ataSectors (env.dev idx) len)).ok = false := by
    rw [ataReadSectors_ok]
    exact Bool.eq_false_of_not_eq_true hr
  rw [readInto_eq hidx, if_pos h, hok]
  exact ⟨_, rfl⟩

theorem readInto_reads (hidx : idx < env.devCount) (h : len ≤ cap) (hd : (env.dev idx).Ok)
    (hlen : len < 2 ^ 63) (hr : env.Reads idx lba len) :
    ∃ b, readInto env idx lba len cap buff = .ok (b, true) ∧ ∀ i < len, b i = env.bytes idx lba i := by
  have hok : (ataReadSectors env idx lba (ataSectors (env.dev idx) len)).ok = true := by
    rw [ataReadSectors_ok]
    exact hr
  rw [readInto_eq hidx, if_pos h, hok]
  refine ⟨_, rfl, fun i hi => ?_⟩
  have hs := lt_ataSectors hd hlen hi
  have ht := ataTransfer_ok hr
  rw [if_pos hi]
  generalize ataSectors (env.dev idx) len = sectors at hs ht
  unfold ataReadSectors AtaEnv.bytes
  dsimp only
  rw [if_pos (by omega)]

/-! ### What a call does -/

/-- The drive is there and its sector 0 has a protective entry. -/
def Protective (env : AtaEnv) (drive : ℕ) : Prop :=
  drive < env.devCount ∧ env.Reads drive 0 GPT_HEADER_SIZE ∧
    ∃ i < 4, mbrType (env.bytes drive 0) i = 0xEE

/-- Sector 1 of a drive with a protective entry has the signature. -/
def HasTable (env : AtaEnv) (drive : ℕ) : Prop :=
  Protective env drive ∧ env.Reads drive 1 GPT_HEADER_SIZE ∧ gptTestSign (env.bytes drive 1) = true

/-- The number of entries in the partition array of a drive. -/
def itemCount (env : AtaEnv) (drive : ℕ) : ℕ := partItemCount (env.bytes drive 1)

/-- The partition array of a drive. -/
def partArray (env : AtaEnv) (drive : ℕ) : Mem := env.bytes drive (partArrLba (env.bytes drive 1))

/-- The partition array can be read as well. -/
def ReadsTable (env : AtaEnv) (drive : ℕ) : Prop :=
  HasTable env drive ∧ env.Reads drive (partArrLba (env.bytes drive 1))
    (GPT_ENTRY_SIZE * itemCount env drive)

/-- The partitions of a drive, in array order. -/
def usedEntries (env : AtaEnv) (drive : ℕ) : List (Fin GPT_ENTRY_SIZE → UInt8) :=
  usedFrom (partArray env drive) 0 (itemCount env drive)

theorem header_lt : GPT_HEADER_SIZE < 2 ^ 63 := by norm_num [GPT_HEADER_SIZE]

theorem block_lt : GPT_ENTRY_SIZE * GPT_PARTS < 2 ^ 63 := by norm_num [GPT_ENTRY_SIZE, GPT_PARTS]

theorem gptTestSign_congr (h : ∀ x < GPT_HEADER_SIZE, m x = header x) :
    gptTestSign m = gptTestSign header := by
  unfold gptTestSign
  apply Bool.eq_iff_iff.mpr
  simp only [List.all_eq_true, List.mem_range]
  apply forall₂_congr
  intro i hi
  rw [h i (lt_trans hi (by decide))]

theorem partItemCount_congr (h : ∀ x < GPT_HEADER_SIZE, m x = header x) :
    partItemCount m = partItemCount header :=
  rdN_congr fun x _ hx => h x (lt_trans hx (by decide))

theorem partArrLba_congr (h : ∀ x < GPT_HEADER_SIZE, m x = header x) :
    partArrLba m = partArrLba header :=
  rdN_congr fun x _ hx => h x (lt_trans hx (by decide))

/-- The loop over the master boot record looks for a protective entry. -/
theorem gptScan_pos (h : ∃ x, i ≤ x ∧ x < i + k ∧ mbrType m x = 0xEE) :
    gptScan env st drive m k i = gptReadTable env st drive := by
  induction k generalizing i with
  | zero =>
      obtain ⟨x, h1, h2, -⟩ := h
      omega
  | succ k ih =>
      rw [gptScan]
      by_cases hi : mbrType m i = 0xEE
      · rw [if_pos hi]
      · rw [if_neg hi]
        obtain ⟨x, h1, h2, h3⟩ := h
        have hne : i ≠ x := fun e => hi (e ▸ h3)
        exact ih ⟨x, by omega, by omega, h3⟩

theorem gptScan_neg (h : ∀ x, i ≤ x → x < i + k → mbrType m x ≠ 0xEE) :
    gptScan env st drive m k i = .ok (st, false) := by
  induction k generalizing i with
  | zero => rfl
  | succ k ih =>
      rw [gptScan, if_neg (h i le_rfl (by omega))]
      exact ih fun x h1 h2 => h x (by omega) (by omega)

/-- Without a protective entry a call changes nothing. -/
theorem gptInitDrive_skip (hd : drive < env.devCount → (env.dev drive).Ok)
    (h : ¬ Protective env drive) : gptInitDrive env st drive = .ok (st, false) := by
  unfold gptInitDrive
  by_cases hidx : drive < env.devCount
  · rw [if_pos hidx]
    by_cases hr : env.Reads drive 0 GPT_HEADER_SIZE
    · obtain ⟨mbr, hm, hb⟩ := @readInto_reads env drive 0 GPT_HEADER_SIZE GPT_HEADER_SIZE
        (fun _ => 0) hidx le_rfl (hd hidx) header_lt hr
      rw [hm, ok_bind, if_pos rfl]
      apply gptScan_neg
      intro x _ hx he
      refine h ⟨hidx, hr, x, by omega, ?_⟩
      rw [← he]
      refine (hb _ ?_).symm
      simp only [GPT_HEADER_SIZE]
      omega
    · obtain ⟨mbr, hm⟩ := @readInto_fails env drive 0 GPT_HEADER_SIZE GPT_HEADER_SIZE
        (fun _ => 0) hidx le_rfl hr
      rw [hm, ok_bind, if_neg Bool.false_ne_true]
  · rw [if_neg hidx]

/-- With a protective entry a call goes on to the header. -/
theorem gptInitDrive_protective (hd : (env.dev drive).Ok) (h : Protective env drive) :
    gptInitDrive env st drive = gptReadTable env st drive := by
  obtain ⟨hidx, hr, x, hx, he⟩ := h
  obtain ⟨mbr, hm, hb⟩ := @readInto_reads env drive 0 GPT_HEADER_SIZE GPT_HEADER_SIZE
    (fun _ => 0) hidx le_rfl hd header_lt hr
  unfold gptInitDrive
  rw [if_pos hidx, hm, ok_bind, if_pos rfl]
  apply gptScan_pos
  refine ⟨x, Nat.zero_le _, by omega, ?_⟩
  rw [← he]
  apply hb
  simp only [GPT_HEADER_SIZE]
  omega

/-- The header is read; without a signature the call ends there. -/
theorem gptReadTable_skip (hd : (env.dev drive).Ok) (hp : Protective env drive)
    (h : ¬ HasTable env drive) (hs : drive < GPT_DRIVES) : ∃ disks,
    gptReadTable env st drive = .ok ({ st with disks := disks }, false) := by
  unfold gptReadTable
  rw [if_pos hs]
  by_cases hr : env.Reads drive 1 GPT_HEADER_SIZE
  · obtain ⟨hdr, hm, hb⟩ := @readInto_reads env drive 1 GPT_HEADER_SIZE GPT_HEADER_SIZE
      (st.disks drive) hp.1 le_rfl hd header_lt hr
    have hsign : ¬ (true && gptTestSign hdr) = true := by
      rw [gptTestSign_congr hb, Bool.true_and]
      exact fun hc => h ⟨hp, hr, hc⟩
    rw [hm, ok_bind]
    dsimp only
    rw [if_neg hsign]
    exact ⟨_, rfl⟩
  · obtain ⟨hdr, hm⟩ := @readInto_fails env drive 1 GPT_HEADER_SIZE GPT_HEADER_SIZE
      (st.disks drive) hp.1 le_rfl hr
    rw [hm, ok_bind]
    dsimp only
    rw [Bool.false_and, if_neg Bool.false_ne_true]
    exact ⟨_, rfl⟩

/-- What is left of a call after the header of a table. -/
theorem gptReadTable_header (hd : (env.dev drive).Ok) (h : HasTable env drive)
    (hs : drive < GPT_DRIVES) : ∃ hdr, (∀ x < GPT_HEADER_SIZE, hdr x = env.bytes drive 1 x) ∧
    gptReadTable env st drive =
      (readInto env drive (partArrLba (env.bytes drive 1)) (GPT_ENTRY_SIZE * itemCount env drive)
        (GPT_ENTRY_SIZE * GPT_PARTS) (st.part drive) >>= fun arr =>
      if arr.2 then
        gptCount arr.1 (itemCount env drive) 0 (st.count drive) >>= fun n =>
        .ok (⟨Function.update st.disks drive hdr, Function.update st.part drive arr.1,
          Function.update st.count drive n⟩, true)
      else .ok (⟨Function.update st.disks drive hdr, Function.update st.part drive arr.1, st.count⟩,
        false)) := by
  obtain ⟨hp, hr, hsign⟩ := h
  obtain ⟨hdr, hm, hb⟩ := @readInto_reads env drive 1 GPT_HEADER_SIZE GPT_HEADER_SIZE
    (st.disks drive) hp.1 le_rfl hd header_lt hr
  refine ⟨hdr, hb, ?_⟩
  unfold gptReadTable
  rw [if_pos hs, hm, ok_bind]
  dsimp only
  rw [gptTestSign_congr hb, hsign, if_pos (by rfl), partArrLba_congr hb, partItemCount_congr hb]
  rfl

/-- An array that is too long overruns the block. -/
theorem gptReadTable_overrun (hd : (env.dev drive).Ok) (h : HasTable env drive)
    (hs : drive < GPT_DRIVES) (hn : GPT_PARTS < itemCount env drive) :
    gptReadTable env st drive = .error .bounds := by
  obtain ⟨hdr, -, he⟩ := @gptReadTable_header env drive st hd h hs
  have hlen : GPT_ENTRY_SIZE * GPT_PARTS < GPT_ENTRY_SIZE * itemCount env drive :=
    Nat.mul_lt_mul_of_pos_left hn (by decide)
  rw [he, readInto_overrun h.1.1 hlen, error_bind]

/-- An array that cannot be read leaves the counter. -/
theorem gptReadTable_unread (hd : (env.dev drive).Ok) (h : HasTable env drive)
    (hs : drive < GPT_DRIVES) (hn : itemCount env drive ≤ GPT_PARTS) (hr : ¬ ReadsTable env drive) :
    ∃ disks part, gptReadTable env st drive = .ok (⟨disks, part, st.count⟩, false) := by
  obtain ⟨hdr, -, he⟩ := @gptReadTable_header env drive st hd h hs
  have hlen : GPT_ENTRY_SIZE * itemCount env drive ≤ GPT_ENTRY_SIZE * GPT_PARTS :=
    Nat.mul_le_mul_left _ hn
  obtain ⟨arr, ha⟩ := @readInto_fails env drive (partArrLba (env.bytes drive 1)) _ _
    (st.part drive) h.1.1 hlen fun hc => hr ⟨h, hc⟩
  rw [he, ha, ok_bind]
  dsimp only
  rw [if_neg Bool.false_ne_true]
  exact ⟨_, _, rfl⟩

/-- An array that is read is counted, on top of the counter. -/
theorem gptReadTable_read (hd : (env.dev drive).Ok) (h : ReadsTable env drive)
    (hs : drive < GPT_DRIVES) (hn : itemCount env drive ≤ GPT_PARTS) (hc : st.count drive < 2 ^ 64) :
    ∃ hdr arr, (∀ x < GPT_HEADER_SIZE, hdr x = env.bytes drive 1 x) ∧
      (∀ x < GPT_ENTRY_SIZE * itemCount env drive, arr x = partArray env drive x) ∧
      gptReadTable env st drive = .ok (⟨Function.update st.disks drive hdr,
        Function.update st.part drive arr, Function.update st.count drive
          (u64 (st.count drive + (usedEntries env drive).length))⟩, true) := by
  obtain ⟨hdr, hb, he⟩ := @gptReadTable_header env drive st hd h.1 hs
  have hlen : GPT_ENTRY_SIZE * itemCount env drive ≤ GPT_ENTRY_SIZE * GPT_PARTS :=
    Nat.mul_le_mul_left _ hn
  obtain ⟨arr, ha, hab⟩ := @readInto_reads env drive (partArrLba (env.bytes drive 1)) _ _
    (st.part drive) h.1.1.1 hlen hd (lt_of_le_of_lt hlen block_lt) h.2
  refine ⟨hdr, arr, hb, hab, ?_⟩
  have hcount := @gptCount_eq arr (st.count drive) 0 (itemCount env drive) (by omega) hc
  have hcongr : usedFrom arr 0 (itemCount env drive) = usedEntries env drive :=
    usedFrom_congr (by rwa [Nat.zero_add])
  rw [he, ha, ok_bind]
  dsimp only
  rw [if_pos rfl, hcount, ok_bind, hcongr]

end disk

end Dawos
