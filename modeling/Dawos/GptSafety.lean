import Dawos.Gpt

/-! # What the GPT calls guarantee

Three results about `gpt_init`, `gpt_init_drive` and the queries, each with the exact condition
under which it holds:

* `gpt_bounds_iff`: no array is overrun iff there are at most four devices and no partition array
  on them is longer than the block for it;
* `gptPartEntry_iff`: after one successful `gpt_init_drive`, the query for partition `k` yields
  partition `k` of the disk iff `k` is zero or there is no such partition;
* `gptRun_numPart`: in a run of `gpt_init_drive` calls the counter of a drive is the number of used
  entries read last, provided that it is zero whenever a partition array is read. -/

namespace Dawos

variable {env : AtaEnv} {st st' st₀ : GptState} {drive d n i k : ℕ}

/-- The counters are 64-bit words. -/
def GptState.Ok (st : GptState) : Prop := ∀ d, st.count d < 2 ^ 64

/-! ### Initialisation -/

theorem gptInitLoop_ok (h : i + k ≤ GPT_DRIVES) (hc : st.count = fun _ => 0) :
    ∃ st', gptInitLoop k i st = .ok st' ∧ st'.count = fun _ => 0 := by
  induction k generalizing i st with
  | zero => exact ⟨st, rfl, hc⟩
  | succ k ih =>
      rw [gptInitLoop, if_pos (by omega)]
      apply ih (by omega)
      rw [hc]
      exact Function.update_eq_self i _

theorem gptInitLoop_overrun (hi : i ≤ GPT_DRIVES) (h : GPT_DRIVES < i + k) :
    gptInitLoop k i st = .error .bounds := by
  induction k generalizing i st with
  | zero => omega
  | succ k ih =>
      rw [gptInitLoop]
      by_cases hlt : i < GPT_DRIVES
      · rw [if_pos hlt]
        exact ih hlt (by omega)
      · rw [if_neg hlt]

theorem gptInit_ok (h : n ≤ GPT_DRIVES) : ∃ st, gptInit n = .ok st ∧ st.count = fun _ => 0 :=
  gptInitLoop_ok (by rwa [Nat.zero_add]) rfl

theorem gptInit_overrun (h : GPT_DRIVES < n) : gptInit n = .error .bounds :=
  gptInitLoop_overrun (Nat.zero_le _) (by rwa [Nat.zero_add])

theorem gptInit_count (h : gptInit n = .ok st) : n ≤ GPT_DRIVES ∧ st.count = fun _ => 0 := by
  rcases Nat.lt_or_ge GPT_DRIVES n with hlt | hle
  · rw [gptInit_overrun hlt] at h
    cases h
  · obtain ⟨st', h', hc⟩ := gptInit_ok hle
    rw [h'] at h
    cases h
    exact ⟨hle, hc⟩

theorem GptState.Ok.of_init (h : gptInit n = .ok st) : st.Ok := fun d => by
  rw [(gptInit_count h).2]
  norm_num

/-! ### One call -/

/-- Within the arrays a call returns. -/
theorem gptInitDrive_ok (hd : ∀ i < env.devCount, (env.dev i).Ok) (hst : st.Ok)
    (hn : env.devCount ≤ GPT_DRIVES)
    (hlen : HasTable env drive → itemCount env drive ≤ GPT_PARTS) :
    ∃ r, gptInitDrive env st drive = .ok r := by
  by_cases hp : Protective env drive
  · have hok := hd drive hp.1
    have hs : drive < GPT_DRIVES := lt_of_lt_of_le hp.1 hn
    rw [gptInitDrive_protective hok hp]
    by_cases ht : HasTable env drive
    · by_cases hr : ReadsTable env drive
      · obtain ⟨hdr, arr, -, -, he⟩ := gptReadTable_read hok hr hs (hlen ht) (hst drive)
        exact ⟨_, he⟩
      · obtain ⟨disks, part, he⟩ := @gptReadTable_unread env drive st hok ht hs (hlen ht) hr
        exact ⟨_, he⟩
    · obtain ⟨disks, he⟩ := @gptReadTable_skip env drive st hok hp ht hs
      exact ⟨_, he⟩
  · exact ⟨_, gptInitDrive_skip (hd drive) hp⟩

/-- The state after a call that has read the header and the partition array of a drive, and added
the used entries to the counter. -/
structure Counted (env : AtaEnv) (drive : ℕ) (st st' : GptState) : Prop where
  reads : ReadsTable env drive
  slot : drive < GPT_DRIVES
  fits : itemCount env drive ≤ GPT_PARTS
  count : st'.count = Function.update st.count drive
    (u64 (st.count drive + (usedEntries env drive).length))
  header : ∀ x < GPT_HEADER_SIZE, st'.disks drive x = env.bytes drive 1 x
  array : ∀ x < GPT_ENTRY_SIZE * itemCount env drive, st'.part drive x = partArray env drive x

/-- A call that returns has counted the entries of a partition array and returns true, or leaves
the counters and returns false. -/
theorem gptInitDrive_cases {b : Bool} (hd : drive < env.devCount → (env.dev drive).Ok)
    (hst : st.Ok) (h : gptInitDrive env st drive = .ok (st', b)) :
    (b = true ∧ Counted env drive st st') ∨ (b = false ∧ st'.count = st.count) := by
  by_cases hp : Protective env drive
  swap
  · rw [gptInitDrive_skip hd hp] at h
    cases h
    exact .inr ⟨rfl, rfl⟩
  have hok := hd hp.1
  rw [gptInitDrive_protective hok hp] at h
  have hs : drive < GPT_DRIVES := by
    by_contra hc
    rw [gptReadTable, if_neg hc] at h
    cases h
  by_cases ht : HasTable env drive
  swap
  · obtain ⟨disks, he⟩ := @gptReadTable_skip env drive st hok hp ht hs
    rw [he] at h
    cases h
    exact .inr ⟨rfl, rfl⟩
  have hn : itemCount env drive ≤ GPT_PARTS := by
    by_contra hc
    rw [gptReadTable_overrun hok ht hs (Nat.not_le.mp hc)] at h
    cases h
  by_cases hr : ReadsTable env drive
  · obtain ⟨hdr, arr, hb, ha, he⟩ := gptReadTable_read hok hr hs hn (hst drive)
    rw [he] at h
    obtain ⟨rfl, rfl⟩ := Prod.mk.inj (Except.ok.inj h)
    refine .inl ⟨rfl, hr, hs, hn, rfl, ?_, ?_⟩
    · show ∀ x < _, Function.update st.disks drive hdr drive x = _
      rwa [Function.update_self]
    · show ∀ x < _, Function.update st.part drive arr drive x = _
      rwa [Function.update_self]
  · obtain ⟨disks, part, he⟩ := @gptReadTable_unread env drive st hok ht hs hn hr
    rw [he] at h
    cases h
    exact .inr ⟨rfl, rfl⟩

theorem gptInitDrive_true (hd : drive < env.devCount → (env.dev drive).Ok) (hst : st.Ok)
    (h : gptInitDrive env st drive = .ok (st', true)) : Counted env drive st st' := by
  obtain ⟨-, hc⟩ | ⟨hb, -⟩ := gptInitDrive_cases hd hst h
  · exact hc
  · cases hb

/-- Every partition of the array fits the counter. -/
theorem usedEntries_lt (h : itemCount env drive ≤ GPT_PARTS) :
    (usedEntries env drive).length < 2 ^ 64 := by
  have h1 : (usedEntries env drive).length ≤ 128 := le_trans usedFrom_length_le h
  omega

/-- After a call that returns true the counter is right iff it was zero before. -/
theorem gptInitDrive_count_iff (hd : drive < env.devCount → (env.dev drive).Ok) (hst : st.Ok)
    (h : gptInitDrive env st drive = .ok (st', true)) :
    gptNumPart st' drive = .ok (usedEntries env drive).length ↔ st.count drive = 0 := by
  have hc := gptInitDrive_true hd hst h
  have h1 := usedEntries_lt hc.fits
  have h2 := hst drive
  unfold gptNumPart
  rw [if_pos hc.slot, hc.count, Function.update_self, Except.ok.injEq]
  unfold u64
  omega

/-! ### A disk -/

/-- A disk with a protective entry, a header with an array of `n` entries in sector 2, and types in
the entries of `used`. -/
def gptByte (n : ℕ) (used : List ℕ) (lba x : ℕ) : UInt8 :=
  if lba = 0 then if x = 450 then 0xEE else 0
  else if lba = 1 then
    if x < 8 then [0x45, 0x46, 0x49, 0x20, 0x50, 0x41, 0x52, 0x54].getD x 0
    else if x = 72 then 2
    else if 80 ≤ x ∧ x < 84 then UInt8.ofNat (n / 256 ^ (x - 80))
    else 0
  else if x % 128 = 0 ∧ x / 128 ∈ used then 1
  else 0

/-- That disk as the only device. -/
def gptDisk (n : ℕ) (used : List ℕ) : AtaEnv where
  devCount := 1
  chan _ := ⟨0x1F0, 0x3F6, 0, 0⟩
  dev _ := ⟨0, false, true, 2 ^ 28, 512⟩
  answer _ lba := ⟨fun _ => 0, fun s b => gptByte n used lba (512 * s + b)⟩
  stale _ := 0

section gptDisk

variable {used : List ℕ}

theorem gptDisk_ok : ∀ i < (gptDisk n used).devCount, ((gptDisk n used).dev i).Ok := fun _ _ =>
  ⟨by norm_num [gptDisk], by norm_num [gptDisk], by norm_num [gptDisk]⟩

theorem gptDisk_reads {idx lba len : ℕ} : (gptDisk n used).Reads idx lba len := by
  unfold AtaEnv.Reads
  rw [@ataTransfer_all ((gptDisk n used).answer idx lba).poll fun _ => rfl]

theorem gptDisk_bytes {idx lba : ℕ} : (gptDisk n used).bytes idx lba = gptByte n used lba := by
  funext x
  exact congrArg (gptByte n used lba) (Nat.div_add_mod x 512)

theorem gptDisk_hasTable : HasTable (gptDisk n used) 0 := by
  refine ⟨⟨Nat.one_pos, gptDisk_reads, 0, by decide, ?_⟩, gptDisk_reads, ?_⟩
  · rw [gptDisk_bytes]
    rfl
  · rw [gptDisk_bytes]
    rfl

theorem gptDisk_itemCount : itemCount (gptDisk n used) 0 = n % 2 ^ 32 := by
  unfold itemCount
  rw [gptDisk_bytes]
  simp [partItemCount, rdN, gptByte]
  omega

theorem gptDisk_usedEntries : usedEntries (gptDisk n used) 0 =
    usedFrom (gptByte n used 2) 0 (n % 2 ^ 32) := by
  have harr : partArrLba (gptByte n used 1) = 2 := by
    simp [partArrLba, rdN, gptByte]
  unfold usedEntries partArray
  rw [gptDisk_itemCount, gptDisk_bytes, gptDisk_bytes, harr]

/-- A call on the disk counts its entries. -/
theorem gptDisk_call (hst : st.Ok) (h : n ≤ GPT_PARTS) :
    ∃ st', gptInitDrive (gptDisk n used) st 0 = .ok (st', true) := by
  have hok : ((gptDisk n used).dev 0).Ok := gptDisk_ok 0 Nat.one_pos
  have hn : itemCount (gptDisk n used) 0 ≤ GPT_PARTS := by
    rw [gptDisk_itemCount]
    exact (Nat.mod_le _ _).trans h
  obtain ⟨hdr, arr, -, -, he⟩ := @gptReadTable_read (gptDisk n used) 0 st hok
    ⟨gptDisk_hasTable, gptDisk_reads⟩ (by decide) hn (hst 0)
  rw [gptInitDrive_protective hok gptDisk_hasTable.1]
  exact ⟨_, he⟩

end gptDisk

/-! ### The arrays are not overrun -/

/-- **No array is overrun iff there are at most four devices and no partition array on them has
more than 128 entries.** -/
theorem gpt_bounds_iff (env : AtaEnv) (hd : ∀ i < env.devCount, (env.dev i).Ok) :
    ((∃ st, gptInit env.devCount = .ok st) ∧
      ∀ st, st.Ok → ∀ drive, ∃ r, gptInitDrive env st drive = .ok r) ↔
    env.devCount ≤ GPT_DRIVES ∧ ∀ drive, HasTable env drive → itemCount env drive ≤ GPT_PARTS := by
  constructor
  · rintro ⟨⟨st, hst⟩, hall⟩
    obtain ⟨hn, -⟩ := gptInit_count hst
    refine ⟨hn, fun drive ht => ?_⟩
    by_contra hc
    obtain ⟨r, hr⟩ := hall st (.of_init hst) drive
    have hok := hd drive ht.1.1
    rw [gptInitDrive_protective hok ht.1,
      gptReadTable_overrun hok ht (lt_of_lt_of_le ht.1.1 hn) (Nat.not_le.mp hc)] at hr
    cases hr
  · rintro ⟨hn, hlen⟩
    obtain ⟨st, hst, -⟩ := gptInit_ok hn
    exact ⟨⟨st, hst⟩, fun st hok drive => gptInitDrive_ok hd hok hn (hlen drive)⟩

theorem gpt_bounds_one : ((∃ st, gptInit (gptDisk 128 [0]).devCount = .ok st) ∧
    ∀ st, st.Ok → ∀ drive, ∃ r, gptInitDrive (gptDisk 128 [0]) st drive = .ok r) ↔
    (gptDisk 128 [0]).devCount ≤ GPT_DRIVES ∧
      ∀ drive, HasTable (gptDisk 128 [0]) drive → itemCount (gptDisk 128 [0]) drive ≤ GPT_PARTS :=
  gpt_bounds_iff (gptDisk 128 [0]) gptDisk_ok

/-- The array of a table with 129 entries does not fit the block, and a fifth device has no
cell. -/
theorem gpt_overruns : (∀ i < (gptDisk 129 []).devCount, ((gptDisk 129 []).dev i).Ok) ∧
    (∃ st, gptInit (gptDisk 129 []).devCount = .ok st ∧
      gptInitDrive (gptDisk 129 []) st 0 = .error .bounds) ∧
    gptInit 5 = .error .bounds := by
  obtain ⟨st, hst, -⟩ := @gptInit_ok (gptDisk 129 []).devCount (by decide)
  have hok := @gptDisk_ok 129 [] 0 Nat.one_pos
  have hn : GPT_PARTS < itemCount (gptDisk 129 []) 0 := by
    rw [gptDisk_itemCount]
    decide
  refine ⟨gptDisk_ok, ⟨st, hst, ?_⟩, gptInit_overrun (by decide)⟩
  rw [gptInitDrive_protective hok gptDisk_hasTable.1]
  exact gptReadTable_overrun hok gptDisk_hasTable (by decide) hn

/-! ### The partitions of a drive -/

/-- **After one successful call, the query for partition `k` yields partition `k` of the disk iff
`k` is zero or the disk has no such partition.** -/
theorem gptPartEntry_iff (hd : (env.dev drive).Ok) (h₀ : gptInit env.devCount = .ok st₀)
    (h : gptInitDrive env st₀ drive = .ok (st, true)) (k : ℕ) :
    gptNumPart st drive = .ok (usedEntries env drive).length ∧
    (gptPartEntry env.devCount st drive k = .ok (usedEntries env drive)[k]? ↔
      k = 0 ∨ (usedEntries env drive).length ≤ k) := by
  have hst : st₀.Ok := .of_init h₀
  have hc := gptInitDrive_true (fun _ => hd) hst h
  have hnum := (gptInitDrive_count_iff (fun _ => hd) hst h).mpr
    (congrFun (gptInit_count h₀).2 drive)
  have hitem : partItemCount (st.disks drive) = itemCount env drive := partItemCount_congr hc.header
  have hused : usedFrom (st.part drive) 0 (itemCount env drive) = usedEntries env drive :=
    usedFrom_congr (by rw [Nat.zero_add]; exact hc.array)
  have hk : 0 + itemCount env drive ≤ GPT_PARTS := by
    rw [Nat.zero_add]
    exact hc.fits
  have hnone : (usedEntries env drive).length ≤ k → (usedEntries env drive)[k]? = none :=
    List.getElem?_eq_none
  refine ⟨hnum, ?_⟩
  unfold gptPartEntry
  rw [if_pos hc.reads.1.1.1, hnum, ok_bind, hitem]
  by_cases hlt : k < (usedEntries env drive).length
  · rw [if_pos hlt]
    by_cases hz : k = 0
    · subst hz
      rw [gptFind_zero hk, hused]
      exact iff_of_true rfl (.inl rfl)
    · rw [gptFind_succ hk (Nat.pos_of_ne_zero hz), List.getElem?_eq_getElem hlt]
      apply iff_of_false
      · exact fun he => by cases he
      · omega
  · rw [if_neg hlt, hnone (Nat.not_lt.mp hlt)]
    exact iff_of_true rfl (.inr (Nat.not_lt.mp hlt))

/-- On a disk with two partitions the queries for the first and for a third one are answered, and
the query for the second one is not. -/
theorem gptPartEntry_two : ∃ st₀ st, gptInit (gptDisk 128 [5, 9]).devCount = .ok st₀ ∧
    gptInitDrive (gptDisk 128 [5, 9]) st₀ 0 = .ok (st, true) ∧ gptNumPart st 0 = .ok 2 ∧
    gptPartEntry (gptDisk 128 [5, 9]).devCount st 0 0 = .ok (usedEntries (gptDisk 128 [5, 9]) 0)[0]? ∧
    gptPartEntry (gptDisk 128 [5, 9]).devCount st 0 1 ≠ .ok (usedEntries (gptDisk 128 [5, 9]) 0)[1]? ∧
    gptPartEntry (gptDisk 128 [5, 9]).devCount st 0 2 = .ok none := by
  have hlen : (usedEntries (gptDisk 128 [5, 9]) 0).length = 2 := by
    rw [gptDisk_usedEntries]
    decide +kernel
  obtain ⟨st₀, h₀, -⟩ := @gptInit_ok (gptDisk 128 [5, 9]).devCount (by decide)
  obtain ⟨st, h⟩ := @gptDisk_call st₀ 128 [5, 9] (.of_init h₀) (by decide)
  have hquery := gptPartEntry_iff (gptDisk_ok 0 Nat.one_pos) h₀ h
  simp only [hlen] at hquery
  refine ⟨st₀, st, h₀, h, (hquery 0).1, (hquery 0).2.mpr (.inl rfl), ?_, ?_⟩
  · exact fun he => absurd ((hquery 1).2.mp he) (by decide)
  · rw [(hquery 2).2.mpr (.inr le_rfl), List.getElem?_eq_none hlen.le]

/-- With two partitions the query for the second one fails. -/
theorem gptPartEntry_second : ∃ st₀ st, gptInit (gptDisk 2 [0, 1]).devCount = .ok st₀ ∧
    gptInitDrive (gptDisk 2 [0, 1]) st₀ 0 = .ok (st, true) ∧ gptNumPart st 0 = .ok 2 ∧
    gptPartEntry (gptDisk 2 [0, 1]).devCount st 0 1 = .ok none := by
  obtain ⟨st₀, h₀, -⟩ := @gptInit_ok (gptDisk 2 [0, 1]).devCount (by decide)
  have hst : st₀.Ok := .of_init h₀
  obtain ⟨st, h⟩ := @gptDisk_call st₀ 2 [0, 1] hst (by decide)
  have hd : (0 : ℕ) < (gptDisk 2 [0, 1]).devCount → ((gptDisk 2 [0, 1]).dev 0).Ok := gptDisk_ok 0
  have hc := gptInitDrive_true hd hst h
  have hnum := (gptInitDrive_count_iff hd hst h).mpr (congrFun (gptInit_count h₀).2 0)
  have hlen : (usedEntries (gptDisk 2 [0, 1]) 0).length = 2 := by
    rw [gptDisk_usedEntries]
    decide +kernel
  have hitem : partItemCount (st.disks 0) = 2 :=
    (partItemCount_congr hc.header).trans gptDisk_itemCount
  rw [hlen] at hnum
  refine ⟨st₀, st, h₀, h, hnum, ?_⟩
  unfold gptPartEntry
  rw [if_pos hc.reads.1.1.1, hnum, ok_bind, if_pos (by decide), hitem]
  exact gptFind_succ (by decide) Nat.one_pos

/-! ### Runs -/

/-- The runs of `gpt_init_drive` calls, on any drives and with any contents of the disks, whose
calls all meet the condition `P`.  The second component is the number of used entries in the
partition array that was read last from a drive. -/
inductive GptRun (n : ℕ) (P : AtaEnv → GptState → ℕ → Prop) : GptState → (ℕ → Option ℕ) → Prop
  | init {st : GptState} (h : gptInit n = .ok st) : GptRun n P st fun _ => none
  | call {st st' : GptState} {last : ℕ → Option ℕ} {env : AtaEnv} {drive : ℕ} {b : Bool}
      (hr : GptRun n P st last) (hn : env.devCount = n) (hd : ∀ i < n, (env.dev i).Ok)
      (hP : P env st drive) (h : gptInitDrive env st drive = .ok (st', b)) :
      GptRun n P st' (if b then Function.update last drive (some (usedEntries env drive).length)
        else last)

/-- The counter of a drive is zero when a partition array is read from it. -/
def FreshCount (env : AtaEnv) (st : GptState) (drive : ℕ) : Prop :=
  ReadsTable env drive → st.count drive = 0

/-- The counters of a run are right, and 64-bit words. -/
theorem GptRun.count {last : ℕ → Option ℕ} (h : GptRun n FreshCount st last) :
    st.Ok ∧ ∀ d k, last d = some k → d < GPT_DRIVES ∧ st.count d = k := by
  induction h with
  | init h => exact ⟨.of_init h, fun d k hk => by cases hk⟩
  | @call st st' last env drive b hr hn hd hP h ih =>
      obtain ⟨hst, hlast⟩ := ih
      have hdev : drive < env.devCount → (env.dev drive).Ok := fun hlt => hd drive (hn ▸ hlt)
      obtain ⟨rfl, hc⟩ | ⟨rfl, hc⟩ := gptInitDrive_cases hdev hst h
      · have hlen := usedEntries_lt hc.fits
        have hcount : st'.count = Function.update st.count drive (usedEntries env drive).length := by
          rw [hc.count, hP hc.reads, Nat.zero_add, u64_of_lt hlen]
        constructor
        · intro d
          rw [hcount, Function.update_apply]
          split_ifs
          · exact hlen
          · exact hst d
        · intro d k hk
          rw [if_pos rfl, Function.update_apply] at hk
          rw [hcount, Function.update_apply]
          split_ifs at hk ⊢ with he
          · exact ⟨he ▸ hc.slot, Option.some.inj hk⟩
          · exact hlast d k hk
      · rw [GptState.Ok, hc, if_neg Bool.false_ne_true]
        exact ⟨hst, hlast⟩

/-- **In a run whose calls read a partition array only while the counter of the drive is zero, the
number of partitions of a drive is always the number of used entries in the array that was read
last from it.** -/
theorem gptRun_numPart {last : ℕ → Option ℕ} (h : GptRun n FreshCount st last)
    (hk : last d = some k) : gptNumPart st d = .ok k := by
  obtain ⟨hs, hc⟩ := h.count.2 d k hk
  rw [gptNumPart, if_pos hs, hc]

/-- A call for a drive that is not there, one on a table without partitions, and one on the same
drive after two partitions were made. -/
theorem gptRun_two : ∃ st₀ st₁ st₂, gptInit 1 = .ok st₀ ∧
    gptInitDrive (gptDisk 128 []) st₀ 3 = .ok (st₀, false) ∧
    gptInitDrive (gptDisk 128 []) st₀ 0 = .ok (st₁, true) ∧ gptNumPart st₁ 0 = .ok 0 ∧
    gptInitDrive (gptDisk 128 [5, 9]) st₁ 0 = .ok (st₂, true) ∧ gptNumPart st₂ 0 = .ok 2 := by
  have hlen : (usedEntries (gptDisk 128 []) 0).length = 0 := by
    rw [gptDisk_usedEntries]
    decide +kernel
  have hlen' : (usedEntries (gptDisk 128 [5, 9]) 0).length = 2 := by
    rw [gptDisk_usedEntries]
    decide +kernel
  obtain ⟨st₀, h₀, hz⟩ := @gptInit_ok 1 (by decide)
  have hskip : gptInitDrive (gptDisk 128 []) st₀ 3 = .ok (st₀, false) :=
    gptInitDrive_skip (gptDisk_ok 3) fun hp => absurd hp.1 (by decide)
  have hr₀ : GptRun 1 FreshCount st₀ _ :=
    .call (.init h₀) rfl gptDisk_ok (fun hr => absurd hr.1.1.1 (by decide)) hskip
  obtain ⟨st₁, h₁⟩ := @gptDisk_call st₀ 128 [] (.of_init h₀) (by decide)
  have hr₁ : GptRun 1 FreshCount st₁ _ := .call hr₀ rfl gptDisk_ok (fun _ => congrFun hz 0) h₁
  rw [if_pos rfl, hlen] at hr₁
  obtain ⟨hst₁, hcount⟩ := hr₁.count
  obtain ⟨st₂, h₂⟩ := @gptDisk_call st₁ 128 [5, 9] hst₁ (by decide)
  have hr₂ : GptRun 1 FreshCount st₂ _ :=
    .call hr₁ rfl gptDisk_ok (fun _ => (hcount 0 0 (Function.update_self _ _ _)).2) h₂
  rw [if_pos rfl, hlen'] at hr₂
  exact ⟨st₀, st₁, st₂, h₀, hskip, h₁, gptRun_numPart hr₁ (Function.update_self _ _ _), h₂,
    gptRun_numPart hr₂ (Function.update_self _ _ _)⟩

/-- After a second call on the same disk, with one partition, the counter is two. -/
theorem gptRun_recount : ∃ st last, GptRun 1 (fun _ _ _ => True) st last ∧ last 0 = some 1 ∧
    gptNumPart st 0 = .ok 2 := by
  obtain ⟨st₀, h₀, hz⟩ := @gptInit_ok 1 (by decide)
  have hst : st₀.Ok := .of_init h₀
  obtain ⟨st₁, h₁⟩ := @gptDisk_call st₀ 128 [5] hst (by decide)
  have hd : (0 : ℕ) < (gptDisk 128 [5]).devCount → ((gptDisk 128 [5]).dev 0).Ok := gptDisk_ok 0
  have hlen : (usedEntries (gptDisk 128 [5]) 0).length = 1 := by
    rw [gptDisk_usedEntries]
    decide +kernel
  have hc₁ := gptInitDrive_true hd hst h₁
  have hst₁ : st₁.Ok := by
    intro d
    rw [hc₁.count, Function.update_apply]
    split_ifs
    · exact u64_lt _
    · exact hst d
  obtain ⟨st₂, h₂⟩ := @gptDisk_call st₁ 128 [5] hst₁ (by decide)
  have hc₂ := gptInitDrive_true hd hst₁ h₂
  have hr : GptRun 1 (fun _ _ _ => True) st₂ _ :=
    .call (.call (.init h₀) rfl gptDisk_ok trivial h₁) rfl gptDisk_ok trivial h₂
  refine ⟨st₂, _, hr, ?_, ?_⟩
  · rw [if_pos rfl, Function.update_self, hlen]
  · rw [gptNumPart, if_pos (by decide), hc₂.count, Function.update_self, hc₁.count,
      Function.update_self, hlen, hz]
    decide

end Dawos
