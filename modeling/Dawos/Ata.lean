import Dawos.Loop

/-! # Reading from ATA devices

`ata_read` of `ata.c` with the port writes it performs.  A channel has three windows of ports:
command block, control block and bus master.  A device answers a request sector by sector: with
what `ata_poll` makes of its status, and with the data words of the sector.

The second part is the other side of the ports: `taskFile` collects the writes to the command
block the way a device does, with the two-deep registers of the 48-bit commands, and
`decodeRequest` is the request that the device then sees. -/

namespace Dawos

/-! ### Registers and commands -/

def ATA_REG_SECCOUNT0 : ℕ := 0x02
def ATA_REG_LBA0 : ℕ := 0x03
def ATA_REG_LBA1 : ℕ := 0x04
def ATA_REG_LBA2 : ℕ := 0x05
def ATA_REG_HDDEVSEL : ℕ := 0x06
def ATA_REG_COMMAND : ℕ := 0x07
def ATA_REG_SECCOUNT1 : ℕ := 0x08
def ATA_REG_LBA3 : ℕ := 0x09
def ATA_REG_LBA4 : ℕ := 0x0A
def ATA_REG_LBA5 : ℕ := 0x0B
def ATA_REG_CONTROL : ℕ := 0x0C
def ATA_CMD_READ_PIO : ℕ := 0x20
def ATA_CMD_READ_PIO_EXT : ℕ := 0x24

/-- `ide_chan_t`. -/
structure IdeChan where
  base : ℕ
  control : ℕ
  bmide : ℕ
  noInt : ℕ
deriving DecidableEq

/-- The fields of `ata_dev_t` that a read uses. -/
structure AtaDev where
  channel : ℕ
  slave : Bool
  lba48 : Bool
  sectors : ℕ
  sectorSize : ℕ

/-- What a device does after a request: the result of polling before sector `i`, and the bytes of
sector `i`. -/
structure AtaAnswer where
  poll : ℕ → ℕ
  data : ℕ → ℕ → UInt8

/-- The devices as `ata_init` found them, and what they answer to a request for an address. -/
structure AtaEnv where
  devCount : ℕ
  chan : ℕ → IdeChan
  dev : ℕ → AtaDev
  answer : ℕ → ℕ → AtaAnswer
  /-- The contents of a fresh temporary buffer. -/
  stale : ℕ → UInt8

/-! ### Port writes -/

/-- A byte that goes to a port. -/
abbrev PortWrite := ℕ × ℕ

/-- The write to one register: its port depends on the range of the register. -/
def ataOut (chan : IdeChan) (reg data : ℕ) : List PortWrite :=
  if reg < 0x08 then [((chan.base + reg) % 2 ^ 16, data)]
  else if reg < 0x0C then [((chan.base + reg - 0x06) % 2 ^ 16, data)]
  else if reg < 0x0E then [((chan.control + reg - 0x0A) % 2 ^ 16, data)]
  else if reg < 0x16 then [((chan.bmide + reg - 0x0E) % 2 ^ 16, data)]
  else []

/-- Write a register; the high-order registers are enclosed in control writes. -/
def ataWriteReg (chan : IdeChan) (reg data : ℕ) : List PortWrite :=
  let data := data % 2 ^ 8
  if 0x07 < reg ∧ reg < 0x0C then
    ataOut chan ATA_REG_CONTROL ((0x80 ||| chan.noInt * 2) % 2 ^ 8) ++ ataOut chan reg data ++
      ataOut chan ATA_REG_CONTROL (chan.noInt * 2 % 2 ^ 8)
  else ataOut chan reg data

/-- Select ATA device. -/
def ataDevSel (chan : IdeChan) (dev : AtaDev) : List PortWrite :=
  ataWriteReg chan ATA_REG_HDDEVSEL (0xE0 ||| dev.slave.toNat * 2 ^ 4)

/-- The writes of a request for `sectors` sectors from `lba` on. -/
def ataRequest (chan : IdeChan) (dev : AtaDev) (lba sectors : ℕ) : List PortWrite :=
  ataDevSel chan dev ++
    (if dev.lba48 then
      -- for 48-bit LBA the high-order bytes go first
      ataWriteReg chan ATA_REG_SECCOUNT1 (sectors / 2 ^ 8) ++
        ataWriteReg chan ATA_REG_LBA3 (lba / 2 ^ 24) ++ ataWriteReg chan ATA_REG_LBA4 (lba / 2 ^ 32) ++
        ataWriteReg chan ATA_REG_LBA5 (lba / 2 ^ 40)
    else []) ++
    ataWriteReg chan ATA_REG_SECCOUNT0 sectors ++ ataWriteReg chan ATA_REG_LBA0 lba ++
    ataWriteReg chan ATA_REG_LBA1 (lba / 2 ^ 8) ++ ataWriteReg chan ATA_REG_LBA2 (lba / 2 ^ 16) ++
    ataWriteReg chan ATA_REG_COMMAND (if dev.lba48 then ATA_CMD_READ_PIO_EXT else ATA_CMD_READ_PIO)

/-! ### Reading -/

/-- The transfer loop over the next `k` sectors from sector `i` on: the number of sectors read, and
whether there was no error. -/
def ataTransfer (poll : ℕ → ℕ) : ℕ → ℕ → ℕ × Bool
  | 0, i => (i, true)
  | k + 1, i => if poll i = 0 then ataTransfer poll k (i + 1) else (i, false)

/-- What a read does: port writes, sectors transferred, success, and the bytes that are copied to
the buffer (`len` of them, also after an error). -/
structure AtaResult where
  writes : List PortWrite
  transferred : ℕ
  ok : Bool
  bytes : ℕ → UInt8

/-- The number of sectors that hold `len` bytes. -/
def ataSectors (dev : AtaDev) (len : ℕ) : ℕ :=
  u64 (len + sub64 dev.sectorSize 1) / dev.sectorSize

/-- The request for `sectors` sectors from `lba` on, and the transfer loop after it. -/
def ataReadSectors (env : AtaEnv) (idx lba sectors : ℕ) : AtaResult :=
  let dev := env.dev idx
  let answer := env.answer idx lba
  let r := ataTransfer answer.poll sectors 0
  { writes := ataRequest (env.chan dev.channel) dev lba sectors
    transferred := r.1
    ok := r.2
    bytes := fun i =>
      if i / dev.sectorSize < r.1 then answer.data (i / dev.sectorSize) (i % dev.sectorSize)
      else env.stale i }

/-- Read `len` bytes from `lba` on; nothing is done for a device that is not there. -/
def ataRead (env : AtaEnv) (idx lba len : ℕ) : Option AtaResult :=
  if idx < env.devCount then some (ataReadSectors env idx lba (ataSectors (env.dev idx) len))
  else none

/-! ### The request that a device sees -/

/-- The command block registers of a device: what was written last and before that. -/
structure TaskFile where
  cur : ℕ → ℕ
  prev : ℕ → ℕ

/-- A write to a port, as the device sees it. -/
def TaskFile.write (chan : IdeChan) (tf : TaskFile) (w : PortWrite) : TaskFile :=
  if chan.base ≤ w.1 ∧ w.1 < chan.base + 8 then
    ⟨Function.update tf.cur (w.1 - chan.base) w.2,
      Function.update tf.prev (w.1 - chan.base) (tf.cur (w.1 - chan.base))⟩
  else tf

def taskFile (chan : IdeChan) (tf : TaskFile) (ws : List PortWrite) : TaskFile :=
  ws.foldl (TaskFile.write chan) tf

/-- A read request. -/
structure AtaRequest where
  slave : Bool
  lba : ℕ
  count : ℕ
deriving DecidableEq

/-- The request in the task file, by the command in its last register. -/
def decodeRequest (tf : TaskFile) : Option AtaRequest :=
  let slave := tf.cur 6 / 16 % 2 == 1
  if tf.cur 7 = ATA_CMD_READ_PIO then
    some ⟨slave, tf.cur 3 + tf.cur 4 * 2 ^ 8 + tf.cur 5 * 2 ^ 16 + tf.cur 6 % 16 * 2 ^ 24,
      if tf.cur 2 = 0 then 256 else tf.cur 2⟩
  else if tf.cur 7 = ATA_CMD_READ_PIO_EXT then
    some ⟨slave, tf.cur 3 + tf.cur 4 * 2 ^ 8 + tf.cur 5 * 2 ^ 16 + tf.prev 3 * 2 ^ 24 +
        tf.prev 4 * 2 ^ 32 + tf.prev 5 * 2 ^ 40,
      if tf.cur 2 + tf.prev 2 * 2 ^ 8 = 0 then 65536 else tf.cur 2 + tf.prev 2 * 2 ^ 8⟩
  else none

/-! ### The request of a read -/

/-- The windows of a channel lie in the port space and do not overlap. -/
structure IdeChan.Ok (chan : IdeChan) : Prop where
  base : chan.base + 8 ≤ 2 ^ 16
  control : chan.control + 4 ≤ 2 ^ 16
  apart : chan.base + 8 ≤ chan.control ∨ chan.control + 4 ≤ chan.base

/-- A device as `ata_init_dev` sets it up: the sector size is 512 bytes or a larger power, the size
fits the addresses. -/
structure AtaDev.Ok (dev : AtaDev) : Prop where
  size_pos : 0 < dev.sectorSize
  size_le : dev.sectorSize ≤ 2 ^ 25
  sectors : dev.sectors ≤ if dev.lba48 then 2 ^ 48 else 2 ^ 28

/-- The sectors of a request lie on the device and fit the count of its command. -/
structure Fits (dev : AtaDev) (lba len : ℕ) : Prop where
  pos : 0 < len
  count : (len + dev.sectorSize - 1) / dev.sectorSize ≤ if dev.lba48 then 65536 else 256
  onDevice : lba + (len + dev.sectorSize - 1) / dev.sectorSize ≤ dev.sectors

section request

variable {chan : IdeChan} {dev : AtaDev} {tf : TaskFile} {reg data lba len sectors : ℕ}
  {env : AtaEnv} {idx : ℕ}

theorem taskFile_append (tf : TaskFile) (xs ys : List PortWrite) :
    taskFile chan tf (xs ++ ys) = taskFile chan (taskFile chan tf xs) ys := List.foldl_append

/-- A register of the command block takes what is written to it. -/
theorem taskFile_low (h : chan.Ok) (hr : reg < 8) : taskFile chan tf (ataWriteReg chan reg data) =
    ⟨Function.update tf.cur reg (data % 2 ^ 8), Function.update tf.prev reg (tf.cur reg)⟩ := by
  have hb := h.base
  have hp : (chan.base + reg) % 2 ^ 16 = chan.base + reg := Nat.mod_eq_of_lt (by omega)
  have hs : chan.base + reg - chan.base = reg := Nat.add_sub_cancel_left _ _
  unfold ataWriteReg ataOut taskFile TaskFile.write
  rw [if_neg (by omega), if_pos hr]
  simp only [List.foldl_cons, List.foldl_nil, hp, hs]
  rw [if_pos (by omega)]

/-- The control register is not in the command block. -/
theorem taskFile_control (h : chan.Ok) :
    taskFile chan tf (ataOut chan ATA_REG_CONTROL data) = tf := by
  have hc := h.control
  have ha := h.apart
  have hp : (chan.control + ATA_REG_CONTROL - 0x0A) % 2 ^ 16 = chan.control + 2 := by
    rw [ATA_REG_CONTROL]
    omega
  unfold ataOut taskFile TaskFile.write
  rw [if_neg (by decide), if_neg (by decide), if_pos (by decide)]
  simp only [List.foldl_cons, List.foldl_nil, hp]
  rw [if_neg (by omega)]

/-- A high-order register is the register six below. -/
theorem taskFile_high (h : chan.Ok) (h1 : 7 < reg) (h2 : reg < 12) :
    taskFile chan tf (ataWriteReg chan reg data) = ⟨Function.update tf.cur (reg - 6) (data % 2 ^ 8),
      Function.update tf.prev (reg - 6) (tf.cur (reg - 6))⟩ := by
  have hb := h.base
  have hp : (chan.base + reg - 0x06) % 2 ^ 16 = chan.base + (reg - 6) := by omega
  have hs : chan.base + (reg - 6) - chan.base = reg - 6 := Nat.add_sub_cancel_left _ _
  unfold ataWriteReg
  rw [if_pos ⟨h1, h2⟩, taskFile_append, taskFile_append, taskFile_control h, taskFile_control h]
  unfold ataOut taskFile TaskFile.write
  rw [if_neg (by omega), if_pos h2]
  simp only [List.foldl_cons, List.foldl_nil, hp, hs]
  rw [if_pos (by omega)]

/-- The device select byte: slave bit, and address bits 24 to 27 that are always clear. -/
theorem devSel_bits (s : Bool) : (0xE0 ||| s.toNat * 2 ^ 4) % 2 ^ 8 % 16 = 0 ∧
    ((0xE0 ||| s.toNat * 2 ^ 4) % 2 ^ 8 / 16 % 2 == 1) = s := by
  cases s <;> decide

/-- The request that a 28-bit device sees. -/
theorem decode_lba28 (h : chan.Ok) (hd : dev.lba48 = false) :
    decodeRequest (taskFile chan tf (ataRequest chan dev lba sectors)) =
      some ⟨dev.slave, lba % 2 ^ 24, if sectors % 2 ^ 8 = 0 then 256 else sectors % 2 ^ 8⟩ := by
  obtain ⟨h1, h2⟩ := devSel_bits dev.slave
  unfold ataRequest ataDevSel
  simp only [hd, Bool.false_eq_true, if_false, List.append_nil, taskFile_append]
  rw [taskFile_low h (by decide), taskFile_low h (by decide), taskFile_low h (by decide),
    taskFile_low h (by decide), taskFile_low h (by decide), taskFile_low h (by decide)]
  unfold decodeRequest
  simp only [ATA_REG_COMMAND, ATA_REG_LBA2, ATA_REG_LBA1, ATA_REG_LBA0, ATA_REG_SECCOUNT0,
    ATA_REG_HDDEVSEL, ATA_CMD_READ_PIO, Function.update_apply]
  norm_num
  norm_num at h1 h2
  refine ⟨h2, ?_⟩
  omega

/-- The request that a 48-bit device sees. -/
theorem decode_lba48 (h : chan.Ok) (hd : dev.lba48 = true) (hl : lba < 2 ^ 48) :
    decodeRequest (taskFile chan tf (ataRequest chan dev lba sectors)) =
      some ⟨dev.slave, lba, if sectors % 2 ^ 16 = 0 then 65536 else sectors % 2 ^ 16⟩ := by
  obtain ⟨h1, h2⟩ := devSel_bits dev.slave
  unfold ataRequest ataDevSel
  simp only [hd, if_true, taskFile_append]
  rw [taskFile_low h (by decide), taskFile_low h (by decide), taskFile_low h (by decide),
    taskFile_low h (by decide), taskFile_low h (by decide),
    taskFile_high h (by decide) (by decide), taskFile_high h (by decide) (by decide),
    taskFile_high h (by decide) (by decide), taskFile_high h (by decide) (by decide),
    taskFile_low h (by decide)]
  unfold decodeRequest
  simp only [ATA_REG_COMMAND, ATA_REG_LBA2, ATA_REG_LBA1, ATA_REG_LBA0, ATA_REG_SECCOUNT0,
    ATA_REG_HDDEVSEL, ATA_REG_SECCOUNT1, ATA_REG_LBA3, ATA_REG_LBA4, ATA_REG_LBA5, ATA_CMD_READ_PIO,
    ATA_CMD_READ_PIO_EXT, Function.update_apply]
  norm_num
  norm_num at h2
  refine ⟨h2, by omega, ?_⟩
  have e : sectors % 256 + sectors / 256 % 256 * 256 = sectors % 65536 := by omega
  have hz : (sectors % 256 = 0 ∧ sectors / 256 % 256 = 0) ↔ sectors % 65536 = 0 := by omega
  simp only [e, hz]

/-- The number of sectors of a request that fits is the length rounded up. -/
theorem ataSectors_eq (hd : dev.Ok) (hf : Fits dev lba len) :
    ataSectors dev len = (len + dev.sectorSize - 1) / dev.sectorSize ∧ 0 < ataSectors dev len := by
  have h1 := hd.size_pos
  have h2 := hd.size_le
  have h3 := hf.pos
  have hcount : (len + dev.sectorSize - 1) / dev.sectorSize < 65537 := by
    have := hf.count
    split_ifs at this <;> omega
  have hlt : len + dev.sectorSize - 1 < 65537 * dev.sectorSize := (Nat.div_lt_iff_lt_mul h1).mp hcount
  have hlt' : len + (dev.sectorSize - 1) < 2 ^ 64 := by omega
  have he : len + (dev.sectorSize - 1) = len + dev.sectorSize - 1 := by omega
  unfold ataSectors
  rw [sub64_of_le (by omega) (by omega), u64_of_lt hlt', he]
  exact ⟨rfl, Nat.div_pos (by omega) h1⟩

/-- Without errors the loop transfers every sector. -/
theorem ataTransfer_all {poll : ℕ → ℕ} (h : ∀ i, poll i = 0) :
    ∀ k i, ataTransfer poll k i = (i + k, true)
  | 0, i => rfl
  | k + 1, i => by
      rw [ataTransfer, if_pos (h i), ataTransfer_all h k (i + 1)]
      exact congrArg (·, true) (by omega)

/-- A device sees the request that was asked for iff its commands have 48-bit addresses or the
address has at most 24 bits. -/
theorem decode_iff (hc : chan.Ok) (hd : dev.Ok) (hpos : 0 < sectors)
    (hcount : sectors ≤ if dev.lba48 then 65536 else 256) (hdev : lba + sectors ≤ dev.sectors) :
    decodeRequest (taskFile chan tf (ataRequest chan dev lba sectors)) =
        some ⟨dev.slave, lba, sectors⟩ ↔ dev.lba48 = true ∨ lba < 2 ^ 24 := by
  have hsize := hd.sectors
  cases hl : dev.lba48 with
  | false =>
      rw [hl, if_neg (by decide)] at hcount hsize
      have hcnt : (if sectors % 2 ^ 8 = 0 then 256 else sectors % 2 ^ 8) = sectors := by
        split_ifs <;> omega
      rw [decode_lba28 hc hl, hcnt, Option.some.injEq, AtaRequest.mk.injEq]
      constructor
      · rintro ⟨-, h, -⟩
        exact .inr (h ▸ Nat.mod_lt _ (by norm_num))
      · rintro (h | h)
        · cases h
        · exact ⟨rfl, Nat.mod_eq_of_lt h, rfl⟩
  | true =>
      rw [hl, if_pos rfl] at hcount hsize
      have hcnt : (if sectors % 2 ^ 16 = 0 then 65536 else sectors % 2 ^ 16) = sectors := by
        split_ifs <;> omega
      have hlt : lba < 2 ^ 48 := by omega
      rw [decode_lba48 hc hl hlt, hcnt]
      exact iff_of_true rfl (.inl rfl)

/-- Without errors a read transfers as many sectors as it asks for. -/
theorem transferred_of_poll (h : ∀ i, (env.answer idx lba).poll i = 0) :
    (ataReadSectors env idx lba sectors).transferred = sectors := by
  unfold ataReadSectors
  dsimp only
  rw [ataTransfer_all h, Nat.zero_add]

/-- **The device sees the request that was asked for iff its commands have 48-bit addresses or the
address has at most 24 bits.** -/
theorem ataRead_request_iff (env : AtaEnv) (tf : TaskFile) (hidx : idx < env.devCount)
    (hc : (env.chan (env.dev idx).channel).Ok) (hd : (env.dev idx).Ok)
    (hf : Fits (env.dev idx) lba len) : ∃ r n, ataRead env idx lba len = some r ∧
      n = (len + (env.dev idx).sectorSize - 1) / (env.dev idx).sectorSize ∧
      ((∀ i, (env.answer idx lba).poll i = 0) → r.transferred = n) ∧
      (decodeRequest (taskFile (env.chan (env.dev idx).channel) tf r.writes) =
          some ⟨(env.dev idx).slave, lba, n⟩ ↔ (env.dev idx).lba48 = true ∨ lba < 2 ^ 24) := by
  obtain ⟨hn, hpos⟩ := ataSectors_eq hd hf
  have hcount := hf.count
  have hdev := hf.onDevice
  rw [← hn] at hcount hdev
  have hr : ataRead env idx lba len = some (ataReadSectors env idx lba _) := if_pos hidx
  generalize ataSectors (env.dev idx) len = n at hn hpos hcount hdev hr
  exact ⟨_, n, hr, hn, transferred_of_poll, decode_iff hc hd hpos hcount hdev⟩

/-- One device on the primary channel that answers with zeros. -/
def oneDisk (lba48 : Bool) : AtaEnv where
  devCount := 1
  chan _ := ⟨0x1F0, 0x3F6, 0, 0⟩
  dev _ := ⟨0, false, lba48, 2 ^ 28, 512⟩
  answer _ _ := ⟨fun _ => 0, fun _ _ => 0⟩
  stale _ := 0

theorem oneDisk_ok (lba48 : Bool) : ((oneDisk lba48).chan 0).Ok ∧ ((oneDisk lba48).dev 0).Ok :=
  ⟨⟨by norm_num [oneDisk], by norm_num [oneDisk], .inl (by norm_num [oneDisk])⟩,
    ⟨by norm_num [oneDisk], by norm_num [oneDisk], by cases lba48 <;> norm_num [oneDisk]⟩⟩

theorem ataRead_request_one : ∃ r n, ataRead (oneDisk true) 0 7 512 = some r ∧ n = (512 + 512 - 1) / 512 ∧
    ((∀ i, ((oneDisk true).answer 0 7).poll i = 0) → r.transferred = n) ∧
    (decodeRequest (taskFile ((oneDisk true).chan 0) ⟨fun _ => 0, fun _ => 0⟩ r.writes) =
      some ⟨false, 7, n⟩ ↔ true = true ∨ 7 < 2 ^ 24) :=
  ataRead_request_iff (oneDisk true) ⟨fun _ => 0, fun _ => 0⟩ (by decide) (oneDisk_ok true).1
    (oneDisk_ok true).2 ⟨by norm_num, by norm_num [oneDisk], by norm_num [oneDisk]⟩

/-- A 28-bit device is asked for sector 0 instead of sector `2 ^ 24`. -/
theorem ataRead_truncates : ((oneDisk false).chan 0).Ok ∧ ((oneDisk false).dev 0).Ok ∧
    Fits ((oneDisk false).dev 0) (2 ^ 24) 512 ∧ ∃ r, ataRead (oneDisk false) 0 (2 ^ 24) 512 = some r ∧
      decodeRequest (taskFile ((oneDisk false).chan 0) ⟨fun _ => 0, fun _ => 0⟩ r.writes) =
        some ⟨false, 0, 1⟩ :=
  ⟨(oneDisk_ok false).1, (oneDisk_ok false).2,
    ⟨by norm_num, by norm_num [oneDisk], by norm_num [oneDisk]⟩, _, rfl, by decide +kernel⟩

end request

end Dawos
