import Dawos.Store

/-! # The interrupt controllers

`boot/bios/bbp/loader/pic.c` drives two 8259 controllers, of which the slave is attached to input 2
of the master.  A controller has a mask (`imr`), the requests at its inputs (`irr`) and the
interrupts in service (`isr`); input 0 has the highest priority.  It accepts a request when no
interrupt of the same or a higher priority is in service, and the non-specific end of interrupt takes
the interrupt of the highest priority out of service.

The devices go on while the program runs: what they do with their lines before an access to a port
is part of the input (`Pics.lines`).

`clearHighest_or` is the fact on which the handling of interrupts rests: the end of interrupt undoes
the acknowledgement, whatever else is in service. -/

namespace Dawos.Pic

/-! ### A controller -/

/-- The initialization words that a controller still expects. -/
inductive Stage where
  | icw2 (single icw4 : Bool)
  | icw3 (icw4 : Bool)
  | icw4
  | ready
deriving DecidableEq, Repr

/-- An 8259 controller: its registers, the vector of input 0, and which register a read of the
command port returns. -/
structure Chip where
  imr : BitVec 8
  irr : BitVec 8
  isr : BitVec 8
  base : ℕ
  stage : Stage
  readIsr : Bool
deriving DecidableEq, Repr

/-- The input of the highest priority among `v`. -/
def highest (v : BitVec 8) : Option ℕ := (List.range 8).find? v.getLsbD

/-- No input with the priority of `i` or a higher one is in `v`. -/
def clearUpTo (v : BitVec 8) (i : ℕ) : Bool := (List.range (i + 1)).all fun j => !v.getLsbD j

/-- The bit of input `i`. -/
def inputBit (i : ℕ) : BitVec 8 := BitVec.twoPow 8 i

/-- `v` without its input of the highest priority. -/
def clearHighest (v : BitVec 8) : BitVec 8 :=
  match highest v with
  | some i => v &&& ~~~inputBit i
  | none => v

namespace Chip

/-- The request that the controller accepts, if `requests` are at its inputs. -/
def accepts (c : Chip) (requests : BitVec 8) : Option ℕ :=
  match highest (requests &&& ~~~c.imr) with
  | some i => if clearUpTo c.isr i then some i else none
  | none => none

/-- The processor acknowledges the request at input `i`. -/
def acknowledge (c : Chip) (i : ℕ) : Chip :=
  { c with irr := c.irr &&& ~~~inputBit i, isr := c.isr ||| inputBit i }

/-- The non-specific end of interrupt. -/
def eoi (c : Chip) : Chip := { c with isr := clearHighest c.isr }

/-- A byte for the command port: ICW1, OCW3 or OCW2.  Of the latter two only the choice of the
register to read and the non-specific end of interrupt are modelled. -/
def writeCmd (c : Chip) (v : BitVec 8) : Chip :=
  if v.getLsbD 4 then
    { c with imr := 0, irr := 0, stage := .icw2 (v.getLsbD 1) (v.getLsbD 0), readIsr := false }
  else if v.getLsbD 3 then
    if v.getLsbD 1 then { c with readIsr := v.getLsbD 0 } else c
  else if v.extractLsb' 5 3 = 1 then c.eoi
  else c

/-- The stage behind ICW3, or behind ICW2 of a single controller. -/
def lastStage (icw4 : Bool) : Stage := if icw4 then .icw4 else .ready

/-- A byte for the data port: the initialization word that is expected, or else the mask. -/
def writeData (c : Chip) (v : BitVec 8) : Chip :=
  match c.stage with
  | .icw2 single icw4 =>
      { c with base := (v &&& 0xF8).toNat, stage := if single then lastStage icw4 else .icw3 icw4 }
  | .icw3 icw4 => { c with stage := lastStage icw4 }
  | .icw4 => { c with stage := .ready }
  | .ready => { c with imr := v }

/-- What the command port reads. -/
def readCmd (c : Chip) : BitVec 8 := if c.readIsr then c.isr else c.irr

end Chip

/-! ### Two controllers and the devices -/

/-- What a device does with its line. -/
inductive Line where
  | rise (irq : ℕ)
  | fall (irq : ℕ)
deriving DecidableEq, Repr

/-- The two controllers, and what the devices do before each of the next accesses to a port. -/
structure Pics where
  master : Chip
  slave : Chip
  lines : List (List Line)
deriving DecidableEq, Repr

/-- An input gets a request, or its request goes away. -/
def Chip.line (c : Chip) (i : ℕ) (up : Bool) : Chip :=
  { c with irr := if up then c.irr ||| inputBit i else c.irr &&& ~~~inputBit i }

namespace Pics

/-- The line of IRQ `n` changes. -/
def setLine (s : Pics) (n : ℕ) (up : Bool) : Pics :=
  if n < 8 then { s with master := s.master.line n up }
  else { s with slave := s.slave.line (n - 8) up }

/-- One thing that a device does. -/
def device (s : Pics) : Line → Pics
  | .rise n => s.setLine n true
  | .fall n => s.setLine n false

/-- What the devices do, one thing after the other. -/
def devices (s : Pics) (l : List Line) : Pics := l.foldl device s

/-- What the devices do before the next access. -/
def tick (s : Pics) : Pics :=
  match s.lines with
  | l :: ls => { s.devices l with lines := ls }
  | [] => s

/-- The request that the slave hands to the master, if any. -/
def slaveRequest (s : Pics) : Option ℕ := s.slave.accepts s.slave.irr

/-- The requests at the inputs of the master: input 2 is the slave. -/
def masterRequests (s : Pics) : BitVec 8 :=
  if s.slaveRequest.isSome then s.master.irr ||| inputBit 2 else s.master.irr &&& ~~~inputBit 2

/-- The request that the master hands to the processor, if any. -/
def request (s : Pics) : Option ℕ := s.master.accepts s.masterRequests

end Pics

/-! ### The functions of the driver -/

def PICM_CMD : ℕ := 0x20
def PICM_DATA : ℕ := 0x21
def PICS_CMD : ℕ := 0xA0
def PICS_DATA : ℕ := 0xA1

/-- End-of-interrupt command code. -/
def PIC_EOI : BitVec 8 := 0x20
/-- OCW3 irq service next CMD read. -/
def PIC_READ_ISR : BitVec 8 := 0x0b

/-- Write a byte to a port of the controllers. -/
def outb (port : ℕ) (v : BitVec 8) (s : Pics) : Pics :=
  let s := s.tick
  if port = PICM_CMD then { s with master := s.master.writeCmd v }
  else if port = PICM_DATA then { s with master := s.master.writeData v }
  else if port = PICS_CMD then { s with slave := s.slave.writeCmd v }
  else if port = PICS_DATA then { s with slave := s.slave.writeData v }
  else s

/-- Read a byte from a port of the controllers. -/
def inb (port : ℕ) (s : Pics) : BitVec 8 × Pics :=
  let s := s.tick
  (if port = PICM_CMD then s.master.readCmd
    else if port = PICM_DATA then s.master.imr
    else if port = PICS_CMD then s.slave.readCmd
    else if port = PICS_DATA then s.slave.imr
    else 0xFF, s)

/-- Initialize PIC. -/
def picInit (s : Pics) : Pics :=
  -- ICW1: we're initializing, and we'll send ICW4
  let s := outb PICM_CMD 0x11 s
  let s := outb PICS_CMD 0x11 s
  -- ICW2: IRQs 0 to 7 are interrupts 32 to 39, and IRQs 8 to 15 are interrupts 40 to 47
  let s := outb PICM_DATA 0x20 s
  let s := outb PICS_DATA 0x28 s
  -- ICW3: the slave is at IRQ 2
  let s := outb PICM_DATA 0x04 s
  let s := outb PICS_DATA 0x02 s
  -- ICW4: 80x86 mode
  let s := outb PICM_DATA 0x01 s
  outb PICS_DATA 0x01 s

/-- Enable PIC. -/
def picEnable (irqMask : BitVec 16) (s : Pics) : Pics :=
  let irqMask := ~~~irqMask
  let irqM := irqMask.extractLsb' 0 8
  let irqS := irqMask.extractLsb' 8 8
  let s := outb PICS_DATA irqS s
  outb PICM_DATA irqM s

/-- Disable PIC. -/
def picDisable (s : Pics) : Pics :=
  let s := outb PICS_DATA 0xFF s
  outb PICM_DATA 0xFF s

/-- Read data from PIC: the byte of the slave above that of the master. -/
def picReadOcw3 (ocw3 : BitVec 8) (s : Pics) : BitVec 16 × Pics :=
  let s := outb PICM_CMD ocw3 s
  let s := outb PICS_CMD ocw3 s
  let (hi, s) := inb PICS_CMD s
  let (lo, s) := inb PICM_CMD s
  (hi ++ lo, s)

/-- Send End-of-interrupt to PIC. -/
def picEoi (irq : ℕ) (s : Pics) : Pics :=
  let s := if 8 ≤ irq then outb PICS_CMD PIC_EOI s else s
  outb PICM_CMD PIC_EOI s

/-! ### One controller -/

section chip

variable {c : Chip} {v r : BitVec 8} {i j : ℕ}

theorem getLsbD_inputBit : (inputBit i).getLsbD j = (decide (i < 8) && decide (j = i)) := by
  unfold inputBit
  rw [BitVec.getLsbD_twoPow]
  grind

theorem clearUpTo_iff : clearUpTo v i = true ↔ ∀ j ≤ i, v.getLsbD j = false := by
  simp [clearUpTo]

theorem highest_eq_some :
    highest v = some i ↔ i < 8 ∧ v.getLsbD i = true ∧ ∀ j < i, v.getLsbD j = false := by
  unfold highest
  rw [List.find?_range_eq_some]
  simp only [List.mem_range, Bool.not_eq_true', and_left_comm]

theorem highest_eq_none : highest v = none ↔ ∀ i < 8, v.getLsbD i = false := by
  simp [highest]

/-- An input above all of `v` has the highest priority. -/
theorem highest_or (hi : i < 8) (h : clearUpTo v i = true) : highest (v ||| inputBit i) = some i := by
  rw [clearUpTo_iff] at h
  refine highest_eq_some.mpr ⟨hi, by simp [getLsbD_inputBit, hi], fun j hj => ?_⟩
  have hne : j ≠ i := by omega
  simp [getLsbD_inputBit, h j hj.le, hne]

/-- **The end of interrupt undoes the acknowledgement**, whatever else is in service. -/
theorem clearHighest_or (hi : i < 8) (h : clearUpTo v i = true) :
    clearHighest (v ||| inputBit i) = v := by
  unfold clearHighest
  rw [highest_or hi h]
  have hbit := clearUpTo_iff.mp h i le_rfl
  apply BitVec.eq_of_getLsbD_eq
  intro j hj
  simp only [BitVec.getLsbD_and, BitVec.getLsbD_or, BitVec.getLsbD_not, getLsbD_inputBit]
  by_cases hji : j = i
  · subst hji
    rw [hbit]
    simp [hj]
  · simp [hj, hji]

theorem Chip.accepts_eq_some : c.accepts r = some i ↔
    highest (r &&& ~~~c.imr) = some i ∧ clearUpTo c.isr i = true := by
  unfold Chip.accepts
  cases highest (r &&& ~~~c.imr) with
  | none => simp
  | some j => grind

theorem Chip.accepts_lt (h : c.accepts r = some i) : i < 8 :=
  (highest_eq_some.mp (Chip.accepts_eq_some.mp h).1).1

end chip

/-! ### What the devices leave

They change the requests only. -/

/-- The controller without the requests at its inputs. -/
def Chip.core (c : Chip) : Chip := { c with irr := 0 }

namespace Pics

/-- The controllers without the requests at their inputs. -/
def core (s : Pics) : Chip × Chip := (s.master.core, s.slave.core)

theorem device_core (s : Pics) (l : Line) : (s.device l).core = s.core := by
  cases l <;> simp only [device, setLine] <;> split <;> rfl

theorem devices_core (s : Pics) (l : List Line) : (s.devices l).core = s.core := by
  induction l generalizing s with
  | nil => rfl
  | cons e l ih => exact (ih (s.device e)).trans (s.device_core e)

theorem tick_core (s : Pics) : s.tick.core = s.core := by
  unfold tick
  split
  · exact s.devices_core _
  · rfl

end Pics

/-! ### What the functions of the driver leave -/

section driver

variable {s : Pics} {v : BitVec 8}

theorem Chip.writeCmd_core (c : Chip) : (c.writeCmd v).core = (c.core.writeCmd v).core := by
  unfold writeCmd eoi core
  split_ifs <;> rfl

theorem Chip.writeData_core (c : Chip) : (c.writeData v).core = (c.core.writeData v).core := by
  cases h : c.stage <;> simp [writeData, core, h]

theorem outb_masterCmd : (outb PICM_CMD v s).core = ((s.core.1.writeCmd v).core, s.core.2) := by
  rw [← s.tick_core]
  exact congrArg (·, s.tick.slave.core) (Chip.writeCmd_core _)

theorem outb_masterData : (outb PICM_DATA v s).core = ((s.core.1.writeData v).core, s.core.2) := by
  rw [← s.tick_core]
  exact congrArg (·, s.tick.slave.core) (Chip.writeData_core _)

theorem outb_slaveCmd : (outb PICS_CMD v s).core = (s.core.1, (s.core.2.writeCmd v).core) := by
  rw [← s.tick_core]
  exact congrArg (s.tick.master.core, ·) (Chip.writeCmd_core _)

theorem outb_slaveData : (outb PICS_DATA v s).core = (s.core.1, (s.core.2.writeData v).core) := by
  rw [← s.tick_core]
  exact congrArg (s.tick.master.core, ·) (Chip.writeData_core _)

theorem inb_core (port : ℕ) : (inb port s).2.core = s.core := s.tick_core

theorem Chip.readCmd_core {c : Chip} (h : c.core.readIsr = true) : c.readCmd = c.core.isr := if_pos h

theorem inb_masterCmd (h : s.core.1.readIsr = true) : (inb PICM_CMD s).1 = s.core.1.isr := by
  rw [← s.tick_core] at h ⊢
  exact Chip.readCmd_core h

theorem inb_slaveCmd (h : s.core.2.readIsr = true) : (inb PICS_CMD s).1 = s.core.2.isr := by
  rw [← s.tick_core] at h ⊢
  exact Chip.readCmd_core h

/-- A controller that is initialized, with vectors from `base` on. -/
def Chip.configured (imr isr : BitVec 8) (base : ℕ) (readIsr : Bool) : Chip :=
  ⟨imr, 0, isr, base, .ready, readIsr⟩

/-- **Initialization**, from any state. -/
theorem picInit_core : (picInit s).core =
    (.configured 0 s.master.isr 32 false, .configured 0 s.slave.isr 40 false) := by
  unfold picInit
  simp only [outb_masterCmd, outb_masterData, outb_slaveCmd, outb_slaveData]
  rfl

/-- The mask of `pic_enable` has a bit for each IRQ that is let through. -/
theorem picEnable_core {m₀ m₁ isr₀ isr₁ : BitVec 8} {b₀ b₁ : ℕ} {r₀ r₁ : Bool} (mask : BitVec 16)
    (h : s.core = (.configured m₀ isr₀ b₀ r₀, .configured m₁ isr₁ b₁ r₁)) :
    (picEnable mask s).core = (.configured ((~~~mask).extractLsb' 0 8) isr₀ b₀ r₀,
      .configured ((~~~mask).extractLsb' 8 8) isr₁ b₁ r₁) := by
  unfold picEnable
  simp only [outb_masterData, outb_slaveData, h]
  rfl

theorem picDisable_core {m₀ m₁ isr₀ isr₁ : BitVec 8} {b₀ b₁ : ℕ} {r₀ r₁ : Bool}
    (h : s.core = (.configured m₀ isr₀ b₀ r₀, .configured m₁ isr₁ b₁ r₁)) :
    (picDisable s).core = (.configured 0xFF isr₀ b₀ r₀, .configured 0xFF isr₁ b₁ r₁) := by
  unfold picDisable
  simp only [outb_masterData, outb_slaveData, h]
  rfl

/-- The in-service registers, that of the slave above that of the master. -/
theorem picReadOcw3_isr {m₀ m₁ isr₀ isr₁ : BitVec 8} {b₀ b₁ : ℕ} {r₀ r₁ : Bool}
    (h : s.core = (.configured m₀ isr₀ b₀ r₀, .configured m₁ isr₁ b₁ r₁)) :
    (picReadOcw3 PIC_READ_ISR s).1 = isr₁ ++ isr₀ ∧ (picReadOcw3 PIC_READ_ISR s).2.core =
      (.configured m₀ isr₀ b₀ true, .configured m₁ isr₁ b₁ true) := by
  have hout : (outb PICS_CMD PIC_READ_ISR (outb PICM_CMD PIC_READ_ISR s)).core =
      (.configured m₀ isr₀ b₀ true, .configured m₁ isr₁ b₁ true) := by
    rw [outb_slaveCmd, outb_masterCmd, h]
    rfl
  have hin := (inb_core PICS_CMD).trans hout
  have hhi := inb_slaveCmd (congrArg (fun p => p.2.readIsr) hout)
  have hlo := inb_masterCmd (congrArg (fun p => p.1.readIsr) hin)
  rw [hout] at hhi
  rw [hin] at hlo
  exact ⟨congrArg₂ (· ++ ·) hhi hlo, (inb_core PICM_CMD).trans hin⟩

/-- The end of interrupt, to the slave as well for the IRQs from 8 on. -/
theorem picEoi_core (irq : ℕ) : (picEoi irq s).core =
    (s.core.1.eoi.core, if 8 ≤ irq then s.core.2.eoi.core else s.core.2) := by
  unfold picEoi
  split_ifs
  · simp only [outb_masterCmd, outb_slaveCmd]
    rfl
  · rw [outb_masterCmd]
    rfl

end driver

end Dawos.Pic
