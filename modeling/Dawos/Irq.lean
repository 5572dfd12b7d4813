import Dawos.Pic

/-! # Hardware interrupts

`irq_wrapper` of `boot/bios/bbp/loader/interrupts.c` handles the interrupts of the two controllers: it
reads which ones are in service, calls the handler that is registered, and sends the end of interrupt
if the one it was called for is in service.

An interrupt is taken in between the instructions of the program, and a device may take its request
back at any moment before a controller is asked for the vector; the controller then answers with the
vector of its input 7, and has no interrupt in service for it.  `step` has the moments at which the
lines can change as arguments.

`Between` is the invariant between interrupts.  The slave never has an interrupt in service, and the
master has none either, until the slave answers in this way for the first time (`lostSlave`): then
input 2 of the master stays in service for good, since `irq_wrapper` sends no end of interrupt. -/

namespace Dawos.Pic

/-! ### The wrapper -/

/-- A request handler; the result is whether the interrupt is left unhandled. -/
abbrev Handler (σ : Type) : Type := σ → σ × Bool

/-- What `irq_wrapper` has done: called the handler of an IRQ, found it left unhandled, found no
handler. -/
inductive Report where
  | called (irq : ℕ)
  | unhandled (irq : ℕ)
  | noHandler (irq : ℕ)
deriving DecidableEq, Repr

/-- The IRQ that a report is about. -/
def Report.irq : Report → ℕ
  | .called n => n
  | .unhandled n => n
  | .noHandler n => n

/-- The controllers, `irq_handlers`, what the handlers work on, whether interrupts are enabled
(`_int_enabled`, and the flag of the processor), and what has been reported. -/
structure System (σ : Type) where
  pics : Pics
  handlers : ℕ → Option (Handler σ)
  soft : σ
  intEnabled : Bool
  iflag : Bool
  log : List Report

variable {σ : Type}

/-- Call the handler, during which the devices go on. -/
def callHandler (irqNo : ℕ) (s : System σ) : System σ :=
  match s.handlers irqNo with
  | some handler =>
      let (soft, unhandled) := handler s.soft
      { s with
        pics := s.pics.tick
        soft := soft
        log := s.log ++ .called irqNo :: if unhandled then [.unhandled irqNo] else [] }
  | none => { s with pics := s.pics.tick, log := s.log ++ [.noHandler irqNo] }

/-- Tell PIC that it's done, if the IRQ is in service. -/
def finish (isr : BitVec 16) (irqNo : ℕ) (s : System σ) : System σ :=
  if isr.getLsbD irqNo then { s with pics := picEoi irqNo s.pics } else s

def irqWrapper (irqNo : ℕ) (s : System σ) : System σ :=
  let isr := picReadOcw3 PIC_READ_ISR s.pics
  let s := { s with pics := isr.2 }
  -- Cascaded IRQ
  if irqNo = 2 then finish isr.1 irqNo s
  else finish isr.1 irqNo (callHandler irqNo s)

/-- Register an interrupt request handler. -/
def interruptRegIrqHandler (irqNo : ℕ) (handler : Handler σ) (s : System σ) : System σ :=
  if irqNo < 16 then { s with handlers := Function.update s.handlers irqNo (some handler) } else s

def interruptDisable (s : System σ) : System σ :=
  if s.intEnabled then { s with iflag := false, intEnabled := false } else s

def interruptEnable (s : System σ) : System σ :=
  if s.intEnabled then s else { s with iflag := true, intEnabled := true }

/-! ### The processor -/

/-- The master puts the slave into service. -/
def Pics.cascade (p : Pics) : Pics := { p with master := p.master.acknowledge 2 }

/-- The controllers are asked for the vector: the master first, and the slave if the request is that
of input 2.  `late` is what the devices do in between. -/
def intAck (late : List Line) (p : Pics) : ℕ × Pics :=
  match p.request with
  | none => (p.master.base + 7, p)
  | some 2 =>
      let p := p.cascade.devices late
      match p.slaveRequest with
      | none => (p.slave.base + 7, p)
      | some i => (p.slave.base + i, { p with slave := p.slave.acknowledge i })
  | some i => (p.master.base + i, { p with master := p.master.acknowledge i })

/-- The IRQ of a vector, as the routine behind its gate pushes it. -/
def irqOfVector (v : ℕ) : Option ℕ := if 32 ≤ v ∧ v < 48 then some (v - 32) else none

/-- What can happen between two instructions of the program. -/
inductive Event (σ : Type) where
  /-- A device changes its line. -/
  | line (l : Line)
  /-- The processor looks for an interrupt.  The devices change their lines before the master is
  asked for the vector, before the slave is, and while `irq_wrapper` runs. -/
  | interrupt (late : List Line) (later : List Line) (during : List (List Line))
  /-- The program calls `interrupt_reg_irq_handler`. -/
  | register (irqNo : ℕ) (handler : Handler σ)
  /-- It calls `pic_enable`, and devices change their lines. -/
  | enable (mask : BitVec 16) (during : List (List Line))
  /-- It calls `pic_disable`, and devices change their lines. -/
  | disable (during : List (List Line))
  /-- It calls `interrupt_enable` or `interrupt_disable`. -/
  | interrupts (on : Bool)
  /-- It works on the data of the handlers. -/
  | work (f : σ → σ)

/-- Let the devices do `during` before the next accesses. -/
def Pics.withLines (p : Pics) (during : List (List Line)) : Pics := { p with lines := during }

/-- The processor takes an interrupt, if there is one.  None: the gate is not that of an IRQ. -/
def takeInterrupt (late later : List Line) (during : List (List Line)) (s : System σ) :
    Option (System σ) :=
  if s.iflag = true ∧ s.pics.request.isSome then
    let (vector, pics) := intAck later (s.pics.devices late)
    (irqOfVector vector).map fun irqNo => irqWrapper irqNo { s with pics := pics.withLines during }
  else some s

/-- One event. -/
def step (s : System σ) : Event σ → Option (System σ)
  | .line l => some { s with pics := s.pics.device l }
  | .interrupt late later during => takeInterrupt late later during s
  | .register irqNo handler => some (interruptRegIrqHandler irqNo handler s)
  | .enable mask during => some { s with pics := picEnable mask (s.pics.withLines during) }
  | .disable during => some { s with pics := picDisable (s.pics.withLines during) }
  | .interrupts on => some (if on then interruptEnable s else interruptDisable s)
  | .work f => some { s with soft := f s.soft }

/-- A sequence of events. -/
def run (s : System σ) : List (Event σ) → Option (System σ)
  | [] => some s
  | e :: es => (step s e).bind fun s' => run s' es

/-! ### Interrupts that are lost -/

/-- The slave answers for a request that its device has taken back, after the master has put input 2
into service. -/
def slaveLost (later : List Line) (p : Pics) : Bool :=
  p.request = some 2 ∧ (p.cascade.devices later).slaveRequest = none

/-- IRQ `n` is the one that the controllers answer for: the input that the master accepts, that of the
slave if it is input 2, or the last input of the controller whose request is gone. -/
inductive Answers (later : List Line) (p : Pics) : ℕ → Prop
  | master {i : ℕ} (h : p.request = some i) (hi : i ≠ 2) : Answers later p i
  | slave {i : ℕ} (h : p.request = some 2)
      (hs : (p.cascade.devices later).slaveRequest = some i) : Answers later p (8 + i)
  | masterGone (h : p.request = none) : Answers later p 7
  | slaveGone (h : slaveLost later p = true) : Answers later p 15

/-- In this event. -/
def lostBy (s : System σ) : Event σ → Bool
  | .interrupt late later _ => s.iflag && s.pics.request.isSome && slaveLost later (s.pics.devices late)
  | _ => false

/-- In a sequence of events. -/
def lostSlave (s : System σ) : List (Event σ) → Bool
  | [] => false
  | e :: es => lostBy s e || match step s e with
    | some s' => lostSlave s' es
    | none => false

/-! ### The wrapper, on the controllers -/

/-- What is in service in the master between interrupts. -/
def stuck (lost : Bool) : BitVec 8 := if lost then inputBit 2 else 0

/-- Between interrupts. -/
def Between (lost : Bool) (p : Pics) : Prop :=
  ∃ m₀ m₁ r₀ r₁, p.core = (.configured m₀ (stuck lost) 32 r₀, .configured m₁ 0 40 r₁)

section wrapper

variable {s : System σ} {p : Pics} {m₀ m₁ i₀ i₁ : BitVec 8} {r₀ r₁ lost : Bool} {n i : ℕ}

theorem callHandler_core : (callHandler n s).pics.core = s.pics.core := by
  unfold callHandler
  split <;> exact s.pics.tick_core

theorem finish_core (isr : BitVec 16) : (finish isr n s).pics.core =
    if isr.getLsbD n then
      (s.pics.core.1.eoi.core, if 8 ≤ n then s.pics.core.2.eoi.core else s.pics.core.2)
    else s.pics.core := by
  unfold finish
  by_cases h : isr.getLsbD n = true
  · rw [if_pos h, if_pos h]
    exact picEoi_core n
  · rw [if_neg h, if_neg h]

/-- It sends the end of interrupt if the IRQ is in service. -/
theorem irqWrapper_core
    (h : s.pics.core = (.configured m₀ i₀ 32 r₀, .configured m₁ i₁ 40 r₁)) :
    (irqWrapper n s).pics.core =
      if (i₁ ++ i₀).getLsbD n then
        (.configured m₀ (clearHighest i₀) 32 true,
          .configured m₁ (if 8 ≤ n then clearHighest i₁ else i₁) 40 true)
      else (.configured m₀ i₀ 32 true, .configured m₁ i₁ 40 true) := by
  obtain ⟨hisr, hcore⟩ := picReadOcw3_isr h
  have hfinish : ∀ s' : System σ, s'.pics.core = (picReadOcw3 PIC_READ_ISR s.pics).2.core →
      (finish (picReadOcw3 PIC_READ_ISR s.pics).1 n s').pics.core =
        if (i₁ ++ i₀).getLsbD n then
          (.configured m₀ (clearHighest i₀) 32 true,
            .configured m₁ (if 8 ≤ n then clearHighest i₁ else i₁) 40 true)
        else (.configured m₀ i₀ 32 true, .configured m₁ i₁ 40 true) := by
    intro s' hs'
    rw [finish_core, hs', hcore, hisr]
    split_ifs <;> rfl
  unfold irqWrapper
  by_cases hn : n = 2
  · simp only [if_pos hn]
    exact hfinish _ rfl
  · simp only [if_neg hn]
    exact hfinish _ callHandler_core

theorem callHandler_pics (p : Pics) :
    (callHandler n { s with pics := p }).soft = (callHandler n s).soft ∧
      (callHandler n { s with pics := p }).log = (callHandler n s).log := by
  unfold callHandler
  cases s.handlers n <;> exact ⟨rfl, rfl⟩

/-- Of an IRQ other than the cascade it calls the handler. -/
theorem irqWrapper_calls (h : n ≠ 2) : (irqWrapper n s).soft = (callHandler n s).soft ∧
    (irqWrapper n s).log = (callHandler n s).log := by
  unfold irqWrapper finish callHandler
  rw [if_neg h]
  split_ifs <;> cases s.handlers n <;> exact ⟨rfl, rfl⟩

end wrapper

/-! ### Taking an interrupt -/

section take

variable {s : System σ} {p p' : Pics} {m₀ m₁ i₀ i₁ : BitVec 8} {r₀ r₁ lost : Bool} {n i : ℕ}
  {later : List Line}

theorem getLsbD_inService : (i₁ ++ i₀).getLsbD n =
    if n < 8 then i₀.getLsbD n else i₁.getLsbD (n - 8) := BitVec.getLsbD_append

theorem stuck_clear (h : clearUpTo (stuck lost) 2 = true) : lost = false := by
  cases lost with
  | false => rfl
  | true => exact absurd h (by decide)

/-- The controllers with the interrupts in service, and IRQ `n` on its way to `irq_wrapper`, which
leaves them as they are between interrupts. -/
def Taken (lost : Bool) (n : ℕ) (p : Pics) : Prop :=
  ∃ m₀ m₁ i₀ i₁ r₀ r₁, p.core = (.configured m₀ i₀ 32 r₀, .configured m₁ i₁ 40 r₁) ∧
    if (i₁ ++ i₀).getLsbD n then
      clearHighest i₀ = stuck lost ∧ (if 8 ≤ n then clearHighest i₁ else i₁) = 0
    else i₀ = stuck lost ∧ i₁ = 0

theorem Taken.wrapper (h : Taken lost n s.pics) : Between lost (irqWrapper n s).pics := by
  obtain ⟨m₀, m₁, i₀, i₁, r₀, r₁, hcore, hisr⟩ := h
  refine ⟨m₀, m₁, true, true, ?_⟩
  rw [irqWrapper_core hcore]
  split_ifs at hisr ⊢
  all_goals obtain ⟨h₀, h₁⟩ := hisr; rw [h₀, h₁]

theorem Between.devices (h : Between lost p) (l : List Line) : Between lost (p.devices l) := by
  unfold Between at h ⊢
  rwa [p.devices_core]

theorem Chip.acknowledge_core (c : Chip) :
    (c.acknowledge i).core = { c.core with isr := c.core.isr ||| inputBit i } := rfl

theorem intAck_none (hreq : p.request = none) : intAck later p = (p.master.base + 7, p) := by
  simp [intAck, hreq]

theorem intAck_direct (hreq : p.request = some i) (hi : i ≠ 2) : intAck later p =
    (p.master.base + i, { p with master := p.master.acknowledge i }) := by
  simp [intAck, hreq]

theorem intAck_cascade (hreq : p.request = some 2) (hp' : p' = (p.cascade).devices later) :
    intAck later p = match p'.slaveRequest with
      | none => (p'.slave.base + 7, p')
      | some i => (p'.slave.base + i, { p' with slave := p'.slave.acknowledge i }) := by
  subst hp'
  simp [intAck, hreq]

/-- **The vector** is that of the IRQ that is answered for, and the controllers are ready for the
wrapper. -/
theorem Between.vector (h : Between lost p) (later : List Line) : ∃ n < 16,
    (intAck later p).1 = 32 + n ∧ Answers later p n ∧
      Taken (lost || slaveLost later p) n (intAck later p).2 := by
  obtain ⟨m₀, m₁, r₀, r₁, hcore⟩ := h
  obtain ⟨hm, hs⟩ := Prod.mk.inj hcore
  have hbase : p.master.base = 32 := congrArg Chip.base hm
  have hisr : p.master.isr = stuck lost := congrArg Chip.isr hm
  cases hreq : p.request with
  | none =>
      -- the master answers for a request that is gone
      have hlost : slaveLost later p = false := by simp [slaveLost, hreq]
      refine ⟨7, by omega, by rw [intAck_none hreq, hbase], .masterGone hreq, ?_⟩
      rw [intAck_none hreq, hlost, Bool.or_false]
      refine ⟨m₀, m₁, _, _, r₀, r₁, hcore, ?_⟩
      have hclear : ((0 : BitVec 8) ++ stuck lost).getLsbD 7 = false := by cases lost <;> decide
      rw [if_neg (by rw [hclear]; exact Bool.false_ne_true)]
      exact ⟨rfl, rfl⟩
  | some i =>
      have hi := Chip.accepts_lt hreq
      have hclear := (Chip.accepts_eq_some.mp hreq).2
      rw [hisr] at hclear
      by_cases hi2 : i = 2
      · -- the slave is asked, with input 2 of the master in service
        subst hi2
        obtain rfl := stuck_clear hclear
        obtain ⟨p', hp'⟩ : ∃ p', p' = p.cascade.devices later := ⟨_, rfl⟩
        have hcore' : p'.core =
            (.configured m₀ (inputBit 2) 32 r₀, .configured m₁ 0 40 r₁) := by
          rw [hp', Pics.devices_core, Pics.core, Pics.cascade, Chip.acknowledge_core, hm, hs]
          simp [Chip.configured, stuck]
        obtain ⟨hm', hs'⟩ := Prod.mk.inj hcore'
        have hbase' : p'.slave.base = 40 := congrArg Chip.base hs'
        rw [intAck_cascade hreq hp', Bool.false_or]
        cases hslave : p'.slaveRequest with
        | none =>
            -- the slave answers for a request that is gone
            have hlost : slaveLost later p = true := by simp [slaveLost, hreq, ← hp', hslave]
            refine ⟨15, by omega, by simp only [hbase'], .slaveGone hlost,
              m₀, m₁, _, _, r₀, r₁, hcore', ?_⟩
            rw [hlost, if_neg (by decide)]
            exact ⟨rfl, rfl⟩
        | some j =>
            have hlost : slaveLost later p = false := by simp [slaveLost, hreq, ← hp', hslave]
            have hj := Chip.accepts_lt hslave
            refine ⟨8 + j, by omega, by simp only [hbase']; omega, .slave hreq (hp' ▸ hslave),
              m₀, m₁, inputBit 2, 0 ||| inputBit j, r₀, r₁, ?_, ?_⟩
            · rw [Pics.core, Chip.acknowledge_core, hm', hs']
              rfl
            · have hbit : ((0 ||| inputBit j) ++ inputBit 2 : BitVec (8 + 8)).getLsbD (8 + j) = true := by
                rw [getLsbD_inService, if_neg (by omega), Nat.add_sub_cancel_left, BitVec.getLsbD_or,
                  getLsbD_inputBit]
                simp [hj]
              rw [if_pos hbit, hlost, if_pos (by omega)]
              exact ⟨by decide,
                clearHighest_or hj (clearUpTo_iff.mpr fun _ _ => BitVec.getLsbD_zero)⟩
      · have hlost : slaveLost later p = false := by simp [slaveLost, hreq, hi2]
        refine ⟨i, by omega, by rw [intAck_direct hreq hi2, hbase], .master hreq hi2, ?_⟩
        rw [intAck_direct hreq hi2, hlost, Bool.or_false]
        refine ⟨m₀, m₁, stuck lost ||| inputBit i, 0, r₀, r₁, ?_, ?_⟩
        · rw [Pics.core, Chip.acknowledge_core, hm, hs]
          rfl
        · have hbit : ((0 : BitVec 8) ++ (stuck lost ||| inputBit i)).getLsbD i = true := by
            rw [getLsbD_inService, if_pos hi, BitVec.getLsbD_or, getLsbD_inputBit]
            simp [hi]
          rw [if_pos hbit, if_neg (by omega)]
          exact ⟨clearHighest_or hi hclear, rfl⟩

end take

/-! ### Runs -/

section runs

variable {s s' : System σ} {p : Pics} {lost : Bool} {n k : ℕ} {mask : BitVec 16}

/-- **One event** keeps the controllers as they are between interrupts. -/
theorem Between.step (h : Between lost s.pics) (e : Event σ) :
    ∃ s', Pic.step s e = some s' ∧ Between (lost || lostBy s e) s'.pics := by
  cases e with
  | line l =>
      refine ⟨_, rfl, ?_⟩
      simp only [lostBy, Bool.or_false]
      exact h.devices [l]
  | interrupt late later during =>
      by_cases hreq : s.iflag = true ∧ s.pics.request.isSome
      · obtain ⟨n, hn, hvec, -, htaken⟩ := (h.devices late).vector later
        have hirq : irqOfVector (32 + n) = some n := by
          rw [irqOfVector, if_pos (by omega), Nat.add_sub_cancel_left]
        have hlost : lostBy s (.interrupt late later during) =
            slaveLost later (s.pics.devices late) := by simp [lostBy, hreq]
        refine ⟨irqWrapper n { s with
          pics := (intAck later (s.pics.devices late)).2.withLines during }, ?_, ?_⟩
        · simp only [Pic.step, takeInterrupt, if_pos hreq, hvec, hirq, Option.map_some]
        · rw [hlost]
          exact Taken.wrapper htaken
      · refine ⟨s, if_neg hreq, ?_⟩
        have hlost : lostBy s (.interrupt late later during) = false := by
          simp only [lostBy]
          grind
        rwa [hlost, Bool.or_false]
  | register irqNo handler =>
      refine ⟨_, rfl, ?_⟩
      unfold interruptRegIrqHandler
      split_ifs <;> simpa [lostBy] using h
  | enable mask during =>
      obtain ⟨m₀, m₁, r₀, r₁, hcore⟩ := h
      exact ⟨_, rfl, _, _, r₀, r₁, by
        simpa [lostBy] using picEnable_core (s := s.pics.withLines during) mask hcore⟩
  | disable during =>
      obtain ⟨m₀, m₁, r₀, r₁, hcore⟩ := h
      exact ⟨_, rfl, _, _, r₀, r₁, by
        simpa [lostBy] using picDisable_core (s := s.pics.withLines during) hcore⟩
  | interrupts on =>
      refine ⟨_, rfl, ?_⟩
      unfold interruptEnable interruptDisable
      split_ifs <;> simpa [lostBy] using h
  | work f => exact ⟨_, rfl, by simpa [lostBy] using h⟩

/-- **A run.** -/
theorem Between.run (h : Between lost s.pics) (es : List (Event σ)) :
    ∃ s', Pic.run s es = some s' ∧ Between (lost || lostSlave s es) s'.pics := by
  induction es generalizing s lost with
  | nil => exact ⟨s, rfl, by simpa [lostSlave] using h⟩
  | cons e es ih =>
      obtain ⟨s₁, e₁, h₁⟩ := h.step e
      obtain ⟨s₂, e₂, h₂⟩ := ih h₁
      refine ⟨s₂, by rw [Pic.run, e₁]; exact e₂, ?_⟩
      rw [lostSlave, e₁, ← Bool.or_assoc]
      exact h₂

/-- The controllers as `main64` sets them up. -/
def setUp (mask : BitVec 16) (p : Pics) : Pics := picEnable mask (picInit p)

theorem setUp_between (h₀ : p.master.isr = 0) (h₁ : p.slave.isr = 0) :
    Between false (setUp mask p) := by
  have hinit := picInit_core (s := p)
  rw [h₀, h₁] at hinit
  exact ⟨_, _, _, _, picEnable_core mask hinit⟩

/-- A system whose program counts the interrupts of the disk, IRQ 14. -/
def diskSystem : System ℕ where
  pics := setUp 0xFFFF ⟨⟨0, 0, 0, 8, .ready, false⟩, ⟨0, 0, 0, 0x70, .ready, false⟩, []⟩
  handlers n := if n = 14 then some fun count => (count + 1, false) else none
  soft := 0
  intEnabled := true
  iflag := true
  log := []

/-- The disk takes its request back while the slave is put into service. -/
def lateDisk : List (Event ℕ) := [.line (.rise 14), .interrupt [] [.fall 14] []]

/-- **Every interrupt is taken out of service** by the wrapper, until the slave is put into service
for a request that is gone; from then on input 2 of the master stays in service. -/
theorem inService_run (hp : s.pics = setUp mask p) (h₀ : p.master.isr = 0) (h₁ : p.slave.isr = 0)
    (es : List (Event σ)) : ∃ s', run s es = some s' ∧ s'.pics.slave.isr = 0 ∧
      s'.pics.master.isr = if lostSlave s es then inputBit 2 else 0 := by
  have hs : Between false s.pics := hp ▸ setUp_between h₀ h₁
  obtain ⟨s', hrun, m₀, m₁, r₀, r₁, hcore⟩ := hs.run es
  obtain ⟨hm, hsl⟩ := Prod.mk.inj hcore
  exact ⟨s', hrun, congrArg Chip.isr hsl, congrArg Chip.isr hm⟩

theorem inService_run_lateDisk : lostSlave diskSystem lateDisk = true ∧ ∃ s',
    run diskSystem lateDisk = some s' ∧ s'.pics.slave.isr = 0 ∧
      s'.pics.master.isr = if lostSlave diskSystem lateDisk then inputBit 2 else 0 :=
  ⟨by decide, inService_run rfl rfl rfl lateDisk⟩

/-! ### Requests that are waiting -/

/-- A request that no mask holds back. -/
def Pending (p : Pics) (n : ℕ) : Prop :=
  if n < 8 then n ≠ 2 ∧ p.master.irr.getLsbD n = true ∧ p.master.imr.getLsbD n = false
  else p.slave.irr.getLsbD (n - 8) = true ∧ p.slave.imr.getLsbD (n - 8) = false ∧
    p.master.imr.getLsbD 2 = false

/-- The place of an IRQ in the order of priority: the slave has that of IRQ 2. -/
def rank (n : ℕ) : ℕ := if n < 2 then n else if 8 ≤ n then n - 6 else n + 7

theorem accepts_idle {c : Chip} {r : BitVec 8} (h : c.isr = 0) :
    c.accepts r = highest (r &&& ~~~c.imr) := by
  unfold Chip.accepts
  cases highest (r &&& ~~~c.imr) with
  | none => rfl
  | some i => simp [h, clearUpTo]

theorem getLsbD_masked (r m : BitVec 8) (i : ℕ) :
    (r &&& ~~~m).getLsbD i = (r.getLsbD i && !m.getLsbD i) := by
  rw [BitVec.getLsbD_and, BitVec.getLsbD_not]
  rcases Nat.lt_or_ge i 8 with h | h
  · simp [h]
  · simp [BitVec.getLsbD_of_ge r i h]

theorem getLsbD_masterRequests (i : ℕ) : p.masterRequests.getLsbD i =
    if i = 2 then p.slaveRequest.isSome else p.master.irr.getLsbD i := by
  unfold Pics.masterRequests
  split_ifs with h₁ h₂ h₂
  · subst h₂
    rw [h₁, BitVec.getLsbD_or, getLsbD_inputBit]
    simp
  · rw [BitVec.getLsbD_or, getLsbD_inputBit]
    simp [h₂]
  · subst h₂
    rw [getLsbD_masked, getLsbD_inputBit]
    simpa using h₁
  · rw [getLsbD_masked, getLsbD_inputBit]
    simp [h₂]

theorem slaveRequest_eq_some (h : p.slave.isr = 0) {i : ℕ} : p.slaveRequest = some i ↔
    i < 8 ∧ (p.slave.irr.getLsbD i = true ∧ p.slave.imr.getLsbD i = false) ∧
      ∀ j < i, p.slave.irr.getLsbD j = true → p.slave.imr.getLsbD j = true := by
  rw [Pics.slaveRequest, accepts_idle h, highest_eq_some]
  simp only [getLsbD_masked]
  grind

/-- The input of the master at which the request of an IRQ is. -/
def inputOf (n : ℕ) : ℕ := if n < 8 then n else 2

theorem Pending.request (h : p.slave.isr = 0) (hp : Pending p k) :
    (p.masterRequests &&& ~~~p.master.imr).getLsbD (inputOf k) = true := by
  rw [getLsbD_masked, getLsbD_masterRequests]
  unfold Pending at hp
  unfold inputOf
  by_cases hk : k < 8
  · rw [if_pos hk] at hp ⊢
    simp [hp]
  · rw [if_neg hk] at hp ⊢
    have hlt : k - 8 < 8 := BitVec.lt_of_getLsbD hp.1
    have hsome : p.slaveRequest.isSome = true := by
      rw [Pics.slaveRequest, accepts_idle h, Option.isSome_iff_ne_none, Ne, highest_eq_none]
      intro hall
      have hk' := hall (k - 8) hlt
      rw [getLsbD_masked, hp.1, hp.2.1] at hk'
      cases hk'
    rw [if_pos rfl, hsome, hp.2.2]
    rfl

/-- **A waiting request is served**, the one of the highest priority first. -/
theorem Between.pending (h : Between false p) (hp : Pending p k) :
    ∃ n < 16, Pending p n ∧ (∀ j, Pending p j → rank n ≤ rank j) ∧ p.request.isSome = true ∧
      (intAck [] p).1 = 32 + n := by
  obtain ⟨m₀, m₁, r₀, r₁, hcore⟩ := h
  obtain ⟨hm, hs⟩ := Prod.mk.inj hcore
  have hidle : p.master.isr = 0 := congrArg Chip.isr hm
  have hidle' : p.slave.isr = 0 := congrArg Chip.isr hs
  have hbase : p.master.base = 32 := congrArg Chip.base hm
  have hbase' : p.slave.base = 40 := congrArg Chip.base hs
  have hreq : p.request = highest (p.masterRequests &&& ~~~p.master.imr) := accepts_idle hidle
  cases hi : highest (p.masterRequests &&& ~~~p.master.imr) with
  | none =>
      have hbit := hp.request hidle'
      rw [highest_eq_none.mp hi _ (BitVec.lt_of_getLsbD hbit)] at hbit
      cases hbit
  | some i =>
      obtain ⟨hi8, hbit, hmin⟩ := highest_eq_some.mp hi
      rw [hi] at hreq
      -- no pending request is at an input above `i`
      have hle : ∀ j, Pending p j → i ≤ inputOf j := by
        intro j hj
        by_contra hc
        have := hmin _ (by omega : inputOf j < i)
        rw [hj.request hidle'] at this
        cases this
      rw [getLsbD_masked, getLsbD_masterRequests, Bool.and_eq_true, Bool.not_eq_true'] at hbit
      by_cases hi2 : i = 2
      · subst hi2
        rw [if_pos rfl, Option.isSome_iff_exists] at hbit
        obtain ⟨⟨j, hj⟩, hmask⟩ := hbit
        obtain ⟨hj8, hjbit, hjmin⟩ := (slaveRequest_eq_some hidle').mp hj
        have hj' : (p.cascade.devices []).slaveRequest = some j := hj
        have hpend : Pending p (8 + j) := by
          unfold Pending
          rw [if_neg (by omega), Nat.add_sub_cancel_left]
          exact ⟨hjbit.1, hjbit.2, hmask⟩
        refine ⟨8 + j, by omega, hpend, fun n hn => ?_, by rw [hreq]; rfl, ?_⟩
        · have hn2 := hle n hn
          unfold inputOf at hn2
          unfold Pending at hn
          unfold rank
          by_cases hn8 : n < 8
          · rw [if_pos hn8] at hn hn2
            have := hn.1
            split_ifs <;> omega
          · rw [if_neg hn8] at hn
            have : j ≤ n - 8 := by
              by_contra hc
              have := hjmin (n - 8) (by omega) hn.1
              rw [hn.2.1] at this
              cases this
            split_ifs <;> omega
        · rw [intAck_cascade hreq rfl, hj']
          show p.slave.base + j = 32 + (8 + j)
          omega
      · rw [if_neg hi2] at hbit
        have hpend : Pending p i := by
          unfold Pending
          rw [if_pos hi8]
          exact ⟨hi2, hbit⟩
        refine ⟨i, by omega, hpend, fun n hn => ?_, by rw [hreq]; rfl, ?_⟩
        · have hn2 := hle n hn
          unfold inputOf at hn2
          unfold rank
          split_ifs at hn2 ⊢ <;> omega
        · rw [intAck_direct hreq hi2]
          show p.master.base + i = 32 + i
          omega

/-- **No interrupt waits for good** while the slave has not been put into service for a request that
is gone: the next interrupt is the one of the highest priority, and its handler is called. -/
theorem served_run (hp : s.pics = setUp mask p) (h₀ : p.master.isr = 0) (h₁ : p.slave.isr = 0)
    {es : List (Event σ)} (hrun : run s es = some s') (hlost : lostSlave s es = false)
    (hif : s'.iflag = true) (hk : Pending s'.pics k) :
    ∃ n, Pending s'.pics n ∧ (∀ j, Pending s'.pics j → rank n ≤ rank j) ∧
      ∀ during, ∃ s'', step s' (.interrupt [] [] during) = some s'' ∧
        s''.soft = (callHandler n s').soft ∧ s''.log = (callHandler n s').log := by
  have hs : Between false s.pics := hp ▸ setUp_between h₀ h₁
  obtain ⟨s₁, hrun₁, hbetween⟩ := hs.run es
  obtain rfl := Option.some.inj (hrun.symm.trans hrun₁)
  rw [hlost, Bool.or_false] at hbetween
  obtain ⟨n, hn, hpend, hmin, hreq, hvec⟩ := hbetween.pending hk
  have hn2 : n ≠ 2 := by
    rintro rfl
    exact hpend.1 rfl
  have hirq : irqOfVector (intAck [] s'.pics).1 = some n := by
    rw [hvec, irqOfVector, if_pos (by omega), Nat.add_sub_cancel_left]
  refine ⟨n, hpend, hmin, fun during => ?_⟩
  obtain ⟨hsoft, hlog⟩ := callHandler_pics (s := s') (n := n)
    ((intAck [] s'.pics).2.withLines during)
  obtain ⟨hsoft', hlog'⟩ := irqWrapper_calls hn2
    (s := { s' with pics := (intAck [] s'.pics).2.withLines during })
  refine ⟨_, ?_, hsoft'.trans hsoft, hlog'.trans hlog⟩
  have hnone : s'.pics.devices [] = s'.pics := rfl
  simp only [step, takeInterrupt, if_pos (And.intro hif hreq), hnone, hirq, Option.map_some]

/-- The system with the request of the disk. -/
def waitingDisk : System ℕ := { diskSystem with pics := diskSystem.pics.device (.rise 14) }

theorem served_run_disk : ∃ n, Pending waitingDisk.pics n ∧
    (∀ j, Pending waitingDisk.pics j → rank n ≤ rank j) ∧
      ∀ during, ∃ s'', step waitingDisk (.interrupt [] [] during) = some s'' ∧
        s''.soft = (callHandler n waitingDisk).soft ∧ s''.log = (callHandler n waitingDisk).log :=
  have hrun : run diskSystem [.line (.rise 14)] = some waitingDisk := rfl
  have hpending : Pending waitingDisk.pics 14 := by
    unfold Pending
    decide
  served_run rfl rfl rfl hrun (by decide) rfl hpending

/-! ### After an interrupt is lost -/

theorem callHandler_log : ∃ reports, (callHandler n s).log = s.log ++ reports ∧
    ∀ r ∈ reports, r.irq = n := by
  unfold callHandler
  cases s.handlers n with
  | none => exact ⟨[.noHandler n], rfl, by simp [Report.irq]⟩
  | some handler =>
      refine ⟨.called n :: if (handler s.soft).2 then [.unhandled n] else [], rfl, ?_⟩
      split_ifs <;> simp [Report.irq]

/-- With input 2 of the master in service, only what is above it is acknowledged. -/
theorem Between.stuck_vector (h : Between true p) (later : List Line) :
    (intAck later p).1 = 32 ∨ (intAck later p).1 = 33 ∨ (intAck later p).1 = 39 := by
  obtain ⟨m₀, m₁, r₀, r₁, hcore⟩ := h
  obtain ⟨hm, -⟩ := Prod.mk.inj hcore
  have hbase : p.master.base = 32 := congrArg Chip.base hm
  have hisr : p.master.isr = inputBit 2 := congrArg Chip.isr hm
  cases hreq : p.request with
  | none =>
      rw [intAck_none hreq, hbase]
      simp
  | some i =>
      have hclear := (Chip.accepts_eq_some.mp hreq).2
      rw [hisr, clearUpTo_iff] at hclear
      have hi : i < 2 := by
        by_contra hc
        exact absurd (hclear 2 (by omega)) (by decide)
      rw [intAck_direct hreq (by omega), hbase]
      simp only
      omega

/-- **One event**, with input 2 of the master in service. -/
theorem Between.stuck_step (h : Between true s.pics) {e : Event σ} (hstep : Pic.step s e = some s') :
    ∃ reports, s'.log = s.log ++ reports ∧ ∀ r ∈ reports, r.irq = 0 ∨ r.irq = 1 ∨ r.irq = 7 := by
  have hquiet : s'.log = s.log →
      ∃ reports, s'.log = s.log ++ reports ∧ ∀ r ∈ reports, r.irq = 0 ∨ r.irq = 1 ∨ r.irq = 7 :=
    fun hlog => ⟨[], by rw [hlog, List.append_nil], by simp⟩
  cases e with
  | interrupt late later during =>
      simp only [Pic.step, takeInterrupt] at hstep
      split_ifs at hstep with hreq
      · obtain ⟨n, hn, rfl⟩ := Option.map_eq_some_iff.mp hstep
        have hvec := (h.devices late).stuck_vector later
        have hirq : n = 0 ∨ n = 1 ∨ n = 7 := by
          rcases hvec with hv | hv | hv <;> rw [hv] at hn <;> cases hn <;> simp
        obtain ⟨reports, hlog, hall⟩ := callHandler_log (s := { s with
          pics := (intAck later (s.pics.devices late)).2.withLines during }) (n := n)
        refine ⟨reports, (irqWrapper_calls (by omega)).2.trans hlog, fun r hr => ?_⟩
        rw [hall r hr]
        exact hirq
      · exact hquiet (by cases hstep; rfl)
  | line l => exact hquiet (by cases hstep; rfl)
  | register irqNo handler =>
      refine hquiet ?_
      cases hstep
      unfold interruptRegIrqHandler
      split_ifs <;> rfl
  | enable mask during => exact hquiet (by cases hstep; rfl)
  | disable during => exact hquiet (by cases hstep; rfl)
  | interrupts on =>
      refine hquiet ?_
      cases hstep
      unfold interruptEnable interruptDisable
      split_ifs <;> rfl
  | work f => exact hquiet (by cases hstep; rfl)

/-- **After one request of the slave has gone away too late**, only IRQs 0 and 1 are handled, and what
is taken for IRQ 7: none of the slave any more, whatever happens. -/
theorem lost_run (hp : s.pics = setUp mask p) (h₀ : p.master.isr = 0) (h₁ : p.slave.isr = 0)
    {es es' : List (Event σ)} {s₁ s₂ : System σ} (hrun : run s es = some s₁)
    (hlost : lostSlave s es = true) (hrun' : run s₁ es' = some s₂) :
    ∃ reports, s₂.log = s₁.log ++ reports ∧ ∀ r ∈ reports, r.irq = 0 ∨ r.irq = 1 ∨ r.irq = 7 := by
  have hs : Between false s.pics := hp ▸ setUp_between h₀ h₁
  obtain ⟨s₃, hrun₃, hbetween⟩ := hs.run es
  obtain rfl := Option.some.inj (hrun.symm.trans hrun₃)
  rw [hlost, Bool.or_true] at hbetween
  clear hrun hrun₃ hlost
  induction es' generalizing s₁ with
  | nil =>
      cases hrun'
      exact ⟨[], by rw [List.append_nil], by simp⟩
  | cons e es' ih =>
      obtain ⟨s₄, hstep, hrest⟩ := Option.bind_eq_some_iff.mp hrun'
      obtain ⟨s₅, hstep₅, hbetween'⟩ := hbetween.step e
      obtain rfl := Option.some.inj (hstep.symm.trans hstep₅)
      rw [Bool.true_or] at hbetween'
      obtain ⟨l, hl, hall⟩ := hbetween.stuck_step hstep
      obtain ⟨l', hl', hall'⟩ := ih hrest hbetween'
      refine ⟨l ++ l', by rw [hl', hl, List.append_assoc], fun r hr => ?_⟩
      rcases List.mem_append.mp hr with hr | hr
      · exact hall r hr
      · exact hall' r hr

/-- The disk and the timer, afterwards. -/
def laterDisk : List (Event ℕ) :=
  [.line (.rise 14), .interrupt [] [] [], .line (.rise 0), .interrupt [] [] []]

theorem lost_run_disk : ∃ s₁ s₂, run diskSystem lateDisk = some s₁ ∧ run s₁ laterDisk = some s₂ ∧
    ∃ reports, s₂.log = s₁.log ++ reports ∧ ∀ r ∈ reports, r.irq = 0 ∨ r.irq = 1 ∨ r.irq = 7 := by
  have hs : Between false diskSystem.pics := setUp_between rfl rfl
  obtain ⟨s₁, h₁, hb⟩ := hs.run lateDisk
  obtain ⟨s₂, h₂, -⟩ := hb.run laterDisk
  have hlost : lostSlave diskSystem lateDisk = true := by decide
  exact ⟨s₁, s₂, h₁, h₂, lost_run rfl rfl rfl h₁ hlost h₂⟩

end runs

end Dawos.Pic
