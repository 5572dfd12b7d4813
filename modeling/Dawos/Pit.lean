import Dawos.Irq
import Dawos.Refine
import Dawos.Store

/-! # The timer, and sleeping

`boot/bios/bbp/loader/pit.c` programs channel 0 of the 8254 timer and counts its interrupts, and
`sleep.c` waits for a number of them.

`Channel` is the channel as far as its command and data ports program it.  `channel_run` says what it
holds after every sequence of calls: the recorded mode and counter, except that `pit_current_count`
writes a control word for mode 0, and leaves it without a count until it is programmed again.

`sleep` is a thread, and a step of it is what it does in between two interrupts (`Move`).
`sleep_waits`: however the interrupts fall, it does not return before the timer was handled as many
times as it waits for, and it returns with interrupts enabled.  `sleep_wakes`: once that many have
been handled since it has read `tick_start`, it returns within seven more of its own steps. -/

namespace Dawos.Pit

open Pic

/-! ### The channel -/

/-- The mode, whether it counts in decimal, a low byte whose high byte is still to come, and the count. -/
structure Channel where
  mode : BitVec 3
  bcd : Bool
  low : Option (BitVec 8)
  count : Option (BitVec 16)

/-- A write to the command port: a control word for channel 0, with both bytes of the count to follow. -/
def Channel.writeCmd (c : Channel) (v : BitVec 8) : Channel :=
  if v.extractLsb' 6 2 = 0 ∧ v.extractLsb' 4 2 = 3 then
    ⟨v.extractLsb' 1 3, v.getLsbD 0, none, none⟩
  else c

/-- A write to the data port. -/
def Channel.writeData (c : Channel) (v : BitVec 8) : Channel :=
  match c.low with
  | none => { c with low := some v }
  | some l => { c with low := none, count := some (v ++ l) }

/-! ### The driver -/

/-- The channel and the variables of `pit.c`. -/
structure Vars where
  channel : Channel
  counter : BitVec 16
  mode : BitVec 8
  ticks : ℕ
  tickUpdate : Bool

def PIT_CH0 : ℕ := 0x40
def PIT_CMD : ℕ := 0x43
def PIT_CMD_LATCH : BitVec 8 := 0x30
def PIT_CMD_RELOAD : BitVec 8 := 0x30
def PIT_MODE_RATE : BitVec 8 := 0x02
def PIT_FREQ : ℕ := 1193180

def outb (port : ℕ) (v : BitVec 8) (s : Vars) : Vars :=
  if port = PIT_CMD then { s with channel := s.channel.writeCmd v }
  else if port = PIT_CH0 then { s with channel := s.channel.writeData v }
  else s

/-- Reset PIT with previous values. -/
def pitReset (s : Vars) : Vars :=
  let s := outb PIT_CMD (PIT_CMD_RELOAD ||| (s.mode <<< 1)) s
  let s := outb PIT_CH0 (s.counter.extractLsb' 0 8) s
  let s := outb PIT_CH0 (s.counter.extractLsb' 8 8) s
  { s with ticks := 0 }

/-- Write a new counter value and operating mode to PIT. -/
def pitSet (counter : BitVec 16) (mode : BitVec 8) (s : Vars) : Vars :=
  let s := { s with mode := mode &&& 0x7 }
  let s := { s with counter := counter }
  let s := if s.counter = 0 then { s with counter := 0xFFFF } else s
  pitReset s

/-- Read the current PIT counter value: what the command does. -/
def pitCurrentCount (s : Vars) : Vars := outb PIT_CMD PIT_CMD_LATCH s

/-- PIT interrupt handler. -/
def pitHandler : Handler Vars := fun s =>
  let s := { s with tickUpdate := true }
  let t := u64 (s.ticks + 1)
  let s := { s with ticks := t }
  ({ s with tickUpdate := false }, false)

/-- Initialize PIT. -/
def pitInit (pitCounter : BitVec 16) (s : System Vars) : System Vars :=
  let s := { s with soft := { s.soft with counter := 0, mode := 0, ticks := 0, tickUpdate := false } }
  let s := { s with soft := pitSet pitCounter PIT_MODE_RATE s.soft }
  interruptRegIrqHandler 0 pitHandler s

/-! ### Programming the channel -/

/-- What happens to the driver. -/
inductive Call where
  | set (counter : BitVec 16) (mode : BitVec 8)
  | reset
  | currentCount
  | interrupt

def call (s : Vars) : Call → Vars
  | .set counter mode => pitSet counter mode s
  | .reset => pitReset s
  | .currentCount => pitCurrentCount s
  | .interrupt => (pitHandler s).1

/-- Whether `pit_current_count` was called since the channel was programmed. -/
def stopped (b : Bool) : Call → Bool
  | .set _ _ | .reset => false
  | .currentCount => true
  | .interrupt => b

/-- The recorded counter and mode are a count and a mode, and the channel has them unless it is stopped. -/
structure Programmed (b : Bool) (s : Vars) : Prop where
  counter : s.counter ≠ 0
  mode : s.mode < 8
  channel : s.channel =
    if b then ⟨0, false, none, none⟩ else ⟨s.mode.extractLsb' 0 3, false, none, some s.counter⟩

section channel

variable {s : Vars} {b : Bool} {c : Channel} {m : BitVec 8}

theorem writeCmd_reload (h : m < 8) :
    c.writeCmd (PIT_CMD_RELOAD ||| (m <<< 1)) = ⟨m.extractLsb' 0 3, false, none, none⟩ := by
  have hword : ∀ m : BitVec 8, m < 8 →
      (PIT_CMD_RELOAD ||| (m <<< 1)).extractLsb' 6 2 = 0 ∧
        (PIT_CMD_RELOAD ||| (m <<< 1)).extractLsb' 4 2 = 3 ∧
        (PIT_CMD_RELOAD ||| (m <<< 1)).extractLsb' 1 3 = m.extractLsb' 0 3 ∧
        (PIT_CMD_RELOAD ||| (m <<< 1)).getLsbD 0 = false := by decide +kernel
  obtain ⟨h₁, h₂, h₃, h₄⟩ := hword m h
  unfold Channel.writeCmd
  rw [if_pos ⟨h₁, h₂⟩, h₃, h₄]

theorem pitReset_channel (h : s.mode < 8) :
    (pitReset s).channel = ⟨s.mode.extractLsb' 0 3, false, none, some s.counter⟩ := by
  have hsplit : s.counter.extractLsb' 8 8 ++ s.counter.extractLsb' 0 8 = s.counter := by
    ext i hi
    simp only [BitVec.getElem_append, BitVec.getElem_extractLsb']
    split_ifs with h8
    · rw [Nat.zero_add, BitVec.getLsbD_eq_getElem]
    · rw [Nat.add_sub_cancel' (by omega), BitVec.getLsbD_eq_getElem]
  simp only [pitReset, outb, PIT_CMD, PIT_CH0, if_pos, writeCmd_reload h]
  simp [Channel.writeData, hsplit]

theorem pitReset_programmed (hc : s.counter ≠ 0) (hm : s.mode < 8) : Programmed false (pitReset s) :=
  ⟨hc, hm, pitReset_channel hm⟩

theorem pitSet_programmed (counter : BitVec 16) (mode : BitVec 8) :
    Programmed false (pitSet counter mode s) := by
  have hm : mode &&& 0x7 < 8 := by
    revert mode
    decide +kernel
  have hmax : (0xFFFF : BitVec 16) ≠ 0 := by decide
  dsimp only [pitSet]
  split_ifs with h
  · exact pitReset_programmed hmax hm
  · exact pitReset_programmed h hm

theorem Programmed.call (h : Programmed b s) (c : Call) : Programmed (stopped b c) (call s c) := by
  cases c with
  | set counter mode => exact pitSet_programmed counter mode
  | reset => exact pitReset_programmed h.counter h.mode
  | currentCount => exact ⟨h.counter, h.mode, rfl⟩
  | interrupt => exact ⟨h.counter, h.mode, h.channel⟩

theorem Programmed.calls (h : Programmed b s) (cs : List Call) :
    Programmed (cs.foldl stopped b) (cs.foldl Pit.call s) := by
  induction cs generalizing s b with
  | nil => exact h
  | cons c cs ih => exact ih (h.call c)

/-- **The channel** after `pit_init` and every sequence of calls and interrupts. -/
theorem channel_run (pitCounter : BitVec 16) (s : System Vars) (cs : List Call) :
    Programmed (cs.foldl stopped false) (cs.foldl call (pitInit pitCounter s).soft) :=
  Programmed.calls (pitSet_programmed pitCounter PIT_MODE_RATE) cs

end channel

/-! ### Sleeping -/

/-- Where the thread is: before the first read of the counter, in `pit_get_ticks`, before the test of
the loop, or behind the loop.  In `pit_get_ticks` there is a `tick_start` unless the call is the one
that reads it. -/
inductive Point where
  | counter
  | check (tickStart : Option ℕ)
  | disable (tickStart : Option ℕ)
  | read (tickStart : Option ℕ)
  | enable (tickStart : Option ℕ) (t : ℕ)
  | test (tickStart tick : ℕ)
  | done
deriving DecidableEq

/-- A call of `sleep`. -/
structure Thread where
  time : ℕ
  tickCount : ℕ
  point : Point

/-- The number of ticks to wait for. -/
def tickCount (time counter : ℕ) : ℕ :=
  let tickCount := u64 (time * PIT_FREQ) / u64 (counter * 1000)
  if tickCount = 0 then 1 else tickCount

/-- What `sleep` does in between two interrupts. -/
def sleepStep (t : Thread) (s : System Vars) : Option (Thread × System Vars) :=
  match t.point with
  | .counter =>
      let counter := s.soft.counter.toNat
      if 0 < counter then
        some ({ t with tickCount := tickCount t.time counter, point := .check none }, s)
      else some ({ t with point := .done }, s)
  -- pit_get_ticks
  | .check tickStart => some (if s.soft.tickUpdate then t else { t with point := .disable tickStart }, s)
  | .disable tickStart => some ({ t with point := .read tickStart }, interruptDisable s)
  | .read tickStart => some ({ t with point := .enable tickStart s.soft.ticks }, s)
  | .enable tickStart ticks =>
      some ({ t with point := .test (tickStart.getD ticks) ticks }, interruptEnable s)
  | .test tickStart tick =>
      if tick < u64 (tickStart + t.tickCount) then some ({ t with point := .check (some tickStart) }, s)
      else some ({ t with point := .done }, s)
  | .done => none

/-- A step of the thread, a device that changes its line, or an interrupt. -/
inductive Move where
  | sleep
  | line (l : Line)
  | interrupt (late later : List Line) (during : List (List Line))

def Move.isSleep : Move → Bool
  | .sleep => true
  | _ => false

/-- The thread and the system after a move.  None: the thread has returned. -/
def move (p : Thread × System Vars) : Move → Option (Thread × System Vars)
  | .sleep => sleepStep p.1 p.2
  | .line l => some (p.1, { p.2 with pics := p.2.pics.device l })
  | .interrupt late later during => (takeInterrupt late later during p.2).map fun s => (p.1, s)

abbrev MoveStep (p : Thread × System Vars) (m : Move) (p' : Thread × System Vars) : Prop :=
  move p m = some p'

/-- `sleep(time)` is called. -/
def sleepCall (time : ℕ) : Thread := ⟨time, 0, .counter⟩

/-- The number of timer interrupts that were handled. -/
def timerCalls (s : System Vars) : ℕ := s.log.count (.called 0)

/-- Timer interrupts are counted, and the other handlers leave the variables alone. -/
structure Timed (s : System Vars) : Prop where
  timer : s.handlers 0 = some pitHandler
  others : ∀ n handler, n ≠ 0 → s.handlers n = some handler → ∀ v, (handler v).1 = v
  counter : s.soft.counter ≠ 0
  idle : s.soft.tickUpdate = false
  ticks : s.soft.ticks < 2 ^ 64

section ticks

variable {s s₀ s' : System Vars} {n irqNo : ℕ}

theorem pitInit_handlers (pitCounter : BitVec 16) :
    (pitInit pitCounter s).handlers = Function.update s.handlers 0 (some pitHandler) := by
  simp [pitInit, interruptRegIrqHandler]

theorem pitInit_timed (pitCounter : BitVec 16)
    (h : ∀ n handler, n ≠ 0 → s.handlers n = some handler → ∀ v, (handler v).1 = v) :
    Timed (pitInit pitCounter s) where
  timer := by rw [pitInit_handlers, Function.update_self]
  others n handler hn hh := h n handler hn (by rwa [pitInit_handlers, Function.update_of_ne hn] at hh)
  counter := (pitSet_programmed pitCounter PIT_MODE_RATE).counter
  idle := by
    have hset : ∀ v : Vars, (pitSet pitCounter PIT_MODE_RATE v).tickUpdate = v.tickUpdate := by
      intro v
      dsimp only [pitSet]
      split_ifs <;> rfl
    exact hset _
  ticks := Nat.two_pow_pos 64

/-- The variables after `n` more ticks. -/
def ticked (n : ℕ) (v : Vars) : Vars := { v with ticks := u64 (v.ticks + n) }

/-- Since the state `s₀` the timer was handled `n` times. -/
structure Since (s₀ : System Vars) (n : ℕ) (s : System Vars) : Prop where
  handlers : s.handlers = s₀.handlers
  soft : s.soft = ticked n s₀.soft
  calls : timerCalls s = timerCalls s₀ + n

theorem Timed.since (h : Timed s) : Since s 0 s := by
  refine ⟨rfl, ?_, rfl⟩
  have hu : u64 (s.soft.ticks + 0) = s.soft.ticks := Nat.mod_eq_of_lt h.ticks
  rw [ticked, hu]

theorem pitHandler_ticked {v : Vars} (h : v.tickUpdate = false) :
    (pitHandler (ticked n v)).1 = ticked (n + 1) v := by
  have hu : u64 (u64 (v.ticks + n) + 1) = u64 (v.ticks + (n + 1)) := by
    simp only [u64]
    omega
  simp only [pitHandler, ticked, hu, h]

/-- What handling an interrupt leaves alone. -/
theorem irqWrapper_frame : (irqWrapper irqNo s).handlers = s.handlers ∧
    (irqWrapper irqNo s).intEnabled = s.intEnabled ∧ (irqWrapper irqNo s).iflag = s.iflag := by
  have hcall : ∀ s : System Vars, (callHandler irqNo s).handlers = s.handlers ∧
      (callHandler irqNo s).intEnabled = s.intEnabled ∧ (callHandler irqNo s).iflag = s.iflag := by
    intro s
    unfold callHandler
    cases s.handlers irqNo <;> exact ⟨rfl, rfl, rfl⟩
  have hfinish : ∀ (isr : BitVec 16) (s : System Vars), (finish isr irqNo s).handlers = s.handlers ∧
      (finish isr irqNo s).intEnabled = s.intEnabled ∧ (finish isr irqNo s).iflag = s.iflag := by
    intro isr s
    unfold finish
    split_ifs <;> exact ⟨rfl, rfl, rfl⟩
  dsimp only [irqWrapper]
  split_ifs
  · exact hfinish _ _
  · rw [(hfinish _ _).1, (hfinish _ _).2.1, (hfinish _ _).2.2]
    exact hcall _

theorem takeInterrupt_cases {late later : List Line} {during : List (List Line)}
    (h : takeInterrupt late later during s = some s') :
    s' = s ∨ ∃ irqNo p, s' = irqWrapper irqNo { s with pics := p } := by
  unfold takeInterrupt at h
  split_ifs at h with hreq
  · obtain ⟨irqNo, -, rfl⟩ := Option.map_eq_some_iff.mp h
    exact .inr ⟨irqNo, _, rfl⟩
  · exact .inl (Option.some.inj h).symm

theorem Since.pics (h : Since s₀ n s) (pics : Pics) : Since s₀ n { s with pics := pics } :=
  ⟨h.handlers, h.soft, h.calls⟩

theorem Since.callHandler (h₀ : Timed s₀) (h : Since s₀ n s) :
    ∃ m ≥ n, Since s₀ m (callHandler irqNo s) := by
  unfold Pic.callHandler
  cases hh : s.handlers irqNo with
  | none => exact ⟨n, le_rfl, h.handlers, h.soft, by simpa [timerCalls] using h.calls⟩
  | some handler =>
      have hh₀ : s₀.handlers irqNo = some handler := by rw [← h.handlers, hh]
      by_cases hz : irqNo = 0
      · subst hz
        obtain rfl := Option.some.inj (hh₀.symm.trans h₀.timer)
        refine ⟨n + 1, Nat.le_succ n, h.handlers, ?_, ?_⟩
        · rw [h.soft]
          exact pitHandler_ticked h₀.idle
        · have hlog : timerCalls s + 1 = timerCalls s₀ + (n + 1) := by rw [h.calls, Nat.add_assoc]
          simpa [timerCalls, pitHandler] using hlog
      · refine ⟨n, le_rfl, h.handlers, ?_, ?_⟩
        · rw [← h.soft]
          exact h₀.others irqNo handler hz hh₀ s.soft
        · have hlog : ∀ b : Bool,
              (Report.called irqNo :: if b then [.unhandled irqNo] else []).count (.called 0) = 0 := by
            intro b
            cases b <;> simp [hz]
          simpa only [timerCalls, List.count_append, hlog, Nat.add_zero] using h.calls

theorem Since.wrapper (h₀ : Timed s₀) (h : Since s₀ n s) (irqNo : ℕ) :
    ∃ m ≥ n, Since s₀ m (irqWrapper irqNo s) := by
  by_cases h2 : irqNo = 2
  · -- the cascade has no handler
    have hkeep : (irqWrapper irqNo s).soft = s.soft ∧ (irqWrapper irqNo s).log = s.log := by
      unfold irqWrapper finish
      rw [if_pos h2]
      split_ifs <;> exact ⟨rfl, rfl⟩
    exact ⟨n, le_rfl, irqWrapper_frame.1.trans h.handlers, hkeep.1.trans h.soft,
      by rw [timerCalls, hkeep.2]; exact h.calls⟩
  · obtain ⟨m, hm, hs⟩ := h.callHandler h₀
    obtain ⟨hsoft, hlog⟩ := irqWrapper_calls h2
    exact ⟨m, hm, irqWrapper_frame.1.trans h.handlers, hsoft.trans hs.soft,
      by rw [timerCalls, hlog]; exact hs.calls⟩

end ticks

/-! ### Where the thread is -/

/-- A value of `_ticks` since the state `s₀`, with the timer handled `n` times. -/
def Reading (s₀ : System Vars) (n t : ℕ) : Prop := ∃ k ≤ n, t = u64 (s₀.soft.ticks + k)

/-- What holds of a thread that was called in the state `s₀`, waits for `count` ticks, and is at a point. -/
def At (s₀ : System Vars) (count n : ℕ) (t : Thread) (s : System Vars) : Prop :=
  match t.point with
  | .counter => True
  | .check tickStart | .disable tickStart =>
      t.tickCount = count ∧ ∀ start ∈ tickStart, Reading s₀ n start
  | .read tickStart =>
      t.tickCount = count ∧ (∀ start ∈ tickStart, Reading s₀ n start) ∧ s.intEnabled = false
  | .enable tickStart ticks =>
      t.tickCount = count ∧ (∀ start ∈ tickStart, Reading s₀ n start) ∧ s.intEnabled = false ∧
        Reading s₀ n ticks
  | .test tickStart tick =>
      t.tickCount = count ∧ Reading s₀ n tickStart ∧ Reading s₀ n tick ∧
        s.intEnabled = true ∧ s.iflag = true
  | .done =>
      (∃ start tick, Reading s₀ n start ∧ Reading s₀ n tick ∧ u64 (start + count) ≤ tick) ∧
        s.intEnabled = true ∧ s.iflag = true

/-- The thread `sleep(time)` was called in the state `s₀`, and the timer handled `n` times since. -/
structure Asleep (s₀ : System Vars) (time n : ℕ) (p : Thread × System Vars) : Prop where
  since : Since s₀ n p.2
  time_eq : p.1.time = time
  point : At s₀ (tickCount time s₀.soft.counter.toNat) n p.1 p.2

section sleep

variable {s₀ s s' : System Vars} {t : Thread} {p p' : Thread × System Vars} {m : Move}
  {n k time count : ℕ} {es : List Move}

theorem Reading.mono (h : Reading s₀ n k) {n' : ℕ} (hn : n ≤ n') : Reading s₀ n' k := by
  obtain ⟨i, hi, rfl⟩ := h
  exact ⟨i, hi.trans hn, rfl⟩

/-- More ticks, with interrupts on or off as before. -/
theorem At.mono (h : At s₀ count n t s) {n' : ℕ} (hn : n ≤ n') (he : s'.intEnabled = s.intEnabled)
    (hf : s'.iflag = s.iflag) : At s₀ count n' t s' := by
  unfold At at h ⊢
  rw [he, hf]
  cases hp : t.point with
  | counter => trivial
  | check tickStart =>
      rw [hp] at h
      exact ⟨h.1, fun start hs => (h.2 start hs).mono hn⟩
  | disable tickStart =>
      rw [hp] at h
      exact ⟨h.1, fun start hs => (h.2 start hs).mono hn⟩
  | read tickStart =>
      rw [hp] at h
      exact ⟨h.1, fun start hs => (h.2.1 start hs).mono hn, h.2.2⟩
  | enable tickStart ticks =>
      rw [hp] at h
      exact ⟨h.1, fun start hs => (h.2.1 start hs).mono hn, h.2.2.1, h.2.2.2.mono hn⟩
  | test tickStart tick =>
      rw [hp] at h
      exact ⟨h.1, h.2.1.mono hn, h.2.2.1.mono hn, h.2.2.2⟩
  | done =>
      rw [hp] at h
      obtain ⟨⟨start, tick, h₁, h₂, hle⟩, hon⟩ := h
      exact ⟨⟨start, tick, h₁.mono hn, h₂.mono hn, hle⟩, hon⟩

theorem Since.interrupts (h : Since s₀ n s) :
    Since s₀ n (interruptDisable s) ∧ Since s₀ n (interruptEnable s) := by
  constructor
  · unfold interruptDisable
    split_ifs
    · exact ⟨h.handlers, h.soft, h.calls⟩
    · exact h
  · unfold interruptEnable
    split_ifs
    · exact h
    · exact ⟨h.handlers, h.soft, h.calls⟩

theorem interruptDisable_off : (interruptDisable s).intEnabled = false := by
  unfold interruptDisable
  split_ifs with h
  · rfl
  · exact Bool.not_eq_true _ ▸ h

theorem interruptEnable_on (h : s.intEnabled = false) :
    (interruptEnable s).intEnabled = true ∧ (interruptEnable s).iflag = true := by
  unfold interruptEnable
  rw [if_neg (by rw [h]; exact Bool.false_ne_true)]
  exact ⟨rfl, rfl⟩

theorem Since.reading (h : Since s₀ n s) : Reading s₀ n s.soft.ticks :=
  ⟨n, le_rfl, by rw [h.soft]; rfl⟩

/-- What a step of the thread does at each point. -/
theorem At.sleep (h₀ : Timed s₀) (hsince : Since s₀ n s)
    (hcount : tickCount t.time s₀.soft.counter.toNat = count) (h : At s₀ count n t s)
    (hs : sleepStep t s = some p') :
    Since s₀ n p'.2 ∧ p'.1.time = t.time ∧ At s₀ count n p'.1 p'.2 := by
  unfold At at h
  cases hp : t.point with
  | counter =>
      have hc : s.soft.counter = s₀.soft.counter := by rw [hsince.soft]; rfl
      have hpos : 0 < s₀.soft.counter.toNat :=
        Nat.pos_of_ne_zero fun h => h₀.counter (BitVec.eq_of_toNat_eq h)
      simp only [sleepStep, hp, hc, if_pos hpos, hcount, Option.some.injEq] at hs
      subst hs
      exact ⟨hsince, rfl, rfl, fun start hstart => nomatch hstart⟩
  | check tickStart =>
      rw [hp] at h
      simp only [sleepStep, hp, Option.some.injEq] at hs
      subst hs
      split_ifs
      · exact ⟨hsince, rfl, by unfold At; rw [hp]; exact h⟩
      · exact ⟨hsince, rfl, h⟩
  | disable tickStart =>
      rw [hp] at h
      simp only [sleepStep, hp, Option.some.injEq] at hs
      subst hs
      exact ⟨hsince.interrupts.1, rfl, h.1, h.2, interruptDisable_off⟩
  | read tickStart =>
      rw [hp] at h
      simp only [sleepStep, hp, Option.some.injEq] at hs
      subst hs
      exact ⟨hsince, rfl, h.1, h.2.1, h.2.2, hsince.reading⟩
  | enable tickStart ticks =>
      rw [hp] at h
      simp only [sleepStep, hp, Option.some.injEq] at hs
      subst hs
      obtain ⟨hc, hstart, hoff, htick⟩ := h
      refine ⟨hsince.interrupts.2, rfl, hc, ?_, htick, interruptEnable_on hoff⟩
      cases tickStart with
      | none => exact htick
      | some start => exact hstart start rfl
  | test tickStart tick =>
      rw [hp] at h
      obtain ⟨hc, hstart, htick, hon⟩ := h
      simp only [sleepStep, hp] at hs
      split_ifs at hs with hlt
      · obtain rfl := Option.some.inj hs
        refine ⟨hsince, rfl, hc, ?_⟩
        rintro start ⟨rfl⟩
        exact hstart
      · obtain rfl := Option.some.inj hs
        rw [hc] at hlt
        exact ⟨hsince, rfl, ⟨tickStart, tick, hstart, htick, Nat.le_of_not_lt hlt⟩, hon⟩
  | done =>
      simp only [sleepStep, hp] at hs
      cases hs

/-- **A step** of the thread, of a device or of the processor. -/
theorem Asleep.step (h₀ : Timed s₀) (h : Asleep s₀ time n p) (hm : MoveStep p m p') :
    ∃ n' ≥ n, Asleep s₀ time n' p' := by
  cases m with
  | sleep =>
      obtain ⟨hsince, htime, hat⟩ := h.point.sleep h₀ h.since (by rw [h.time_eq]) hm
      exact ⟨n, le_rfl, hsince, htime.trans h.time_eq, hat⟩
  | line l =>
      obtain rfl := Option.some.inj hm
      exact ⟨n, le_rfl, h.since.pics _, h.time_eq, h.point⟩
  | interrupt late later during =>
      obtain ⟨s', hi, rfl⟩ := Option.map_eq_some_iff.mp hm
      obtain rfl | ⟨irqNo, pics, rfl⟩ := takeInterrupt_cases hi
      · exact ⟨n, le_rfl, h⟩
      · obtain ⟨n', hn, hs⟩ := (h.since.pics pics).wrapper h₀ irqNo
        exact ⟨n', hn, hs, h.time_eq, h.point.mono hn irqWrapper_frame.2.1 irqWrapper_frame.2.2⟩

theorem Asleep.run (h₀ : Timed s₀) (h : Asleep s₀ time n p) (hr : Steps MoveStep p es p') :
    ∃ n' ≥ n, Asleep s₀ time n' p' := by
  induction hr generalizing n with
  | nil => exact ⟨n, le_rfl, h⟩
  | cons hm _ ih =>
      obtain ⟨n₁, hn₁, h₁⟩ := h.step h₀ hm
      obtain ⟨n₂, hn₂, h₂⟩ := ih h₁
      exact ⟨n₂, hn₁.trans hn₂, h₂⟩

theorem Timed.asleep (h₀ : Timed s₀) : Asleep s₀ time 0 (sleepCall time, s₀) :=
  ⟨h₀.since, rfl, trivial⟩

/-- **No early return**: `sleep` does not return before the timer was handled as many times as it waits
for, if `_ticks` does not overflow, and it returns with interrupts enabled. -/
theorem sleep_waits (h₀ : Timed s₀)
    (hw : s₀.soft.ticks + 2 * tickCount time s₀.soft.counter.toNat ≤ 2 ^ 64)
    (hr : Steps MoveStep (sleepCall time, s₀) es p) (hd : p.1.point = .done) :
    timerCalls s₀ + tickCount time s₀.soft.counter.toNat ≤ timerCalls p.2 ∧
      p.2.intEnabled = true ∧ p.2.iflag = true := by
  obtain ⟨n, -, ha⟩ := h₀.asleep.run h₀ hr
  have hat := ha.point
  unfold At at hat
  rw [hd] at hat
  generalize tickCount time s₀.soft.counter.toNat = count at hw hat ⊢
  obtain ⟨⟨start, tick, ⟨i, hi, rfl⟩, ⟨j, hj, rfl⟩, hle⟩, hon⟩ := hat
  refine ⟨?_, hon⟩
  rw [ha.since.calls]
  by_contra hlt
  -- with fewer ticks nothing overflows, and the last reading is too small
  have hi' : u64 (s₀.soft.ticks + i) = s₀.soft.ticks + i := Nat.mod_eq_of_lt (by omega)
  have hj' : u64 (s₀.soft.ticks + j) = s₀.soft.ticks + j := Nat.mod_eq_of_lt (by omega)
  have hgoal : u64 (s₀.soft.ticks + i + count) = s₀.soft.ticks + i + count :=
    Nat.mod_eq_of_lt (by omega)
  rw [hi', hj', hgoal] at hle
  omega

/-- The controllers and the timer as `main64` sets them up. -/
def timerSystem : System Vars := pitInit 1193
  { pics := setUp 0xFFFF ⟨⟨0, 0, 0, 8, .ready, false⟩, ⟨0, 0, 0, 0x70, .ready, false⟩, []⟩
    handlers := fun _ => none
    soft := ⟨⟨0, false, none, none⟩, 0, 0, 0, false⟩
    intEnabled := true
    iflag := true
    log := [] }

theorem timerSystem_timed : Timed timerSystem := pitInit_timed 1193 fun _ _ _ hh => nomatch hh

/-- The moves of `sleep(1)` up to the second call of `pit_get_ticks`, an interrupt of the timer, and the
moves up to the return. -/
def firstMoves : List Move := List.replicate 6 .sleep
def tickMoves : List Move := [.line (.rise 0), .interrupt [] [] []]
def lastMoves : List Move := List.replicate 5 .sleep

theorem sleep_waits_oneTick : ∃ p, Steps MoveStep (sleepCall 1, timerSystem)
      (firstMoves ++ tickMoves ++ lastMoves) p ∧
    timerCalls timerSystem + tickCount 1 timerSystem.soft.counter.toNat ≤ timerCalls p.2 ∧
      p.2.intEnabled = true ∧ p.2.iflag = true := by
  have hrun : ((firstMoves ++ tickMoves ++ lastMoves).foldlM move (sleepCall 1, timerSystem)).map
      (fun p => p.1.point) = some .done := by decide +kernel
  obtain ⟨p, hp, hd⟩ := Option.map_eq_some_iff.mp hrun
  have hr := Steps.of_foldlM hp
  exact ⟨p, hr, sleep_waits timerSystem_timed (by decide +kernel) hr hd⟩

/-! ### Waking up -/

/-- The value of `tick_start`, once it was read. -/
def Point.tickStart : Point → Option ℕ
  | .counter | .done => none
  | .check tickStart | .disable tickStart | .read tickStart | .enable tickStart _ => tickStart
  | .test tickStart _ => some tickStart

/-- The number of steps that are left once `_ticks` has reached `goal`. -/
def stepsLeft (goal : ℕ) : Point → ℕ
  | .counter | .done => 0
  | .check _ => 5
  | .disable _ => 4
  | .read _ => 3
  | .enable _ t => if goal ≤ t then 2 else 7
  | .test _ tick => if goal ≤ tick then 1 else 6

theorem stepsLeft_le (goal : ℕ) (q : Point) : stepsLeft goal q ≤ 7 := by
  unfold stepsLeft
  split <;> first | omega | (split_ifs <;> omega)

theorem At.started (h : At s₀ count n t s) {start : ℕ} (hp : t.point.tickStart = some start) :
    t.tickCount = count ∧ Reading s₀ n start := by
  unfold At at h
  cases hq : t.point with
  | counter =>
      rw [hq] at hp
      cases hp
  | done =>
      rw [hq] at hp
      cases hp
  | check tickStart =>
      rw [hq] at h hp
      exact ⟨h.1, h.2 start hp⟩
  | disable tickStart =>
      rw [hq] at h hp
      exact ⟨h.1, h.2 start hp⟩
  | read tickStart =>
      rw [hq] at h hp
      exact ⟨h.1, h.2.1 start hp⟩
  | enable tickStart ticks =>
      rw [hq] at h hp
      exact ⟨h.1, h.2.1 start hp⟩
  | test tickStart tick =>
      rw [hq] at h hp
      obtain rfl := Option.some.inj hp
      exact ⟨h.1, h.2.1⟩

/-- A step keeps `tick_start`, or ends the loop; and once `_ticks` has reached the goal, one step less
is left. -/
theorem sleepStep_start {start goal : ℕ} (hidle : s.soft.tickUpdate = false)
    (hgoal : goal = u64 (start + t.tickCount)) (hp : t.point.tickStart = some start)
    (hs : sleepStep t s = some p') :
    (p'.1.point = .done ∨ p'.1.point.tickStart = some start) ∧
      (goal ≤ s.soft.ticks → stepsLeft goal p'.1.point + 1 ≤ stepsLeft goal t.point) := by
  cases hq : t.point with
  | counter =>
      rw [hq] at hp
      cases hp
  | done =>
      rw [hq] at hp
      cases hp
  | check tickStart =>
      rw [hq] at hp
      simp only [sleepStep, hq, hidle, Bool.false_eq_true, if_false, Option.some.injEq] at hs
      subst hs
      exact ⟨.inr hp, fun _ => le_rfl⟩
  | disable tickStart =>
      rw [hq] at hp
      simp only [sleepStep, hq, Option.some.injEq] at hs
      subst hs
      exact ⟨.inr hp, fun _ => le_rfl⟩
  | read tickStart =>
      rw [hq] at hp
      simp only [sleepStep, hq, Option.some.injEq] at hs
      subst hs
      refine ⟨.inr hp, fun hle => ?_⟩
      simp only [stepsLeft, if_pos hle]
      exact le_rfl
  | enable tickStart ticks =>
      rw [hq] at hp
      obtain rfl : tickStart = some start := hp
      simp only [sleepStep, hq, Option.some.injEq] at hs
      subst hs
      refine ⟨.inr rfl, fun _ => ?_⟩
      simp only [stepsLeft]
      split_ifs <;> exact le_rfl
  | test tickStart tick =>
      rw [hq] at hp
      obtain rfl := Option.some.inj hp
      simp only [sleepStep, hq, ← hgoal] at hs
      split_ifs at hs with hlt
      · obtain rfl := Option.some.inj hs
        refine ⟨.inr rfl, fun _ => ?_⟩
        simp only [stepsLeft, if_neg (Nat.not_le_of_lt hlt)]
        exact le_rfl
      · obtain rfl := Option.some.inj hs
        refine ⟨.inl rfl, fun _ => ?_⟩
        simp only [stepsLeft, if_pos (Nat.le_of_not_lt hlt)]
        exact le_rfl

theorem sleepStep_done (h : t.point = .done) : sleepStep t s ≠ some p' := by
  simp only [sleepStep, h]
  exact nofun

theorem sleepStep_some (h : t.point ≠ .done) : ∃ q, sleepStep t s = some q := by
  unfold sleepStep
  cases hq : t.point with
  | done => exact absurd hq h
  | counter =>
      simp only
      split_ifs <;> exact ⟨_, rfl⟩
  | test tickStart tick =>
      simp only
      split_ifs <;> exact ⟨_, rfl⟩
  | check tickStart => exact ⟨_, rfl⟩
  | disable tickStart => exact ⟨_, rfl⟩
  | read tickStart => exact ⟨_, rfl⟩
  | enable tickStart ticks => exact ⟨_, rfl⟩

theorem Asleep.idle (h₀ : Timed s₀) (h : Asleep s₀ time n p) : p.2.soft.tickUpdate = false := by
  rw [h.since.soft]
  exact h₀.idle

theorem Asleep.start (h₀ : Timed s₀) (h : Asleep s₀ time n p) {start : ℕ}
    (hp : p.1.point = .done ∨ p.1.point.tickStart = some start) (hm : MoveStep p m p') :
    p'.1.point = .done ∨ p'.1.point.tickStart = some start := by
  cases m with
  | line l =>
      obtain rfl := Option.some.inj hm
      exact hp
  | interrupt late later during =>
      obtain ⟨s', -, rfl⟩ := Option.map_eq_some_iff.mp hm
      exact hp
  | sleep =>
      rcases hp with hd | hstart
      · exact absurd hm (sleepStep_done hd)
      · exact (sleepStep_start (h.idle h₀) rfl hstart hm).1

/-- A thread that has read `tick_start`, with the timer handled at least `m` times since it was called. -/
def Late (s₀ : System Vars) (time start m : ℕ) (p : Thread × System Vars) : Prop :=
  ∃ n ≥ m, Asleep s₀ time n p ∧ (p.1.point = .done ∨ p.1.point.tickStart = some start)

theorem Late.run {start m : ℕ} (h₀ : Timed s₀) (h : Late s₀ time start m p)
    (hr : Steps MoveStep p es p') : Late s₀ time start m p' :=
  hr.keeps h fun _ _ => fun ⟨_, hn, ha, hp⟩ he => by
    obtain ⟨n₁, hn₁, ha₁⟩ := ha.step h₀ he
    exact ⟨n₁, hn.trans hn₁, ha₁, ha.start h₀ hp he⟩

/-- Once `_ticks` has reached the goal, and if it does not overflow up to the end `q` of the run, each
step of the thread leaves one less. -/
theorem Late.step {start goal m : ℕ} {e : Move} {q : Thread × System Vars} (h₀ : Timed s₀)
    (hgoal : goal = start + tickCount time s₀.soft.counter.toNat) (hm : goal ≤ s₀.soft.ticks + m)
    (hw : s₀.soft.ticks + (timerCalls q.2 - timerCalls s₀) < 2 ^ 64) (h : Late s₀ time start m p)
    (he : MoveStep p e p') (hr : Steps MoveStep p' es q) :
    Late s₀ time start m p' ∧
      stepsLeft goal p'.1.point + (if e.isSleep then 1 else 0) ≤ stepsLeft goal p.1.point := by
  obtain ⟨n, hn, ha, hp⟩ := h
  obtain ⟨n₁, hn₁, ha₁⟩ := ha.step h₀ he
  refine ⟨⟨n₁, hn.trans hn₁, ha₁, ha.start h₀ hp he⟩, ?_⟩
  cases e with
  | line l =>
      obtain rfl := Option.some.inj he
      exact le_rfl
  | interrupt late later during =>
      obtain ⟨s', -, rfl⟩ := Option.map_eq_some_iff.mp he
      exact le_rfl
  | sleep =>
      rcases hp with hd | hstart
      · exact absurd he (sleepStep_done hd)
      · -- no tick has overflowed, since none does later in the run
        obtain ⟨n₂, hn₂, ha₂⟩ := ha₁.run h₀ hr
        have hcalls := ha₂.since.calls
        have hticks : p.2.soft.ticks = s₀.soft.ticks + n := by
          rw [ha.since.soft]
          exact Nat.mod_eq_of_lt (by omega)
        have hu : goal = u64 (start + p.1.tickCount) := by
          rw [(ha.point.started hstart).1, ← hgoal]
          exact (Nat.mod_eq_of_lt (by omega)).symm
        exact (sleepStep_start (ha.idle h₀) hu hstart he).2 (by omega)

/-- **Waking up**: once `tick_start` was read and the timer handled as many times as `sleep` waits for
since, the loop takes at most seven more steps of the thread, if `_ticks` does not overflow; and the
thread has a step until it has returned. -/
theorem sleep_wakes {es' es'' : List Move} {p' p'' : Thread × System Vars} (h₀ : Timed s₀)
    (h₁ : Steps MoveStep (sleepCall time, s₀) es p) (hs : p.1.point.tickStart.isSome)
    (h₂ : Steps MoveStep p es' p')
    (hN : timerCalls p.2 + tickCount time s₀.soft.counter.toNat ≤ timerCalls p'.2)
    (h₃ : Steps MoveStep p' es'' p'')
    (hw : s₀.soft.ticks + (timerCalls p''.2 - timerCalls s₀) < 2 ^ 64) :
    es''.countP Move.isSleep ≤ 7 ∧ (p''.1.point = .done ∨ ∃ q, MoveStep p'' .sleep q) := by
  obtain ⟨n, -, ha⟩ := h₀.asleep.run h₀ h₁
  obtain ⟨start, hstart⟩ := Option.isSome_iff_exists.mp hs
  have hlate : Late s₀ time start n p := ⟨n, le_rfl, ha, .inr hstart⟩
  obtain ⟨n', hn', ha', hp'⟩ := hlate.run h₀ h₂
  obtain ⟨n'', hn'', ha''⟩ := ha'.run h₀ h₃
  have hcalls := ha.since.calls
  have hcalls' := ha'.since.calls
  have hcalls'' := ha''.since.calls
  obtain ⟨-, i, hi, rfl⟩ := ha.point.started hstart
  have hi' : u64 (s₀.soft.ticks + i) = s₀.soft.ticks + i := Nat.mod_eq_of_lt (by omega)
  have hlate' : Late s₀ time (u64 (s₀.soft.ticks + i)) n' p' := ⟨n', le_rfl, ha', hp'⟩
  obtain ⟨-, hcount⟩ := h₃.own_le hlate' fun hu he hr => hu.step h₀ rfl (by omega) hw he hr
  refine ⟨(Nat.le_add_right _ _).trans (hcount.trans (stepsLeft_le _ _)), ?_⟩
  by_cases hd : p''.1.point = .done
  · exact .inl hd
  · exact .inr (sleepStep_some hd)

theorem sleep_wakes_oneTick : ∃ p p' p'', Steps MoveStep (sleepCall 1, timerSystem) firstMoves p ∧
    Steps MoveStep p tickMoves p' ∧ Steps MoveStep p' lastMoves p'' ∧
      lastMoves.countP Move.isSleep ≤ 7 ∧ (p''.1.point = .done ∨ ∃ q, MoveStep p'' .sleep q) := by
  have hrun : ((firstMoves.foldlM move (sleepCall 1, timerSystem)).bind fun p =>
      (tickMoves.foldlM move p).bind fun p' => (lastMoves.foldlM move p').map fun p'' =>
        (p.1.point.tickStart, timerCalls p.2, timerCalls p'.2, timerCalls p''.2)) =
          some (some 0, 0, 1, 1) := by decide +kernel
  obtain ⟨p, hp, hrun⟩ := Option.bind_eq_some_iff.mp hrun
  obtain ⟨p', hp', hrun⟩ := Option.bind_eq_some_iff.mp hrun
  obtain ⟨p'', hp'', hend⟩ := Option.map_eq_some_iff.mp hrun
  simp only [Prod.mk.injEq] at hend
  obtain ⟨hstart, hcalls, hcalls', hcalls''⟩ := hend
  have hticks : timerSystem.soft.ticks = 0 := rfl
  have hcount : tickCount 1 timerSystem.soft.counter.toNat = 1 := by decide +kernel
  have h₁ := Steps.of_foldlM hp
  have h₂ := Steps.of_foldlM hp'
  have h₃ := Steps.of_foldlM hp''
  exact ⟨p, p', p'', h₁, h₂, h₃, sleep_wakes timerSystem_timed h₁ (by rw [hstart]; rfl) h₂
    (by rw [hcount]; omega) h₃ (by omega)⟩

end sleep

end Dawos.Pit
