import Dawos.Irq

/-! # Hardware interrupts of the kernel

`interrupt_init` of `kernel/cpu/interrupts.c` sets the two controllers up as the loader does, with all
masks clear, and `idt_set` enables interrupts.  `irq_handler` prints the number of the IRQ and sends no
end of interrupt, so that whatever has been acknowledged stays in service.

`Waning` is the invariant of a run: every IRQ that has been printed is still in service, that of a
spurious IRQ 7 apart, and each is above the ones before it.  So there are at most seven of
them in the whole run (`irqHandler_few`). -/

namespace Dawos.Pic.Kernel

/-- The accesses of `interrupt_init` to the controllers. -/
def interruptInit (p : Pics) : Pics :=
  let p := picInit p
  -- Clear masks
  let p := outb PICM_DATA 0x0 p
  outb PICS_DATA 0x0 p

/-- The controllers, and the IRQs that have been printed. -/
structure State where
  pics : Pics
  printed : List ℕ

/-- `irq_handler`. -/
def irqHandler (irqNo : ℕ) (s : State) : State := { s with printed := s.printed ++ [irqNo] }

/-- What can happen between two instructions. -/
inductive Event where
  /-- A device changes its line. -/
  | line (l : Line)
  /-- The processor looks for an interrupt; the devices change their lines before the master is asked
  for the vector, and before the slave is. -/
  | interrupt (late later : List Line)

/-- One event.  None: the gate is not that of an IRQ. -/
def step (s : State) : Event → Option State
  | .line l => some { s with pics := s.pics.device l }
  | .interrupt late later =>
      if s.pics.request.isSome then
        let (vector, pics) := intAck later (s.pics.devices late)
        (irqOfVector vector).map fun irqNo => irqHandler irqNo { s with pics := pics }
      else some s

/-- A sequence of events. -/
def run (s : State) : List Event → Option State
  | [] => some s
  | e :: es => (step s e).bind fun s' => run s' es

/-! ### What has been printed -/

/-- The vectors are set up. -/
def Configured (p : Pics) : Prop :=
  ∃ m₀ m₁ i₀ i₁ r₀ r₁, p.core = (.configured m₀ i₀ 32 r₀, .configured m₁ i₁ 40 r₁)

/-- The IRQs that have been printed, other than 7, are in service at the master, each at an input above
the ones before. -/
structure Waning (s : State) : Prop where
  configured : Configured s.pics
  served : ∀ n ∈ s.printed, n ≠ 7 → s.pics.master.isr.getLsbD (inputOf n) = true
  order : (s.printed.filter (· ≠ 7)).Pairwise fun a b => inputOf b < inputOf a

section waning

variable {s s' : State} {p : Pics} {i n : ℕ} {later : List Line}

theorem Configured.devices (h : Configured p) (l : List Line) : Configured (p.devices l) := by
  unfold Configured at h ⊢
  rwa [p.devices_core]

/-- **The answer to the processor**: a new IRQ at an input above everything in service, which is in
service from now on; or IRQ 7, and nothing changes. -/
theorem Configured.vector (h : Configured p) (later : List Line) : ∃ n < 16,
    (intAck later p).1 = 32 + n ∧ Configured (intAck later p).2 ∧
      ((n = 7 ∧ (intAck later p).2.master.isr = p.master.isr) ∨
        (clearUpTo p.master.isr (inputOf n) = true ∧
          (intAck later p).2.master.isr = p.master.isr ||| inputBit (inputOf n))) := by
  have hconf := h
  obtain ⟨m₀, m₁, i₀, i₁, r₀, r₁, hcore⟩ := h
  obtain ⟨hm, hs⟩ := Prod.mk.inj hcore
  have hbase : p.master.base = 32 := congrArg Chip.base hm
  cases hreq : p.request with
  | none =>
      rw [intAck_none hreq]
      exact ⟨7, by omega, by rw [hbase], hconf, .inl ⟨rfl, rfl⟩⟩
  | some i =>
      have hi := Chip.accepts_lt hreq
      have hclear := (Chip.accepts_eq_some.mp hreq).2
      by_cases hi2 : i = 2
      · subst hi2
        obtain ⟨p', hp'⟩ : ∃ p', p' = p.cascade.devices later := ⟨_, rfl⟩
        have hcore' : p'.core =
            (.configured m₀ (i₀ ||| inputBit 2) 32 r₀, .configured m₁ i₁ 40 r₁) := by
          rw [hp', Pics.devices_core, Pics.core, Pics.cascade, Chip.acknowledge_core, hm, hs]
          rfl
        obtain ⟨hm', hs'⟩ := Prod.mk.inj hcore'
        have hbase' : p'.slave.base = 40 := congrArg Chip.base hs'
        have hisr' : p'.master.isr = p.master.isr ||| inputBit 2 := by
          have h₀ : p.master.isr = i₀ := congrArg Chip.isr hm
          rw [h₀]
          exact congrArg Chip.isr hm'
        rw [intAck_cascade hreq hp']
        cases hslave : p'.slaveRequest with
        | none =>
            exact ⟨15, by omega, by simp only [hbase'], ⟨_, _, _, _, _, _, hcore'⟩,
              .inr ⟨hclear, hisr'⟩⟩
        | some j =>
            have hj := Chip.accepts_lt hslave
            have hin : inputOf (8 + j) = 2 := if_neg (by omega)
            refine ⟨8 + j, by omega, by simp only [hbase']; omega,
              ⟨m₀, m₁, i₀ ||| inputBit 2, i₁ ||| inputBit j, r₀, r₁, ?_⟩,
              .inr ⟨by rw [hin]; exact hclear, by rw [hin]; exact hisr'⟩⟩
            rw [Pics.core, Chip.acknowledge_core, hm', hs']
            rfl
      · have hin : inputOf i = i := if_pos hi
        rw [intAck_direct hreq hi2]
        refine ⟨i, by omega, by simp only [hbase], ⟨m₀, m₁, i₀ ||| inputBit i, i₁, r₀, r₁, ?_⟩,
          .inr ⟨by rw [hin]; exact hclear, by rw [hin]; rfl⟩⟩
        rw [Pics.core, Chip.acknowledge_core, hm, hs]
        rfl

/-- **One event.** -/
theorem Waning.event (h : Waning s) (e : Event) : ∃ s', step s e = some s' ∧ Waning s' := by
  cases e with
  | line l =>
      have hcore : (s.pics.device l).core = s.pics.core := s.pics.device_core l
      have hisr : (s.pics.device l).master.isr = s.pics.master.isr :=
        congrArg (fun c => c.1.isr) hcore
      refine ⟨_, rfl, h.configured.devices [l], ?_, h.order⟩
      simp only [hisr]
      exact h.served
  | interrupt late later =>
      by_cases hreq : s.pics.request.isSome
      · obtain ⟨n, hn, hvec, hconf, hisr⟩ := (h.configured.devices late).vector later
        have hsame : (s.pics.devices late).master.isr = s.pics.master.isr :=
          congrArg (fun c => c.1.isr) (s.pics.devices_core late)
        rw [hsame] at hisr
        have hirq : irqOfVector (32 + n) = some n := by
          rw [irqOfVector, if_pos (by omega), Nat.add_sub_cancel_left]
        refine ⟨irqHandler n { s with pics := (intAck later (s.pics.devices late)).2 }, ?_, hconf,
          fun k hk hk7 => ?_, ?_⟩
        · simp only [step, if_pos hreq, hvec, hirq, Option.map_some]
        · -- what was in service still is, and so is the new IRQ
          simp only [irqHandler] at hk ⊢
          rcases hisr with ⟨rfl, hisr⟩ | ⟨hclear, hisr⟩
          · rw [hisr]
            rcases List.mem_append.mp hk with hk | hk
            · exact h.served k hk hk7
            · exact absurd (List.mem_singleton.mp hk) hk7
          · rw [hisr, BitVec.getLsbD_or]
            rcases List.mem_append.mp hk with hk | hk
            · rw [h.served k hk hk7, Bool.true_or]
            · rw [List.mem_singleton.mp hk, getLsbD_inputBit]
              have hin : inputOf n < 8 := by
                unfold inputOf
                split_ifs <;> omega
              simp [hin]
        · simp only [irqHandler]
          rw [List.filter_append]
          rcases hisr with ⟨rfl, -⟩ | ⟨hclear, -⟩
          · simpa using h.order
          · refine List.pairwise_append.mpr ⟨h.order, ?_, fun a ha b hb => ?_⟩
            · exact (List.pairwise_singleton _ n).filter _
            · -- an input at or above one in service is not accepted
              obtain ⟨ha, ha7⟩ := List.mem_filter.mp ha
              obtain ⟨hb, -⟩ := List.mem_filter.mp hb
              rw [List.mem_singleton.mp hb]
              by_contra hc
              have := clearUpTo_iff.mp hclear (inputOf a) (by omega)
              rw [h.served a ha (by simpa using ha7)] at this
              cases this
      · exact ⟨s, if_neg hreq, h⟩

/-- **A run.** -/
theorem Waning.events (h : Waning s) (es : List Event) : ∃ s', run s es = some s' ∧ Waning s' := by
  induction es generalizing s with
  | nil => exact ⟨s, rfl, h⟩
  | cons e es ih =>
      obtain ⟨s₁, e₁, h₁⟩ := h.event e
      obtain ⟨s₂, e₂, h₂⟩ := ih h₁
      exact ⟨s₂, by rw [run, e₁]; exact e₂, h₂⟩

theorem interruptInit_configured : Configured (interruptInit p) := by
  refine ⟨0, 0, p.master.isr, p.slave.isr, false, false, ?_⟩
  unfold interruptInit
  rw [outb_slaveData, outb_masterData, picInit_core]
  rfl

theorem inputOf_ne_seven {n : ℕ} (h : n ≠ 7) : inputOf n ≠ 7 := by
  unfold inputOf
  split_ifs <;> omega

/-- A strictly decreasing sequence of numbers below `k` has at most `k` of them. -/
theorem decreasing_length {l : List ℕ} {k : ℕ} (h : l.Pairwise fun a b => b < a)
    (hl : ∀ a ∈ l, a < k) : l.length ≤ k := by
  induction l generalizing k with
  | nil => exact Nat.zero_le k
  | cons a l ih =>
      obtain ⟨ha, hrest⟩ := List.pairwise_cons.mp h
      have := ih hrest ha
      have := hl a List.mem_cons_self
      rw [List.length_cons]
      omega

/-- **The kernel takes at most seven hardware interrupts** and spurious ones: each is at an input of
the master above all the ones before, so that none comes twice, and all of the slave count as one. -/
theorem irqHandler_few (es : List Event) : ∃ s', run ⟨interruptInit p, []⟩ es = some s' ∧
    (s'.printed.filter (· ≠ 7)).Pairwise (fun a b => inputOf b < inputOf a) ∧
      (s'.printed.filter (· ≠ 7)).length ≤ 7 := by
  have hinit : Waning ⟨interruptInit p, []⟩ :=
    ⟨interruptInit_configured, by simp, List.Pairwise.nil⟩
  obtain ⟨s', hrun, h⟩ := hinit.events es
  refine ⟨s', hrun, h.order, ?_⟩
  have hmap : ((s'.printed.filter (· ≠ 7)).map inputOf).Pairwise fun a b => b < a :=
    List.pairwise_map.mpr h.order
  have hlen := decreasing_length (k := 7) hmap fun a ha => by
    obtain ⟨n, hn, rfl⟩ := List.mem_map.mp ha
    obtain ⟨hn, hn7⟩ := List.mem_filter.mp hn
    have hne := inputOf_ne_seven (n := n) (by simpa using hn7)
    have hlt : inputOf n < 8 := by
      unfold inputOf
      split_ifs <;> omega
    omega
  rwa [List.length_map] at hlen

end waning

end Dawos.Pic.Kernel
