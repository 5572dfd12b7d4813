import Dawos.Loop

/-! # The ports of an AHCI controller

`ahci_get_type` and `ahci_init_port`, as they are in `drivers/storage/ahci.c` and in
`kernel/bus/ahci.c`.  Both functions shift the mask of implemented ports by one in every round; the
driver of the storage directory counts the number of the port twice, and the one of the kernel once.
`portLoop` is the loop with the step of the port number as a parameter.

`ahci_init_port` says for which masks and ports the first of them finds the ports with a device, and
`kernel_ahci_init_port` that the second one always does. -/

namespace Dawos.Ahci

/-! ### The ports -/

def AHCI_DEV_NONE : ℕ := 0x00000000
def AHCI_DEV_SATA : ℕ := 0x00000101
def AHCI_DEV_SATAPI : ℕ := 0xEB140101
def AHCI_DEV_SEMB : ℕ := 0xC33C0101
def AHCI_DEV_PM : ℕ := 0x96690101

/-- The cells of `_ahci_dev`. -/
def AHCI_DEV_MAX : ℕ := 256

/-- The registers of a port that are looked at: `ssts.det`, `ssts.ipm` and `sig`. -/
structure AhciPort where
  det : ℕ
  ipm : ℕ
  sig : ℕ

/-- Check device type. -/
def ahciGetType (port : AhciPort) : ℕ :=
  if port.det ≠ 3 then AHCI_DEV_NONE
  else if port.ipm ≠ 1 then AHCI_DEV_NONE
  else if port.sig = AHCI_DEV_SATAPI ∨ port.sig = AHCI_DEV_SEMB ∨ port.sig = AHCI_DEV_PM then port.sig
  else AHCI_DEV_SATA

/-- The types of the devices that are stored. -/
def isDev (devType : ℕ) : Bool :=
  devType == AHCI_DEV_SATA || devType == AHCI_DEV_SATAPI || devType == AHCI_DEV_SEMB ||
    devType == AHCI_DEV_PM

/-- The cells of `_ahci_dev` that are in use, as many as `_ahci_dev_count` says. -/
structure DevTable (α : Type) where
  cells : List α
  le : cells.length ≤ AHCI_DEV_MAX

/-- Store a device into the next cell. -/
def DevTable.push {α : Type} (t : DevTable α) (dev : α) : Except Halt (DevTable α) :=
  if h : t.cells.length < AHCI_DEV_MAX then
    .ok ⟨t.cells ++ [dev], by rw [List.length_append, List.length_singleton]; omega⟩
  else .error .bounds

/-- The loop over the ports, with at most `n` rounds; the number `i` of the port grows by `d` in a
round. -/
def portLoop {σ : Type} (d : ℕ) (port : ℕ → AhciPort) (store : σ → ℕ → Except Halt σ) :
    ℕ → ℕ → ℕ → σ → Except Halt σ
  | 0, _, _, _ => .error .fuel
  | n + 1, ports, i, s =>
      if i < 32 then
        if ports &&& 1 ≠ 0 then
          if isDev (ahciGetType (port i)) then do
            let s ← store s i
            portLoop d port store n (ports >>> 1) (i + d) s
          else portLoop d port store n (ports >>> 1) (i + d) s
        else portLoop d port store n (ports >>> 1) (i + d) s
      else .ok s

/-- A device: its controller and its port. -/
structure AhciDev where
  hba : ℕ
  port : ℕ

/-- Find the devices of a controller; `i ++` stands in the head of the loop and in its body. -/
def ahciInitPort (hba pi : ℕ) (port : ℕ → AhciPort) (t : DevTable AhciDev) (n : ℕ) :
    Except Halt (DevTable AhciDev) :=
  portLoop 2 port (fun t i => t.push ⟨hba, i⟩) n pi 0 t

/-! ### What the loop finds -/

/-- The link of the port is up. -/
def LinkUp (port : AhciPort) : Prop := port.det = 3 ∧ port.ipm = 1

instance (port : AhciPort) : Decidable (LinkUp port) := instDecidableAnd

/-- The numbers of the implemented ports whose link is up. -/
def livePorts (pi : ℕ) (port : ℕ → AhciPort) : List ℕ :=
  (List.range 32).filter fun i => pi.testBit i ∧ LinkUp (port i)

/-- The numbers of the ports that the loop finds in the rounds `k` to `k + r - 1`. -/
def foundPorts (d pi : ℕ) (port : ℕ → AhciPort) (k r : ℕ) : List ℕ :=
  ((List.range' k r).filter fun k => pi.testBit k ∧ LinkUp (port (d * k))).map (d * ·)

section found

variable {σ α : Type} {d pi k r n hba : ℕ} {port : ℕ → AhciPort} {p : AhciPort}
  {store : σ → ℕ → Except Halt σ}

theorem isDev_iff : isDev (ahciGetType p) = true ↔ LinkUp p := by
  unfold ahciGetType LinkUp
  by_cases hd : p.det = 3
  · by_cases hi : p.ipm = 1
    · rw [if_neg (not_not.mpr hd), if_neg (not_not.mpr hi)]
      split_ifs with hs
      · rcases hs with h | h | h <;> rw [h] <;> simp [hd, hi, isDev]
      · simp [hd, hi, isDev]
    · rw [if_neg (not_not.mpr hd), if_pos hi]
      simp [hi, isDev, AHCI_DEV_NONE, AHCI_DEV_SATA, AHCI_DEV_SATAPI, AHCI_DEV_SEMB, AHCI_DEV_PM]
  · rw [if_pos hd]
    simp [hd, isDev, AHCI_DEV_NONE, AHCI_DEV_SATA, AHCI_DEV_SATAPI, AHCI_DEV_SEMB, AHCI_DEV_PM]

theorem low_bit : pi >>> k &&& 1 ≠ 0 ↔ pi.testBit k = true := by
  rw [Nat.testBit, Nat.and_comm]
  simp

/-- From round `k` on, the loop stores the ports that are found in the rounds that are left. -/
theorem portLoop_eq (pi : ℕ) (port : ℕ → AhciPort) (store : σ → ℕ → Except Halt σ) (hd : 0 < d)
    (hr : d * k + d * r = 32) (hn : r < n) (s : σ) :
    portLoop d port store n (pi >>> k) (d * k) s = (foundPorts d pi port k r).foldlM store s := by
  induction r generalizing n k s with
  | zero =>
      obtain ⟨n, rfl⟩ : ∃ i, n = i + 1 := ⟨n - 1, by omega⟩
      rw [portLoop, if_neg (by omega)]
      rfl
  | succ r ih =>
      obtain ⟨n, rfl⟩ : ∃ i, n = i + 1 := ⟨n - 1, by omega⟩
      rw [Nat.mul_succ] at hr
      have hnext : ∀ s, portLoop d port store n (pi >>> k >>> 1) (d * k + d) s =
          (foundPorts d pi port (k + 1) r).foldlM store s := fun s => by
        rw [← Nat.shiftRight_add, ← Nat.mul_succ]
        exact ih (by rw [Nat.mul_succ]; omega) (by omega) s
      rw [portLoop, if_pos (by omega), foundPorts, List.range'_succ, List.filter_cons]
      simp only [low_bit, isDev_iff, hnext]
      by_cases hb : pi.testBit k = true
      · by_cases hu : LinkUp (port (d * k))
        · simp only [hb, hu, and_self, decide_true, if_true, List.map_cons, List.foldlM_cons]
          rfl
        · simp only [hb, hu, and_false, decide_false, if_true, if_false, Bool.false_eq_true]
          rfl
      · simp only [hb, false_and, decide_false, if_false, Bool.false_eq_true]
        rfl

/-- Devices are stored as long as there is room. -/
theorem foldlM_push (mk : ℕ → α) (l : List ℕ) (t : DevTable α) :
    l.foldlM (fun t i => t.push (mk i)) t =
      if h : t.cells.length + l.length ≤ AHCI_DEV_MAX then
        .ok ⟨t.cells ++ l.map mk, by rw [List.length_append, List.length_map]; exact h⟩
      else .error .bounds := by
  induction l generalizing t with
  | nil =>
      rw [dif_pos (by simpa using t.le)]
      simp [pure, Except.pure]
  | cons i l ih =>
      rw [List.foldlM_cons, DevTable.push]
      by_cases hroom : t.cells.length < AHCI_DEV_MAX
      · rw [dif_pos hroom, ok_bind, ih]
        have hlen : (t.cells ++ [mk i]).length + l.length = t.cells.length + (i :: l).length := by
          simp only [List.length_append, List.length_cons, List.length_nil]
          omega
        simp only [hlen, List.append_assoc, List.map_cons, List.singleton_append]
      · rw [dif_neg hroom, dif_neg (by rw [List.length_cons]; omega)]
        rfl

/-- The loop appends the devices of these ports if and only if they are the ones it finds and there
is room for them. -/
theorem portLoop_appends {mk : ℕ → α} (hmk : Function.Injective mk) (hd : 0 < d) (hr : d * r = 32)
    (t : DevTable α) (l : List ℕ) :
    (∃ t', Returns (fun n => portLoop d port (fun t i => t.push (mk i)) n pi 0 t) t' ∧
      t'.cells = t.cells ++ l.map mk) ↔
      foundPorts d pi port 0 r = l ∧ t.cells.length + l.length ≤ AHCI_DEV_MAX := by
  have hloop : ∀ n, r < n → portLoop d port (fun t i => t.push (mk i)) n pi 0 t =
      (foundPorts d pi port 0 r).foldlM (fun t i => t.push (mk i)) t := fun n hn => by
    have h0 : d * 0 + d * r = 32 := by omega
    simpa using portLoop_eq pi port (fun t i => t.push (mk i)) hd h0 hn t
  constructor
  · rintro ⟨t', ht', hcells⟩
    obtain ⟨n, hn, hrn⟩ := (ht'.and (Filter.eventually_gt_atTop r)).exists
    have hok := (hloop n hrn).symm.trans hn
    rw [foldlM_push] at hok
    split_ifs at hok with hroom
    obtain rfl := Except.ok.inj hok
    have hl := List.map_injective_iff.mpr hmk (List.append_cancel_left hcells)
    exact ⟨hl, hl ▸ hroom⟩
  · rintro ⟨rfl, hroom⟩
    refine ⟨⟨t.cells ++ (foundPorts d pi port 0 r).map mk, ?_⟩, ?_, rfl⟩
    · rw [List.length_append, List.length_map]
      exact hroom
    · filter_upwards [Filter.eventually_gt_atTop r] with n hn
      rw [hloop n hn, foldlM_push, dif_pos hroom]

/-- Every second number, and whether a property holds of its half. -/
theorem filter_double (P : ℕ → Prop) [DecidablePred P] (n : ℕ) :
    ((List.range n).filter fun k => P k).map (2 * ·) =
      (List.range (2 * n)).filter fun i => i % 2 = 0 ∧ P (i / 2) := by
  induction n with
  | zero => rfl
  | succ n ih =>
      have hrange : List.range (2 * (n + 1)) = List.range (2 * n) ++ [2 * n, 2 * n + 1] := by
        rw [Nat.mul_succ, List.range_succ, List.range_succ, List.append_assoc]
        rfl
      rw [hrange, List.range_succ, List.filter_append, List.filter_append, List.map_append, ih]
      congr 1
      have h0 : 2 * n % 2 = 0 := by omega
      have h1 : (2 * n + 1) % 2 = 1 := by omega
      have h2 : 2 * n / 2 = n := by omega
      simp only [List.filter_cons, List.filter_nil, h0, h1, h2]
      by_cases hP : P n <;> simp [hP]

theorem AhciDev.mk_injective : Function.Injective (AhciDev.mk hba) := fun _ _ h =>
  congrArg AhciDev.port h

/-- The ports that the driver finds: even ones, for the bit of half their number. -/
theorem foundPorts_two : foundPorts 2 pi port 0 16 =
    (List.range 32).filter fun i => i % 2 = 0 ∧ pi.testBit (i / 2) ∧ LinkUp (port i) := by
  have h := filter_double (fun k => pi.testBit k ∧ LinkUp (port (2 * k))) 16
  rw [foundPorts, ← List.range_eq_range', h]
  refine List.filter_congr fun i _ => decide_eq_decide.mpr ?_
  refine and_congr_right fun h0 => ?_
  rw [show 2 * (i / 2) = i by omega]

/-- The condition on a mask and the ports with a link. -/
def HalfMask (pi : ℕ) (port : ℕ → AhciPort) : Prop :=
  ∀ i < 32, LinkUp (port i) → (pi.testBit i = true ↔ i % 2 = 0 ∧ pi.testBit (i / 2) = true)

theorem foundPorts_eq_live : foundPorts 2 pi port 0 16 = livePorts pi port ↔ HalfMask pi port := by
  rw [foundPorts_two, livePorts]
  constructor
  · intro h i hi hu
    have hmem := congrArg (i ∈ ·) h
    simp only [List.mem_filter, List.mem_range, hi, hu, and_true, true_and, decide_eq_true_eq] at hmem
    exact (iff_of_eq hmem).symm
  · intro h
    refine List.filter_congr fun i hi => decide_eq_decide.mpr ?_
    have hi' := List.mem_range.mp hi
    constructor
    · rintro ⟨h0, hb, hu⟩
      exact ⟨(h i hi' hu).mpr ⟨h0, hb⟩, hu⟩
    · rintro ⟨hb, hu⟩
      obtain ⟨h0, hb'⟩ := (h i hi' hu).mp hb
      exact ⟨h0, hb', hu⟩

/-- **The driver appends the implemented ports with a link, if and only if of the ports with a link
just those are implemented that are even and have the bit of half their number set in the mask, and
there is room for the devices.** -/
theorem ahci_init_port (hba pi : ℕ) (port : ℕ → AhciPort) (t : DevTable AhciDev) :
    (∃ t', Returns (ahciInitPort hba pi port t) t' ∧
      t'.cells = t.cells ++ (livePorts pi port).map (AhciDev.mk hba)) ↔
      HalfMask pi port ∧ t.cells.length + (livePorts pi port).length ≤ AHCI_DEV_MAX := by
  rw [← foundPorts_eq_live]
  exact portLoop_appends AhciDev.mk_injective (by omega) rfl t _

end found

/-- A disk at port 1, and no link at the other ports. -/
def diskAtOne (i : ℕ) : AhciPort := if i = 1 then ⟨3, 1, AHCI_DEV_SATA⟩ else ⟨0, 0, 0⟩

/-- Bit 1 is tested for port 2, and the disk is not found. -/
theorem ahci_init_port_missed : ¬ ∃ t', Returns (ahciInitPort 0xFEBF0000 2 diskAtOne ⟨[], by decide⟩) t' ∧
    t'.cells = [] ++ (livePorts 2 diskAtOne).map (AhciDev.mk 0xFEBF0000) := fun h => by
  have hfound := (portLoop_appends (d := 2) (r := 16) AhciDev.mk_injective (by omega) rfl
    ⟨[], by decide⟩ _).mp h
  exact absurd hfound.1 (by decide +kernel)

end Dawos.Ahci

/-! ### The driver of the kernel -/

namespace Dawos.Kernel

open Ahci

/-- The fields of the PCI device that are copied. -/
structure PciDevice where
  intPin : ℕ
  intLine : ℕ
  command : ℕ
  status : ℕ

/-- A device of the kernel's driver. -/
structure AhciDev where
  hba : ℕ
  port : ℕ
  intPin : ℕ
  intLine : ℕ
  cmd : ℕ
  sts : ℕ

/-- `hba->ghc.ae`, `hba->ghc.ie` and the devices. -/
structure AhciState where
  ae : ℕ
  ie : ℕ
  devs : DevTable AhciDev

/-- Initialize AHCI mode, and store a device. -/
def ahciStore (hba : ℕ) (dev : PciDevice) (s : AhciState) (i : ℕ) : Except Halt AhciState := do
  let devs ← s.devs.push ⟨hba, i, dev.intPin, dev.intLine, dev.command, dev.status⟩
  .ok ⟨1, 1, devs⟩

/-- Find the devices of a controller. -/
def ahciInitPort (hba pi : ℕ) (port : ℕ → AhciPort) (dev : PciDevice) (s : AhciState) (n : ℕ) :
    Except Halt AhciState :=
  portLoop 1 port (ahciStore hba dev) n pi 0 s

section kernel

variable {hba pi : ℕ} {port : ℕ → AhciPort} {dev : PciDevice}

theorem foldlM_store (l : List ℕ) (s : AhciState)
    (hroom : s.devs.cells.length + l.length ≤ AHCI_DEV_MAX) :
    ∃ s', l.foldlM (ahciStore hba dev) s = .ok s' ∧ s'.devs.cells = s.devs.cells ++
      l.map fun i => ⟨hba, i, dev.intPin, dev.intLine, dev.command, dev.status⟩ := by
  induction l generalizing s with
  | nil => exact ⟨s, rfl, (List.append_nil _).symm⟩
  | cons i l ih =>
      rw [List.length_cons] at hroom
      rw [List.foldlM_cons, ahciStore, DevTable.push, dif_pos (by omega)]
      obtain ⟨s', hs', hcells⟩ := ih ⟨1, 1, ⟨s.devs.cells ++
        [⟨hba, i, dev.intPin, dev.intLine, dev.command, dev.status⟩], _⟩⟩
        (by rw [List.length_append, List.length_singleton]; omega)
      exact ⟨s', hs', by rw [hcells, List.append_assoc]; rfl⟩

/-- The kernel's driver appends the implemented ports with a link, as long as there is room. -/
theorem kernel_ahci_init_port (s : AhciState)
    (hroom : s.devs.cells.length + (livePorts pi port).length ≤ AHCI_DEV_MAX) :
    ∃ s', Returns (ahciInitPort hba pi port dev s) s' ∧ s'.devs.cells = s.devs.cells ++
      (livePorts pi port).map fun i => ⟨hba, i, dev.intPin, dev.intLine, dev.command, dev.status⟩ := by
  have hfound : foundPorts 1 pi port 0 32 = livePorts pi port := by
    rw [foundPorts, livePorts, List.range_eq_range']
    simp
  obtain ⟨s', hs', hcells⟩ := foldlM_store (livePorts pi port) s hroom
  refine ⟨s', ?_, hcells⟩
  filter_upwards [Filter.eventually_gt_atTop 32] with n hn
  have hloop := portLoop_eq (k := 0) pi port (ahciStore hba dev) Nat.one_pos rfl hn s
  rw [hfound, hs'] at hloop
  simpa [ahciInitPort] using hloop

end kernel

end Dawos.Kernel
