import Dawos.Ata
import Dawos.Pci

/-! # The IDE channels

`ata_init` of `ata.c` up to the search for drives, with the lookup functions of `pci.c`.  It counts
the IDE controllers in the PCI cache, and for each of them reads the base address registers of a
controller and adds its two channels to the table `_ide_chan`.

The controller it looks up is always the first one.  `ata_init_iff` says when this makes no
difference. -/

namespace Dawos

/-! ### Lookups in the cache -/

/-- The entry has the class and subclass. -/
def PciCache.IsClass (e : PciCache) (classId subclassId : ℕ) : Prop :=
  e.classId = classId ∧ e.subclassId = subclassId

instance (e : PciCache) (classId subclassId : ℕ) : Decidable (e.IsClass classId subclassId) :=
  inferInstanceAs (Decidable (_ ∧ _))

/-- Get the number of devices represented by a class and subclass. -/
def pciNumDevice (cache : List PciCache) (classId subclassId : ℕ) : ℕ :=
  cache.foldl (fun x e => if e.IsClass classId subclassId then (x + 1) % 2 ^ 8 else x) 0

/-- The search for the device with an index, when `x` devices have been seen. -/
def pciFindDevice (classId subclassId idx : ℕ) : List PciCache → ℕ → Option ℕ
  | [], _ => none
  | e :: cache, x =>
      if e.IsClass classId subclassId then
        if x = idx then some e.address
        else pciFindDevice classId subclassId idx cache ((x + 1) % 2 ^ 8)
      else pciFindDevice classId subclassId idx cache x

/-- Locate PCI device by class and subclass. -/
def pciGetDevice (cache : List PciCache) (classId subclassId idx : ℕ) : Option ℕ :=
  pciFindDevice classId subclassId idx cache 0

/-- Assign the register number of an address. -/
def setReg (addr reg : ℕ) : ℕ := addr / 2 ^ 8 * 2 ^ 8 + reg % 2 ^ 6 * 2 ^ 2 + addr % 2 ^ 2

/-- The base address registers in the configuration of a device, dwords 4 to 9 of it. -/
def pciBar (cfg : PciSpace) (addr i : ℕ) : ℕ := pciRead cfg (setReg addr (4 + i))

/-! ### The channels -/

/-- `_ide_chan` and `_ide_chan_count`. -/
structure IdeTable where
  chan : ℕ → IdeChan
  count : ℕ

/-- An I/O address: the register without its low two bits, or the default address if it is zero. -/
def idePort (bar dflt : ℕ) : ℕ := ((bar &&& 0xFFFFFFFC) + dflt * (if bar = 0 then 1 else 0)) % 2 ^ 16

/-- The primary channel. -/
def idePrimary (bar : ℕ → ℕ) : IdeChan where
  base := idePort (bar 0) 0x1F0
  control := idePort (bar 1) 0x3F6
  bmide := ((bar 4 &&& 0xFFFFFFFC) + 0) % 2 ^ 16
  noInt := 0

/-- The secondary channel. -/
def ideSecondary (bar : ℕ → ℕ) : IdeChan where
  base := idePort (bar 2) 0x170
  control := idePort (bar 3) 0x376
  bmide := ((bar 4 &&& 0xFFFFFFFC) + 8) % 2 ^ 16
  noInt := 0

/-- Add a channel; the count has eight bits. -/
def IdeTable.add (t : IdeTable) (c : IdeChan) : IdeTable :=
  ⟨Function.update t.chan t.count c, (t.count + 1) % 2 ^ 8⟩

/-- Initialize IDE controller. -/
def ataInitIde (t : IdeTable) (bar : ℕ → ℕ) : IdeTable :=
  (t.add (idePrimary bar)).add (ideSecondary bar)

/-- One round of the loop over the controllers. -/
def ataInitRound (cfg : PciSpace) (cache : List PciCache) (t : IdeTable) : IdeTable :=
  -- the index is 0 in every round
  match pciGetDevice cache 0x01 0x01 0 with
  | some addr => ataInitIde t (pciBar cfg addr)
  | none => t

/-- The channel table of `ata_init`, which the search for drives leaves as it is. -/
def ataInit (cfg : PciSpace) (cache : List PciCache) : IdeTable :=
  (List.range (pciNumDevice cache 0x01 0x01)).foldl (fun t _ => ataInitRound cfg cache t)
    ⟨fun _ => ⟨0, 0, 0, 0⟩, 0⟩

/-! ### What is found -/

/-- The IDE controllers in the cache. -/
def ideControllers (cache : List PciCache) : List PciCache := cache.filter fun e => e.IsClass 0x01 0x01

/-- The base address registers of a controller. -/
def ideBars (cfg : PciSpace) (e : PciCache) : ℕ → ℕ := pciBar cfg e.address

/-- The table holds two channels for each controller, in order. -/
structure HoldsChannels (cfg : PciSpace) (es : List PciCache) (t : IdeTable) : Prop where
  count : t.count = 2 * es.length
  primary : ∀ k, (h : k < es.length) → t.chan (2 * k) = idePrimary (ideBars cfg es[k])
  secondary : ∀ k, (h : k < es.length) → t.chan (2 * k + 1) = ideSecondary (ideBars cfg es[k])

/-- Two controllers whose registers give the same channels. -/
def SameChannels (cfg : PciSpace) (e e' : PciCache) : Prop :=
  idePrimary (ideBars cfg e) = idePrimary (ideBars cfg e') ∧
    ideSecondary (ideBars cfg e) = ideSecondary (ideBars cfg e')

section channels

variable {cfg : PciSpace} {cache : List PciCache} {classId subclassId n : ℕ} {t : IdeTable}
  {bar : ℕ → ℕ}

theorem pciNumDevice_eq (h : cache.length < 2 ^ 8) : pciNumDevice cache classId subclassId =
    (cache.filter fun e => e.IsClass classId subclassId).length := by
  suffices hx : ∀ x, x + cache.length < 2 ^ 8 →
      cache.foldl (fun x e => if e.IsClass classId subclassId then (x + 1) % 2 ^ 8 else x) x =
        x + (cache.filter fun e => e.IsClass classId subclassId).length by
    unfold pciNumDevice
    rw [hx 0 (by omega), Nat.zero_add]
  clear h
  induction cache with
  | nil => exact fun x _ => rfl
  | cons e cache ih =>
      intro x hx
      rw [List.length_cons] at hx
      rw [List.foldl_cons, List.filter_cons]
      by_cases he : e.IsClass classId subclassId
      · rw [if_pos he, if_pos (decide_eq_true he), Nat.mod_eq_of_lt (by omega), ih (x + 1) (by omega),
          List.length_cons]
        omega
      · rw [if_neg he, if_neg (by simpa using he), ih x (by omega)]

/-- Index 0 is the first device. -/
theorem pciGetDevice_zero : pciGetDevice cache classId subclassId 0 =
    ((cache.filter fun e => e.IsClass classId subclassId).head?).map PciCache.address := by
  unfold pciGetDevice
  induction cache with
  | nil => rfl
  | cons e cache ih =>
      rw [pciFindDevice, List.filter_cons]
      by_cases he : e.IsClass classId subclassId
      · rw [if_pos he, if_pos rfl, if_pos (decide_eq_true he)]
        rfl
      · rw [if_neg he, if_neg (by simpa using he), ih]

/-- Adding the channels of one controller again and again. -/
theorem ataInitIde_iterate (bar : ℕ → ℕ) (n : ℕ) :
    ((fun t => ataInitIde t bar)^[n] ⟨fun _ => ⟨0, 0, 0, 0⟩, 0⟩).count = 2 * n % 2 ^ 8 ∧
      (n < 128 → ∀ k < n,
        ((fun t => ataInitIde t bar)^[n] ⟨fun _ => ⟨0, 0, 0, 0⟩, 0⟩).chan (2 * k) = idePrimary bar ∧
        ((fun t => ataInitIde t bar)^[n] ⟨fun _ => ⟨0, 0, 0, 0⟩, 0⟩).chan (2 * k + 1) =
          ideSecondary bar) := by
  induction n with
  | zero => exact ⟨rfl, fun _ k hk => absurd hk (Nat.not_lt_zero k)⟩
  | succ n ih =>
      rw [Function.iterate_succ_apply']
      generalize (fun t => ataInitIde t bar)^[n] ⟨fun _ => ⟨0, 0, 0, 0⟩, 0⟩ = t at ih ⊢
      obtain ⟨hcount, hchan⟩ := ih
      refine ⟨?_, fun hn k hk => ?_⟩
      · show ((t.count + 1) % 2 ^ 8 + 1) % 2 ^ 8 = _
        omega
      · have h1 : t.count = 2 * n := by omega
        have h2 : (t.count + 1) % 2 ^ 8 = 2 * n + 1 := by omega
        show Function.update (Function.update t.chan t.count (idePrimary bar))
            ((t.count + 1) % 2 ^ 8) (ideSecondary bar) (2 * k) = _ ∧
          Function.update (Function.update t.chan t.count (idePrimary bar))
            ((t.count + 1) % 2 ^ 8) (ideSecondary bar) (2 * k + 1) = _
        rw [h2, h1]
        by_cases he : k = n
        · subst he
          rw [Function.update_of_ne (by omega), Function.update_self, Function.update_self]
          exact ⟨rfl, rfl⟩
        · rw [Function.update_of_ne (by omega), Function.update_of_ne (by omega),
            Function.update_of_ne (by omega), Function.update_of_ne (by omega)]
          exact hchan (by omega) k (by omega)

/-- The first controller is set up once for each controller. -/
theorem ataInit_eq {e : PciCache} {es : List PciCache} (h : cache.length < 2 ^ 8)
    (hes : ideControllers cache = e :: es) : ataInit cfg cache =
      (fun t => ataInitIde t (ideBars cfg e))^[(e :: es).length] ⟨fun _ => ⟨0, 0, 0, 0⟩, 0⟩ := by
  have hnum : pciNumDevice cache 0x01 0x01 = (e :: es).length := by
    rw [pciNumDevice_eq h, ← hes]
    rfl
  have hget : pciGetDevice cache 0x01 0x01 0 = some e.address := by
    rw [pciGetDevice_zero]
    exact congrArg (fun l => (List.head? l).map PciCache.address) hes
  have hround : ∀ t, ataInitRound cfg cache t = ataInitIde t (ideBars cfg e) := fun t => by
    unfold ataInitRound
    rw [hget]
    rfl
  unfold ataInit
  rw [hnum, List.foldl_const, List.length_range]
  exact congrArg (fun f : IdeTable → IdeTable => f^[(e :: es).length] _) (funext hround)

/-- **The channel table holds two channels for each controller in the cache iff there are less than
128 of them, and the registers of all of them give the same channels.** -/
theorem ata_init_iff (cfg : PciSpace) (cache : List PciCache) (h : cache.length < 2 ^ 8) :
    HoldsChannels cfg (ideControllers cache) (ataInit cfg cache) ↔
      (ideControllers cache).length < 128 ∧
        ∀ e ∈ ideControllers cache, ∀ e' ∈ ideControllers cache, SameChannels cfg e e' := by
  have hle : (ideControllers cache).length ≤ cache.length := List.length_filter_le _ _
  cases hes : ideControllers cache with
  | nil =>
      have hnum : pciNumDevice cache 0x01 0x01 = 0 := by
        rw [pciNumDevice_eq h]
        exact congrArg List.length hes
      have ht : ataInit cfg cache = ⟨fun _ => ⟨0, 0, 0, 0⟩, 0⟩ := by
        unfold ataInit
        rw [hnum]
        rfl
      rw [ht]
      refine iff_of_true ⟨rfl, fun k hk => absurd hk (Nat.not_lt_zero k),
        fun k hk => absurd hk (Nat.not_lt_zero k)⟩ ⟨by norm_num, fun e he => ?_⟩
      exact absurd he List.not_mem_nil
  | cons e es =>
      rw [hes] at hle
      rw [ataInit_eq h hes]
      obtain ⟨hcount, hchan⟩ := ataInitIde_iterate (ideBars cfg e) (e :: es).length
      generalize (fun t => ataInitIde t (ideBars cfg e))^[(e :: es).length]
        ⟨fun _ => ⟨0, 0, 0, 0⟩, 0⟩ = t at hcount hchan
      constructor
      · rintro ⟨hc, hp, hs⟩
        have hlt : (e :: es).length < 128 := by omega
        have hfirst : ∀ e' ∈ e :: es, SameChannels cfg e' e := by
          intro e' he'
          obtain ⟨k, hk, rfl⟩ := List.getElem_of_mem he'
          exact ⟨(hp k hk).symm.trans (hchan hlt k hk).1, (hs k hk).symm.trans (hchan hlt k hk).2⟩
        refine ⟨hlt, fun e₁ h₁ e₂ h₂ => ?_⟩
        exact ⟨(hfirst e₁ h₁).1.trans (hfirst e₂ h₂).1.symm,
          (hfirst e₁ h₁).2.trans (hfirst e₂ h₂).2.symm⟩
      · rintro ⟨hlt, hsame⟩
        refine ⟨by omega, fun k hk => ?_, fun k hk => ?_⟩
        · exact (hchan hlt k hk).1.trans (hsame e List.mem_cons_self _ (List.getElem_mem hk)).1
        · exact (hchan hlt k hk).2.trans (hsame e List.mem_cons_self _ (List.getElem_mem hk)).2

end channels

/-! ### Two controllers -/

/-- An IDE controller in a slot of bus 0. -/
def ideEntry (device : ℕ) : PciCache := ⟨pciAddr 0 device 0 0, 0x8086, 0x7010, 0x01, 0x01, 0x80, 0⟩

/-- The registers of the device in slot 1 are zero, those of the others are not. -/
def twoIde : PciSpace := fun addr => if addr < pciAddr 0 2 0 0 then 0 else 0xC001

/-- Two controllers in legacy mode, with a bridge between them. -/
def legacyCache : List PciCache :=
  [ideEntry 0, ⟨pciAddr 0 0 1 0, 0x8086, 0x7000, 0x06, 0x01, 0, 0⟩, ideEntry 1]

/-- The default addresses are right for both controllers. -/
theorem ata_init_legacy : (ideControllers legacyCache).length = 2 ∧
    HoldsChannels twoIde (ideControllers legacyCache) (ataInit twoIde legacyCache) := by
  have hes : ideControllers legacyCache = [ideEntry 0, ideEntry 1] := rfl
  have hzero : ∀ e ∈ ideControllers legacyCache,
      idePrimary (ideBars twoIde e) = ⟨0x1F0, 0x3F6, 0, 0⟩ ∧
        ideSecondary (ideBars twoIde e) = ⟨0x170, 0x376, 8, 0⟩ := by
    rw [hes]
    decide +kernel
  refine ⟨rfl, (ata_init_iff twoIde legacyCache (by decide)).mpr ⟨by decide, fun e he e' he' => ?_⟩⟩
  obtain ⟨h1, h2⟩ := hzero e he
  obtain ⟨h1', h2'⟩ := hzero e' he'
  exact ⟨h1.trans h1'.symm, h2.trans h2'.symm⟩

/-- The first controller is set up twice and the second one never. -/
theorem ata_init_skips : ∃ cfg cache, cache.length < 2 ^ 8 ∧
    ¬ HoldsChannels cfg (ideControllers cache) (ataInit cfg cache) := by
  refine ⟨twoIde, [ideEntry 1, ideEntry 2], by decide, fun h => ?_⟩
  have hbase : ((ataInit twoIde [ideEntry 1, ideEntry 2]).chan 2).base = 0x1F0 ∧
      (idePrimary (ideBars twoIde (ideEntry 2))).base = 0xC000 := by
    decide +kernel
  have hsecond := congrArg IdeChan.base (h.primary 1 (by decide))
  rw [hbase.1] at hsecond
  exact absurd (hsecond.trans hbase.2) (by decide)

end Dawos
