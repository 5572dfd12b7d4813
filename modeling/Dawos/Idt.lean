import Dawos.IntStub
import Dawos.Irq

/-! # The interrupt descriptor table

`interrupt_init` of the loader and of the kernel fills the table that the processor looks an interrupt
up in.  The two structures of an entry differ only in the names of their fields (`idtSetEntry_kernel`).

`interruptInit_gates` reads the table back as the processor does: the gates of the vectors below 48
lead to their routines, and the others are not present. -/

namespace Dawos.Idt

/-! ### The tables in memory -/

/-- `sizeof(idt_entry_t)`. -/
def ENTRY_SIZE : ℕ := 16

/-- The entry of a vector in the table at `idt`. -/
def entry (idt num : ℕ) : ℕ := idt + ENTRY_SIZE * num

/-- `idt_set_entry` of the loader. -/
def idtSetEntry (idt : ℕ) (m : Mem) (num addr flags : ℕ) : Mem :=
  let e := entry idt num
  let m := wrN m 2 e (addr &&& 0xFFFF)
  let m := wrN m 2 (e + 6) (addr >>> 16 &&& 0xFFFF)
  let m := wrN m 4 (e + 8) (addr >>> 32 &&& 0xFFFFFFFFF)
  -- Allways a code selector
  let m := wrN m 2 (e + 2) 0x08
  let m := wrN m 1 (e + 5) flags
  let m := wrN m 1 (e + 4) 0
  wrN m 4 (e + 12) 0

/-- `idt_set_entry` of the kernel, where the type is the upper byte of the flags. -/
def Kernel.idtSetEntry (idt : ℕ) (m : Mem) (num addr flags : ℕ) : Mem :=
  let e := entry idt num
  let m := wrN m 2 e (addr &&& 0xFFFF)
  let m := wrN m 2 (e + 6) (addr >>> 16 &&& 0xFFFF)
  let m := wrN m 4 (e + 8) (addr >>> 32 &&& 0xFFFFFFFFF)
  let m := wrN m 2 (e + 2) 0x08
  let m := wrN m 2 (e + 4) flags
  wrN m 4 (e + 12) 0

/-- Where the variables of the loader are: `idt`, `idt_ptr`, `isr_handlers` and `irq_handlers`. -/
structure Globals where
  idt : ℕ
  idtPtr : ℕ
  isrHandlers : ℕ
  irqHandlers : ℕ

/-- The calls of `idt_set_entry` for the vectors below `n`; `addr` has the addresses of the routines. -/
def setEntries (set : Mem → ℕ → ℕ → Mem) (addr : ℕ → ℕ) (m : Mem) (n : ℕ) : Mem :=
  (List.range n).foldl (fun m v => set m v (addr v)) m

/-- `interrupt_init` of the loader, up to `idt_set`. -/
def interruptInit (g : Globals) (addr : ℕ → ℕ) (m : Mem) : Mem :=
  let m := fill m g.idt 0 (ENTRY_SIZE * 256)
  let m := fill m g.idtPtr 0 10
  let m := fill m g.isrHandlers 0 (8 * 256)
  let m := fill m g.irqHandlers 0 (8 * 16)
  let m := setEntries (fun m v a => idtSetEntry g.idt m v a 0x8E) addr m 48
  let m := wrN m 2 g.idtPtr (ENTRY_SIZE * 256 - 1)
  wr m (g.idtPtr + 2) g.idt

/-- `interrupt_init` of the kernel without its accesses to the interrupt controllers, up to
`idt_set`. -/
def Kernel.interruptInit (g : Globals) (addr : ℕ → ℕ) (m : Mem) : Mem :=
  let m := fill m g.idt 0 (ENTRY_SIZE * 256)
  let m := setEntries (fun m v a => Kernel.idtSetEntry g.idt m v a 0x8E00) addr m 48
  let m := wrN m 2 g.idtPtr (ENTRY_SIZE * 256 - 1)
  wr m (g.idtPtr + 2) g.idt

/-! ### The table as the processor reads it -/

/-- A gate. -/
structure Gate where
  offset : ℕ
  selector : ℕ
  ist : ℕ
  type : ℕ
  dpl : ℕ
  present : Bool
deriving DecidableEq, Repr

/-- The gate in the 16 bytes at `e`. -/
def decode (m : Mem) (e : ℕ) : Gate where
  offset := rdN m 2 e + 2 ^ 16 * rdN m 2 (e + 6) + 2 ^ 32 * rdN m 4 (e + 8)
  selector := rdN m 2 (e + 2)
  ist := rdN m 1 (e + 4) % 8
  type := rdN m 1 (e + 5) % 16
  dpl := rdN m 1 (e + 5) / 32 % 4
  present := rdN m 1 (e + 5) / 128 = 1

/-- The gate of a vector, if it is inside the limit; `ptr` is the operand of `lidt`. -/
def lookup (m : Mem) (ptr v : ℕ) : Option Gate :=
  if ENTRY_SIZE * v + 15 ≤ rdN m 2 ptr then some (decode m (rd m (ptr + 2) + ENTRY_SIZE * v)) else none

/-- A present 64-bit interrupt gate in the code segment. -/
def interruptGate (addr : ℕ) : Gate := ⟨addr, 0x08, 0, 0xE, 0, true⟩

/-- A gate that is not present. -/
def noGate : Gate := ⟨0, 0, 0, 0, 0, false⟩

/-! ### One entry -/

section entry

variable {m m' : Mem} {idt num addr flags e v n : ℕ} {g : Globals}

/-- A word whose low byte is zero may be stored as two bytes. -/
theorem wrN_flags {a : ℕ} : wrN m 2 a (2 ^ 8 * flags) = wrN (wrN m 1 (a + 1) flags) 1 a 0 := by
  funext x
  unfold wrN
  rcases Nat.lt_trichotomy x a with h | rfl | h
  · rw [if_neg (by omega), if_neg (by omega), if_neg (by omega)]
  · rw [if_pos (by omega), if_pos (by omega), Nat.sub_self, Nat.pow_zero, Nat.div_one]
    apply UInt8.toNat_inj.mp
    simp
  · by_cases hx : x = a + 1
    · subst hx
      have e₁ : a + 1 - a = 1 := by omega
      rw [if_pos (by omega), if_neg (by omega), if_pos (by omega), e₁, Nat.sub_self, Nat.pow_zero,
        Nat.div_one, Nat.pow_one]
      congr 1
      omega
    · rw [if_neg (by omega), if_neg (by omega), if_neg (by omega)]

/-- The two ways to write the flags. -/
theorem idtSetEntry_kernel :
    Kernel.idtSetEntry idt m num addr (2 ^ 8 * flags) = idtSetEntry idt m num addr flags := by
  simp only [Kernel.idtSetEntry, idtSetEntry, wrN_flags]

theorem idtSetEntry_off {x : ℕ} (h : x < entry idt num ∨ entry idt num + ENTRY_SIZE ≤ x) :
    idtSetEntry idt m num addr flags x = m x := by
  unfold ENTRY_SIZE at h
  unfold idtSetEntry
  simp (disch := omega) only [wrN_off]

theorem decode_congr (h : ∀ x, e ≤ x → x < e + ENTRY_SIZE → m' x = m x) : decode m' e = decode m e := by
  have hrd : ∀ {k a}, e ≤ a → a + k ≤ e + ENTRY_SIZE → rdN m' k a = rdN m k a :=
    fun h1 h2 => rdN_congr fun x hx1 hx2 => h x (by omega) (by omega)
  unfold ENTRY_SIZE at hrd
  unfold decode
  simp (disch := omega) only [hrd]

/-- **An entry reads back** as the gate to its address. -/
theorem decode_idtSetEntry (ha : addr < 2 ^ 64) :
    decode (idtSetEntry idt m num addr 0x8E) (entry idt num) = interruptGate addr := by
  have h₀ : addr &&& 0xFFFF = addr % 2 ^ 16 := Nat.and_two_pow_sub_one_eq_mod addr 16
  have h₁ : addr >>> 16 &&& 0xFFFF = addr / 2 ^ 16 % 2 ^ 16 := by
    rw [Nat.shiftRight_eq_div_pow]
    exact Nat.and_two_pow_sub_one_eq_mod _ 16
  have h₂ : addr >>> 32 &&& 0xFFFFFFFFF = addr / 2 ^ 32 % 2 ^ 36 := by
    rw [Nat.shiftRight_eq_div_pow]
    exact Nat.and_two_pow_sub_one_eq_mod _ 36
  have hoffset : addr % 2 ^ 16 % 256 ^ 2 + 2 ^ 16 * (addr / 2 ^ 16 % 2 ^ 16 % 256 ^ 2) +
      2 ^ 32 * (addr / 2 ^ 32 % 2 ^ 36 % 256 ^ 4) = addr := by
    norm_num
    omega
  unfold decode idtSetEntry interruptGate
  simp (disch := omega) only [rdN_wrN_apart, rdN_wrN_same, h₀, h₁, h₂, hoffset]
  rfl

end entry

/-! ### The whole table -/

section table

variable {m : Mem} {idt v n : ℕ} {addr : ℕ → ℕ} {g : Globals}

theorem setEntries_succ (set : Mem → ℕ → ℕ → Mem) :
    setEntries set addr m (n + 1) = set (setEntries set addr m n) n (addr n) := by
  rw [setEntries, List.range_succ, List.foldl_append]
  rfl

/-- The entries below `n` are set, and the others are as they were. -/
theorem setEntries_decode (haddr : ∀ v < n, addr v < 2 ^ 64) :
    decode (setEntries (fun m v a => idtSetEntry idt m v a 0x8E) addr m n) (entry idt v) =
      if v < n then interruptGate (addr v) else decode m (entry idt v) := by
  induction n with
  | zero => rfl
  | succ n ih =>
      rw [setEntries_succ]
      by_cases hv : v = n
      · subst hv
        rw [if_pos (Nat.lt_succ_self v)]
        exact decode_idtSetEntry (haddr v (Nat.lt_succ_self v))
      · rw [decode_congr fun x hx1 hx2 => idtSetEntry_off (by unfold entry ENTRY_SIZE at *; omega),
          ih fun v hv => haddr v (by omega)]
        split_ifs
        all_goals first | rfl | omega

/-- The globals that are written last do not overlap. -/
def Globals.Apart (g : Globals) : Prop :=
  g.idtPtr + 10 ≤ g.idt ∨ g.idt + ENTRY_SIZE * 256 ≤ g.idtPtr

/-- The last stores of `interrupt_init`: the pointer to the table. -/
theorem lookup_ptr {M : Mem} (hg : g.Apart) (hidt : g.idt < 2 ^ 64) :
    lookup (wr (wrN M 2 g.idtPtr (ENTRY_SIZE * 256 - 1)) (g.idtPtr + 2) g.idt) g.idtPtr v =
      if v < 256 then some (decode M (entry g.idt v)) else none := by
  have hlimit : rdN (wr (wrN M 2 g.idtPtr (ENTRY_SIZE * 256 - 1)) (g.idtPtr + 2) g.idt) 2 g.idtPtr =
      ENTRY_SIZE * 256 - 1 := by
    unfold wr
    rw [rdN_wrN_apart _ _ (by omega), rdN_wrN_same]
    rfl
  have hbase : rd (wr (wrN M 2 g.idtPtr (ENTRY_SIZE * 256 - 1)) (g.idtPtr + 2) g.idt) (g.idtPtr + 2) =
      g.idt := by
    rw [rd_wr_same, Nat.mod_eq_of_lt hidt]
  unfold lookup
  rw [hlimit, hbase]
  by_cases hv : v < 256
  · rw [if_pos (by unfold ENTRY_SIZE; omega), if_pos hv]
    refine congrArg some (decode_congr fun x hx1 hx2 => ?_)
    unfold Globals.Apart ENTRY_SIZE at *
    rw [wr_off _ _ (by omega), wrN_off _ _ (by omega)]
  · rw [if_neg (by unfold ENTRY_SIZE; omega), if_neg hv]

/-- An entry of a table that is zero. -/
theorem decode_zero {e : ℕ} (h : ∀ x, e ≤ x → x < e + ENTRY_SIZE → m x = 0) : decode m e = noGate := by
  have hrd : ∀ {k a}, e ≤ a → a + k ≤ e + ENTRY_SIZE → rdN m k a = 0 := by
    intro k
    induction k with
    | zero => exact fun _ _ => rfl
    | succ k ih =>
        intro a h1 h2
        rw [rdN, h a h1 (by omega), ih (by omega) (by omega)]
        rfl
  unfold ENTRY_SIZE at hrd
  unfold decode
  simp (disch := omega) only [hrd]
  rfl

/-- `interrupt_init` of the kernel leaves the table of the loader. -/
theorem setEntries_kernel :
    setEntries (fun m v a => Kernel.idtSetEntry idt m v a 0x8E00) addr m n =
      setEntries (fun m v a => idtSetEntry idt m v a 0x8E) addr m n := by
  have hset : (fun m v a => Kernel.idtSetEntry idt m v a 0x8E00) =
      fun m v a => idtSetEntry idt m v a 0x8E := by
    funext m v a
    exact (idtSetEntry_kernel : Kernel.idtSetEntry idt m v a (2 ^ 8 * 0x8E) = _)
  rw [hset]

/-- What the table is to have for a vector. -/
def gateOf (addr : ℕ → ℕ) (v : ℕ) : Option Gate :=
  if v < 48 then some (interruptGate (addr v)) else if v < 256 then some noGate else none

/-- A table that was zero before its entries were set. -/
theorem lookup_setEntries {M : Mem} (hg : g.Apart) (hidt : g.idt < 2 ^ 64)
    (haddr : ∀ v < 48, addr v < 2 ^ 64)
    (hM : ∀ x, g.idt ≤ x → x < g.idt + ENTRY_SIZE * 256 → M x = 0) :
    lookup (wr (wrN (setEntries (fun m v a => idtSetEntry g.idt m v a 0x8E) addr M 48) 2 g.idtPtr
      (ENTRY_SIZE * 256 - 1)) (g.idtPtr + 2) g.idt) g.idtPtr v = gateOf addr v := by
  unfold gateOf
  rw [lookup_ptr hg hidt, setEntries_decode haddr]
  by_cases hv : v < 256
  · rw [if_pos hv, if_pos hv, decode_zero fun x hx1 hx2 => hM x (by unfold entry at hx1; omega)
      (by unfold entry ENTRY_SIZE at *; omega)]
    split_ifs <;> rfl
  · rw [if_neg hv, if_neg (by omega), if_neg hv]

theorem fill_zero {a len x : ℕ} (h : m x = 0) : fill m a 0 len x = 0 := by
  unfold fill
  split_ifs
  · rfl
  · exact h

theorem interruptInit_lookup (hg : g.Apart) (hidt : g.idt < 2 ^ 64)
    (haddr : ∀ v < 48, addr v < 2 ^ 64) : lookup (interruptInit g addr m) g.idtPtr v = gateOf addr v :=
  lookup_setEntries hg hidt haddr fun _ h1 h2 =>
    fill_zero (fill_zero (fill_zero (if_pos ⟨h1, h2⟩)))

/-- **The gates of the vectors below 48 lead to their routines**, in the kernel as in the loader; the
other vectors have no gate. -/
theorem interruptInit_gates (hg : g.Apart) (hidt : g.idt < 2 ^ 64)
    (haddr : ∀ v < 48, addr v < 2 ^ 64) (v : ℕ) :
    lookup (interruptInit g addr m) g.idtPtr v = gateOf addr v ∧
      lookup (Kernel.interruptInit g addr m) g.idtPtr v = gateOf addr v := by
  refine ⟨interruptInit_lookup hg hidt haddr, ?_⟩
  simp only [Kernel.interruptInit, setEntries_kernel]
  exact lookup_setEntries hg hidt haddr fun _ h1 h2 => if_pos ⟨h1, h2⟩

theorem interruptInit_gates_keyboard :
    let g : Globals := ⟨0x10000, 0x12000, 0x13000, 0x14000⟩
    let addr := fun v => 0x8000 + 64 * v
    lookup (interruptInit g addr fun _ => 0xFF) g.idtPtr 33 = gateOf addr 33 ∧
      lookup (Kernel.interruptInit g addr fun _ => 0xFF) g.idtPtr 33 = gateOf addr 33 :=
  interruptInit_gates (by unfold Globals.Apart; decide) (by decide) (fun v hv => by omega) 33

/-! ### From the line to the wrapper -/

open Pic in
/-- **Every vector that the controllers answer with** is that of the IRQ they answer for, and has a
gate to the routine that calls `irq_wrapper`, with the number of the IRQ in the structure. -/
theorem irq_gate {σ : Type} {s s' : System σ} {p : Pics} {mask : BitVec 16}
    (hp : s.pics = setUp mask p) (h₀ : p.master.isr = 0) (h₁ : p.slave.isr = 0)
    {es : List (Event σ)} (hrun : run s es = some s') (hg : g.Apart) (hidt : g.idt < 2 ^ 64)
    (haddr : ∀ v < 48, addr v < 2 ^ 64) (late later : List Line) : ∃ n < 16,
      Answers later (s'.pics.devices late) n ∧
      (intAck later (s'.pics.devices late)).1 = 32 + n ∧
      lookup (interruptInit g addr m) g.idtPtr (32 + n) = some (interruptGate (addr (32 + n))) ∧
      Stub.routine (32 + n) = Stub.IRQ n (32 + n) ∧ irqOfVector (32 + n) = some n ∧
      ∀ cpu, (Stub.stackOf (32 + n) none cpu).errCode = n := by
  have hs : Between false s.pics := hp ▸ setUp_between h₀ h₁
  obtain ⟨s₁, hrun₁, hbetween⟩ := hs.run es
  obtain rfl := Option.some.inj (hrun.symm.trans hrun₁)
  obtain ⟨n, hn, hvec, hanswers, -⟩ := (hbetween.devices late).vector later
  have hsub : 32 + n - 32 = n := by omega
  refine ⟨n, hn, hanswers, hvec, ?_, ?_, ?_, fun cpu => ?_⟩
  · rw [interruptInit_lookup hg hidt haddr, gateOf, if_pos (by omega)]
  · rw [Stub.routine, if_neg (by omega), hsub]
  · rw [irqOfVector, if_pos (by omega), hsub]
  · show Stub.errCodeOf (32 + n) none = n
    rw [Stub.errCodeOf, if_neg (by omega), hsub]

open Pic in
theorem irq_gate_lateDisk : ∃ s', run diskSystem lateDisk = some s' ∧ ∃ n < 16,
    Answers [] (s'.pics.devices [.rise 0]) n ∧
    (intAck [] (s'.pics.devices [.rise 0])).1 = 32 + n ∧
    lookup (interruptInit ⟨0x10000, 0x12000, 0x13000, 0x14000⟩ (fun v => 0x8000 + 64 * v) fun _ => 0)
      0x12000 (32 + n) = some (interruptGate (0x8000 + 64 * (32 + n))) ∧
    Stub.routine (32 + n) = Stub.IRQ n (32 + n) ∧ irqOfVector (32 + n) = some n ∧
    ∀ cpu, (Stub.stackOf (32 + n) none cpu).errCode = n := by
  have hs : Between false diskSystem.pics := setUp_between rfl rfl
  obtain ⟨s', hrun, -⟩ := hs.run lateDisk
  exact ⟨s', hrun, irq_gate (g := ⟨0x10000, 0x12000, 0x13000, 0x14000⟩) rfl rfl rfl hrun
    (by unfold Globals.Apart; decide) (by decide) (fun v hv => by omega) [.rise 0] []⟩

end table

end Dawos.Idt
