import Dawos.Acpi
import Dawos.Loop

/-! # The MADT

The loop of `apic_init` (`kernel/cpu/apic.c`) over the entries of the MADT.  It counts the declared
length of the table down by the length byte of each entry, in 64-bit arithmetic, until nothing is
left, and stores pointers to the entries into two arrays of `APIC_MAX` cells.

`visited` is not in the source: it records the entries that the loop has looked at, and `entryReads`
the bytes that it reads of each.

* `EntryChain`: the entries that lead from an address exactly to the end of the table;
* `apic_init_safe`: when the loop ends, with all its accesses in bounds;
* `apic_init_entries`: what it stores for a table of well-formed entries. -/

namespace Dawos.Kernel

/-! ### The loop -/

def APIC_TYPE_LAPIC : ℕ := 0
def APIC_TYPE_IOAPIC : ℕ := 1

/-- The cells of `_lapic` and of `_ioapic`. -/
def APIC_MAX : ℕ := 256

/-- `sizeof(MADT_t)`, with the 32-bit field `ptr` in place of the entries. -/
def MADT_SIZE : ℕ := 48

/-- `&madt->ptr`. -/
def madtPtr (madt : ℕ) : ℕ := u64 (madt + 44)

/-- `ah->type`. -/
def apicType (m : Mem) (ah : ℕ) : ℕ := (m ah).toNat

/-- `ah->length`. -/
def apicLength (m : Mem) (ah : ℕ) : ℕ := (m (ah + 1)).toNat

/-- `((LocalAPIC_t *)ah)->flags`. -/
def lapicFlags (m : Mem) (ah : ℕ) : ℕ := rdN m 4 (ah + 4)

/-- The variables of the loop, the pointers in the two arrays, and the entries looked at so far. -/
structure MadtState where
  length : ℕ
  ah : ℕ
  lapic : List ℕ
  ioapic : List ℕ
  visited : List ℕ

/-- Store a pointer into the next cell of an array. -/
def pushPtr (cells : List ℕ) (p : ℕ) : Except Halt (List ℕ) :=
  if cells.length < APIC_MAX then .ok (cells ++ [p]) else .error .bounds

/-- The switch over the type of an entry. -/
def storeApic (m : Mem) (s : MadtState) : Except Halt MadtState :=
  if apicType m s.ah = APIC_TYPE_LAPIC then
    -- Test if it's enabled - if not - don't touch it
    if lapicFlags m s.ah &&& 1 ≠ 0 then do
      let lapic ← pushPtr s.lapic s.ah
      .ok { s with lapic := lapic }
    else .ok s
  else if apicType m s.ah = APIC_TYPE_IOAPIC then do
    let ioapic ← pushPtr s.ioapic s.ah
    .ok { s with ioapic := ioapic }
  else .ok s

/-- A round of the loop. -/
def madtRound (m : Mem) (s : MadtState) : MadtState ⊕ Except Halt MadtState :=
  if 0 < s.length then
    match storeApic m s with
    | .error e => .inr (.error e)
    | .ok s' => .inl { s' with
        length := sub64 s.length (apicLength m s.ah)
        ah := u64 (s.ah + apicLength m s.ah)
        visited := s.visited ++ [s.ah] }
  else .inr (.ok s)

/-- The loop, with at most `n` rounds. -/
def madtLoop (m : Mem) (s : MadtState) (n : ℕ) : Except Halt MadtState := do
  let r ← loop (madtRound m) n s
  r

/-- The variables before the loop. -/
def madtStart (m : Mem) (madt : ℕ) : MadtState :=
  ⟨u64 (sub64 (sdtLength m madt) MADT_SIZE + 4), madtPtr madt, [], [], []⟩

/-- `apic_init` up to the end of the loop; `apic` is the address of the signature. -/
def apicInit (m : Mem) (rsdp apic : ℕ) (n : ℕ) : Except Halt MadtState :=
  let madt := acpiTable m rsdp apic
  if madt ≠ 0 then madtLoop m (madtStart m madt) n else .ok ⟨0, 0, [], [], []⟩

/-! ### Entries in memory -/

/-- The bytes that a round reads. -/
def entryReads (m : Mem) (ah : ℕ) : List ℕ :=
  [ah, ah + 1] ++ if apicType m ah = APIC_TYPE_LAPIC then [ah + 4, ah + 5, ah + 6, ah + 7] else []

/-- The end of the bytes that a round reads. -/
def entryEnd (m : Mem) (ah : ℕ) : ℕ := if apicType m ah = APIC_TYPE_LAPIC then ah + 8 else ah + 2

/-- An enabled local APIC. -/
def EnabledLapic (m : Mem) (ah : ℕ) : Prop :=
  apicType m ah = APIC_TYPE_LAPIC ∧ lapicFlags m ah &&& 1 ≠ 0

/-- An I/O APIC. -/
def IsIoapic (m : Mem) (ah : ℕ) : Prop := apicType m ah = APIC_TYPE_IOAPIC

instance (m : Mem) (ah : ℕ) : Decidable (EnabledLapic m ah) := instDecidableAnd
instance (m : Mem) (ah : ℕ) : Decidable (IsIoapic m ah) := Nat.decEq _ _

/-- The enabled local APICs among some entries. -/
def lapics (m : Mem) (as : List ℕ) : List ℕ := as.filter fun a => EnabledLapic m a

/-- The I/O APICs among some entries. -/
def ioapics (m : Mem) (as : List ℕ) : List ℕ := as.filter fun a => IsIoapic m a

/-- The entries `as` follow each other from an address to the end `e`; what is read of them lies
before `e`, and none has the length zero. -/
inductive EntryChain (m : Mem) (e : ℕ) : ℕ → List ℕ → Prop
  | nil : EntryChain m e e []
  | cons {a : ℕ} {as : List ℕ} (reads : entryEnd m a ≤ e) (pos : 0 < apicLength m a)
      (tail : EntryChain m e (a + apicLength m a) as) : EntryChain m e a (a :: as)

/-- The entries fill the declared length of the table, and the arrays have room for them. -/
def MadtOk (m : Mem) (madt : ℕ) : Prop :=
  44 ≤ sdtLength m madt ∧ ∃ as, EntryChain m (madt + sdtLength m madt) (madt + 44) as ∧
    (lapics m as).length ≤ APIC_MAX ∧ (ioapics m as).length ≤ APIC_MAX

section rounds

variable {m : Mem} {a b e madt rsdp apic n : ℕ} {as : List ℕ} {s f : MadtState}

theorem lt_entryEnd : a + 2 ≤ entryEnd m a := by
  unfold entryEnd
  split_ifs <;> omega

theorem mem_entryReads : a ∈ entryReads m a := List.mem_cons_self

/-- The bytes that are read end where `entryEnd` says. -/
theorem entryEnd_le (h : ∀ x ∈ entryReads m a, x < e) : entryEnd m a ≤ e := by
  unfold entryReads at h
  unfold entryEnd
  split_ifs at h ⊢
  · have := h (a + 7) (by simp)
    omega
  · have := h (a + 1) (by simp)
    omega

theorem entryReads_range {x : ℕ} (hx : x ∈ entryReads m a) : a ≤ x ∧ x < entryEnd m a := by
  unfold entryReads at hx
  unfold entryEnd
  split_ifs at hx ⊢
  · simp at hx
    omega
  · simp at hx
    omega

theorem EntryChain.le (h : EntryChain m e a as) : a ≤ e := by
  cases h with
  | nil => exact le_rfl
  | cons reads pos tail =>
      have := @lt_entryEnd m a
      omega

/-- All reads of a chain are between its first address and its end. -/
theorem EntryChain.reads_range (h : EntryChain m e a as) :
    ∀ b ∈ as, ∀ x ∈ entryReads m b, a ≤ x ∧ x < e := by
  induction h with
  | nil => exact fun b hb => absurd hb List.not_mem_nil
  | @cons a as reads pos tail ih =>
      intro b hb x hx
      rcases List.mem_cons.mp hb with rfl | hb
      · have := entryReads_range hx
        omega
      · have := ih b hb x hx
        omega

/-- What a round stores of an entry. -/
def storedState (m : Mem) (s : MadtState) : MadtState :=
  ⟨sub64 s.length (apicLength m s.ah), u64 (s.ah + apicLength m s.ah), s.lapic ++ lapics m [s.ah],
    s.ioapic ++ ioapics m [s.ah], s.visited ++ [s.ah]⟩

theorem storedState_length (hlen : s.length < 2 ^ 64) (hle : apicLength m s.ah ≤ s.length) :
    (storedState m s).length = s.length - apicLength m s.ah := sub64_of_le hlen hle

theorem lapics_cons : lapics m (a :: as) = lapics m [a] ++ lapics m as := List.filter_append [a] as

theorem ioapics_cons : ioapics m (a :: as) = ioapics m [a] ++ ioapics m as := List.filter_append [a] as

/-- A round with room for the pointer. -/
theorem madtRound_stored (h : 0 < s.length) (hl : EnabledLapic m s.ah → s.lapic.length < APIC_MAX)
    (hi : IsIoapic m s.ah → s.ioapic.length < APIC_MAX) : madtRound m s = .inl (storedState m s) := by
  unfold madtRound storeApic storedState lapics ioapics
  rw [if_pos h, List.filter_singleton, List.filter_singleton]
  by_cases h0 : apicType m s.ah = APIC_TYPE_LAPIC
  · have hno : ¬ IsIoapic m s.ah := fun h1 => absurd (h0.symm.trans h1) (by decide)
    by_cases hf : lapicFlags m s.ah &&& 1 ≠ 0
    · rw [if_pos h0, if_pos hf, pushPtr, if_pos (hl ⟨h0, hf⟩)]
      simp [show EnabledLapic m s.ah from ⟨h0, hf⟩, hno, ok_bind]
    · rw [if_pos h0, if_neg hf]
      simp [show ¬ EnabledLapic m s.ah from fun hc => hf hc.2, hno]
  · have hno : ¬ EnabledLapic m s.ah := fun hc => h0 hc.1
    rw [if_neg h0]
    by_cases h1 : apicType m s.ah = APIC_TYPE_IOAPIC
    · rw [if_pos h1, pushPtr, if_pos (hi h1)]
      simp [show IsIoapic m s.ah from h1, hno, ok_bind]
    · rw [if_neg h1]
      simp [show ¬ IsIoapic m s.ah from h1, hno]

/-- A round that finds an array full. -/
theorem madtRound_full (h : 0 < s.length)
    (hf : EnabledLapic m s.ah ∧ APIC_MAX ≤ s.lapic.length ∨
      IsIoapic m s.ah ∧ APIC_MAX ≤ s.ioapic.length) : madtRound m s = .inr (.error .bounds) := by
  unfold madtRound storeApic
  rw [if_pos h]
  rcases hf with ⟨⟨h0, hen⟩, hfull⟩ | ⟨h1, hfull⟩
  · rw [if_pos h0, if_pos hen, pushPtr, if_neg (by omega)]
    rfl
  · have h0 : ¬ apicType m s.ah = APIC_TYPE_LAPIC := fun h0 => absurd (h0.symm.trans h1) (by decide)
    rw [if_neg h0, if_pos (show apicType m s.ah = APIC_TYPE_IOAPIC from h1), pushPtr, if_neg (by omega)]
    rfl

/-- Whatever ends with a state has stored the entry in the first round. -/
theorem loop_stored (h : 0 < s.length) (hf : loop (madtRound m) (n + 1) s = .ok (.ok f)) :
    loop (madtRound m) n (storedState m s) = .ok (.ok f) := by
  unfold loop at hf
  by_cases hfull : EnabledLapic m s.ah ∧ APIC_MAX ≤ s.lapic.length ∨
      IsIoapic m s.ah ∧ APIC_MAX ≤ s.ioapic.length
  · rw [madtRound_full h hfull] at hf
    cases hf
  · obtain ⟨hl, hi⟩ := not_or.mp hfull
    rw [madtRound_stored h (fun hc => not_le.mp fun hle => hl ⟨hc, hle⟩)
      (fun hc => not_le.mp fun hle => hi ⟨hc, hle⟩)] at hf
    exact hf

theorem loop_done (h : s.length = 0) : loop (madtRound m) (n + 1) s = .ok (.ok s) := by
  unfold loop madtRound
  rw [if_neg (by omega)]

/-- What has been looked at stays on record. -/
theorem loop_visited (hf : loop (madtRound m) n s = .ok (.ok f)) : s.visited <+: f.visited := by
  induction n generalizing s with
  | zero => cases hf
  | succ n ih =>
      rcases Nat.eq_zero_or_pos s.length with h0 | hpos
      · rw [loop_done h0] at hf
        obtain rfl := Except.ok.inj (Except.ok.inj hf)
        exact List.prefix_rfl
      · exact (List.prefix_append _ _).trans (ih (loop_stored hpos hf))

theorem loop_mem_visited (h : 0 < s.length) (hf : loop (madtRound m) n s = .ok (.ok f)) :
    s.ah ∈ f.visited := by
  cases n with
  | zero => cases hf
  | succ n =>
      have hpre := loop_visited (loop_stored h hf)
      exact hpre.subset (List.mem_append_right _ List.mem_cons_self)

/-- An entry of length zero is never left. -/
theorem loop_stuck (h : 0 < s.length) (hlen : s.length < 2 ^ 64) (hah : s.ah < 2 ^ 64)
    (h0 : apicLength m s.ah = 0) : loop (madtRound m) n s ≠ .ok (.ok f) := by
  induction n generalizing s with
  | zero => exact fun hc => by cases hc
  | succ n ih =>
      intro hf
      have hl : (storedState m s).length = s.length := by
        rw [storedState_length hlen (by omega), h0, Nat.sub_zero]
      have ha : (storedState m s).ah = s.ah := by
        rw [storedState, h0, Nat.add_zero, u64_of_lt hah]
      exact ih (hl ▸ h) (hl ▸ hlen) (ha ▸ hah) (by rw [ha]; exact h0) (loop_stored h hf)

/-! ### Chains of entries -/

/-- What the loop has stored of the entries `as`. -/
structure Stores (m : Mem) (s : MadtState) (as : List ℕ) (f : MadtState) : Prop where
  visited : f.visited = s.visited ++ as
  lapic : f.lapic = s.lapic ++ lapics m as
  ioapic : f.ioapic = s.ioapic ++ ioapics m as

theorem Stores.cons (h : Stores m (storedState m s) as f) : Stores m s (s.ah :: as) f where
  visited := by rw [h.visited, storedState, List.append_assoc]; rfl
  lapic := by rw [h.lapic, storedState, List.append_assoc, ← lapics_cons]
  ioapic := by rw [h.ioapic, storedState, List.append_assoc, ← ioapics_cons]

/-- The loop stores a chain of entries for which there is room. -/
theorem EntryChain.loop_returns (h : EntryChain m e a as) (he : e ≤ 2 ^ 64) (ha : 0 < a)
    (hah : s.ah = u64 a) (hlen : s.length = e - a)
    (hl : (s.lapic ++ lapics m as).length ≤ APIC_MAX)
    (hi : (s.ioapic ++ ioapics m as).length ≤ APIC_MAX) :
    ∃ f, Returns (fun n => loop (madtRound m) n s) (.ok f) ∧ Stores m s as f := by
  induction h generalizing s with
  | nil =>
      refine ⟨s, ?_, by simp, by simp [lapics], by simp [ioapics]⟩
      filter_upwards [Filter.eventually_gt_atTop 0] with n hn
      obtain ⟨n, rfl⟩ : ∃ i, n = i + 1 := ⟨n - 1, by omega⟩
      exact loop_done (by omega)
  | @cons a as reads pos tail ih =>
      have hend := @lt_entryEnd m a
      have hle := tail.le
      rw [u64_of_lt (by omega)] at hah
      subst hah
      rw [lapics_cons, ← List.append_assoc] at hl
      rw [ioapics_cons, ← List.append_assoc] at hi
      have hround : madtRound m s = .inl (storedState m s) := by
        refine madtRound_stored (by omega) (fun hc => ?_) fun hc => ?_
        · have hone : lapics m [s.ah] = [s.ah] := by simp [lapics, hc]
          rw [hone] at hl
          simp only [List.length_append, List.length_singleton] at hl
          omega
        · have hone : ioapics m [s.ah] = [s.ah] := by simp [ioapics, hc]
          rw [hone] at hi
          simp only [List.length_append, List.length_singleton] at hi
          omega
      have hlen' : (storedState m s).length = e - (s.ah + apicLength m s.ah) := by
        rw [storedState_length (by omega) (by omega)]
        omega
      obtain ⟨f, hf, hst⟩ := ih (by omega) rfl hlen' hl hi
      exact ⟨f, hf.loop_inl hround, hst.cons⟩

/-- Where the loop ends and has read nothing outside the table, it has followed a chain of entries. -/
theorem chain_of_ok (hf : loop (madtRound m) n s = .ok (.ok f)) (hle : a ≤ e) (hb : b < a)
    (he : e ≤ 2 ^ 64) (hb' : e < b + 2 ^ 32) (hah : s.ah = u64 a) (hlen : s.length = e - a)
    (hin : ∀ v ∈ f.visited, ∀ x ∈ entryReads m v, b ≤ x ∧ x < e) :
    ∃ as, EntryChain m e a as ∧ Stores m s as f := by
  induction n generalizing s a with
  | zero => cases hf
  | succ n ih =>
      rcases Nat.eq_zero_or_pos s.length with h0 | hpos
      · rw [loop_done h0] at hf
        obtain rfl := Except.ok.inj (Except.ok.inj hf)
        obtain rfl : a = e := by omega
        exact ⟨[], .nil, by simp, by simp [lapics], by simp [ioapics]⟩
      · rw [u64_of_lt (by omega)] at hah
        subst hah
        have hread := hin s.ah (loop_mem_visited hpos hf)
        have hend := entryEnd_le fun x hx => (hread x hx).2
        have hbyte : apicLength m s.ah < 2 ^ 8 := UInt8.toNat_lt _
        have hzero : apicLength m s.ah ≠ 0 := fun h0 =>
          loop_stuck hpos (by omega) (by omega) h0 hf
        have hrest := loop_stored hpos hf
        by_cases hfit : s.ah + apicLength m s.ah ≤ e
        · have hlen' : (storedState m s).length = e - (s.ah + apicLength m s.ah) := by
            rw [storedState_length (by omega) (by omega)]
            omega
          obtain ⟨as, hchain, hst⟩ := ih hrest hfit (by omega) rfl hlen'
          exact ⟨s.ah :: as, .cons hend (by omega) hchain, hst.cons⟩
        · -- the remaining length wraps around, and the next entry is outside the table
          have hlen' : 0 < (storedState m s).length := by
            show 0 < sub64 s.length (apicLength m s.ah)
            unfold sub64 u64
            omega
          have hnext := hin _ (loop_mem_visited hlen' hrest) _ mem_entryReads
          have hah : (storedState m s).ah = (s.ah + apicLength m s.ah) % 2 ^ 64 := rfl
          omega

/-- The loop ends with a state if the bounded one does. -/
theorem madtLoop_ok : madtLoop m s n = .ok f ↔ loop (madtRound m) n s = .ok (.ok f) := by
  unfold madtLoop
  cases loop (madtRound m) n s with
  | error h => exact ⟨(nomatch ·), (nomatch ·)⟩
  | ok r => exact ⟨congrArg Except.ok, Except.ok.inj⟩

theorem madtLoop_returns :
    Returns (madtLoop m s) f ↔ Returns (fun n => loop (madtRound m) n s) (.ok f) :=
  Filter.eventually_congr (.of_forall fun _ => madtLoop_ok)

theorem apicInit_eq (hmadt : acpiTable m rsdp apic = madt) (hne : madt ≠ 0) :
    apicInit m rsdp apic = madtLoop m (madtStart m madt) := by
  funext n
  unfold apicInit
  rw [hmadt, if_pos hne]

/-- The remaining length starts as that of the entries. -/
theorem madtStart_length (h : 44 ≤ sdtLength m madt) :
    (madtStart m madt).length = sdtLength m madt - 44 := by
  have hlt := @sdtLength_lt m madt
  show u64 (sub64 (sdtLength m madt) MADT_SIZE + 4) = sdtLength m madt - 44
  unfold sub64 u64 MADT_SIZE
  omega

/-- The entries of a chain that fills the table are stored. -/
theorem EntryChain.stored (hmadt : acpiTable m rsdp apic = madt) (hne : madt ≠ 0)
    (hfit : madt + sdtLength m madt ≤ 2 ^ 64) (hlen : 44 ≤ sdtLength m madt)
    (h : EntryChain m (madt + sdtLength m madt) (madt + 44) as)
    (hl : (lapics m as).length ≤ APIC_MAX) (hi : (ioapics m as).length ≤ APIC_MAX) :
    ∃ f, Returns (apicInit m rsdp apic) f ∧ f.visited = as ∧ f.lapic = lapics m as ∧
      f.ioapic = ioapics m as := by
  have hstart := madtStart_length hlen
  obtain ⟨f, hf, hst⟩ := h.loop_returns hfit (by omega) (s := madtStart m madt) rfl (by omega) hl hi
  rw [apicInit_eq hmadt hne]
  exact ⟨f, madtLoop_returns.mpr hf, hst.visited, hst.lapic, hst.ioapic⟩

/-- **The loop over the entries of a MADT ends, reads only bytes of the table, and stores at most
`APIC_MAX` pointers of each kind, if and only if the entries fill the declared length exactly, each
with the bytes that are read of it and none of length zero, and the arrays have room.** -/
theorem apic_init_safe (hmadt : acpiTable m rsdp apic = madt) (hne : madt ≠ 0)
    (hfit : madt + sdtLength m madt ≤ 2 ^ 64) :
    (∃ f, Returns (apicInit m rsdp apic) f ∧
      (∀ v ∈ f.visited, ∀ x ∈ entryReads m v, madt ≤ x ∧ x < madt + sdtLength m madt) ∧
      f.lapic.length ≤ APIC_MAX ∧ f.ioapic.length ≤ APIC_MAX) ↔ MadtOk m madt := by
  have hlt := @sdtLength_lt m madt
  have hah : (madtStart m madt).ah = u64 (madt + 44) := rfl
  constructor
  · rintro ⟨f, hf, hin, hl, hi⟩
    rw [apicInit_eq hmadt hne] at hf
    obtain ⟨n, hn⟩ := hf.exists
    rw [madtLoop_ok] at hn
    have hlen : 44 ≤ sdtLength m madt := by
      by_contra hshort
      have hpos : 0 < (madtStart m madt).length := by
        show 0 < u64 (sub64 (sdtLength m madt) MADT_SIZE + 4)
        unfold sub64 u64 MADT_SIZE
        omega
      have hfirst := hin _ (loop_mem_visited hpos hn) _ mem_entryReads
      rw [hah, u64] at hfirst
      omega
    have hstart := madtStart_length hlen
    obtain ⟨as, hchain, hst⟩ := chain_of_ok hn (a := madt + 44) (by omega) (by omega) hfit (by omega)
      hah (by omega) hin
    rw [hst.lapic] at hl
    rw [hst.ioapic] at hi
    exact ⟨hlen, as, hchain, hl, hi⟩
  · rintro ⟨hlen, as, hchain, hl, hi⟩
    obtain ⟨f, hf, h1, h2, h3⟩ := hchain.stored hmadt hne hfit hlen hl hi
    refine ⟨f, hf, fun v hv x hx => ?_, by rw [h2]; exact hl, by rw [h3]; exact hi⟩
    rw [h1] at hv
    have := hchain.reads_range v hv x hx
    omega

end rounds

/-- The header of a MADT, with its length and checksum. -/
def madtHeader (length checksum : UInt8) : List UInt8 :=
  apicSignature ++ [length, 0, 0, 0, 1, checksum] ++ List.replicate 34 0

/-- An RSDP of revision 0 at `0x1000`, whose RSDT points to a table at `0x5000`. -/
def oneTable (table : List UInt8) : Mem :=
  put (put (put (put (fun _ => 0) 0x1010 [0, 0x20]) 0x2004 [40]) 0x2024 [0, 0x50]) 0x5000 table

/-- Memory with a MADT of two local APICs and an I/O APIC. -/
def filledMem : Mem :=
  oneTable (madtHeader 72 0x7A ++ [0, 8, 0, 0, 1, 0, 0, 0] ++ [0, 8, 1, 1, 0, 0, 0, 0] ++
    [1, 12, 0, 0, 0, 0, 0, 0, 0, 0, 0, 0])

theorem filledMem_facts : acpiTable filledMem 0x1000 0x5000 = 0x5000 ∧
    sdtLength filledMem 0x5000 = 72 ∧
    (entryEnd filledMem 0x502C ≤ 0x5048 ∧ apicLength filledMem 0x502C = 8) ∧
    (entryEnd filledMem 0x5034 ≤ 0x5048 ∧ apicLength filledMem 0x5034 = 8) ∧
    entryEnd filledMem 0x503C ≤ 0x5048 ∧ apicLength filledMem 0x503C = 12 := by
  decide +kernel

theorem filledMem_ok : MadtOk filledMem 0x5000 := by
  obtain ⟨-, hlen, ⟨h1, hl1⟩, ⟨h2, hl2⟩, h3, hl3⟩ := filledMem_facts
  have c3 : EntryChain filledMem 0x5048 0x503C [0x503C] := .cons h3 (by omega) (by rw [hl3]; exact .nil)
  have c2 : EntryChain filledMem 0x5048 0x5034 [0x5034, 0x503C] :=
    .cons h2 (by omega) (by rw [hl2]; exact c3)
  have c1 : EntryChain filledMem 0x5048 0x502C [0x502C, 0x5034, 0x503C] :=
    .cons h1 (by omega) (by rw [hl1]; exact c2)
  exact ⟨by omega, _, by rw [hlen]; exact c1, by decide +kernel, by decide +kernel⟩

/-- The loop ends on a table that its entries fill. -/
theorem apic_init_safe_filled : ∃ f, Returns (apicInit filledMem 0x1000 0x5000) f ∧
    (∀ v ∈ f.visited, ∀ x ∈ entryReads filledMem v,
      0x5000 ≤ x ∧ x < 0x5000 + sdtLength filledMem 0x5000) ∧
    f.lapic.length ≤ APIC_MAX ∧ f.ioapic.length ≤ APIC_MAX :=
  (apic_init_safe filledMem_facts.1 (by decide) (by rw [filledMem_facts.2.1]; norm_num)).mpr
    filledMem_ok

/-- Memory with a MADT of one entry, of length zero. -/
def stuckMem : Mem := oneTable (madtHeader 46 0xB2 ++ [2, 0])

/-- A table with a valid checksum whose entries the loop never gets through. -/
theorem apic_init_stuck : acpiTable stuckMem 0x1000 0x5000 = 0x5000 ∧
    acpiChecksum stuckMem 0x5000 (sdtLength stuckMem 0x5000) = 0 ∧
    ¬ ∃ f, Returns (apicInit stuckMem 0x1000 0x5000) f ∧
      (∀ v ∈ f.visited, ∀ x ∈ entryReads stuckMem v,
        0x5000 ≤ x ∧ x < 0x5000 + sdtLength stuckMem 0x5000) ∧
      f.lapic.length ≤ APIC_MAX ∧ f.ioapic.length ≤ APIC_MAX := by
  have hrun : acpiTable stuckMem 0x1000 0x5000 = 0x5000 ∧
      acpiChecksum stuckMem 0x5000 (sdtLength stuckMem 0x5000) = 0 ∧
      (madtStart stuckMem 0x5000).length = 2 ∧ (madtStart stuckMem 0x5000).ah = 0x502C ∧
      apicLength stuckMem (madtStart stuckMem 0x5000).ah = 0 := by decide +kernel
  obtain ⟨hmadt, hsum, hlen, hah, hzero⟩ := hrun
  refine ⟨hmadt, hsum, ?_⟩
  rintro ⟨f, hf, -⟩
  rw [apicInit_eq hmadt (by decide)] at hf
  obtain ⟨n, hn⟩ := hf.exists
  exact loop_stuck (by omega) (by omega) (by omega) hzero (madtLoop_ok.mp hn)

/-! ### Well-formed entries -/

/-- The size of the structure for an entry of a type, of those that the loop looks into. -/
def entrySize (type : ℕ) : ℕ :=
  if type = APIC_TYPE_LAPIC then 8 else if type = APIC_TYPE_IOAPIC then 12 else 2

/-- An entry whose length byte is its length, and at least the size of its type. -/
structure ApicEntry where
  bytes : List UInt8
  two : 2 ≤ bytes.length
  length_eq : (bytes.getD 1 0).toNat = bytes.length
  size : entrySize (bytes.getD 0 0).toNat ≤ bytes.length

/-- The type of an entry. -/
def ApicEntry.type (t : ApicEntry) : ℕ := (t.bytes.getD 0 0).toNat

/-- A local APIC with the flag for enabled, the lowest bit of the byte at 4. -/
def ApicEntry.Enabled (t : ApicEntry) : Prop :=
  t.type = APIC_TYPE_LAPIC ∧ (t.bytes.getD 4 0).toNat % 2 = 1

/-- An I/O APIC. -/
def ApicEntry.Ioapic (t : ApicEntry) : Prop := t.type = APIC_TYPE_IOAPIC

instance (t : ApicEntry) : Decidable t.Enabled := instDecidableAnd
instance (t : ApicEntry) : Decidable t.Ioapic := Nat.decEq _ _

/-- Entries with their addresses, from `a` on. -/
def located : ℕ → List ApicEntry → List (ℕ × ApicEntry)
  | _, [] => []
  | a, t :: ts => (a, t) :: located (a + t.bytes.length) ts

/-- A table of these entries. -/
structure MadtOf (m : Mem) (madt : ℕ) (ts : List ApicEntry) : Prop where
  length : sdtLength m madt = 44 + (ts.map fun t => t.bytes.length).sum
  entries : BytesAt m (madt + 44) (ts.flatMap ApicEntry.bytes)

section entries

variable {m : Mem} {a e madt rsdp apic : ℕ} {t : ApicEntry} {ts : List ApicEntry} {l l' : List UInt8}

theorem BytesAt.append (h : BytesAt m a (l ++ l')) : BytesAt m a l ∧ BytesAt m (a + l.length) l' := by
  constructor
  · intro i hi
    rw [h i (by rw [List.length_append]; omega), List.getElem_append_left hi]
  · intro i hi
    rw [Nat.add_assoc, h (l.length + i) (by rw [List.length_append]; omega),
      List.getElem_append_right (by omega)]
    simp

theorem BytesAt.getD (h : BytesAt m a l) {i : ℕ} (hi : i < l.length) : m (a + i) = l.getD i 0 := by
  rw [h i hi, List.getD_eq_getElem l 0 hi]

/-- What the loop finds of an entry. -/
theorem ApicEntry.found (t : ApicEntry) (h : BytesAt m a t.bytes) :
    apicType m a = t.type ∧ apicLength m a = t.bytes.length ∧ entryEnd m a ≤ a + t.bytes.length ∧
      (EnabledLapic m a ↔ t.Enabled) ∧ (IsIoapic m a ↔ t.Ioapic) := by
  have htwo := t.two
  have htype : apicType m a = t.type := congrArg UInt8.toNat (h.getD (i := 0) (by omega))
  have hsize : entrySize t.type ≤ t.bytes.length := t.size
  unfold entrySize at hsize
  refine ⟨htype, ?_, ?_, ?_, ?_⟩
  · rw [apicLength, h.getD (by omega), t.length_eq]
  · unfold entryEnd
    rw [htype]
    split_ifs at hsize ⊢ <;> omega
  · unfold EnabledLapic ApicEntry.Enabled
    rw [htype]
    refine and_congr_right fun h0 => ?_
    rw [if_pos h0] at hsize
    have hflag : lapicFlags m a % 2 = (m (a + 4)).toNat % 2 := by
      simp only [lapicFlags, rdN]
      omega
    rw [Nat.and_one_is_mod, hflag, h.getD (by omega)]
    omega
  · unfold IsIoapic ApicEntry.Ioapic
    rw [htype]

theorem located_snd : (located a ts).map Prod.snd = ts := by
  induction ts generalizing a with
  | nil => rfl
  | cons t ts ih => rw [located, List.map_cons, ih]

/-- Each entry is in memory at its address. -/
theorem located_bytes (h : BytesAt m a (ts.flatMap ApicEntry.bytes)) :
    ∀ p ∈ located a ts, BytesAt m p.1 p.2.bytes := by
  induction ts generalizing a with
  | nil => exact fun p hp => absurd hp List.not_mem_nil
  | cons t ts ih =>
      rw [List.flatMap_cons] at h
      intro p hp
      rcases List.mem_cons.mp hp with rfl | hp
      · exact h.append.1
      · exact ih h.append.2 p hp

/-- The entries of a well-formed table follow each other to its end. -/
theorem located_chain (h : BytesAt m a (ts.flatMap ApicEntry.bytes)) :
    EntryChain m (a + (ts.map fun t => t.bytes.length).sum) a ((located a ts).map Prod.fst) := by
  induction ts generalizing a with
  | nil => exact .nil
  | cons t ts ih =>
      rw [List.flatMap_cons] at h
      obtain ⟨-, hlen, hend, -⟩ := t.found h.append.1
      have htwo := t.two
      have htail := ih h.append.2
      rw [List.map_cons, List.sum_cons, ← Nat.add_assoc]
      exact .cons (hend.trans (Nat.le_add_right _ _)) (by omega) (hlen ▸ htail)

/-- The entries of a kind, found in memory or in the table. -/
theorem located_filter {P : ℕ → Prop} {Q : ApicEntry → Prop} [DecidablePred P] [DecidablePred Q]
    (h : BytesAt m a (ts.flatMap ApicEntry.bytes))
    (hPQ : ∀ p : ℕ × ApicEntry, BytesAt m p.1 p.2.bytes → (P p.1 ↔ Q p.2)) :
    ((located a ts).map Prod.fst).filter (fun b => P b) =
      ((located a ts).filter fun p => Q p.2).map Prod.fst := by
  rw [List.filter_map]
  congr 1
  exact List.filter_congr fun p hp => decide_eq_decide.mpr (hPQ p (located_bytes h p hp))

theorem located_count {Q : ApicEntry → Prop} [DecidablePred Q] :
    (((located a ts).filter fun p => Q p.2).map Prod.fst).length = (ts.filter fun t => Q t).length := by
  have h : ts.filter (fun t => Q t) = ((located a ts).filter fun p => Q p.2).map Prod.snd := by
    rw [← @located_snd a ts, List.filter_map, located_snd]
    rfl
  rw [h, List.length_map, List.length_map]

/-- **Of a MADT with well-formed entries the loop visits every entry once, and it stores, in the
order of the table, pointers to the local APICs that are enabled and to the I/O APICs.** -/
theorem apic_init_entries (hmadt : acpiTable m rsdp apic = madt) (hne : madt ≠ 0)
    (hfit : madt + sdtLength m madt ≤ 2 ^ 64) (h : MadtOf m madt ts)
    (hl : (ts.filter fun t => t.Enabled).length ≤ APIC_MAX)
    (hi : (ts.filter fun t => t.Ioapic).length ≤ APIC_MAX) :
    ∃ f, Returns (apicInit m rsdp apic) f ∧
      f.visited = (located (madt + 44) ts).map Prod.fst ∧
      f.lapic = ((located (madt + 44) ts).filter fun p => p.2.Enabled).map Prod.fst ∧
      f.ioapic = ((located (madt + 44) ts).filter fun p => p.2.Ioapic).map Prod.fst := by
  have hchain := located_chain h.entries
  rw [Nat.add_assoc, ← h.length] at hchain
  have hlapics : lapics m ((located (madt + 44) ts).map Prod.fst) =
      ((located (madt + 44) ts).filter fun p => p.2.Enabled).map Prod.fst :=
    located_filter h.entries fun p hp => (p.2.found hp).2.2.2.1
  have hioapics : ioapics m ((located (madt + 44) ts).map Prod.fst) =
      ((located (madt + 44) ts).filter fun p => p.2.Ioapic).map Prod.fst :=
    located_filter h.entries fun p hp => (p.2.found hp).2.2.2.2
  obtain ⟨f, hf, h1, h2, h3⟩ := hchain.stored hmadt hne hfit (by rw [h.length]; omega)
    (by rw [hlapics, located_count]; exact hl) (by rw [hioapics, located_count]; exact hi)
  exact ⟨f, hf, h1, h2.trans hlapics, h3.trans hioapics⟩

end entries

/-- An enabled local APIC, one that is not, a source override, and an I/O APIC. -/
def fourEntries : List ApicEntry :=
  [⟨[0, 8, 0, 0, 1, 0, 0, 0], by decide, by decide, by decide⟩,
    ⟨[0, 8, 1, 1, 0, 0, 0, 0], by decide, by decide, by decide⟩,
    ⟨[2, 10, 0, 0, 0, 0, 0, 0, 0, 0], by decide, by decide, by decide⟩,
    ⟨[1, 12, 0, 0, 0, 0, 0xC0, 0xFE, 0, 0, 0, 0], by decide, by decide, by decide⟩]

/-- Memory with a MADT of these entries. -/
def fourMem : Mem := oneTable (madtHeader 82 0xA6 ++ fourEntries.flatMap ApicEntry.bytes)

theorem fourMem_table : acpiTable fourMem 0x1000 0x5000 = 0x5000 ∧
    0x5000 + sdtLength fourMem 0x5000 ≤ 2 ^ 64 := by decide +kernel

theorem fourMem_madt : MadtOf fourMem 0x5000 fourEntries :=
  ⟨by decide +kernel, by unfold BytesAt; decide +kernel⟩

theorem apic_init_entries_four :
    ∃ f, Returns (apicInit fourMem 0x1000 0x5000) f ∧
      f.visited = (located (0x5000 + 44) fourEntries).map Prod.fst ∧
      f.lapic = ((located (0x5000 + 44) fourEntries).filter fun p => p.2.Enabled).map Prod.fst ∧
      f.ioapic = ((located (0x5000 + 44) fourEntries).filter fun p => p.2.Ioapic).map Prod.fst :=
  apic_init_entries fourMem_table.1 (by decide) fourMem_table.2 fourMem_madt (by decide) (by decide)

end Dawos.Kernel
