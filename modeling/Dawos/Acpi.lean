import Dawos.Store

/-! # ACPI tables

`acpi_table` and `acpi_checksum` of `kernel/arch/acpi.c`.  The root table is the RSDT with 32-bit
pointers in revision 0, and the XSDT with 64-bit pointers in all others; the two scans differ only
in the width of a pointer.

A `SystemTable` is a table apart from the memory it is in: its address, its signature, and the bytes
of its declared length.  `findTable` is what a search for a signature is to find in a list of tables.

`acpi_table` says that both scans do. -/

namespace Dawos.Kernel

/-! ### The structures -/

/-- `sizeof(SDTHeader_t)`. -/
def SDT_HEADER_SIZE : ℕ := 36

/-- `_rsdp->revision`. -/
def rsdpRevision (m : Mem) (rsdp : ℕ) : ℕ := (m (rsdp + 15)).toNat

/-- `_rsdp->RSDT_address`. -/
def rsdtAddress (m : Mem) (rsdp : ℕ) : ℕ := rdN m 4 (rsdp + 16)

/-- `_rsdp->XSDT_address`. -/
def xsdtAddress (m : Mem) (rsdp : ℕ) : ℕ := rd m (rsdp + 24)

/-- The length of a table, in its header. -/
def sdtLength (m : Mem) (h : ℕ) : ℕ := rdN m 4 (h + 4)

/-- The number of pointers of `w` bytes in a root table. -/
def tableCount (m : Mem) (root w : ℕ) : ℕ := sub64 (sdtLength m root) SDT_HEADER_SIZE / w

/-- The address of the pointer array of a root table. -/
def ptrArray (root : ℕ) : ℕ := u64 (root + SDT_HEADER_SIZE)

/-! ### The functions -/

/-- Compare two blocks of memory. -/
def memCompare (m : Mem) : ℕ → ℕ → ℕ → Bool
  | _, _, 0 => true
  | buff1, buff2, len + 1 =>
      if m buff1 ≠ m buff2 then false else memCompare m (buff1 + 1) (buff2 + 1) len

/-- The loop over the bytes of a structure, with the sum so far. -/
def checksumLoop (m : Mem) : ℕ → ℕ → ℕ → ℕ
  | _, 0, sum => sum
  | block, len + 1, sum => checksumLoop m (block + 1) len ((sum + (m block).toNat) % 2 ^ 32)

/-- Calculate ACPI checksum. -/
def acpiChecksum (m : Mem) (block len : ℕ) : ℕ := checksumLoop m block len 0 % 2 ^ 8

/-- The loop over the pointers of a root table, from pointer `i` on with `n` left. -/
def tableScan (m : Mem) (signature root w : ℕ) : ℕ → ℕ → ℕ
  | _, 0 => 0
  | i, n + 1 =>
      let ptr := u64 (ptrArray root + i * w % 2 ^ 32)
      let th := rdN m w ptr
      if memCompare m th signature 4 then
        if acpiChecksum m th (sdtLength m th) = 0 then th
        else tableScan m signature root w (i + 1) n
      else tableScan m signature root w (i + 1) n

/-- Find a table by its signature. -/
def acpiTable (m : Mem) (rsdp signature : ℕ) : ℕ :=
  if rsdp ≠ 0 then
    if rsdpRevision m rsdp = 0 then
      let rsdt := rsdtAddress m rsdp
      tableScan m signature rsdt 4 0 (tableCount m rsdt 4 % 2 ^ 32)
    else
      let xsdt := xsdtAddress m rsdp
      tableScan m signature xsdt 8 0 (tableCount m xsdt 8 % 2 ^ 32)
  else 0

/-! ### Bytes in memory -/

/-- The bytes `l` are stored from `a` on. -/
def BytesAt (m : Mem) (a : ℕ) (l : List UInt8) : Prop := ∀ i, (h : i < l.length) → m (a + i) = l[i]

/-- The sum of some bytes. -/
def byteSum (l : List UInt8) : ℕ := (l.map UInt8.toNat).sum

section bytes

variable {m : Mem} {a b : ℕ} {c : UInt8} {l l' : List UInt8}

theorem BytesAt.head (h : BytesAt m a (c :: l)) : m a = c := h 0 (Nat.succ_pos _)

theorem BytesAt.tail (h : BytesAt m a (c :: l)) : BytesAt m (a + 1) l := fun i hi => by
  have e : a + 1 + i = a + (i + 1) := by omega
  rw [e]
  exact h (i + 1) (Nat.succ_lt_succ hi)

theorem memCompare_eq (h : BytesAt m a l) (h' : BytesAt m b l') (hlen : l.length = l'.length) :
    memCompare m a b l.length = decide (l = l') := by
  induction l generalizing a b l' with
  | nil =>
      obtain rfl := List.length_eq_zero_iff.mp hlen.symm
      rfl
  | cons c l ih =>
      cases l' with
      | nil => cases hlen
      | cons d l' =>
          rw [List.length_cons, memCompare, h.head, h'.head]
          by_cases hcd : c = d
          · rw [if_neg (not_not.mpr hcd), ih h.tail h'.tail (Nat.succ.inj hlen)]
            simp [hcd]
          · rw [if_pos hcd]
            simp [hcd]

theorem checksumLoop_eq (h : BytesAt m a l) (sum : ℕ) :
    checksumLoop m a l.length sum % 2 ^ 8 = (sum + byteSum l) % 2 ^ 8 := by
  induction l generalizing a sum with
  | nil => rfl
  | cons c l ih =>
      rw [List.length_cons, checksumLoop, ih h.tail, h.head]
      unfold byteSum
      rw [List.map_cons, List.sum_cons]
      omega

theorem acpiChecksum_eq (h : BytesAt m a l) : acpiChecksum m a l.length = byteSum l % 2 ^ 8 := by
  rw [acpiChecksum, checksumLoop_eq h, Nat.zero_add]

end bytes

/-! ### Tables -/

/-- A table: its address, its signature, and the bytes of its declared length. -/
structure SystemTable where
  addr : ℕ
  signature : List UInt8
  bytes : List UInt8
  addr_lt : addr < 2 ^ 32
  signature_length : signature.length = 4

/-- The bytes of the table sum to zero. -/
def SystemTable.Valid (t : SystemTable) : Prop := byteSum t.bytes % 2 ^ 8 = 0

instance (t : SystemTable) : Decidable t.Valid := Nat.decEq _ _

/-- The first table with a signature that is valid. -/
def findTable (ts : List SystemTable) (signature : List UInt8) : Option SystemTable :=
  ts.find? fun t => decide (t.signature = signature ∧ t.Valid)

/-- The address of a table, or null. -/
def tableAddr (t : Option SystemTable) : ℕ := (t.map SystemTable.addr).getD 0

/-- The table is in memory. -/
structure SystemTable.In (t : SystemTable) (m : Mem) : Prop where
  signature : BytesAt m t.addr t.signature
  length : sdtLength m t.addr = t.bytes.length
  bytes : BytesAt m t.addr t.bytes

/-- The root table at `root`, with pointers of `w` bytes, points to these tables. -/
structure RootTable (m : Mem) (root w : ℕ) (ts : List SystemTable) : Prop where
  header : SDT_HEADER_SIZE ≤ sdtLength m root
  count : (sdtLength m root - SDT_HEADER_SIZE) / w = ts.length
  entry : ∀ i, (h : i < ts.length) → rdN m w (u64 (root + SDT_HEADER_SIZE + i * w)) = ts[i].addr
  tables : ∀ t ∈ ts, t.In m

section scan

variable {m m' : Mem} {a root w i n rsdp rsdp' signature signature' : ℕ} {t : SystemTable}
  {ts : List SystemTable} {sig : List UInt8}

theorem sdtLength_lt : sdtLength m a < 2 ^ 32 := rdN_lt m 4 _

/-- What a round of the scan tests. -/
theorem SystemTable.In.found (h : t.In m) (hs : BytesAt m signature sig) (hsig : sig.length = 4) :
    memCompare m t.addr signature 4 = decide (t.signature = sig) ∧
      (acpiChecksum m t.addr (sdtLength m t.addr) = 0 ↔ t.Valid) := by
  constructor
  · have hcmp := memCompare_eq h.signature hs (t.signature_length.trans hsig.symm)
    rwa [t.signature_length] at hcmp
  · rw [h.length, acpiChecksum_eq h.bytes]
    rfl

theorem RootTable.count_eq (h : RootTable m root w ts) : tableCount m root w = ts.length := by
  have hlt := @sdtLength_lt m root
  rw [tableCount, sub64_of_le (by omega) h.header, h.count]

/-- The pointers of a root table are inside it. -/
theorem RootTable.entry_lt (h : RootTable m root w ts) (hi : i < ts.length) : i * w < 2 ^ 32 := by
  have hlt := @sdtLength_lt m root
  have hcount := h.count
  have hle := Nat.div_mul_le_self (sdtLength m root - SDT_HEADER_SIZE) w
  have hmono : i * w ≤ ts.length * w := Nat.mul_le_mul_right w hi.le
  rw [hcount] at hle
  omega

/-- The scan finds the first table from pointer `i` on. -/
theorem tableScan_eq (h : RootTable m root w ts) (hs : BytesAt m signature sig)
    (hsig : sig.length = 4) (hn : i + n = ts.length) :
    tableScan m signature root w i n = tableAddr (findTable (ts.drop i) sig) := by
  induction n generalizing i with
  | zero =>
      rw [List.drop_of_length_le (by omega)]
      rfl
  | succ n ih =>
      have hi : i < ts.length := by omega
      have hptr : u64 (ptrArray root + i * w % 2 ^ 32) = u64 (root + SDT_HEADER_SIZE + i * w) := by
        have hlt := h.entry_lt hi
        unfold ptrArray u64
        omega
      obtain ⟨hcmp, hsum⟩ := (h.tables ts[i] (List.getElem_mem hi)).found hs hsig
      rw [List.drop_eq_getElem_cons hi, tableScan, hptr, h.entry i hi, hcmp, findTable, List.find?_cons]
      simp only [decide_eq_true_eq]
      have hnext : tableScan m signature root w (i + 1) n =
          tableAddr (findTable (ts.drop (i + 1)) sig) := ih (by omega)
      by_cases hsg : ts[i].signature = sig
      · by_cases hv : ts[i].Valid
        · rw [if_pos hsg, if_pos (hsum.mpr hv), decide_eq_true ⟨hsg, hv⟩]
          rfl
        · rw [if_pos hsg, if_neg (fun h0 => hv (hsum.mp h0)), decide_eq_false (fun h0 => hv h0.2)]
          exact hnext
      · rw [if_neg hsg, decide_eq_false (fun h0 => hsg h0.1)]
        exact hnext

theorem tableScan_find (h : RootTable m root w ts) (hs : BytesAt m signature sig)
    (hsig : sig.length = 4) :
    tableScan m signature root w 0 (tableCount m root w % 2 ^ 32) = tableAddr (findTable ts sig) := by
  have hlt : ts.length < 2 ^ 32 := by
    have h1 := @sdtLength_lt m root
    have h2 := Nat.div_le_self (sdtLength m root - SDT_HEADER_SIZE) w
    have h3 := h.count
    omega
  rw [h.count_eq, Nat.mod_eq_of_lt hlt]
  exact tableScan_eq h hs hsig (by omega)

/-- An RSDP of revision 0, whose RSDT points to these tables. -/
structure Rsdt (m : Mem) (rsdp : ℕ) (ts : List SystemTable) : Prop where
  found : rsdp ≠ 0
  revision : rsdpRevision m rsdp = 0
  root : RootTable m (rsdtAddress m rsdp) 4 ts

/-- An RSDP of a later revision, whose XSDT points to these tables. -/
structure Xsdt (m : Mem) (rsdp : ℕ) (ts : List SystemTable) : Prop where
  found : rsdp ≠ 0
  revision : rsdpRevision m rsdp ≠ 0
  root : RootTable m (xsdtAddress m rsdp) 8 ts

/-- **Through the RSDT as through the XSDT of the same tables, `acpi_table` returns the first one
with the signature whose bytes sum to zero, and null if there is none.** -/
theorem acpi_table (h : Rsdt m rsdp ts) (h' : Xsdt m' rsdp' ts) (hs : BytesAt m signature sig)
    (hs' : BytesAt m' signature' sig) (hsig : sig.length = 4) :
    acpiTable m rsdp signature = tableAddr (findTable ts sig) ∧
      acpiTable m' rsdp' signature' = tableAddr (findTable ts sig) := by
  constructor
  · rw [acpiTable, if_pos h.found, if_pos h.revision]
    exact tableScan_find h.root hs hsig
  · rw [acpiTable, if_pos h'.found, if_neg h'.revision]
    exact tableScan_find h'.root hs' hsig

end scan

/-! ### An example -/

/-- The signature of the MADT. -/
def apicSignature : List UInt8 := [0x41, 0x50, 0x49, 0x43]

/-- Two tables with this signature, of which the second one is valid. -/
def twoTables : List SystemTable :=
  [⟨0x4000, apicSignature, apicSignature ++ [8, 0, 0, 0], by decide, rfl⟩,
    ⟨0x5000, apicSignature, apicSignature ++ [9, 0, 0, 0, 0xDA], by decide, rfl⟩]

/-- RSDPs of revisions 0 and 2 at `0x1000` and `0x1100`, with root tables of the two tables. -/
def firmware : Mem :=
  put (put (put (put (put (put (put (put (put (fun _ => 0)
    0x1010 [0, 0x20]) 0x110F [2]) 0x1118 [0, 0x30])
    0x2004 [44]) 0x2024 [0, 0x40, 0, 0, 0, 0x50])
    0x3004 [52]) 0x3024 [0, 0x40, 0, 0, 0, 0, 0, 0, 0, 0x50])
    0x4000 (apicSignature ++ [8])) 0x5000 (apicSignature ++ [9, 0, 0, 0, 0xDA])

theorem firmware_tables : ∀ t ∈ twoTables, t.In firmware := by
  intro t ht
  rcases List.mem_pair.mp ht with rfl | rfl
  · exact ⟨by unfold BytesAt; decide +kernel, by decide +kernel, by unfold BytesAt; decide +kernel⟩
  · exact ⟨by unfold BytesAt; decide +kernel, by decide +kernel, by unfold BytesAt; decide +kernel⟩

theorem firmware_rsdt : Rsdt firmware 0x1000 twoTables :=
  ⟨by decide, by decide +kernel,
    ⟨by decide +kernel, by decide +kernel, by decide +kernel, firmware_tables⟩⟩

theorem firmware_xsdt : Xsdt firmware 0x1100 twoTables :=
  ⟨by decide, by decide +kernel,
    ⟨by decide +kernel, by decide +kernel, by decide +kernel, firmware_tables⟩⟩

/-- The valid one is found, though the other one comes first. -/
theorem acpi_table_second :
    acpiTable firmware 0x1000 0x5000 = tableAddr (findTable twoTables apicSignature) ∧
      acpiTable firmware 0x1100 0x5000 = tableAddr (findTable twoTables apicSignature) :=
  acpi_table firmware_rsdt firmware_xsdt (by unfold BytesAt; decide +kernel)
    (by unfold BytesAt; decide +kernel) rfl

example : tableAddr (findTable twoTables apicSignature) = 0x5000 := by decide

end Dawos.Kernel
