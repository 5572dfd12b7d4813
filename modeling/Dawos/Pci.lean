import Dawos.Loop

/-! # PCI enumeration

The enumeration of `pci.c`: `pci_init` scans the root buses, a bus scan looks at 32 devices, a
device scan at its functions, and a function that is a PCI-to-PCI bridge has its secondary bus
scanned in turn.  Every function that responds is stored in `_cache`.

The configuration space is a function from raw addresses to dwords.  The recursion is bounded by
a depth; `_cache_len` is an 8-bit counter, and the writes to `_cache` are kept in order with
their indices. -/

namespace Dawos

/-- The dwords of the configuration space, by raw address. -/
abbrev PciSpace := ℕ → ℕ

/-- The raw value of a `pci_addr_t` with the enabled bit set. -/
def pciAddr (bus device function reg : ℕ) : ℕ :=
  0x80000000 + bus % 256 * 0x10000 + device % 32 * 0x800 + function % 8 * 0x100 + reg % 64 * 4

def pciRead (cfg : PciSpace) (addr : ℕ) : ℕ := cfg addr % 2 ^ 32

/-- The fields of `pci_header_t` that the enumeration uses. -/
structure PciHeader where
  vendorId : ℕ
  deviceId : ℕ
  progIf : ℕ
  subclassId : ℕ
  classId : ℕ
  type : ℕ

def pciGetHeader (cfg : PciSpace) (bus device function : ℕ) : PciHeader :=
  let row r := pciRead cfg (pciAddr bus device function r)
  { vendorId := row 0 % 2 ^ 16
    deviceId := row 0 / 2 ^ 16
    progIf := row 2 / 2 ^ 8 % 2 ^ 8
    subclassId := row 2 / 2 ^ 16 % 2 ^ 8
    classId := row 2 / 2 ^ 24
    type := row 3 / 2 ^ 16 % 2 ^ 8 }

/-- The header says that the device has several functions. -/
def PciHeader.multi (h : PciHeader) : Bool := h.type &&& 0x80 != 0

/-- Get secondary bus number from PCI-to-PCI bridge. -/
def pciGetSecondaryBus (cfg : PciSpace) (bus device function : ℕ) : ℕ :=
  if bus < 256 ∧ device < 32 ∧ function < 8 then
    pciRead cfg (pciAddr bus device function 6) / 2 ^ 8 % 2 ^ 8
  else bus

/-! ### The cache -/

/-- `pci_cache_t`. -/
structure PciCache where
  address : ℕ
  vendorId : ℕ
  deviceId : ℕ
  classId : ℕ
  subclassId : ℕ
  progIf : ℕ
  type : ℕ

/-- `sizeof(pci_cache_t)`. -/
def PCI_CACHE_SIZE : ℕ := 12

/-- The bytes that `pci_init` allocates for `_cache`: `sizeof(pci_cache_t *) * 256`. -/
def PCI_CACHE_BYTES : ℕ := 8 * 256

/-- `_cache_len`, and the writes to `_cache` in order: index and entry. -/
structure PciState where
  len : ℕ
  writes : List (ℕ × PciCache)

namespace PciState

/-- Write `_cache[_cache_len]` and increment the 8-bit length. -/
def store (st : PciState) (e : PciCache) : PciState :=
  ⟨(st.len + 1) % 256, st.writes ++ [(st.len, e)]⟩

/-- The entry at an index: what was last written there. -/
def entry (st : PciState) (i : ℕ) : Option PciCache :=
  ((st.writes.filter fun w => w.1 == i).getLast?).map Prod.snd

/-- The entries below the length. -/
def cache (st : PciState) : List (Option PciCache) := (List.range st.len).map st.entry

end PciState

/-! ### Enumeration -/

/-- The entry that is stored for a function. -/
def pciEntry (cfg : PciSpace) (bus device function : ℕ) : PciCache :=
  let header := pciGetHeader cfg bus device function
  { address := pciAddr bus device function 0
    vendorId := header.vendorId
    deviceId := header.deviceId
    classId := header.classId
    subclassId := header.subclassId
    progIf := header.progIf
    type := header.type }

/-- Enumerate one function; `enumBus` is the scan of a secondary bus. -/
def pciEnumFunction (enumBus : ℕ → PciState → Except Halt PciState) (cfg : PciSpace)
    (bus device function : ℕ) (st : PciState) : Except Halt PciState :=
  let header := pciGetHeader cfg bus device function
  if header.vendorId ≠ 0xFFFF then
    let st := st.store (pciEntry cfg bus device function)
    if header.classId = 0x06 ∧ header.subclassId = 0x04 then
      let secondaryBus := pciGetSecondaryBus cfg bus device function
      if secondaryBus ≠ bus then enumBus secondaryBus st else .ok st
    else .ok st
  else .ok st

/-- Enumerate a single device on a bus. -/
def pciEnumDevice (enumBus : ℕ → PciState → Except Halt PciState) (cfg : PciSpace)
    (bus device : ℕ) (st : PciState) : Except Halt PciState :=
  let header := pciGetHeader cfg bus device 0
  if header.vendorId ≠ 0xFFFF then
    if header.multi then
      -- functions 1 to 7
      [1, 2, 3, 4, 5, 6, 7].foldlM
        (fun st function => pciEnumFunction enumBus cfg bus device function st) st
    else pciEnumFunction enumBus cfg bus device 0 st
  else .ok st

/-- Enumerate a single bus, to a depth. -/
def pciEnumBus (cfg : PciSpace) : ℕ → ℕ → PciState → Except Halt PciState
  | 0, _, _ => .error .fuel
  | n + 1, bus, st => (List.range 32).foldlM
      (fun st device => pciEnumDevice (pciEnumBus cfg n) cfg bus device st) st

/-- The scan of the root buses. -/
def pciScan (fuel : ℕ) (cfg : PciSpace) : Except Halt PciState :=
  let header := pciGetHeader cfg 0 0 0
  if header.multi then
    -- multiple PCI host controllers
    (List.range 8).foldlM (fun st bus =>
      if (pciGetHeader cfg bus 0 0).vendorId ≠ 0xFFFF then pciEnumBus cfg fuel bus st else .ok st)
      ⟨0, []⟩
  else pciEnumBus cfg fuel 0 ⟨0, []⟩

/-- Initialize the cache: the state, and whether anything was found. -/
def pciInit (fuel : ℕ) (cfg : PciSpace) : Except Halt (PciState × Bool) := do
  let st ← pciScan fuel cfg
  return (st, decide (0 < st.len))

end Dawos
