import Dawos.Acpi
import Dawos.KernelPaging

/-! # Mapping the ACPI tables

`acpi_map` of `kernel/arch/acpi.c` is to map the pages of the tables that the root table points to.
The pages it asks `page_map_mmio` for are those of `ptr`, the address of the pointer, and further
ones counted from there; the table itself is at `th`.

An access to a page that is not present goes through `isr_handler` of `kernel/cpu/interrupts.c`,
which maps the page (`reach`).  So reading the length of a table maps the page of its header.  Memory
as the processor sees it is the one of the physical addresses, since every page is mapped to itself.

`Visiting` follows which pages are present: those that were, and those of the bytes in a set that
grows with every access (`Visiting.map`).  `acpi_map_tables` says when these are all the pages of
the tables. -/

namespace Dawos.Kernel

/-! ### The functions -/

/-- The page of an address is present. -/
def Present (l : Layout) (s : PageState) (v : ℕ) : Prop :=
  pmPresent (entryAt s.mem l.pml4 v 3) = true

instance (l : Layout) (s : PageState) (v : ℕ) : Decidable (Present l s v) :=
  inferInstanceAs (Decidable (pmPresent (entryAt s.mem l.pml4 v 3) = true))

instance (v : ℕ) : Decidable (Canonical v) :=
  inferInstanceAs (Decidable (v / 2 ^ 47 = 0 ∨ v / 2 ^ 47 = 2 ^ 17 - 1))

/-- Case 14 of `isr_handler`: map this page if it's not mapped yet, otherwise hang. -/
def isrPageFault (l : Layout) (s : PageState) (cr2 : ℕ) : Option PageState :=
  if pageResolve l s.mem cr2 = 0 then some (pageMap l s cr2).1 else none

/-- An access to a byte, through the handler if its page is not present.  One to an address that is
not canonical is a general protection fault, on which the handler hangs. -/
def reach (l : Layout) (s : PageState) (a : ℕ) : Option PageState :=
  if ¬ Canonical a then none
  else if Present l s a then some s
  else isrPageFault l s a

/-- Read `w` bytes, which may go over the end of a page. -/
def readBytes (l : Layout) (s : PageState) (w a : ℕ) : Option (PageState × ℕ) := do
  let s ← reach l s a
  let s ← reach l s (a + w - 1)
  return (s, rdN s.mem w a)

/-- Map additional pages, from page `j` on; the length of the table has been read before. -/
def mapExtra (l : Layout) (ptr th : ℕ) (s : PageState) (j : ℕ) : PageState :=
  if j < pageAlign (u64 (ptr + sdtLength s.mem th)) then
    mapExtra l ptr th (pageMapMmio l s j).1 (j + PAGE_SIZE)
  else s
termination_by 2 ^ 64 - j
decreasing_by
  rename_i h
  rw [pageAlign_eq (u64_lt _)] at h
  have := u64_lt (ptr + sdtLength s.mem th)
  rw [PAGE_SIZE]
  omega

/-- The address of pointer `i` in a root table with pointers of `w` bytes. -/
def ptrAt (root w i : ℕ) : ℕ := u64 (ptrArray root + i * w)

/-- The loop over the pointers of a root table, from pointer `i` on with `n` left. -/
def mapTables (l : Layout) (root w : ℕ) : ℕ → ℕ → PageState → Option PageState
  | _, 0, s => some s
  | i, n + 1, s => do
      let ptr := ptrAt root w i
      -- Map the page
      let s := (pageMapMmio l s ptr).1
      let (s, th) ← readBytes l s w ptr
      let (s, length) ← readBytes l s 4 (th + 4)
      -- If the length is greater than a page, map additional pages
      let s := if PAGE_SIZE < length then mapExtra l ptr th s (u64 (pageAlign ptr + PAGE_SIZE)) else s
      mapTables l root w (i + 1) n s

/-- Map pages to ACPI tables. -/
def acpiMap (l : Layout) (s : PageState) (rsdp : ℕ) : Option PageState :=
  if rsdp ≠ 0 then do
    let (s, revision) ← readBytes l s 1 (rsdp + 15)
    if revision = 0 then
      let (s, rsdt) ← readBytes l s 4 (rsdp + 16)
      let (s, length) ← readBytes l s 4 (rsdt + 4)
      mapTables l rsdt 4 0 (sub64 length SDT_HEADER_SIZE / 4) s
    else
      let (s, xsdt) ← readBytes l s 8 (rsdp + 24)
      let (s, length) ← readBytes l s 4 (xsdt + 4)
      mapTables l xsdt 8 0 (sub64 length SDT_HEADER_SIZE / 8) s
  else some s

/-! ### What it reads and maps -/

/-- A byte of the word of `w` bytes at address `a`. -/
def InWord (w a x : ℕ) : Prop := a ≤ x ∧ x < a + w

/-- The number of bytes of a pointer: the root table is the RSDT or the XSDT. -/
def rootWidth (m : Mem) (rsdp : ℕ) : ℕ := if rsdpRevision m rsdp = 0 then 4 else 8

/-- Where the RSDP has the address of the root table. -/
def rootField (m : Mem) (rsdp : ℕ) : ℕ := if rsdpRevision m rsdp = 0 then rsdp + 16 else rsdp + 24

/-- The address of the root table. -/
def rootAddress (m : Mem) (rsdp : ℕ) : ℕ := rdN m (rootWidth m rsdp) (rootField m rsdp)

/-- The address of the table behind pointer `i`. -/
def tableAddress (m : Mem) (root w i : ℕ) : ℕ := rdN m w (ptrAt root w i)

/-- The pointer `i`, and the length of its table. -/
def EntryBytes (m : Mem) (root w i x : ℕ) : Prop :=
  InWord w (ptrAt root w i) x ∨ InWord 4 (tableAddress m root w i + 4) x

/-- The additional pages of pointer `i`, which are counted from its own address. -/
def ExtraPages (m : Mem) (root w i x : ℕ) : Prop :=
  PAGE_SIZE < sdtLength m (tableAddress m root w i) ∧
    u64 (pageAlign (ptrAt root w i) + PAGE_SIZE) ≤ x ∧
    x < pageAlign (u64 (ptrAt root w i + sdtLength m (tableAddress m root w i)))

/-- The pages asked for because of pointer `i`. -/
def entryCost (m : Mem) (root w i : ℕ) : ℕ :=
  5 + sdtLength m (tableAddress m root w i) / PAGE_SIZE

/-- The bytes of the RSDP and of the root table that are read before the loop. -/
def RootBytes (m : Mem) (rsdp x : ℕ) : Prop :=
  x = rsdp + 15 ∨ InWord (rootWidth m rsdp) (rootField m rsdp) x ∨
    InWord 4 (rootAddress m rsdp + 4) x

/-- The number of pointers in the root table. -/
def rootCount (m : Mem) (rsdp : ℕ) : ℕ := tableCount m (rootAddress m rsdp) (rootWidth m rsdp)

/-- The bytes that `acpi_map` reads. -/
def AcpiBytes (m : Mem) (rsdp x : ℕ) : Prop :=
  RootBytes m rsdp x ∨ ∃ i < rootCount m rsdp, EntryBytes m (rootAddress m rsdp) (rootWidth m rsdp) i x

/-- The bytes that it reads, and those of the additional pages. -/
def AcpiVisited (m : Mem) (rsdp x : ℕ) : Prop :=
  AcpiBytes m rsdp x ∨
    ∃ i < rootCount m rsdp, ExtraPages m (rootAddress m rsdp) (rootWidth m rsdp) i x

/-- The pages asked for. -/
def acpiCost (m : Mem) (rsdp : ℕ) : ℕ :=
  6 + ∑ i ∈ Finset.range (rootCount m rsdp), entryCost m (rootAddress m rsdp) (rootWidth m rsdp) i

/-- A byte of a table that the root table points to. -/
def TableByte (m : Mem) (rsdp v : ℕ) : Prop :=
  ∃ i < rootCount m rsdp, ∃ th, tableAddress m (rootAddress m rsdp) (rootWidth m rsdp) i = th ∧
    th ≤ v ∧ v < th + sdtLength m th

/-- The bytes that `acpi_map` reads can be accessed, and are not in the page tables. -/
structure AcpiApart (l : Layout) (len off n : ℕ) (s : PageState) (rsdp : ℕ) : Prop where
  found : rsdp ≠ 0
  canonical : ∀ x, AcpiBytes s.mem rsdp x → Canonical x
  elsewhere : Elsewhere l len off n (AcpiBytes s.mem rsdp)
  apart : ∀ va d t x, d ≤ 3 → tableAt s.mem l.pml4 va d = some t → t ≤ x → x < t + 4096 →
    ¬ AcpiBytes s.mem rsdp x

/-! ### The pages that are present -/

/-- From `s₀` to `s` at most `c` pages were asked for, and the bytes of `V` are on these pages. -/
structure Visiting (l : Layout) (len off n : ℕ) (P : ℕ → Prop) (s₀ : PageState) (V : ℕ → Prop)
    (c : ℕ) (s : PageState) : Prop where
  kept : Kept l len off n P s₀.mem s
  tables : ∃ k, k ≤ 3 * c ∧ s.pageOffset = bump off k ∧ IdTables l len off n False s.mem k
  present : ∀ v, Present l s v ↔ Present l s₀ v ∨ ∃ x, V x ∧ SamePage v x

section visiting

variable {l : Layout} {len off n N c c' flags p a w i j k r v ptr th root length : ℕ}
  {s s₀ : PageState} {P V V' : ℕ → Prop}

theorem SamePage.trans {x y z : ℕ} (h : SamePage x y) (h' : SamePage y z) : SamePage x z :=
  Eq.trans h h'

theorem Canonical.lt (h : Canonical a) : a < 2 ^ 64 := by
  unfold Canonical at h
  omega

theorem Present.same (h : Present l s a) (hv : SamePage v a) : Present l s v := by
  unfold Present
  rwa [entryAt_pre le_rfl (samePage_iff.mp hv)]

theorem Visiting.congr (h : Visiting l len off n P s₀ V c s) (hc : c ≤ c')
    (hV : ∀ x, V x → ∃ y, V' y ∧ SamePage x y) (hV' : ∀ y, V' y → ∃ x, V x ∧ SamePage y x) :
    Visiting l len off n P s₀ V' c' s := by
  obtain ⟨k, hk, h1, h2⟩ := h.tables
  refine ⟨h.kept, ⟨k, by omega, h1, h2⟩, fun v => (h.present v).trans (or_congr_right ?_)⟩
  constructor
  · rintro ⟨x, hx, hvx⟩
    obtain ⟨y, hy, hxy⟩ := hV x hx
    exact ⟨y, hy, hvx.trans hxy⟩
  · rintro ⟨y, hy, hvy⟩
    obtain ⟨x, hx, hyx⟩ := hV' y hy
    exact ⟨x, hx, hvy.trans hyx⟩

theorem Visiting.of_iff (h : Visiting l len off n P s₀ V c s) (hc : c ≤ c') (hV : ∀ x, V x ↔ V' x) :
    Visiting l len off n P s₀ V' c' s :=
  h.congr hc (fun x hx => ⟨x, (hV x).mp hx, rfl⟩) fun y hy => ⟨y, (hV y).mpr hy, rfl⟩

theorem Visiting.sdtLength_eq (h : Visiting l len off n P s₀ V c s)
    (hin : ∀ x, InWord 4 (th + 4) x → P x) : sdtLength s.mem th = sdtLength s₀.mem th :=
  rdN_congr fun x hx1 hx2 => h.kept.same x (hin x ⟨hx1, hx2⟩)

/-- **A call of one of the two functions.** -/
theorem Visiting.map (hr : Room l len off n) (hP : Elsewhere l len off n P) (hf : FlagsOk flags)
    (h : Visiting l len off n P s₀ V c s) (hc : 3 * (c + 1) ≤ n) (hp : p < 2 ^ 64) :
    Visiting l len off n P s₀ (fun x => V x ∨ x = p) (c + 1) (pageMapFlags l flags s p).1 := by
  obtain ⟨k, hk, hoff, htab⟩ := h.tables
  obtain ⟨k', hm⟩ := pageMapFlags_spec hr hf htab hoff (by omega) hp False.elim
  have hle := hm.le
  have halign := pageAlign_eq hp
  obtain ⟨-, -, hnew⟩ := entry_flags (by omega : pageAlign p % 4096 = 0) (by omega) hf.1 hf.2
  refine ⟨pageMapFlags_kept hr hP hf htab hoff (by omega) h.kept,
    ⟨k', by omega, hm.offset, hm.tables⟩, fun v => ?_⟩
  have hpres : Present l (pageMapFlags l flags s p).1 v ↔ Present l s v ∨ SamePage v p := by
    unfold Present
    rw [hm.last]
    by_cases hs : SamePage v p
    · by_cases hv : pmPresent (entryAt s.mem l.pml4 p 3) = false
      · rw [if_pos ⟨hs, hv⟩]
        exact iff_of_true hnew (.inr hs)
      · rw [if_neg fun hc => hv hc.2]
        have hp' : Present l s p := by simpa [Present] using hv
        exact iff_of_true (hp'.same hs) (.inr hs)
    · rw [if_neg fun hc => hs hc.1]
      exact (or_iff_left hs).symm
  rw [hpres, h.present, or_assoc]
  refine or_congr_right ⟨?_, ?_⟩
  · rintro (⟨x, hx, hvx⟩ | hs)
    · exact ⟨x, .inl hx, hvx⟩
    · exact ⟨p, .inr rfl, hs⟩
  · rintro ⟨x, hx | rfl, hvx⟩
    · exact .inl ⟨x, hx, hvx⟩
    · exact .inr hvx

/-- **An access** does not hang. -/
theorem Visiting.reach (hr : Room l len off n) (hP : Elsewhere l len off n P)
    (h : Visiting l len off n P s₀ V c s) (hc : 3 * (c + 1) ≤ n) (ha : Canonical a) :
    ∃ s', Dawos.Kernel.reach l s a = some s' ∧
      Visiting l len off n P s₀ (fun x => V x ∨ x = a) (c + 1) s' := by
  unfold Dawos.Kernel.reach
  rw [if_neg (not_not.mpr ha)]
  by_cases hp : Present l s a
  · refine ⟨s, if_pos hp, ?_⟩
    obtain ⟨k, hk, h1, h2⟩ := h.tables
    refine ⟨h.kept, ⟨k, by omega, h1, h2⟩, fun v => ⟨fun hv => ?_, ?_⟩⟩
    · rcases (h.present v).mp hv with hv | ⟨x, hx, hvx⟩
      · exact .inl hv
      · exact .inr ⟨x, .inl hx, hvx⟩
    · rintro (hv | ⟨x, hx | rfl, hvx⟩)
      · exact (h.present v).mpr (.inl hv)
      · exact (h.present v).mpr (.inr ⟨x, hx, hvx⟩)
      · exact hp.same hvx
  · obtain ⟨k, -, -, htab⟩ := h.tables
    have hzero : pageResolve l s.mem a = 0 := by
      rw [pageResolve_eq (htab.low a)]
      exact if_neg hp
    refine ⟨(pageMap l s a).1, ?_, h.map hr hP mapFlags_ok hc ha.lt⟩
    rw [if_neg hp, isrPageFault, if_pos hzero]

/-- **Reading some bytes.** -/
theorem Visiting.read (hr : Room l len off n) (hP : Elsewhere l len off n P)
    (hcan : ∀ x, P x → Canonical x) (h : Visiting l len off n P s₀ V c s) (hc : 3 * (c + 2) ≤ n)
    (hw : 0 < w) (hw' : w ≤ 8) (hin : ∀ x, InWord w a x → P x) :
    ∃ s', readBytes l s w a = some (s', rdN s₀.mem w a) ∧
      Visiting l len off n P s₀ (fun x => V x ∨ InWord w a x) (c + 2) s' := by
  have hfirst : InWord w a a := ⟨le_rfl, by omega⟩
  have hlast : InWord w a (a + w - 1) := ⟨by omega, by omega⟩
  obtain ⟨s₁, e₁, h₁⟩ := h.reach hr hP (by omega : 3 * (c + 1) ≤ n) (hcan a (hin a hfirst))
  obtain ⟨s₂, e₂, h₂⟩ := h₁.reach hr hP hc (hcan _ (hin _ hlast))
  have hval : rdN s₂.mem w a = rdN s₀.mem w a :=
    rdN_congr fun x hx1 hx2 => h₂.kept.same x (hin x ⟨hx1, hx2⟩)
  refine ⟨s₂, ?_, h₂.congr le_rfl ?_ ?_⟩
  · unfold readBytes
    simp only [e₁, e₂, hval, Option.bind_eq_bind, Option.bind_some, Option.pure_def]
  · rintro x ((hx | rfl) | rfl)
    · exact ⟨x, .inl hx, rfl⟩
    · exact ⟨x, .inr hfirst, rfl⟩
    · exact ⟨a + w - 1, .inr hlast, rfl⟩
  · rintro y (hy | ⟨hy1, hy2⟩)
    · exact ⟨y, .inl (.inl hy), rfl⟩
    · have hpage : SamePage y a ∨ SamePage y (a + w - 1) := by
        unfold SamePage
        rw [PAGE_SIZE]
        omega
      rcases hpage with hpage | hpage
      · exact ⟨a, .inl (.inr rfl), hpage⟩
      · exact ⟨a + w - 1, .inr rfl, hpage⟩

/-- **The additional pages**, of which there are at most `r`. -/
theorem Visiting.extra (hr : Room l len off n) (hP : Elsewhere l len off n P)
    (hin : ∀ x, InWord 4 (th + 4) x → P x) (hj : j % 4096 = 0)
    (hend : pageAlign (u64 (ptr + sdtLength s₀.mem th)) ≤ j + 4096 * r)
    (h : Visiting l len off n P s₀ V c s) (hc : 3 * (c + r) ≤ n) :
    Visiting l len off n P s₀
      (fun x => V x ∨ (j ≤ x ∧ x < pageAlign (u64 (ptr + sdtLength s₀.mem th)))) (c + r)
      (mapExtra l ptr th s j) := by
  have hB := pageAlign_eq (u64_lt (ptr + sdtLength s₀.mem th))
  have hBlt := u64_lt (ptr + sdtLength s₀.mem th)
  induction r generalizing j s V c with
  | zero =>
      rw [mapExtra, h.sdtLength_eq hin, if_neg (by omega)]
      exact h.of_iff le_rfl fun x => (or_iff_left (by omega)).symm
  | succ r ih =>
      rw [mapExtra, h.sdtLength_eq hin]
      by_cases hlt : j < pageAlign (u64 (ptr + sdtLength s₀.mem th))
      · rw [if_pos hlt]
        have hstep := h.map (p := j) hr hP mmioFlags_ok (by omega) (by omega)
        have hrest := ih (j := j + PAGE_SIZE) (by rw [PAGE_SIZE]; omega) (by rw [PAGE_SIZE]; omega)
          hstep (by omega)
        refine hrest.congr (by omega) ?_ ?_
        · rintro x ((hx | rfl) | ⟨hx1, hx2⟩)
          · exact ⟨x, .inl hx, rfl⟩
          · exact ⟨x, .inr ⟨le_rfl, hlt⟩, rfl⟩
          · exact ⟨x, .inr ⟨by omega, hx2⟩, rfl⟩
        · rintro y (hy | ⟨hy1, hy2⟩)
          · exact ⟨y, .inl (.inl hy), rfl⟩
          · -- a byte of the page at `j`, or of a page behind it
            by_cases hpage : y < j + PAGE_SIZE
            · refine ⟨j, .inl (.inr rfl), ?_⟩
              unfold SamePage
              rw [PAGE_SIZE] at hpage ⊢
              omega
            · exact ⟨y, .inr ⟨by omega, hy2⟩, rfl⟩
      · rw [if_neg hlt]
        exact h.of_iff (by omega) fun x => (or_iff_left (by omega)).symm

/-- There are no more additional pages than the table has full ones. -/
theorem extra_rounds (hlong : PAGE_SIZE < length) (hlen : length < 2 ^ 32) (hptr : ptr < 2 ^ 64) :
    pageAlign (u64 (ptr + length)) ≤
      u64 (pageAlign ptr + PAGE_SIZE) + 4096 * (length / PAGE_SIZE) := by
  rw [pageAlign_eq (u64_lt _), pageAlign_eq hptr]
  unfold u64
  rw [PAGE_SIZE] at hlong ⊢
  omega

/-- One round of the loop. -/
theorem mapTables_succ {s₁ s₂ : PageState}
    (hptr : readBytes l (pageMapMmio l s (ptrAt root w i)).1 w (ptrAt root w i) = some (s₁, th))
    (hlen : readBytes l s₁ 4 (th + 4) = some (s₂, length)) :
    mapTables l root w i (k + 1) s = mapTables l root w (i + 1) k
      (if PAGE_SIZE < length then
        mapExtra l (ptrAt root w i) th s₂ (u64 (pageAlign (ptrAt root w i) + PAGE_SIZE)) else s₂) := by
  simp only [mapTables, Option.bind_eq_bind, hptr, hlen, Option.bind_some]

/-- What a round asks for: the page of the pointer, the pointer, the length of the table, and the
additional pages. -/
theorem Visiting.entry (hr : Room l len off n) (hP : Elsewhere l len off n P)
    (hcan : ∀ x, P x → Canonical x) (hw : 0 < w) (hw' : w ≤ 8)
    (hin : ∀ x, EntryBytes s₀.mem root w i x → P x) (h : Visiting l len off n P s₀ V c s)
    (hc : 3 * (c + entryCost s₀.mem root w i) ≤ n) :
    ∃ s', mapTables l root w i (k + 1) s = mapTables l root w (i + 1) k s' ∧
      Visiting l len off n P s₀
        (fun x => V x ∨ EntryBytes s₀.mem root w i x ∨ ExtraPages s₀.mem root w i x)
        (c + entryCost s₀.mem root w i) s' := by
  obtain ⟨ptr, hptr⟩ : ∃ ptr, ptrAt root w i = ptr := ⟨_, rfl⟩
  obtain ⟨th, hth⟩ : ∃ th, rdN s₀.mem w ptr = th := ⟨_, rfl⟩
  obtain ⟨q, hq⟩ : ∃ q, sdtLength s₀.mem th / PAGE_SIZE = q := ⟨_, rfl⟩
  have hptr64 : ptr < 2 ^ 64 := hptr ▸ u64_lt _
  unfold EntryBytes tableAddress at hin
  unfold entryCost tableAddress at hc
  unfold EntryBytes ExtraPages entryCost tableAddress
  rw [hptr, hth] at hin ⊢
  rw [hptr, hth, hq] at hc
  rw [hq]
  have h₁ := h.map (p := ptr) hr hP mmioFlags_ok (by omega) hptr64
  obtain ⟨s₂, e₂, h₂⟩ := h₁.read hr hP hcan (by omega) hw hw' fun x hx => hin x (.inl hx)
  obtain ⟨s₃, e₃, h₃⟩ := h₂.read hr hP hcan (by omega) (by norm_num) (by norm_num)
    fun x hx => hin x (.inr hx)
  rw [hth] at e₂
  have hround := mapTables_succ (k := k) (hptr.symm ▸ e₂) e₃
  rw [hptr, show rdN s₀.mem 4 (th + 4) = sdtLength s₀.mem th from rfl] at hround
  have hread : Visiting l len off n P s₀
      (fun x => V x ∨ InWord w ptr x ∨ InWord 4 (th + 4) x) (c + 5) s₃ := by
    -- the address of the pointer is the one of its first byte
    have hfirst : ∀ x, x = ptr ∨ InWord w ptr x ↔ InWord w ptr x := fun x =>
      or_iff_right_of_imp fun e => ⟨e.ge, by omega⟩
    refine h₃.of_iff le_rfl fun x => ?_
    rw [or_assoc (a := V x), hfirst, or_assoc]
  by_cases hlong : PAGE_SIZE < sdtLength s₀.mem th
  · rw [if_pos hlong] at hround
    have hstart : u64 (pageAlign ptr + PAGE_SIZE) % 4096 = 0 := by
      rw [pageAlign_eq hptr64, PAGE_SIZE]
      unfold u64
      omega
    have hextra := hread.extra (r := q) hr hP (fun x hx => hin x (.inr hx)) hstart
      (hq ▸ extra_rounds hlong sdtLength_lt hptr64) (by omega)
    refine ⟨_, hround, hextra.of_iff (by omega) fun x => ?_⟩
    rw [and_iff_right hlong, or_assoc]
  · rw [if_neg hlong] at hround
    exact ⟨_, hround, hread.of_iff (by omega) fun x =>
      or_congr_right (or_iff_left fun hx => hlong hx.1).symm⟩

/-- **The rounds from pointer `i` on.** -/
theorem Visiting.entries (hr : Room l len off N) (hP : Elsewhere l len off N P)
    (hcan : ∀ x, P x → Canonical x) (hw : 0 < w) (hw' : w ≤ 8)
    (hin : ∀ j x, i ≤ j → j < i + n → EntryBytes s₀.mem root w j x → P x)
    (h : Visiting l len off N P s₀ V c s)
    (hc : 3 * (c + ∑ j ∈ Finset.range n, entryCost s₀.mem root w (i + j)) ≤ N) :
    ∃ s', mapTables l root w i n s = some s' ∧
      Visiting l len off N P s₀ (fun x => V x ∨ ∃ j, (i ≤ j ∧ j < i + n) ∧
        (EntryBytes s₀.mem root w j x ∨ ExtraPages s₀.mem root w j x))
        (c + ∑ j ∈ Finset.range n, entryCost s₀.mem root w (i + j)) s' := by
  induction n generalizing i s V c with
  | zero =>
      have hnone : ∀ x, ¬ ∃ j, (i ≤ j ∧ j < i + 0) ∧
          (EntryBytes s₀.mem root w j x ∨ ExtraPages s₀.mem root w j x) := by
        rintro x ⟨j, hj, -⟩
        omega
      exact ⟨s, rfl, h.of_iff (by omega) fun x => (or_iff_left (hnone x)).symm⟩
  | succ n ih =>
      have hsum : ∑ j ∈ Finset.range n, entryCost s₀.mem root w (i + (j + 1)) =
          ∑ j ∈ Finset.range n, entryCost s₀.mem root w (i + 1 + j) :=
        Finset.sum_congr rfl fun j _ => by rw [Nat.add_right_comm, Nat.add_assoc]
      rw [Finset.sum_range_succ', Nat.add_zero i, hsum] at hc ⊢
      obtain ⟨s₁, e₁, h₁⟩ := h.entry (k := n) hr hP hcan hw hw'
        (fun x hx => hin i x le_rfl (by omega) hx) (by omega)
      obtain ⟨s₂, e₂, h₂⟩ := ih (i := i + 1)
        (fun j x hj hj' hx => hin j x (by omega) (by omega) hx) h₁ (by omega)
      refine ⟨s₂, e₁.trans e₂, h₂.of_iff (by omega) fun x => ?_⟩
      rw [or_assoc]
      refine or_congr_right ⟨?_, ?_⟩
      · rintro (hx | ⟨j, hj, hx⟩)
        · exact ⟨i, by omega, hx⟩
        · exact ⟨j, by omega, hx⟩
      · rintro ⟨j, hj, hx⟩
        by_cases hji : j = i
        · subst hji
          exact .inl hx
        · exact .inr ⟨j, by omega, hx⟩

/-- **The root table and its pointers.** -/
theorem Visiting.rootTable (hr : Room l len off n) (hP : Elsewhere l len off n P)
    (hcan : ∀ x, P x → Canonical x) (hw : 0 < w) (hw' : w ≤ 8) (hroot : rdN s₀.mem w a = root)
    (hin : ∀ x, InWord w a x ∨ InWord 4 (root + 4) x → P x)
    (hent : ∀ i < tableCount s₀.mem root w, ∀ x, EntryBytes s₀.mem root w i x → P x)
    (h : Visiting l len off n P s₀ V c s)
    (hc : 3 * (c + 4 + ∑ i ∈ Finset.range (tableCount s₀.mem root w), entryCost s₀.mem root w i) ≤ n) :
    ∃ s₁ s₂ length s', readBytes l s w a = some (s₁, root) ∧
      readBytes l s₁ 4 (root + 4) = some (s₂, length) ∧
      mapTables l root w 0 (sub64 length SDT_HEADER_SIZE / w) s₂ = some s' ∧
      Visiting l len off n P s₀ (fun x => ((V x ∨ InWord w a x) ∨ InWord 4 (root + 4) x) ∨
        ∃ i < tableCount s₀.mem root w,
          (EntryBytes s₀.mem root w i x ∨ ExtraPages s₀.mem root w i x))
        (c + 4 + ∑ i ∈ Finset.range (tableCount s₀.mem root w), entryCost s₀.mem root w i) s' := by
  obtain ⟨s₁, e₁, h₁⟩ := h.read hr hP hcan (by omega) hw hw' fun x hx => hin x (.inl hx)
  obtain ⟨s₂, e₂, h₂⟩ := h₁.read hr hP hcan (by omega) (by norm_num) (by norm_num)
    fun x hx => hin x (.inr hx)
  rw [hroot] at e₁
  have hcount : sub64 (rdN s₀.mem 4 (root + 4)) SDT_HEADER_SIZE / w = tableCount s₀.mem root w := rfl
  obtain ⟨s', e₃, h₃⟩ := h₂.entries (i := 0) (n := tableCount s₀.mem root w) hr hP hcan hw hw'
    (fun j x _ hj hx => hent j (by omega) x hx) (by simpa only [Nat.zero_add] using hc)
  simp only [Nat.zero_add, Nat.zero_le, true_and] at h₃
  exact ⟨s₁, s₂, _, s', e₁, e₂, hcount ▸ e₃, h₃.of_iff (by omega) fun x => Iff.rfl⟩

end visiting

section main

variable {l : Layout} {len off n rsdp : ℕ} {s : PageState}

/-- Nothing has been asked for. -/
theorem AcpiApart.start (ha : AcpiApart l len off n s rsdp)
    (ht : IdTables l len off n False s.mem 0) (hs : s.pageOffset = off) :
    Visiting l len off n (AcpiBytes s.mem rsdp) s (fun _ => False) 0 s where
  kept := {
    same := fun _ _ => rfl
    tables := ⟨0, hs, {
      rootPage := ht.pages.rootPage
      distinct := ht.pages.distinct
      unused := ht.pages.unused
      apart := fun hd h h1 h2 hx =>
        hx.elim (ht.pages.apart hd h h1 h2) (ha.apart _ _ _ _ hd h h1 h2) }⟩ }
  tables := ⟨0, le_rfl, hs, ht⟩
  present := fun v => by simp

/-- **`acpi_map` returns, and the pages present after it are those that were, and those of the bytes
that it reads and of the additional pages.** -/
theorem acpiMap_visiting (hr : Room l len off n) (ht : IdTables l len off n False s.mem 0)
    (hs : s.pageOffset = off) (ha : AcpiApart l len off n s rsdp) (hn : 3 * acpiCost s.mem rsdp ≤ n) :
    ∃ s', acpiMap l s rsdp = some s' ∧ Visiting l len off n (AcpiBytes s.mem rsdp) s
      (AcpiVisited s.mem rsdp) (acpiCost s.mem rsdp) s' := by
  have hwidth : 0 < rootWidth s.mem rsdp ∧ rootWidth s.mem rsdp ≤ 8 := by
    unfold rootWidth
    split_ifs <;> norm_num
  have hrev : rdN s.mem 1 (rsdp + 15) = rsdpRevision s.mem rsdp := by
    simp only [rdN, rsdpRevision]
    omega
  have hroot : rdN s.mem (rootWidth s.mem rsdp) (rootField s.mem rsdp) = rootAddress s.mem rsdp := by
    rw [rootAddress]
  have hone : ∀ x, InWord 1 (rsdp + 15) x ↔ x = rsdp + 15 := fun x => by
    unfold InWord
    omega
  unfold acpiCost rootCount at hn
  obtain ⟨s₁, e₁, h₁⟩ := (ha.start ht hs).read (w := 1) (a := rsdp + 15) hr ha.elsewhere
    ha.canonical (by omega) (by norm_num) (by norm_num) fun x hx => .inl (.inl ((hone x).mp hx))
  obtain ⟨s₂, s₃, length, s', e₂, e₃, e₄, h'⟩ := h₁.rootTable (w := rootWidth s.mem rsdp)
    (a := rootField s.mem rsdp) hr ha.elsewhere ha.canonical hwidth.1 hwidth.2 hroot
    (fun x hx => .inl (.inr hx)) (fun i hi x hx => .inr ⟨i, hi, hx⟩) (by omega)
  rw [hrev] at e₁
  refine ⟨s', ?_, h'.of_iff ?_ fun x => ?_⟩
  · unfold acpiMap
    rw [if_pos ha.found]
    simp only [Option.bind_eq_bind, e₁, Option.bind_some]
    by_cases hz : rsdpRevision s.mem rsdp = 0
    · have hw : rootWidth s.mem rsdp = 4 := if_pos hz
      have hf : rootField s.mem rsdp = rsdp + 16 := if_pos hz
      rw [hw, hf] at e₂
      rw [hw] at e₄
      rw [if_pos hz, e₂, Option.bind_some, e₃, Option.bind_some]
      exact e₄
    · have hw : rootWidth s.mem rsdp = 8 := if_neg hz
      have hf : rootField s.mem rsdp = rsdp + 24 := if_neg hz
      rw [hw, hf] at e₂
      rw [hw] at e₄
      rw [if_neg hz, e₂, Option.bind_some, e₃, Option.bind_some]
      exact e₄
  · unfold acpiCost rootCount
    exact Nat.add_le_add_right le_rfl _
  · simp only [AcpiVisited, AcpiBytes, RootBytes, rootCount, hone, false_or, and_or_left, exists_or,
      or_assoc]

/-- **After `acpi_map` every page of every table is present if and only if each of them was before, is
the page of a byte that `acpi_map` reads, or is one of the additional pages.  The bytes read are as
they were.** -/
theorem acpi_map_tables (hr : Room l len off n) (ht : IdTables l len off n False s.mem 0)
    (hs : s.pageOffset = off) (ha : AcpiApart l len off n s rsdp) (hn : 3 * acpiCost s.mem rsdp ≤ n) :
    ∃ s', acpiMap l s rsdp = some s' ∧ (∀ x, AcpiBytes s.mem rsdp x → s'.mem x = s.mem x) ∧
      ((∀ v, TableByte s.mem rsdp v → Present l s' v) ↔ ∀ v, TableByte s.mem rsdp v →
        Present l s v ∨ ∃ x, AcpiVisited s.mem rsdp x ∧ SamePage v x) := by
  obtain ⟨s', hmap, h⟩ := acpiMap_visiting hr ht hs ha hn
  exact ⟨s', hmap, h.kept.same, forall₂_congr fun v _ => h.present v⟩

end main

/-! ### A table over the end of a page -/

/-- An RSDP at `0xE0000`, with an RSDT at `0x7FE0000` that points to a table of 44 bytes at
`0x7FE2FF0`. -/
def crossing : PageState :=
  ⟨put (put (put (put (fun _ => 0) 0xE0010 [0, 0, 0xFE, 7]) 0x7FE0004 [40]) 0x7FE0024
    [0xF0, 0x2F, 0xFE, 7]) 0x7FE2FF4 [44], 0x3000⟩

theorem crossing_values :
    rootWidth crossing.mem 0xE0000 = 4 ∧ rootField crossing.mem 0xE0000 = 0xE0010 ∧
      rootAddress crossing.mem 0xE0000 = 0x7FE0000 ∧ rootCount crossing.mem 0xE0000 = 1 ∧
      ptrAt 0x7FE0000 4 0 = 0x7FE0024 ∧ tableAddress crossing.mem 0x7FE0000 4 0 = 0x7FE2FF0 ∧
      sdtLength crossing.mem 0x7FE2FF0 = 44 := by
  decide +kernel

/-- Nothing from page `0x7FE3` on is read. -/
theorem crossing_bytes {x : ℕ} (h : AcpiBytes crossing.mem 0xE0000 x) : 0xE0000 ≤ x ∧ x < 0x7FE3000 := by
  obtain ⟨hw, hf, hroot, hcount, hptr, hth, -⟩ := crossing_values
  unfold AcpiBytes RootBytes EntryBytes InWord at h
  rw [hw, hf, hroot, hcount] at h
  rcases h with (h | h | h) | ⟨i, hi, h⟩
  · omega
  · omega
  · omega
  · obtain rfl : i = 0 := by omega
    rw [hptr, hth] at h
    omega

theorem crossing_entries (i : ℕ) (hi : i < 512) : pmEntry crossing.mem 0x1000 i = 0 := by
  have hzero : ∀ x < 0x2000, crossing.mem x = 0 := fun x hx => by
    unfold crossing
    dsimp only
    rw [put_off (.inl (by omega)), put_off (.inl (by omega)), put_off (.inl (by omega)),
      put_off (.inl (by omega))]
  have hword : rdN crossing.mem 8 (0x1000 + 8 * i) = rdN (fun _ => 0) 8 (0x1000 + 8 * i) :=
    rdN_congr fun x _ hx => hzero x (by omega)
  exact hword.trans (@zero_entry 0x1000 i)

theorem crossing_tables : IdTables emptyLayout 0x1000 0x3000 36 False crossing.mem 0 :=
  (emptyLayout_tables crossing_entries).mono False.elim

theorem crossing_apart : AcpiApart emptyLayout 0x1000 0x3000 36 crossing 0xE0000 where
  found := by decide
  canonical := fun x hx => by
    have := crossing_bytes hx
    left
    omega
  elsewhere := ⟨fun x hx hb => by
      have := crossing_bytes hb
      have : x < 0x3000 := hx.2
      omega,
    fun x _ hx hb => by
      have := crossing_bytes hb
      omega⟩
  apart := fun va d t x _ ht h1 h2 hb => by
    have := crossing_bytes hb
    obtain ⟨-, rfl⟩ := empty_tables crossing_entries ht
    have : x < 0x1000 + 4096 := h2
    omega

theorem crossing_cost : acpiCost crossing.mem 0xE0000 = 11 := by decide +kernel

theorem acpi_map_tables_crossing : ∃ s', acpiMap emptyLayout crossing 0xE0000 = some s' ∧
    (∀ x, AcpiBytes crossing.mem 0xE0000 x → s'.mem x = crossing.mem x) ∧
    ((∀ v, TableByte crossing.mem 0xE0000 v → Present emptyLayout s' v) ↔
      ∀ v, TableByte crossing.mem 0xE0000 v → Present emptyLayout crossing v ∨
        ∃ x, AcpiVisited crossing.mem 0xE0000 x ∧ SamePage v x) :=
  acpi_map_tables (emptyLayout_room le_rfl) crossing_tables rfl crossing_apart
    (by rw [crossing_cost]; norm_num)

/-- The second page of the table is not present. -/
theorem acpi_map_tables_missed : ∃ (l : Layout) (len off n rsdp : ℕ) (s s' : PageState) (v : ℕ),
    Room l len off n ∧ IdTables l len off n False s.mem 0 ∧ s.pageOffset = off ∧
      AcpiApart l len off n s rsdp ∧ 3 * acpiCost s.mem rsdp ≤ n ∧ acpiMap l s rsdp = some s' ∧
      TableByte s.mem rsdp v ∧ ¬ Present l s' v := by
  have hval : (acpiMap emptyLayout crossing 0xE0000).map
      (fun s' => decide (Present emptyLayout s' 0x7FE3000)) = some false := by
    decide +kernel
  obtain ⟨s', hmap, hmissed⟩ := Option.map_eq_some_iff.mp hval
  refine ⟨emptyLayout, 0x1000, 0x3000, 36, 0xE0000, crossing, s', 0x7FE3000, emptyLayout_room le_rfl,
    crossing_tables, rfl, crossing_apart, by rw [crossing_cost]; norm_num, hmap, ?_,
    of_decide_eq_false hmissed⟩
  obtain ⟨hw, -, hroot, hcount, -, hth, hlen⟩ := crossing_values
  refine ⟨0, by rw [hcount]; norm_num, 0x7FE2FF0, by rw [hroot, hw]; exact hth, by norm_num, ?_⟩
  rw [hlen]
  norm_num

end Dawos.Kernel
