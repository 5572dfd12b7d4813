import Dawos.AcpiMap
import Dawos.Refine

/-! # Demand paging

The kernel maps a page when it is accessed for the first time: `isr_handler` calls `page_map` for the
address of a page fault, and the access is made again.  A program sees nothing of this.

`Op.paged` is an operation of the program as it happens: through the handler, the page tables and the
processor's translation of every byte.  `Op.flat` is the same operation on memory without pages.
`Backed` relates the two, and `demandPaging_transparent` says that any sequence of loads, stores and
calls of `page_map` and `page_map_mmio` has the same results in both, without hanging, as long as there
are pages for the tables. -/

namespace Dawos.Kernel

/-! ### The operations of a program -/

/-- What a program does with memory; loads and stores are of `w` bytes. -/
inductive Op where
  | load (w a : ℕ)
  | store (w a v : ℕ)
  | map (p : ℕ)
  | mmio (p : ℕ)

/-- Load the word of `w` bytes, each of them translated by the processor. -/
def loadVirt (m : Mem) (root : ℕ) : ℕ → ℕ → Option ℕ
  | 0, _ => some 0
  | w + 1, a => do
      let p ← translate m root a
      let v ← loadVirt m root w (a + 1)
      return (m p).toNat + 256 * v

/-- Store the low `w` bytes of `v`; the translations are those of the memory `m₀` before the store. -/
def storeVirt (m₀ : Mem) (root : ℕ) : ℕ → ℕ → ℕ → Mem → Option Mem
  | 0, _, _, m => some m
  | w + 1, a, v, m => do
      let p ← translate m₀ root a
      storeVirt m₀ root w (a + 1) (v / 256) (Function.update m p (UInt8.ofNat v))

/-- Make the pages of an access present. -/
def reachBytes (l : Layout) (s : PageState) (w a : ℕ) : Option PageState := do
  let s ← reach l s a
  reach l s (a + w - 1)

/-- An operation with the page tables. -/
def Op.paged (l : Layout) (s : PageState) : Op → Option (PageState × List ℕ)
  | .load w a => do
      let s ← reachBytes l s w a
      let v ← loadVirt s.mem l.pml4 w a
      return (s, [v])
  | .store w a v => do
      let s ← reachBytes l s w a
      let m ← storeVirt s.mem l.pml4 w a v s.mem
      return ({ s with mem := m }, [])
  | .map p => some ((pageMap l s p).1, [])
  | .mmio p => some ((pageMapMmio l s p).1, [])

/-- An operation on memory without pages. -/
def Op.flat (m : Mem) : Op → Option (Mem × List ℕ)
  | .load w a => some (m, [rdN m w a])
  | .store w a v => some (wrN m w a v, [])
  | .map _ => some (m, [])
  | .mmio _ => some (m, [])

/-- The bytes of an access are below `2 ^ 47` and in `P`; a page to be mapped is below `2 ^ 48`. -/
def Op.Ok (P : ℕ → Prop) : Op → Prop
  | .load w a => (0 < w ∧ w ≤ 8) ∧ a + w ≤ 2 ^ 47 ∧ ∀ x, InWord w a x → P x
  | .store w a _ => (0 < w ∧ w ≤ 8) ∧ a + w ≤ 2 ^ 47 ∧ ∀ x, InWord w a x → P x
  | .map p => p < 2 ^ 48
  | .mmio p => p < 2 ^ 48

/-! ### The relation -/

/-- The tables have `k` pages and map pages to themselves; outside them memory is `m` at `P`. -/
structure Backed (l : Layout) (len off n : ℕ) (P : ℕ → Prop) (k : ℕ) (s : PageState) (m : Mem) :
    Prop where
  tables : IdTables l len off n True s.mem k
  offset : s.pageOffset = bump off k
  kept : Kept l len off n P m s

section backed

variable {l : Layout} {len off n k p a w v flags : ℕ} {s : PageState} {m : Mem} {P : ℕ → Prop}

theorem entryAt_lt {root va d : ℕ} : entryAt m root va d < 2 ^ 64 := by
  unfold entryAt
  cases tableAt m root va d with
  | none => norm_num
  | some t => exact rd_lt m _

/-- A page that is present is mapped to itself. -/
theorem Backed.translate_self (h : Backed l len off n P k s m) (ha : a < 2 ^ 47)
    (hp : Present l s a) : translate s.mem l.pml4 a = some a := by
  obtain ⟨hsame, hlt⟩ := h.tables.same a hp
  have hlt := hlt trivial
  have he : entryAt s.mem l.pml4 a 3 < 2 ^ 64 := entryAt_lt
  rw [pageAlign_eq he] at hsame hlt
  have hpage : entryAt s.mem l.pml4 a 3 &&& PAGE_FRAME_MASK = a / 4096 * 4096 := by
    rw [and_frameMask]
    omega
  unfold translate
  rw [tableAt_entry, if_pos (show pmPresent (entryAt s.mem l.pml4 a 3) = true from hp), hpage, Option.map_some, PAGE_SIZE]
  congr 1
  omega

/-- **A call** of one of the two functions. -/
theorem Backed.map (hr : Room l len off n) (hP : Elsewhere l len off n P) (hf : FlagsOk flags)
    (h : Backed l len off n P k s m) (hk : k + 3 ≤ n) (hp : p < 2 ^ 48) :
    ∃ k' ≤ k + 3, Backed l len off n P k' (pageMapFlags l flags s p).1 m ∧
      ∀ v, Present l (pageMapFlags l flags s p).1 v ↔ Present l s v ∨ SamePage v p := by
  obtain ⟨k', hm⟩ := pageMapFlags_spec hr hf h.tables h.offset hk (by omega) fun _ => hp
  have halign := pageAlign_eq (by omega : p < 2 ^ 64)
  obtain ⟨-, -, hnew⟩ := entry_flags (by omega : pageAlign p % 4096 = 0) (by omega) hf.1 hf.2
  refine ⟨k', hm.le, ⟨hm.tables, hm.offset,
    pageMapFlags_kept hr hP hf h.tables h.offset hk h.kept⟩, fun v => ?_⟩
  unfold Present
  rw [hm.last]
  by_cases hs : SamePage v p
  · refine iff_of_true ?_ (.inr hs)
    by_cases hv : pmPresent (entryAt s.mem l.pml4 p 3) = false
    · rw [if_pos ⟨hs, hv⟩]
      exact hnew
    · rw [if_neg fun hc => hv hc.2, entryAt_pre le_rfl (samePage_iff.mp hs)]
      simpa using hv
  · rw [if_neg fun hc => hs hc.1]
    exact (or_iff_left hs).symm

/-- **Making a page present**, for which at most one page is mapped. -/
theorem Backed.reach (hr : Room l len off n) (hP : Elsewhere l len off n P)
    (h : Backed l len off n P k s m) (hk : k + 3 ≤ n) (ha : a < 2 ^ 47) :
    ∃ s', ∃ k' ≤ k + 3, Dawos.Kernel.reach l s a = some s' ∧ Backed l len off n P k' s' m ∧
      Present l s' a ∧ ∀ v, Present l s v → Present l s' v := by
  have hcan : Canonical a := .inl (by omega)
  unfold Dawos.Kernel.reach
  rw [if_neg (not_not.mpr hcan)]
  by_cases hp : Present l s a
  · exact ⟨s, k, by omega, if_pos hp, h, hp, fun _ hv => hv⟩
  · obtain ⟨k', hk', hb, hpres⟩ := h.map hr hP mapFlags_ok hk (by omega : a < 2 ^ 48)
    have hzero : pageResolve l s.mem a = 0 := by
      rw [pageResolve_eq (h.tables.low a)]
      exact if_neg hp
    refine ⟨(pageMap l s a).1, k', hk', ?_, hb, (hpres a).mpr (.inr rfl),
      fun v hv => (hpres v).mpr (.inl hv)⟩
    rw [if_neg hp, isrPageFault, if_pos hzero]

/-- **Making the pages of an access present.** -/
theorem Backed.reachBytes (hr : Room l len off n) (hP : Elsewhere l len off n P)
    (h : Backed l len off n P k s m) (hk : k + 6 ≤ n) (hw : 0 < w ∧ w ≤ 8) (ha : a + w ≤ 2 ^ 47) :
    ∃ s', ∃ k' ≤ k + 6, Dawos.Kernel.reachBytes l s w a = some s' ∧ Backed l len off n P k' s' m ∧
      ∀ x, InWord w a x → Present l s' x := by
  obtain ⟨s₁, k₁, hk₁, e₁, h₁, hp₁, -⟩ := h.reach hr hP (by omega) (by omega : a < 2 ^ 47)
  obtain ⟨s₂, k₂, hk₂, e₂, h₂, hp₂, hkeep⟩ :=
    h₁.reach hr hP (by omega) (by omega : a + w - 1 < 2 ^ 47)
  refine ⟨s₂, k₂, by omega, ?_, h₂, fun x hx => ?_⟩
  · unfold Dawos.Kernel.reachBytes
    simp only [e₁, e₂, Option.bind_eq_bind, Option.bind_some]
  · -- a byte is on the page of the first one or of the last one
    obtain ⟨hx1, hx2⟩ := hx
    have hpage : SamePage x a ∨ SamePage x (a + w - 1) := by
      unfold SamePage
      rw [PAGE_SIZE]
      omega
    rcases hpage with hpage | hpage
    · exact (hkeep a hp₁).same hpage
    · exact hp₂.same hpage

/-- Loading bytes that are present. -/
theorem Backed.loadVirt (h : Backed l len off n P k s m) (ha : a + w ≤ 2 ^ 47)
    (hp : ∀ x, InWord w a x → Present l s x) :
    Dawos.Kernel.loadVirt s.mem l.pml4 w a = some (rdN s.mem w a) := by
  induction w generalizing a with
  | zero => rfl
  | succ w ih =>
      have hfirst := h.translate_self (by omega : a < 2 ^ 47) (hp a ⟨le_rfl, by omega⟩)
      have hrest := ih (a := a + 1) (by omega) fun x hx => hp x ⟨by have := hx.1; omega, by
        have := hx.2
        omega⟩
      rw [Dawos.Kernel.loadVirt, hfirst, hrest]
      rfl

/-- A word may be stored first byte first. -/
theorem wrN_succ {m : Mem} : wrN m (w + 1) a v =
    wrN (Function.update m a (UInt8.ofNat v)) w (a + 1) (v / 256) := by
  funext x
  unfold wrN
  rcases Nat.lt_trichotomy x a with h | rfl | h
  · rw [if_neg (by omega), if_neg (by omega), Function.update_of_ne (by omega)]
  · rw [if_pos (by omega), if_neg (by omega), Function.update_self, Nat.sub_self, Nat.pow_zero,
      Nat.div_one]
  · by_cases hx : x < a + (w + 1)
    · have e : x - a = x - (a + 1) + 1 := by omega
      rw [if_pos (by omega), if_pos (by omega), e, Nat.pow_succ', Nat.div_div_eq_div_mul]
    · rw [if_neg (by omega), if_neg (by omega), Function.update_of_ne (by omega)]

/-- Storing bytes that are present. -/
theorem Backed.storeVirt (h : Backed l len off n P k s m) (ha : a + w ≤ 2 ^ 47)
    (hp : ∀ x, InWord w a x → Present l s x) {M : Mem} :
    Dawos.Kernel.storeVirt s.mem l.pml4 w a v M = some (wrN M w a v) := by
  induction w generalizing a v M with
  | zero =>
      have hnone : wrN M 0 a v = M := funext fun x => wrN_off M v (by omega)
      rw [hnone]
      rfl
  | succ w ih =>
      have hfirst := h.translate_self (by omega : a < 2 ^ 47) (hp a ⟨le_rfl, by omega⟩)
      have hrest := ih (a := a + 1) (v := v / 256) (M := Function.update M a (UInt8.ofNat v))
        (by omega) fun x hx => hp x ⟨by have := hx.1; omega, by
          have := hx.2
          omega⟩
      rw [Dawos.Kernel.storeVirt, hfirst, wrN_succ]
      exact hrest

theorem entryAt_agree {m m' : Mem} {root va d : ℕ} (hd : d ≤ 3)
    (hm : ∀ {va d t x}, d ≤ 3 → tableAt m root va d = some t → t ≤ x → x < t + 4096 → m' x = m x) :
    entryAt m' root va d = entryAt m root va d := by
  unfold entryAt
  rw [tableAt_agree (by omega) hm]
  cases ht : tableAt m root va d with
  | none => rfl
  | some t =>
      have hidx := @pagePmlIdx_lt va (4 - d)
      exact rd_congr fun x h1 h2 => hm hd ht (by omega) (by omega)

/-- **A store** to bytes apart from the tables. -/
theorem Backed.store (h : Backed l len off n P k s m) (hin : ∀ x, InWord w a x → P x) :
    Backed l len off n P k { s with mem := wrN s.mem w a v } (wrN m w a v) := by
  obtain ⟨hsame, j, hj, hpages⟩ := h.kept
  obtain rfl := bump_inj (h.offset.symm.trans hj)
  have hm : ∀ {va d t x}, d ≤ 3 → tableAt s.mem l.pml4 va d = some t → t ≤ x → x < t + 4096 →
      wrN s.mem w a v x = s.mem x := by
    intro va d t x hd ht h1 h2
    refine wrN_off s.mem v ?_
    by_contra hc
    exact hpages.apart hd ht h1 h2 (.inr (hin x ⟨by omega, by omega⟩))
  refine ⟨⟨h.tables.pages.agree hm, fun va d hd => ?_, fun va => ?_⟩, h.offset,
    fun x hx => ?_, _, h.offset, hpages.agree hm⟩
  · rw [entryAt_agree (by omega) hm]
    exact h.tables.low va d hd
  · rw [entryAt_agree le_rfl hm]
    exact h.tables.same va
  · show wrN s.mem w a v x = wrN m w a v x
    unfold wrN
    rw [hsame x hx]

end backed

/-! ### The result -/

section result

variable {l : Layout} {len off n k : ℕ} {s : PageState} {m : Mem} {P : ℕ → Prop}

/-- **One operation** has the same result in both. -/
theorem paged_refines (hr : Room l len off n) (hP : Elsewhere l len off n P) :
    Refines (Op.paged l) Op.flat (Backed l len off n P) (Op.Ok P) 6 n where
  step := by
    intro k s m o hR hok hk
    cases o with
    | load w a =>
        obtain ⟨hw, ha, hin⟩ := hok
        obtain ⟨s', k', hk', hreach, hb, hp⟩ := hR.reachBytes hr hP hk hw ha
        have hval : rdN s'.mem w a = rdN m w a :=
          rdN_congr fun x h1 h2 => hb.kept.same x (hin x ⟨h1, h2⟩)
        refine ⟨s', m, [rdN m w a], k', hk', ?_, rfl, hb⟩
        simp only [Op.paged, hreach, hb.loadVirt ha hp, hval, Option.bind_eq_bind, Option.bind_some,
          Option.pure_def]
    | store w a v =>
        obtain ⟨hw, ha, hin⟩ := hok
        obtain ⟨s', k', hk', hreach, hb, hp⟩ := hR.reachBytes hr hP hk hw ha
        refine ⟨{ s' with mem := wrN s'.mem w a v }, wrN m w a v, [], k', hk', ?_, rfl,
          hb.store hin⟩
        simp only [Op.paged, hreach, hb.storeVirt ha hp, Option.bind_eq_bind, Option.bind_some,
          Option.pure_def]
    | map p =>
        obtain ⟨k', hk', hb, -⟩ := hR.map hr hP mapFlags_ok (by omega) hok
        exact ⟨_, m, [], k', by omega, rfl, rfl, hb⟩
    | mmio p =>
        obtain ⟨k', hk', hb, -⟩ := hR.map hr hP mmioFlags_ok (by omega) hok
        exact ⟨_, m, [], k', by omega, rfl, rfl, hb⟩

/-- Tables that are clear of `P`. -/
theorem Backed.start (h : IdTables l len off n True s.mem k) (hs : s.pageOffset = bump off k)
    (ha : ∀ va d t x, d ≤ 3 → tableAt s.mem l.pml4 va d = some t → t ≤ x → x < t + 4096 → ¬ P x) :
    Backed l len off n P k s s.mem where
  tables := h
  offset := hs
  kept := ⟨fun _ _ => rfl, k, hs,
    { rootPage := h.pages.rootPage
      distinct := h.pages.distinct
      unused := h.pages.unused
      apart := fun hd ht h1 h2 hx =>
        hx.elim (h.pages.apart hd ht h1 h2) (ha _ _ _ _ hd ht h1 h2) }⟩

/-- **Demand paging is transparent**: any sequence of loads, stores and calls of the two functions has
the results that it has on memory without pages, without hanging, if there are six pages for each
operation; and memory apart from the tables is the same. -/
theorem demandPaging_transparent (hr : Room l len off n) (hP : Elsewhere l len off n P)
    (h : Backed l len off n P k s m) {ops : List Op} (hops : ∀ o ∈ ops, o.Ok P)
    (hn : k + 6 * ops.length ≤ n) : ∃ s' m' out,
      runOps (Op.paged l) s ops = some (s', out) ∧ runOps Op.flat m ops = some (m', out) ∧
      ∀ x, P x → s'.mem x = m' x := by
  obtain ⟨s', m', out, k', -, hA, hB, hR⟩ := (paged_refines hr hP).run h hops hn
  exact ⟨s', m', out, hA, hB, hR.kept.same⟩

/-- A store over the end of a page, and a load of what it left on the second one. -/
def crossingOps : List Op := [.store 8 0x100FFC 0x1122334455667788, .mmio 0xFEE00000, .load 4 0x101000]

theorem demandPaging_transparent_crossing : ∃ s' m' out,
    runOps (Op.paged emptyLayout) emptyState crossingOps = some (s', out) ∧
    runOps Op.flat emptyState.mem crossingOps = some (m', out) ∧
    ∀ x, 0x100000 ≤ x → s'.mem x = m' x := by
  have hclear : ∀ va d t x, d ≤ 3 → tableAt emptyState.mem emptyLayout.pml4 va d = some t → t ≤ x →
      x < t + 4096 → ¬ 0x100000 ≤ x := by
    intro va d t x _ ht h1 h2 hx
    obtain ⟨-, rfl⟩ := empty_tables (fun _ _ => zero_entry) ht
    have : x < 0x1000 + 4096 := h2
    omega
  have hP : Elsewhere emptyLayout 0x1000 0x3000 36 fun x => 0x100000 ≤ x :=
    ⟨fun x hx hp => by
      have : x < 0x2000 + 0x1000 := hx.2
      omega, fun x _ hx hp => by omega⟩
  have hstart : Backed emptyLayout 0x1000 0x3000 36 (fun x => 0x100000 ≤ x) 0 emptyState
      emptyState.mem := Backed.start (emptyLayout_tables fun _ _ => zero_entry) rfl hclear
  have hops : ∀ o ∈ crossingOps, o.Ok fun x => 0x100000 ≤ x := by
    intro o ho
    simp only [crossingOps, List.mem_cons, List.not_mem_nil, or_false] at ho
    rcases ho with rfl | rfl | rfl
    · exact ⟨by decide, by norm_num, fun x hx => by
        have := hx.1
        omega⟩
    · show 0xFEE00000 < 2 ^ 48
      norm_num
    · exact ⟨by decide, by norm_num, fun x hx => by
        have := hx.1
        omega⟩
  exact demandPaging_transparent (emptyLayout_room le_rfl) hP hstart hops (by decide)

end result

end Dawos.Kernel
