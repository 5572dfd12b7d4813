import Dawos.Paging

/-! # Mapping a page

What `page_id_map` does to the translation of every address.  `pre va d` is the part of a virtual
address that selects the first `d` entries on its path; `PagesOk` says that the tables are
pages, that no two paths share one, and that the pages still to be handed out are none of them.

Every write of `page_id_map` goes to an entry that is not present (`setEntry_same`,
`setEntry_new`), so no other path changes; a new table is empty, so linking it in changes no
translation (`PagesOk.link`). -/

namespace Dawos

/-! ### Paths -/

/-- The indices of the first `d` entries on the path of an address. -/
def pre (va d : ℕ) : ℕ := va % 2 ^ 48 / 2 ^ (48 - 9 * d)

section paths

variable {m m' : Mem} {root va va' d j t : ℕ}

theorem pre_succ (hd : d ≤ 3) : pre va (d + 1) = pre va d * 512 + pagePmlIdx va (4 - d) := by
  rw [pagePmlIdx_eq]
  unfold pre
  interval_cases d <;> norm_num <;> omega

/-- Equal prefixes have equal indices. -/
theorem pre_inj (hd : d ≤ 3) : pre va' (d + 1) = pre va (d + 1) ↔
    pre va' d = pre va d ∧ pagePmlIdx va' (4 - d) = pagePmlIdx va (4 - d) := by
  have h := @pagePmlIdx_lt va (4 - d)
  have h' := @pagePmlIdx_lt va' (4 - d)
  rw [pre_succ hd, pre_succ hd]
  constructor
  · intro he
    omega
  · rintro ⟨h1, h2⟩
    rw [h1, h2]

theorem tableAt_succ : tableAt m root va (d + 1) = (tableAt m root va d).bind fun pt =>
    if pmPresent (pmEntry m pt (pagePmlIdx va (4 - d))) then
      some (pageAddress m pt (pagePmlIdx va (4 - d)))
    else none := rfl

/-- The step of the loop of `page_id_map` with `i` more steps to go. -/
theorem tableAt_next {i : ℕ} (hi : i + 1 ≤ 3) (ht : tableAt m root va (3 - (i + 1)) = some t) :
    tableAt m root va (3 - i) =
      if pmPresent (pmEntry m t (pagePmlIdx va (i + 2))) then
        some (pageAddress m t (pagePmlIdx va (i + 2))) else none := by
  have hlvl : 4 - (3 - (i + 1)) = i + 2 := by omega
  have hnext : 3 - (i + 1) + 1 = 3 - i := by omega
  rw [← hnext, tableAt_succ, ht, hlvl, Option.bind_some]

/-- The path depends on the prefix only. -/
theorem tableAt_pre (hd : d ≤ 4) (h : pre va' d = pre va d) :
    tableAt m root va' d = tableAt m root va d := by
  induction d with
  | zero => rfl
  | succ d ih =>
      obtain ⟨h1, h2⟩ := (pre_inj (by omega)).mp h
      rw [tableAt_succ, tableAt_succ, ih (by omega) h1, h2]

/-- The path depends on the entries on it only. -/
theorem tableAt_congr (h : ∀ j < d, ∀ t, tableAt m root va j = some t →
    pmEntry m' t (pagePmlIdx va (4 - j)) = pmEntry m t (pagePmlIdx va (4 - j))) :
    tableAt m' root va d = tableAt m root va d := by
  induction d with
  | zero => rfl
  | succ d ih =>
      rw [tableAt_succ, tableAt_succ, ih fun j hj => h j (by omega)]
      cases ht : tableAt m root va d with
      | none => rw [Option.bind_none, Option.bind_none]
      | some t =>
          have he := h d (Nat.lt_succ_self d) t ht
          simp only [Option.bind_some, pageAddress, he]

/-- Tables are pages. -/
theorem tableAt_mod (hroot : root % 4096 = 0) (h : tableAt m root va d = some t) : t % 4096 = 0 := by
  cases d with
  | zero =>
      cases h
      exact hroot
  | succ d =>
      rw [tableAt_succ] at h
      obtain ⟨pt, -, hpt⟩ := Option.bind_eq_some_iff.mp h
      split_ifs at hpt
      cases hpt
      unfold pageAddress
      rw [and_frameMask]
      omega

/-- A path does not go on behind its end. -/
theorem tableAt_none (h : tableAt m root va d = none) (hj : d ≤ j) : tableAt m root va j = none := by
  induction j with
  | zero =>
      obtain rfl : d = 0 := by omega
      exact h
  | succ j ih =>
      by_cases he : d = j + 1
      · rwa [← he]
      · rw [tableAt_succ, ih (by omega)]
        rfl

theorem tableAt_some (h : tableAt m root va j = some t) (hd : d ≤ j) :
    ∃ t', tableAt m root va d = some t' := by
  cases h' : tableAt m root va d with
  | none =>
      rw [tableAt_none h' hd] at h
      cases h
  | some t' => exact ⟨t', rfl⟩

end paths

/-! ### Well-formed tables -/

/-- The first `n` calls of `mem_alloc_align` hand out the pages `fresh 0`, `fresh 1`, and so on, and
write to its own bytes only. -/
structure FreshTables (alloc : TableAlloc) (fresh : ℕ → ℕ) (own : ℕ → Prop) (n : ℕ) : Prop where
  alloc_eq : ∀ {k}, k < n → ∀ m, ∃ m', alloc k m = .ok (m', fresh k) ∧ AgreeOff m m' own
  page : ∀ {k}, k < n → fresh k % 4096 = 0 ∧ fresh k < 2 ^ 52
  inj : ∀ {k j}, k < j → j < n → fresh k ≠ fresh j
  apart : ∀ {k x}, k < n → fresh k ≤ x → x < fresh k + 4096 → ¬ own x

/-- The tables of a root before call `k` of `mem_alloc_align`. -/
structure PagesOk (fresh : ℕ → ℕ) (own : ℕ → Prop) (n : ℕ) (m : Mem) (root k : ℕ) : Prop where
  rootPage : root % 4096 = 0
  distinct : ∀ {va va' d d' t}, d ≤ 3 → d' ≤ 3 → tableAt m root va d = some t →
    tableAt m root va' d' = some t → d = d' ∧ pre va d = pre va' d'
  unused : ∀ {va d t j}, d ≤ 3 → tableAt m root va d = some t → k ≤ j → j < n → t ≠ fresh j
  apart : ∀ {va d t x}, d ≤ 3 → tableAt m root va d = some t → t ≤ x → x < t + 4096 → ¬ own x

section update

variable {alloc : TableAlloc} {fresh : ℕ → ℕ} {own : ℕ → Prop} {m m' : Mem}
  {root va va' d j k n t e : ℕ}

/-- Two entries are the same or disjoint words. -/
theorem pmEntry_wr {pt pt' i i' : ℕ} (hp : pt % 4096 = 0) (hp' : pt' % 4096 = 0) :
    pmEntry (wr m (pt + 8 * i) e) pt' i' =
      if pt' + 8 * i' = pt + 8 * i then e % 2 ^ 64 else pmEntry m pt' i' :=
  rd_wr m e (by omega)

/-- An entry on a path is at the same place as an entry on another path iff both paths agree up to
this entry. -/
theorem PagesOk.slot (h : PagesOk fresh own n m root k) {t' : ℕ} (hd : d ≤ 3) (hj : j ≤ 3)
    (ht : tableAt m root va d = some t) (ht' : tableAt m root va' j = some t') :
    t' + 8 * pagePmlIdx va' (4 - j) = t + 8 * pagePmlIdx va (4 - d) ↔
      j = d ∧ pre va' (d + 1) = pre va (d + 1) := by
  have hm := tableAt_mod h.rootPage ht
  have hm' := tableAt_mod h.rootPage ht'
  have hi := @pagePmlIdx_lt va (4 - d)
  have hi' := @pagePmlIdx_lt va' (4 - j)
  constructor
  · intro he
    have htt : t' = t := by omega
    subst htt
    obtain ⟨rfl, hp⟩ := h.distinct hj hd ht' ht
    exact ⟨rfl, (pre_inj hj).mpr ⟨hp, by omega⟩⟩
  · rintro ⟨rfl, hp⟩
    obtain ⟨h1, h2⟩ := (pre_inj hj).mp hp
    rw [tableAt_pre (by omega) h1, ht] at ht'
    cases ht'
    rw [h2]

/-- A write to the entry of one path leaves what does not go through it. -/
theorem PagesOk.setEntry_same (h : PagesOk fresh own n m root k) (hd : d ≤ 3)
    (ht : tableAt m root va d = some t) (hj : j ≤ 4)
    (hne : ¬ (d < j ∧ pre va' (d + 1) = pre va (d + 1))) :
    tableAt (wr m (t + 8 * pagePmlIdx va (4 - d)) e) root va' j = tableAt m root va' j := by
  apply tableAt_congr
  intro i hi t' ht'
  rw [pmEntry_wr (tableAt_mod h.rootPage ht) (tableAt_mod h.rootPage ht'), if_neg]
  rw [h.slot hd (by omega) ht ht']
  rintro ⟨rfl, hp⟩
  exact hne ⟨hi, hp⟩

/-- What goes through the entry continues where the new entry points to. -/
theorem PagesOk.setEntry_new (h : PagesOk fresh own n m root k) (hd : d ≤ 3)
    (ht : tableAt m root va d = some t) (hp : pre va' (d + 1) = pre va (d + 1)) (he : e < 2 ^ 64)
    (hpres : pmPresent e = true) :
    tableAt (wr m (t + 8 * pagePmlIdx va (4 - d)) e) root va' (d + 1) = some (e &&& PAGE_FRAME_MASK) := by
  obtain ⟨h1, h2⟩ := (pre_inj hd).mp hp
  have hentry : pmEntry (wr m (t + 8 * pagePmlIdx va (4 - d)) e) t (pagePmlIdx va' (4 - d)) = e := by
    rw [pmEntry_wr (tableAt_mod h.rootPage ht) (tableAt_mod h.rootPage ht), h2, if_pos rfl,
      Nat.mod_eq_of_lt he]
  rw [tableAt_succ, h.setEntry_same hd ht (by omega) (fun hc => absurd hc.1 (lt_irrefl d)),
    tableAt_pre (by omega) h1, ht]
  simp only [Option.bind_some, pageAddress, hentry, hpres, if_true]

/-- A path through an entry that is not present ends there. -/
theorem tableAt_absent (ht : tableAt m root va d = some t)
    (ha : pmPresent (pmEntry m t (pagePmlIdx va (4 - d))) = false) (hd : d ≤ 3)
    (hp : pre va' (d + 1) = pre va (d + 1)) (hj : d < j) : tableAt m root va' j = none := by
  obtain ⟨h1, h2⟩ := (pre_inj hd).mp hp
  apply tableAt_none _ hj
  rw [tableAt_succ, tableAt_pre (by omega) h1, ht, h2, Option.bind_some, ha]
  rfl

/-- Memory outside the tables does not matter. -/
theorem tableAt_agree (hj : j ≤ 4)
    (hm : ∀ {va d t x}, d ≤ 3 → tableAt m root va d = some t → t ≤ x → x < t + 4096 → m' x = m x) :
    tableAt m' root va j = tableAt m root va j := by
  apply tableAt_congr
  intro i hi t ht
  have hidx := @pagePmlIdx_lt va (4 - i)
  exact rd_congr fun x h1 h2 => hm (by omega) ht (by omega) (by omega)

theorem PagesOk.agree (h : PagesOk fresh own n m root k)
    (hm : ∀ {va d t x}, d ≤ 3 → tableAt m root va d = some t → t ≤ x → x < t + 4096 → m' x = m x) :
    PagesOk fresh own n m' root k := by
  have hsame : ∀ {va d}, d ≤ 3 → tableAt m' root va d = tableAt m root va d := fun hd =>
    tableAt_agree (by omega) hm
  refine ⟨h.rootPage, fun h1 h2 h3 h4 => ?_, fun h1 h2 => ?_, fun h1 h2 => ?_⟩
  · rw [hsame h1] at h3
    rw [hsame h2] at h4
    exact h.distinct h1 h2 h3 h4
  · rw [hsame h1] at h2
    exact h.unused h1 h2
  · rw [hsame h1] at h2
    exact h.apart h1 h2

/-- The entry behind the first `d` entries on the path of an address, zero if there is none. -/
def entryAt (m : Mem) (root va d : ℕ) : ℕ :=
  (tableAt m root va d).elim 0 fun t => pmEntry m t (pagePmlIdx va (4 - d))

theorem entryAt_some (ht : tableAt m root va d = some t) :
    entryAt m root va d = pmEntry m t (pagePmlIdx va (4 - d)) := by
  unfold entryAt
  rw [ht]
  rfl

theorem entryAt_none (ht : tableAt m root va d = none) : entryAt m root va d = 0 := by
  unfold entryAt
  rw [ht]
  rfl

/-- The entry depends on the prefix only. -/
theorem entryAt_pre (hd : d ≤ 3) (h : pre va' (d + 1) = pre va (d + 1)) :
    entryAt m root va' d = entryAt m root va d := by
  obtain ⟨h1, h2⟩ := (pre_inj hd).mp h
  unfold entryAt
  rw [tableAt_pre (by omega) h1, h2]

theorem tableAt_entry : tableAt m root va (d + 1) =
    if pmPresent (entryAt m root va d) then some (entryAt m root va d &&& PAGE_FRAME_MASK)
    else none := by
  rw [tableAt_succ]
  cases ht : tableAt m root va d with
  | none =>
      rw [entryAt_none ht]
      rfl
  | some t =>
      rw [entryAt_some ht]
      rfl

/-- A write to the entry of one path changes the entries of the paths through it only. -/
theorem PagesOk.entryAt_set (h : PagesOk fresh own n m root k) (hd : d ≤ 3) (hj : j ≤ 3)
    (ht : tableAt m root va d = some t) (he : e < 2 ^ 64)
    (hne : ¬ (d < j ∧ pre va' (d + 1) = pre va (d + 1))) :
    entryAt (wr m (t + 8 * pagePmlIdx va (4 - d)) e) root va' j =
      if j = d ∧ pre va' (d + 1) = pre va (d + 1) then e else entryAt m root va' j := by
  have hpath := h.setEntry_same (e := e) hd ht (by omega : j ≤ 4) hne
  cases ht' : tableAt m root va' j with
  | none =>
      rw [ht'] at hpath
      rw [entryAt_none hpath, entryAt_none ht', if_neg]
      rintro ⟨rfl, hp⟩
      rw [tableAt_pre (by omega) ((pre_inj hd).mp hp).1, ht] at ht'
      cases ht'
  | some t' =>
      rw [ht'] at hpath
      rw [entryAt_some hpath, entryAt_some ht',
        pmEntry_wr (tableAt_mod h.rootPage ht) (tableAt_mod h.rootPage ht'), Nat.mod_eq_of_lt he]
      exact if_congr (h.slot hd hj ht ht') rfl rfl

/-- A write to an entry of the last level leaves the tables. -/
theorem PagesOk.setLeaf (h : PagesOk fresh own n m root k) (ht : tableAt m root va 3 = some t) :
    PagesOk fresh own n (wr m (t + 8 * pagePmlIdx va 1) e) root k := by
  refine ⟨h.rootPage, fun h1 h2 h3 h4 => ?_, fun h1 h2 => ?_, fun h1 h2 => ?_⟩
  · rw [h.setEntry_same le_rfl ht (by omega) (by omega)] at h3 h4
    exact h.distinct h1 h2 h3 h4
  · rw [h.setEntry_same le_rfl ht (by omega) (by omega)] at h2
    exact h.unused h1 h2
  · rw [h.setEntry_same le_rfl ht (by omega) (by omega)] at h2
    exact h.apart h1 h2

/-- The tables after a new one has been linked by `e` to an entry that was not present. -/
structure TableLinked (fresh : ℕ → ℕ) (own : ℕ → Prop) (n : ℕ) (m : Mem) (root k va d e : ℕ) (m₁ : Mem) :
    Prop where
  pages : PagesOk fresh own n m₁ root (k + 1)
  table : tableAt m₁ root va (d + 1) = some (fresh k)
  page : ∀ va', tableAt m₁ root va' 4 = tableAt m root va' 4
  entry : ∀ va' j, j ≤ 3 → entryAt m₁ root va' j =
    if j = d ∧ pre va' (d + 1) = pre va (d + 1) then e else entryAt m root va' j

/-- Linking a new table. -/
theorem PagesOk.linkEntry (h : PagesOk fresh own n m root k) (hf : FreshTables alloc fresh own n)
    (hk : k < n) (hd : d ≤ 2) (ht : tableAt m root va d = some t)
    (ha : pmPresent (pmEntry m t (pagePmlIdx va (4 - d))) = false) (hm : AgreeOff m m' own)
    (he : e < 2 ^ 64) (hpres : pmPresent e = true) (haddr : e &&& PAGE_FRAME_MASK = fresh k) :
    TableLinked fresh own n m root k va d e
      (wr (fill m' (fresh k) 0 (8 * 512)) (t + 8 * pagePmlIdx va (4 - d)) e) := by
  obtain ⟨hfm, hfl⟩ := hf.page hk
  have hagree : ∀ {va d t x}, d ≤ 3 → tableAt m root va d = some t → t ≤ x → x < t + 4096 →
      fill m' (fresh k) 0 (8 * 512) x = m x := by
    intro va d t x hd ht h1 h2
    have hne := h.unused hd ht le_rfl hk
    have hmod := tableAt_mod h.rootPage ht
    have hn : ¬ (fresh k ≤ x ∧ x < fresh k + 8 * 512) := by omega
    rw [fill, if_neg hn]
    exact hm x (h.apart hd ht h1 h2)
  have hsame : ∀ {va j}, j ≤ 4 → tableAt (fill m' (fresh k) 0 (8 * 512)) root va j =
      tableAt m root va j := fun hj => tableAt_agree hj hagree
  -- the tables are the same before the new entry is written
  have h' : PagesOk fresh own n (fill m' (fresh k) 0 (8 * 512)) root k := h.agree hagree
  have hentry : ∀ {va j}, j ≤ 3 → entryAt (fill m' (fresh k) 0 (8 * 512)) root va j =
      entryAt m root va j := by
    intro va j hj
    cases htj : tableAt m root va j with
    | none => rw [entryAt_none htj, entryAt_none ((hsame (by omega)).trans htj)]
    | some t' =>
        have hidx := @pagePmlIdx_lt va (4 - j)
        rw [entryAt_some htj, entryAt_some ((hsame (by omega)).trans htj)]
        exact rd_congr fun x h1 h2 => hagree hj htj (by omega) (by omega)
  have ht' : tableAt (fill m' (fresh k) 0 (8 * 512)) root va d = some t := by rwa [hsame (by omega)]
  generalize hm₀ : fill m' (fresh k) 0 (8 * 512) = m₀ at hsame h' ht' hentry
  have hold : ∀ {va' j}, j ≤ 4 → ¬ (d < j ∧ pre va' (d + 1) = pre va (d + 1)) →
      tableAt (wr m₀ (t + 8 * pagePmlIdx va (4 - d)) e) root va' j = tableAt m root va' j :=
    fun hj hne => by rw [h'.setEntry_same (by omega) ht' hj hne, hsame hj]
  have hnew : ∀ {va'}, pre va' (d + 1) = pre va (d + 1) →
      tableAt (wr m₀ (t + 8 * pagePmlIdx va (4 - d)) e) root va' (d + 1) = some (fresh k) :=
    fun hp => by rw [h'.setEntry_new (by omega) ht' hp he hpres, haddr]
  -- the new table is empty
  have hzero : ∀ i < 512, pmEntry (wr m₀ (t + 8 * pagePmlIdx va (4 - d)) e) (fresh k) i = 0 := by
    intro i hi
    have hne := h.unused (by omega) ht le_rfl hk
    have hmod := tableAt_mod h.rootPage ht
    have hidx := @pagePmlIdx_lt va (4 - d)
    rw [pmEntry_wr hmod hfm, if_neg (by omega), ← hm₀]
    exact rdN_fill_zero m' (by omega) (by omega)
  have hempty : ∀ {va' j}, pre va' (d + 1) = pre va (d + 1) → d + 1 < j →
      tableAt (wr m₀ (t + 8 * pagePmlIdx va (4 - d)) e) root va' j = none := by
    intro va' j hp hj
    apply tableAt_none _ (Nat.succ_le_of_lt hj)
    rw [tableAt_succ, hnew hp, Option.bind_some, hzero _ pagePmlIdx_lt]
    rfl
  -- a table is an old one, or the new one
  have hcases : ∀ {va' j t'}, j ≤ 3 →
      tableAt (wr m₀ (t + 8 * pagePmlIdx va (4 - d)) e) root va' j = some t' →
      tableAt m root va' j = some t' ∨
        (j = d + 1 ∧ pre va' (d + 1) = pre va (d + 1) ∧ t' = fresh k) := by
    intro va' j t' hj ht'
    by_cases c : d < j ∧ pre va' (d + 1) = pre va (d + 1)
    · by_cases hjd : j = d + 1
      · subst hjd
        rw [hnew c.2] at ht'
        exact .inr ⟨rfl, c.2, (Option.some.inj ht').symm⟩
      · rw [hempty c.2 (by omega)] at ht'
        cases ht'
    · rw [hold (by omega) c] at ht'
      exact .inl ht'
  refine ⟨⟨h.rootPage, ?_, ?_, ?_⟩, hnew rfl, ?_, ?_⟩
  · intro va₁ va₂ d₁ d₂ t₁ h1 h2 h3 h4
    obtain o1 | ⟨e1, p1, rfl⟩ := hcases h1 h3
    · obtain o2 | ⟨-, -, rfl⟩ := hcases h2 h4
      · exact h.distinct h1 h2 o1 o2
      · exact absurd rfl (h.unused h1 o1 le_rfl hk)
    · obtain o2 | ⟨e2, p2, -⟩ := hcases h2 h4
      · exact absurd rfl (h.unused h2 o2 le_rfl hk)
      · exact ⟨e1.trans e2.symm, by rw [e1, e2, p1, p2]⟩
  · intro va₁ d₁ t₁ j h1 h2 hj hjn
    obtain o1 | ⟨-, -, rfl⟩ := hcases h1 h2
    · exact h.unused h1 o1 (by omega) hjn
    · exact hf.inj hj hjn
  · intro va₁ d₁ t₁ x h1 h2
    obtain o1 | ⟨-, -, rfl⟩ := hcases h1 h2
    · exact h.apart h1 o1
    · exact hf.apart hk
  · intro va'
    by_cases c : pre va' (d + 1) = pre va (d + 1)
    · rw [hempty c (by omega), tableAt_absent ht ha (by omega) c (by omega)]
    · exact hold le_rfl fun hc => c hc.2
  · intro va' j hj
    by_cases c : d < j ∧ pre va' (d + 1) = pre va (d + 1)
    · -- behind the new entry there was nothing, and there is nothing now
      rw [if_neg (by omega), entryAt_none (tableAt_absent ht ha (by omega) c.2 c.1)]
      by_cases hjd : j = d + 1
      · subst hjd
        rw [entryAt_some (hnew c.2), hzero _ pagePmlIdx_lt]
      · exact entryAt_none (hempty c.2 (by omega))
    · rw [h'.entryAt_set (by omega) hj ht' he c, hentry hj]

/-- No other table is linked. -/
theorem TableLinked.none_iff {m₁ : Mem} (h : TableLinked fresh own n m root k va d e m₁)
    (hpres : pmPresent e = true) (hj : j ≤ 3) : tableAt m₁ root va' j = none ↔
      tableAt m root va' j = none ∧ ¬ (j = d + 1 ∧ pre va' (d + 1) = pre va (d + 1)) := by
  cases j with
  | zero => exact iff_of_false (fun hn => by cases hn) fun hn => by cases hn.1
  | succ i =>
      rw [tableAt_entry, tableAt_entry, h.entry va' i (by omega)]
      by_cases c : i = d ∧ pre va' (d + 1) = pre va (d + 1)
      · rw [if_pos c, hpres, if_pos rfl]
        exact iff_of_false (fun hn => by cases hn) fun hn => hn.2 ⟨by rw [c.1], c.2⟩
      · rw [if_neg c]
        exact ⟨fun hn => ⟨hn, fun hc => c ⟨by omega, hc.2⟩⟩, fun hn => hn.1⟩

/-- The new table of `page_id_map`. -/
theorem PagesOk.link (h : PagesOk fresh own n m root k) (hf : FreshTables alloc fresh own n) (hk : k < n)
    (hd : d ≤ 2)
    (ht : tableAt m root va d = some t)
    (ha : pmPresent (pmEntry m t (pagePmlIdx va (4 - d))) = false) (hm : AgreeOff m m' own) :
    ∃ m₁ e, m₁ = wr (fill m' (fresh k) 0 (8 * 512)) (t + 8 * pagePmlIdx va (4 - d))
        (pmSet (pmEntry (fill m' (fresh k) 0 (8 * 512)) t (pagePmlIdx va (4 - d)))
          (pageFrame (fresh k)) PM_FLAGS) ∧
      pmPresent e = true ∧ TableLinked fresh own n m root k va d e m₁ := by
  obtain ⟨hfm, hfl⟩ := hf.page hk
  generalize hpm : pmSet _ (pageFrame (fresh k)) PM_FLAGS = e
  obtain ⟨he, hpres⟩ := pmSet_flags hpm
  have haddr : e &&& PAGE_FRAME_MASK = fresh k := (pmSet_table hpm hfl).trans (by omega)
  exact ⟨_, e, rfl, hpres, h.linkEntry hf hk hd ht ha hm he hpres haddr⟩

/-- How many of the last `i` tables on the path of an address are missing. -/
def missing (m : Mem) (root va : ℕ) : ℕ → ℕ
  | 0 => 0
  | i + 1 => missing m root va i + if tableAt m root va (3 - i) = none then 1 else 0

theorem missing_le (m : Mem) (root va i : ℕ) : missing m root va i ≤ i := by
  induction i with
  | zero => exact le_rfl
  | succ i ih =>
      rw [missing]
      split_ifs <;> omega

/-- Behind a missing table all others are missing. -/
theorem missing_absent {i : ℕ} (h : tableAt m root va (3 - i) = none) :
    missing m root va (i + 1) = i + 1 := by
  induction i with
  | zero => rw [missing, missing, if_pos h]
  | succ i ih => rw [missing, ih (tableAt_none h (by omega)), if_pos h]

theorem missing_present {i : ℕ} (h : tableAt m root va (3 - i) = some t) :
    missing m root va (i + 1) = missing m root va i := by
  rw [missing, h]
  simp

/-- The loop of `page_id_map` finds or makes the last table, and changes no translation. -/
theorem pageTables_spec (hf : FreshTables alloc fresh own n) {i : ℕ} (h : PagesOk fresh own n m root k)
    (hi : i ≤ 3) (hk : k + missing m root va i ≤ n) (ht : tableAt m root va (3 - i) = some t) :
    ∃ m' t', pageTables alloc va i k m t = .ok (k + missing m root va i, m', t') ∧
      PagesOk fresh own n m' root (k + missing m root va i) ∧ tableAt m' root va 3 = some t' ∧
      (∀ va', tableAt m' root va' 4 = tableAt m root va' 4) ∧
      ∀ va' d, d ≤ 3 → (tableAt m' root va' d = none ↔
        tableAt m root va' d = none ∧ pre va' d ≠ pre va d) := by
  induction i generalizing k m t with
  | zero =>
      refine ⟨m, t, rfl, h, ht, fun _ => rfl, fun va' d hd => ?_⟩
      refine ⟨fun hn => ⟨hn, fun hp => ?_⟩, fun hn => hn.1⟩
      obtain ⟨t', ht'⟩ := tableAt_some ht hd
      rw [tableAt_pre (by omega) hp, ht'] at hn
      cases hn
  | succ i ih =>
      have hlvl : 4 - (3 - (i + 1)) = i + 2 := by omega
      have hnext : 3 - (i + 1) + 1 = 3 - i := by omega
      unfold pageTables
      dsimp only
      cases hp : pmPresent (pmEntry m t (pagePmlIdx va (i + 2))) with
      | true =>
          have ht₁ := (tableAt_next hi ht).trans (if_pos hp)
          rw [missing_present ht₁] at hk ⊢
          rw [if_pos rfl]
          exact ih h (by omega) hk ht₁
      | false =>
          have habs := (tableAt_next hi ht).trans (if_neg (hp ▸ Bool.false_ne_true))
          rw [missing_absent habs] at hk ⊢
          obtain ⟨m', hm', hagree⟩ := hf.alloc_eq (by omega : k < n) m
          rw [← hlvl] at hp
          obtain ⟨m₁, e, hm₁, hpres, hlink⟩ := h.link hf (by omega) (by omega) ht hp hagree
          have ht₁ := hlink.table
          rw [hlvl] at hm₁
          rw [hnext] at ht₁
          -- the tables behind the new one are still missing
          have hrest : missing m₁ root va i = i := by
            cases i with
            | zero => rfl
            | succ i =>
                apply missing_absent
                refine (hlink.none_iff hpres (by omega)).mpr ⟨tableAt_none habs (by omega), fun hc => ?_⟩
                omega
          rw [if_neg Bool.false_ne_true, hm', ok_bind]
          dsimp only
          rw [← hm₁]
          obtain ⟨m₂, t', hr, h2, ht2, htr, hnone⟩ := ih hlink.pages (by omega) (by omega) ht₁
          rw [hrest] at hr h2
          have hcount : k + 1 + i = k + (i + 1) := by omega
          rw [hcount] at hr h2
          refine ⟨m₂, t', hr, h2, ht2, fun va' => (htr va').trans (hlink.page va'), fun va' d hd => ?_⟩
          rw [hnone va' d hd, hlink.none_iff hpres hd]
          refine ⟨fun hn => ⟨hn.1.1, hn.2⟩, fun hn => ⟨⟨hn.1, fun hc => hn.2 ?_⟩, hn.2⟩⟩
          rw [hc.1]
          exact hc.2

/-- Where all tables are present the loop only walks. -/
theorem pageTables_present {i : ℕ} {t' : ℕ} (hi : i ≤ 3) (ht : tableAt m root va (3 - i) = some t)
    (ht' : tableAt m root va 3 = some t') : pageTables alloc va i k m t = .ok (k, m, t') := by
  induction i generalizing t with
  | zero =>
      rw [Nat.sub_zero, ht'] at ht
      cases ht
      rfl
  | succ i ih =>
      have hlvl : 4 - (3 - (i + 1)) = i + 2 := by omega
      have hnext : 3 - (i + 1) + 1 = 3 - i := by omega
      obtain ⟨t₁, ht₁⟩ := tableAt_some (d := 3 - i) ht' (by omega)
      have hstep := ht₁
      rw [← hnext, tableAt_succ, ht, hlvl, Option.bind_some] at hstep
      unfold pageTables
      dsimp only
      split_ifs at hstep ⊢
      cases hstep
      exact ih (by omega) ht₁

/-! ### The result -/

/-- Two virtual addresses are on the same page. -/
def SamePage (x v : ℕ) : Prop := x % 2 ^ 48 / PAGE_SIZE = v % 2 ^ 48 / PAGE_SIZE

instance (x v : ℕ) : Decidable (SamePage x v) :=
  inferInstanceAs (Decidable (x % 2 ^ 48 / PAGE_SIZE = v % 2 ^ 48 / PAGE_SIZE))

theorem samePage_iff {x v : ℕ} : SamePage x v ↔ pre x 4 = pre v 4 := Iff.rfl

/-- The address that `page_id_map` walks with is on the page of its argument. -/
theorem pre_vaddr {v : ℕ} (hv : v < 2 ^ 64) (hd : d ≤ 4) :
    pre (pageCanonical (pageAlign v)) d = pre v d := by
  rw [pageCanonical_eq, pageAlign_eq hv]
  unfold pre
  interval_cases d <;> norm_num <;> omega

/-- The path that it walks is the one of its argument. -/
theorem tableAt_vaddr {v : ℕ} (hv : v < 2 ^ 64) (hd : d ≤ 4) :
    tableAt m root (pageCanonical (pageAlign v)) d = tableAt m root v d :=
  tableAt_pre hd (pre_vaddr hv hd)

theorem missing_vaddr {v i : ℕ} (hv : v < 2 ^ 64) :
    missing m root (pageCanonical (pageAlign v)) i = missing m root v i := by
  induction i with
  | zero => rfl
  | succ i ih => rw [missing, missing, ih, tableAt_vaddr hv (by omega)]

/-- `page_id_map` for any physical address, of which it keeps 52 bits. -/
theorem pageIdMap_page {p v : ℕ} (hf : FreshTables alloc fresh own n) (h : PagesOk fresh own n m root k)
    (hk : k + missing m root v 3 ≤ n) (hp : p < 2 ^ 64) (hv : v < 2 ^ 64) :
    ∃ m' b, pageIdMap alloc k m root p v = .ok (k + missing m root v 3, m', b) ∧
      PagesOk fresh own n m' root (k + missing m root v 3) ∧
      (b = true → (∀ x, SamePage x v → translate m root x = none ∧
          translate m' root x = some (p % 2 ^ 52 / PAGE_SIZE * PAGE_SIZE + x % PAGE_SIZE)) ∧
        ∀ x, ¬ SamePage x v → translate m' root x = translate m root x) ∧
      (b = false → (∀ x, SamePage x v → (translate m root x).isSome) ∧ m' = m) ∧
      ∀ x d, d ≤ 3 → (tableAt m' root x d = none ↔ tableAt m root x d = none ∧ pre x d ≠ pre v d) := by
  have h0 : tableAt m root (pageCanonical (pageAlign v)) (3 - 3) = some root := rfl
  obtain ⟨m₁, t, hr, h₁, ht, htr, hnone⟩ :=
    pageTables_spec hf h le_rfl (by rwa [missing_vaddr hv]) h0
  rw [missing_vaddr hv] at hr h₁
  have hpre : ∀ {x}, SamePage x v ↔ pre x 4 = pre (pageCanonical (pageAlign v)) 4 := by
    intro x
    rw [samePage_iff, pre_vaddr hv le_rfl]
  have hnone : ∀ x d, d ≤ 3 →
      (tableAt m₁ root x d = none ↔ tableAt m root x d = none ∧ pre x d ≠ pre v d) := by
    intro x d hd
    rw [hnone x d hd, pre_vaddr hv (by omega)]
  unfold pageIdMap
  dsimp only
  rw [hr, ok_bind]
  dsimp only
  cases hpr : pmPresent (pmEntry m₁ t (pagePmlIdx (pageCanonical (pageAlign v)) 1)) with
  | true =>
      rw [if_pos rfl]
      refine ⟨_, _, rfl, h₁, fun hb => absurd hb (by decide), fun _ => ?_, hnone⟩
      -- the page is mapped before the call too, so no table was created
      have hpage : ∃ f, tableAt m root (pageCanonical (pageAlign v)) 4 = some f := by
        rw [← htr, tableAt_succ, ht, Option.bind_some, hpr]
        exact ⟨_, rfl⟩
      obtain ⟨f, hfr⟩ := hpage
      obtain ⟨t', ht'⟩ := @tableAt_some _ _ _ 3 _ _ hfr (by omega)
      have hr' : pageTables alloc (pageCanonical (pageAlign v)) 3 k m root = .ok (k, m, t') :=
        pageTables_present le_rfl h0 ht'
      rw [hr'] at hr
      refine ⟨fun x hx => ?_, (Prod.mk.inj (Prod.mk.inj (Except.ok.inj hr)).2).1.symm⟩
      rw [translate, tableAt_pre le_rfl (hpre.mp hx), hfr]
      rfl
  | false =>
      rw [if_neg Bool.false_ne_true]
      generalize hpm : pmSet _ (pageFrame (pageAlign p)) PM_FLAGS = e
      obtain ⟨he, hpres⟩ := pmSet_flags hpm
      have haddr : e &&& PAGE_FRAME_MASK = p % 2 ^ 52 / PAGE_SIZE * PAGE_SIZE := by
        rw [← hpm, pageAlign_eq hp, pmSet_address (by norm_num [PM_FLAGS]), pageFrame_eq, PAGE_SIZE]
        omega
      refine ⟨_, _, rfl, h₁.setLeaf ht, fun _ => ⟨?_, ?_⟩, fun hb => absurd hb (by decide), ?_⟩
      · intro x hx
        rw [translate, translate, h₁.setEntry_new le_rfl ht (hpre.mp hx) he hpres, ← htr,
          tableAt_absent ht hpr le_rfl (hpre.mp hx) (by omega), haddr]
        exact ⟨rfl, rfl⟩
      · intro x hx
        rw [translate, translate,
          h₁.setEntry_same le_rfl ht le_rfl fun hc => hx (hpre.mpr hc.2), htr]
      · intro x d hd
        rw [h₁.setEntry_same le_rfl ht (by omega) (by omega)]
        exact hnone x d hd

/-- A write to an entry of a table stays apart from `own`. -/
theorem PagesOk.wr_apart (h : PagesOk fresh own n m root k) (hd : d ≤ 3)
    (ht : tableAt m root va d = some t) {i x : ℕ} (hi : i < 512) (hx : own x) :
    wr m' (t + 8 * i) e x = m' x := by
  refine wr_off m' e ?_
  by_contra hc
  exact h.apart hd ht (by omega) (by omega) hx

/-- Bytes that are neither in tables nor in pages for new ones, and that the allocator leaves, are
left by the loop of `page_id_map`. -/
theorem pageTables_frame {P : ℕ → Prop} (hf : FreshTables alloc fresh own n) (hP : ∀ x, P x → own x)
    (ha : ∀ k m m' p, k < n → alloc k m = .ok (m', p) → ∀ x, P x → m' x = m x) {i : ℕ}
    (h : PagesOk fresh own n m root k) (hi : i ≤ 3) (hk : k + missing m root va i ≤ n)
    (ht : tableAt m root va (3 - i) = some t) {r : ℕ × Mem × ℕ}
    (hr : pageTables alloc va i k m t = .ok r) : ∀ x, P x → r.2.1 x = m x := by
  induction i generalizing k m t with
  | zero =>
      cases hr
      exact fun _ _ => rfl
  | succ i ih =>
      have hlvl : 4 - (3 - (i + 1)) = i + 2 := by omega
      have hnext : 3 - (i + 1) + 1 = 3 - i := by omega
      unfold pageTables at hr
      dsimp only at hr
      cases hp : pmPresent (pmEntry m t (pagePmlIdx va (i + 2))) with
      | true =>
          have ht₁ := (tableAt_next hi ht).trans (if_pos hp)
          rw [missing_present ht₁] at hk
          rw [hp, if_pos rfl] at hr
          exact ih h (by omega) hk ht₁ hr
      | false =>
          have habs := (tableAt_next hi ht).trans (if_neg (hp ▸ Bool.false_ne_true))
          rw [missing_absent habs] at hk
          rw [hp, if_neg Bool.false_ne_true] at hr
          obtain ⟨m', hm', hagree⟩ := hf.alloc_eq (by omega : k < n) m
          rw [← hlvl] at hp
          obtain ⟨m₁, e, hm₁, -, hlink⟩ := h.link hf (by omega) (by omega) ht hp hagree
          have ht₁ := hlink.table
          have hle := missing_le m₁ root va i
          rw [hnext] at ht₁
          rw [hlvl] at hm₁
          rw [hm', ok_bind] at hr
          dsimp only at hr
          rw [← hm₁] at hr
          intro x hx
          rw [ih hlink.pages (by omega) (by omega) ht₁ hr x hx, hm₁,
            h.wr_apart (by omega) ht pagePmlIdx_lt (hP x hx)]
          have hfresh : ¬ (fresh k ≤ x ∧ x < fresh k + 8 * 512) := fun hc =>
            hf.apart (by omega : k < n) hc.1 (by omega) (hP x hx)
          rw [fill, if_neg hfresh]
          exact ha k m m' _ (by omega) hm' x hx

theorem pageIdMap_frame {P : ℕ → Prop} {p v : ℕ} (hf : FreshTables alloc fresh own n)
    (hP : ∀ x, P x → own x)
    (ha : ∀ k m m' p, k < n → alloc k m = .ok (m', p) → ∀ x, P x → m' x = m x)
    (h : PagesOk fresh own n m root k) (hk : k + missing m root v 3 ≤ n) (hv : v < 2 ^ 64)
    {r : ℕ × Mem × Bool} (hr : pageIdMap alloc k m root p v = .ok r) : ∀ x, P x → r.2.1 x = m x := by
  have h0 : tableAt m root (pageCanonical (pageAlign v)) (3 - 3) = some root := rfl
  have hk : k + missing m root (pageCanonical (pageAlign v)) 3 ≤ n := by rwa [missing_vaddr hv]
  obtain ⟨m₁, t, htab, h₁, ht, -⟩ := pageTables_spec hf h le_rfl hk h0
  have hframe := pageTables_frame hf hP ha h le_rfl hk h0 htab
  unfold pageIdMap at hr
  dsimp only at hr
  rw [htab, ok_bind] at hr
  dsimp only at hr hframe
  intro x hx
  split_ifs at hr
  · cases hr
    exact hframe x hx
  · cases hr
    exact (h₁.wr_apart le_rfl ht pagePmlIdx_lt (hP x hx)).trans (hframe x hx)

/-- **If `page_id_map` returns true, the page was not translated and now translates to the page of
`p`, and no other page changes; if it returns false, the page was translated and nothing changes.** -/
theorem pageIdMap_spec {p v : ℕ} (hf : FreshTables alloc fresh own n)
    (h : PagesOk fresh own n m root k) (hk : k + 3 ≤ n) (hp : p < 2 ^ 52) (hv : v < 2 ^ 64) :
    ∃ k' m' b, pageIdMap alloc k m root p v = .ok (k', m', b) ∧ PagesOk fresh own n m' root k' ∧
      (b = true → (∀ x, SamePage x v → translate m root x = none ∧
          translate m' root x = some (p / PAGE_SIZE * PAGE_SIZE + x % PAGE_SIZE)) ∧
        ∀ x, ¬ SamePage x v → translate m' root x = translate m root x) ∧
      (b = false → (∀ x, SamePage x v → (translate m root x).isSome) ∧ m' = m) := by
  have hle := missing_le m root v 3
  obtain ⟨m', b, hret, hpages, htrue, hfalse, -⟩ :=
    pageIdMap_page hf h (by omega) (by omega : p < 2 ^ 64) hv
  rw [Nat.mod_eq_of_lt hp] at htrue
  exact ⟨_, m', b, hret, hpages, htrue, hfalse⟩

end update

/-! ### Empty tables -/

/-- Pages from `0x2000` on. -/
def pagesFrom : TableAlloc := fun k m => .ok (m, 0x2000 + 0x1000 * k)

theorem pagesFrom_fresh {own : ℕ → Prop} {n : ℕ} (hn : n < 2 ^ 30)
    (ho : ∀ x, 0x2000 ≤ x → x < 0x2000 + 0x1000 * n → ¬ own x) :
    FreshTables pagesFrom (fun k => 0x2000 + 0x1000 * k) own n where
  alloc_eq := fun _ m => ⟨m, rfl, fun _ _ => rfl⟩
  page := fun hk => by omega
  inj := fun hkj _ => by omega
  apart := fun hk h1 h2 => ho _ (by omega) (by omega)

theorem zero_entry {pt i : ℕ} : pmEntry (fun _ => 0) pt i = 0 := by
  simp [pmEntry, rd, rdN]

/-- An empty root is the only table. -/
theorem empty_tables {m : Mem} {root va d t : ℕ} (hm : ∀ i < 512, pmEntry m root i = 0)
    (h : tableAt m root va d = some t) : d = 0 ∧ t = root := by
  cases d with
  | zero =>
      cases h
      exact ⟨rfl, rfl⟩
  | succ d =>
      obtain ⟨t', ht'⟩ := tableAt_some h (Nat.succ_le_succ (Nat.zero_le d) : 0 + 1 ≤ d + 1)
      rw [tableAt_succ, tableAt, Option.bind_some, hm _ pagePmlIdx_lt] at ht'
      cases ht'

theorem empty_pagesOk {m : Mem} {fresh : ℕ → ℕ} {own : ℕ → Prop} {n root : ℕ}
    (hroot : root % 4096 = 0) (hm : ∀ i < 512, pmEntry m root i = 0) (hf : ∀ j < n, fresh j ≠ root)
    (ho : ∀ x, root ≤ x → x < root + 4096 → ¬ own x) : PagesOk fresh own n m root 0 where
  rootPage := hroot
  distinct := fun _ _ h h' => by
    obtain ⟨rfl, -⟩ := empty_tables hm h
    obtain ⟨rfl, -⟩ := empty_tables hm h'
    refine ⟨rfl, ?_⟩
    simp [pre, Nat.div_eq_of_lt, Nat.mod_lt]
  unused := fun _ h _ hj => by
    obtain ⟨-, rfl⟩ := empty_tables hm h
    exact (hf _ hj).symm
  apart := fun _ h h1 h2 => by
    obtain ⟨-, rfl⟩ := empty_tables hm h
    exact ho _ h1 h2

theorem pageIdMap_one : ∃ k' m' b,
    pageIdMap pagesFrom 0 (fun _ => 0) 0x1000 0xABCDE 0x5000 = .ok (k', m', b) ∧
      PagesOk (fun k => 0x2000 + 0x1000 * k) (fun _ => False) 3 m' 0x1000 k' ∧
      (b = true → (∀ x, SamePage x 0x5000 → translate (fun _ => 0) 0x1000 x = none ∧
          translate m' 0x1000 x = some (0xABCDE / PAGE_SIZE * PAGE_SIZE + x % PAGE_SIZE)) ∧
        ∀ x, ¬ SamePage x 0x5000 → translate m' 0x1000 x = translate (fun _ => 0) 0x1000 x) ∧
      (b = false → (∀ x, SamePage x 0x5000 → (translate (fun _ => 0) 0x1000 x).isSome) ∧
        m' = fun _ => 0) := by
  have hfresh : FreshTables pagesFrom (fun k => 0x2000 + 0x1000 * k) (fun _ => False) 3 :=
    pagesFrom_fresh (by norm_num) fun _ _ _ => id
  have hok : PagesOk (fun k => 0x2000 + 0x1000 * k) (fun _ => False) 3 (fun _ => 0) 0x1000 0 :=
    empty_pagesOk rfl (fun _ _ => zero_entry) (fun j _ => by omega) fun _ _ _ => id
  exact pageIdMap_spec hfresh hok (by norm_num) (show 0xABCDE < 2 ^ 52 by norm_num)
    (show 0x5000 < 2 ^ 64 by norm_num)

end Dawos
