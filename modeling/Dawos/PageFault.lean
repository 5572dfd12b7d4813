import Dawos.PageResolve

/-! # The page fault handler

`page_fault` maps the page of the faulting address to itself if `page_resolve` yields zero for it,
and tells the interrupt stub to go on if that worked or was not needed.

`PathOk` is all that is asked of the tables: those on the path of the address are neither handed
out again nor written to by the allocator.  Under it `page_map` makes the page present if it was
not (`pageIdMap_progress`), so what the handler answers depends on `page_resolve` alone. -/

namespace Dawos

/-- The handler for page faults: 0 to go on, 1 to hang. -/
def pageFault (alloc : TableAlloc) (k : ℕ) (m : Mem) (root failAddr : ℕ) :
    Except Halt (ℕ × Mem × ℕ) :=
  -- map this page if it's not mapped yet, otherwise hang
  if pageResolve m root failAddr = 0 then
    pageIdMap alloc k m root failAddr failAddr >>= fun r =>
    .ok (r.1, r.2.1, if r.2.2 then 0 else 1)
  else .ok (k, m, 0)

/-- The tables on the path of an address, before call `k` of `mem_alloc_align`. -/
structure PathOk (fresh : ℕ → ℕ) (own : ℕ → Prop) (n : ℕ) (m : Mem) (root va k : ℕ) : Prop where
  rootPage : root % 4096 = 0
  unused : ∀ {d t j}, d ≤ 3 → tableAt m root va d = some t → k ≤ j → j < n → t ≠ fresh j
  apart : ∀ {d t x}, d ≤ 3 → tableAt m root va d = some t → t ≤ x → x < t + 4096 → ¬ own x

section path

variable {alloc : TableAlloc} {fresh : ℕ → ℕ} {own : ℕ → Prop} {m m' : Mem}
  {root va d j k n t e : ℕ}

/-- The entry that ends a path is none of those on the way to it. -/
theorem tableAt_setAbsent (hroot : root % 4096 = 0) (ht : tableAt m root va d = some t)
    (ha : pmPresent (pmEntry m t (pagePmlIdx va (4 - d))) = false) (hj : j ≤ d) :
    tableAt (wr m (t + 8 * pagePmlIdx va (4 - d)) e) root va j = tableAt m root va j := by
  apply tableAt_congr
  intro i hi t' ht'
  rw [pmEntry_wr (tableAt_mod hroot ht) (tableAt_mod hroot ht'), if_neg]
  intro hsame
  -- the entry there is present, since the path goes on
  obtain ⟨t₁, ht₁⟩ := tableAt_some ht (by omega : i + 1 ≤ d)
  rw [tableAt_succ, ht', Option.bind_some] at ht₁
  unfold pmEntry at ha ht₁
  rw [← hsame] at ha
  rw [ha] at ht₁
  cases ht₁

/-- The path goes on through a new entry. -/
theorem tableAt_setPresent (hroot : root % 4096 = 0) (ht : tableAt m root va d = some t)
    (ha : pmPresent (pmEntry m t (pagePmlIdx va (4 - d))) = false) (he : e < 2 ^ 64)
    (hpres : pmPresent e = true) :
    tableAt (wr m (t + 8 * pagePmlIdx va (4 - d)) e) root va (d + 1) =
      some (e &&& PAGE_FRAME_MASK) := by
  have hmod := tableAt_mod hroot ht
  have hentry : pmEntry (wr m (t + 8 * pagePmlIdx va (4 - d)) e) t (pagePmlIdx va (4 - d)) = e := by
    rw [pmEntry_wr hmod hmod, if_pos rfl, Nat.mod_eq_of_lt he]
  rw [tableAt_succ, tableAt_setAbsent hroot ht ha le_rfl, ht]
  simp only [Option.bind_some, pageAddress, hentry, hpres, if_true]

/-- A new table is linked to the path: the next entry of the path is in it, and is zero. -/
theorem PathOk.link (h : PathOk fresh own n m root va k) (hf : FreshTables alloc fresh own n)
    (hk : k < n) (hd : d ≤ 2) (ht : tableAt m root va d = some t)
    (ha : pmPresent (pmEntry m t (pagePmlIdx va (4 - d))) = false) (hm : AgreeOff m m' own)
    (he : e < 2 ^ 64) (hpres : pmPresent e = true) (haddr : e &&& PAGE_FRAME_MASK = fresh k) :
    PathOk fresh own n (wr (fill m' (fresh k) 0 (8 * 512)) (t + 8 * pagePmlIdx va (4 - d)) e)
        root va (k + 1) ∧
      tableAt (wr (fill m' (fresh k) 0 (8 * 512)) (t + 8 * pagePmlIdx va (4 - d)) e) root va (d + 1) =
        some (fresh k) ∧
      tableAt (wr (fill m' (fresh k) 0 (8 * 512)) (t + 8 * pagePmlIdx va (4 - d)) e) root va (d + 2) =
        none := by
  obtain ⟨hpage, hpage52⟩ := hf.page hk
  generalize hm₁ : fill m' (fresh k) 0 (8 * 512) = m₁
  -- the allocation and the clearing of the page do not touch the path
  have hagree : ∀ i ≤ 3, ∀ t, tableAt m root va i = some t →
      ∀ x, t ≤ x → x < t + 4096 → m₁ x = m x := by
    intro i hi t ht x h1 h2
    have hne := h.unused hi ht le_rfl hk
    have hmod := tableAt_mod h.rootPage ht
    rw [← hm₁]
    unfold fill
    rw [if_neg (by omega)]
    exact hm x (h.apart hi ht h1 h2)
  have hpath : ∀ i ≤ 3, tableAt m₁ root va i = tableAt m root va i := fun i hi => by
    apply tableAt_congr
    intro j hj t ht
    have hidx := @pagePmlIdx_lt va (4 - j)
    exact rd_congr fun x h1 h2 => hagree j (by omega) t ht x (by omega) (by omega)
  have hidx := @pagePmlIdx_lt va (4 - d)
  have ht₁ : tableAt m₁ root va d = some t := by rw [hpath d (by omega), ht]
  have ha₁ : pmPresent (pmEntry m₁ t (pagePmlIdx va (4 - d))) = false := by
    have hsame : pmEntry m₁ t (pagePmlIdx va (4 - d)) = pmEntry m t (pagePmlIdx va (4 - d)) :=
      rd_congr fun x h1 h2 => hagree d (by omega) t ht x (by omega) (by omega)
    rw [hsame, ha]
  have hnew := tableAt_setPresent h.rootPage ht₁ ha₁ he hpres
  rw [haddr] at hnew
  have hne : t ≠ fresh k := h.unused (by omega) ht le_rfl hk
  have hmod := tableAt_mod h.rootPage ht
  have hstop : tableAt (wr m₁ (t + 8 * pagePmlIdx va (4 - d)) e) root va (d + 2) = none := by
    have hzero : pmEntry (wr m₁ (t + 8 * pagePmlIdx va (4 - d)) e) (fresh k)
        (pagePmlIdx va (4 - (d + 1))) = 0 := by
      have hidx' := @pagePmlIdx_lt va (4 - (d + 1))
      rw [pmEntry_wr hmod hpage, if_neg (by omega), ← hm₁]
      exact rdN_fill_zero m' (by omega) (by omega)
    rw [tableAt_succ, hnew, Option.bind_some, hzero]
    rfl
  refine ⟨⟨h.rootPage, fun {i t' j} hi hti hj hjn => ?_, fun {i t' x} hi hti h1 h2 => ?_⟩, hnew, hstop⟩
  all_goals
    rcases Nat.lt_trichotomy i (d + 1) with hlt | rfl | hgt
  · rw [tableAt_setAbsent h.rootPage ht₁ ha₁ (by omega), hpath i hi] at hti
    exact h.unused hi hti (by omega) hjn
  · rw [hnew] at hti
    cases hti
    exact hf.inj (by omega) hjn
  · rw [tableAt_none hstop (by omega)] at hti
    cases hti
  · rw [tableAt_setAbsent h.rootPage ht₁ ha₁ (by omega), hpath i hi] at hti
    exact h.apart hi hti h1 h2
  · rw [hnew] at hti
    cases hti
    exact hf.apart hk h1 h2
  · rw [tableAt_none hstop (by omega)] at hti
    cases hti

/-- The loop of `page_id_map` finds or makes the last table of the path, and the page behind it is
present afterwards iff it was before. -/
theorem PathOk.pageTables (hf : FreshTables alloc fresh own n) {i : ℕ}
    (h : PathOk fresh own n m root va k) (hi : i ≤ 3) (hk : k + i ≤ n)
    (ht : tableAt m root va (3 - i) = some t) :
    ∃ k' m' t', pageTables alloc va i k m t = .ok (k', m', t') ∧
      tableAt m' root va 3 = some t' ∧ tableAt m' root va 4 = tableAt m root va 4 := by
  induction i generalizing k m t with
  | zero => exact ⟨k, m, t, rfl, ht, rfl⟩
  | succ i ih =>
      have hlvl : 4 - (3 - (i + 1)) = i + 2 := by omega
      have hnext : 3 - (i + 1) + 1 = 3 - i := by omega
      unfold Dawos.pageTables
      dsimp only
      cases hp : pmPresent (pmEntry m t (pagePmlIdx va (i + 2))) with
      | true =>
          have ht₁ := (tableAt_next hi ht).trans (if_pos hp)
          rw [if_pos rfl]
          exact ih h (by omega) (by omega) ht₁
      | false =>
          have habs := (tableAt_next hi ht).trans (if_neg (hp ▸ Bool.false_ne_true))
          have hkn : k < n := by omega
          obtain ⟨m', hm', hagree⟩ := hf.alloc_eq hkn m
          obtain ⟨hpage, hpage52⟩ := hf.page hkn
          rw [if_neg Bool.false_ne_true, hm', ok_bind]
          dsimp only
          generalize hpm : pmSet _ (pageFrame (fresh k)) PM_FLAGS = e
          obtain ⟨he, hpres⟩ := pmSet_flags hpm
          have haddr : e &&& PAGE_FRAME_MASK = fresh k := (pmSet_table hpm hpage52).trans (by omega)
          rw [← hlvl] at hp
          obtain ⟨hok, hnew, hstop⟩ := h.link hf hkn (by omega) ht hp hagree he hpres haddr
          rw [hlvl] at hok hnew hstop
          rw [hnext] at hnew
          obtain ⟨k', m₂, t', hr, ht', h4⟩ := ih hok (by omega) (by omega) hnew
          refine ⟨k', m₂, t', hr, ht', ?_⟩
          rw [h4, tableAt_none hstop (by omega), tableAt_none habs (by omega)]

/-- Where the page was not present `page_id_map` makes it present, and tells so. -/
theorem pageIdMap_progress {p : ℕ} (hf : FreshTables alloc fresh own n)
    (h : PathOk fresh own n m root va k) (hk : k + 3 ≤ n) (hva : va < 2 ^ 48) :
    ∃ k' m' b, pageIdMap alloc k m root p va = .ok (k', m', b) ∧
      (b = true ↔ translate m root va = none ∧ (translate m' root va).isSome) := by
  have hv : va < 2 ^ 64 := by omega
  have hpath : ∀ m d, d ≤ 4 → tableAt m root (pageCanonical (pageAlign va)) d = tableAt m root va d :=
    fun m d hd => tableAt_vaddr hv hd
  have hpre : pre (pageCanonical (pageAlign va)) (3 + 1) = pre va (3 + 1) := pre_vaddr hv le_rfl
  have hidx : pagePmlIdx (pageCanonical (pageAlign va)) 1 = pagePmlIdx va 1 :=
    ((pre_inj le_rfl).mp hpre).2
  have h' : PathOk fresh own n m root (pageCanonical (pageAlign va)) k := by
    refine ⟨h.rootPage, fun hd ht => ?_, fun hd ht => ?_⟩
    · rw [hpath m _ (by omega)] at ht
      exact h.unused hd ht
    · rw [hpath m _ (by omega)] at ht
      exact h.apart hd ht
  obtain ⟨k', m₁, t, hr, ht, h4⟩ := h'.pageTables hf le_rfl hk (rfl : tableAt m root _ (3 - 3) = some root)
  rw [hpath _ _ (by omega)] at ht
  rw [hpath _ _ le_rfl, hpath _ _ le_rfl] at h4
  unfold pageIdMap
  dsimp only
  rw [hr, ok_bind, hidx]
  dsimp only
  cases hp : pmPresent (pmEntry m₁ t (pagePmlIdx va 1)) with
  | true =>
      rw [if_pos rfl]
      refine ⟨k', m₁, false, rfl, fun hb => absurd hb Bool.false_ne_true, fun hb => ?_⟩
      have hsome : translate m root va = translate m₁ root va := by
        rw [translate, translate, h4]
      rw [← hsome, hb.1] at hb
      exact absurd hb.2 Bool.false_ne_true
  | false =>
      rw [if_neg Bool.false_ne_true]
      generalize hpm : pmSet _ (pageFrame (pageAlign p)) PM_FLAGS = e
      obtain ⟨he, hpres⟩ := pmSet_flags hpm
      refine ⟨k', _, true, rfl, fun _ => ⟨?_, ?_⟩, fun _ => rfl⟩
      · rw [translate, ← h4, tableAt_succ, ht, Option.bind_some, hp]
        rfl
      · rw [translate, tableAt_setPresent h.rootPage ht hp he hpres]
        rfl

/-- The handler answers as it should exactly when `page_resolve` yields zero: when the path does not
reach a last table, or reaches an entry with a zero frame and the offset is zero. -/
theorem page_fault (hf : FreshTables alloc fresh own n) (h : PathOk fresh own n m root va k)
    (hk : k + 3 ≤ n) (hva : va < 2 ^ 48) :
    (∃ k' m' ret, pageFault alloc k m root va = .ok (k', m', ret) ∧
      ret = if translate m root va = none ∧ (translate m' root va).isSome then 0 else 1) ↔
    ∀ t, tableAt m root va 3 = some t →
      pageAddress m t (pagePmlIdx va 1) = 0 ∧ va % PAGE_SIZE = 0 := by
  have hzero : pageResolve m root va = 0 ↔ ∀ t, tableAt m root va 3 = some t →
      pageAddress m t (pagePmlIdx va 1) = 0 ∧ va % PAGE_SIZE = 0 := by
    cases ht : tableAt m root va 3 with
    | none => exact iff_of_true (pageResolve_none ht) fun t h => by cases h
    | some t =>
        rw [pageResolve_some ht]
        refine ⟨fun h0 t' ht' => ?_, fun h0 => ?_⟩
        · cases ht'
          omega
        · have := h0 t rfl
          omega
  rw [← hzero]
  unfold pageFault
  by_cases h0 : pageResolve m root va = 0
  · rw [if_pos h0]
    obtain ⟨k', m', b, hr, hb⟩ := pageIdMap_progress (p := va) hf h hk hva
    refine iff_of_true ⟨k', m', if b then 0 else 1, ?_, ?_⟩ h0
    · rw [hr, ok_bind]
    · simp only [hb]
  · -- the tables stay as they are
    rw [if_neg h0]
    refine iff_of_false ?_ h0
    rintro ⟨k', m', ret, hr, hret⟩
    obtain ⟨rfl, rfl, rfl⟩ : k = k' ∧ m = m' ∧ 0 = ret := by
      have h1 := Prod.mk.inj (Except.ok.inj hr)
      exact ⟨h1.1, (Prod.mk.inj h1.2).1, (Prod.mk.inj h1.2).2⟩
    split_ifs at hret with hc
    rw [hc.1] at hc
    exact absurd hc.2 Bool.false_ne_true

/-- An address in an absent page, behind tables that are all present: the handler says to go on,
and the page is still absent. -/
theorem page_fault_absent : pageFault pagesFrom 0 emptyLeaf 0x1000 0x123 = .ok (0, emptyLeaf, 0) ∧
    translate emptyLeaf 0x1000 0x123 = none := by
  have hres : pageResolve emptyLeaf 0x1000 0x123 ≠ 0 := by decide +kernel
  refine ⟨?_, by decide +kernel⟩
  rw [pageFault, if_neg hres]

/-- A fault in a page whose upper tables are all missing. -/
theorem page_fault_empty :
    (∃ k' m' ret, pageFault pagesFrom 0 (fun _ => 0) 0x1000 0x5678 = .ok (k', m', ret) ∧
      ret = if translate (fun _ => 0) 0x1000 0x5678 = none ∧ (translate m' 0x1000 0x5678).isSome
        then 0 else 1) ↔
    ∀ t, tableAt (fun _ => 0) 0x1000 0x5678 3 = some t →
      pageAddress (fun _ => 0) t (pagePmlIdx 0x5678 1) = 0 ∧ 0x5678 % PAGE_SIZE = 0 :=
  page_fault (pagesFrom_fresh (by norm_num) fun _ _ _ => id)
    { rootPage := rfl
      unused := fun _ h _ hj => by
        obtain ⟨-, rfl⟩ := empty_tables (fun _ _ => zero_entry) h
        omega
      apart := fun _ _ _ _ => id }
    (by decide : 0 + 3 ≤ 3) (by norm_num)

end path

end Dawos
