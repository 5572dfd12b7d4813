import Dawos.HeapTree

/-! # The search for a free block

`Filed m heap S L T` says that the free blocks `S` are filed under `heap`: list `i` holds the
blocks of size `16 * i + 32`, and the tree the blocks larger than 1024 bytes.

Without an alignment the search is a best fit: `heap_search_best`.  With an alignment it goes
through the blocks of `searchOrder` and returns the first one that passes its test
(`heapSearch_aligned`).  The test is exact only for blocks that reach their next page boundary,
and the order leaves blocks out, hence the conditions in `heap_search_carve_iff` and
`heap_search_complete_iff`. -/

namespace Dawos

/-- The free blocks `S` are filed: each in the list of its size, or in the tree. -/
structure Filed (m : Mem) (heap : ℕ) (S : Set ℕ) (L : ℕ → List ℕ) (T : Chains ℕ) : Prop where
  mem : ∀ z, z ∈ S ↔ (∃ i < HEAP_LIST_COUNT, z ∈ L i) ∨ z ∈ nodes T
  null : 0 ∉ S
  linked : ∀ i < HEAP_LIST_COUNT, Linked (prevBlock m) (nextBlock m) 0 0 (L i)
  first : ∀ i < HEAP_LIST_COUNT, rd m (heapFreeSlot heap i) = (L i).headD 0
  listed : ∀ i < HEAP_LIST_COUNT, ∀ z ∈ L i, heapGetSize m z = 16 * i + 32
  tree : SizeTree (treeFields heapAlign m) 0 (rd m (heapFreeSlot heap HEAP_LIST_COUNT)) T
  treed : ∀ z ∈ nodes T, 1024 < heapGetSize m z

/-! ### Best fit -/

section best

variable {m : Mem} {heap tree root bsize i j k : ℕ} {S : Set ℕ} {L : ℕ → List ℕ} {T : Chains ℕ}

theorem Filed.list_ne (h : Filed m heap S L T) (hi : i < HEAP_LIST_COUNT) (hne : L i ≠ []) :
    rd m (heapFreeSlot heap i) ∈ L i ∧ rd m (heapFreeSlot heap i) ≠ 0 := by
  rw [h.first i hi]
  have hm := headD_mem hne 0
  exact ⟨hm, fun e => h.null ((h.mem 0).mpr (.inl ⟨i, hi, e ▸ hm⟩))⟩

/-- The first list from `i` on with a block in it, and none before it. -/
def FirstList (L : ℕ → List ℕ) (i k : ℕ) (r : Option ℕ) : Prop :=
  match r with
  | none => ∀ l, i ≤ l → l < i + k → L l = []
  | some b => ∃ j, i ≤ j ∧ j < i + k ∧ b ∈ L j ∧ ∀ l, i ≤ l → l < j → L l = []

/-- Without an alignment the lists yield the head of the first one that is not empty. -/
theorem Filed.searchLists (h : Filed m heap S L T) (bsize : ℕ) : ∀ {k i : ℕ},
    i + k ≤ HEAP_LIST_COUNT → ∃ r, (∀ n, heapSearchLists n m heap bsize false k i = .ok r) ∧
      FirstList L i k r
  | 0, i, _ => ⟨none, fun _ => rfl, fun l h1 h2 => by omega⟩
  | k + 1, i, hik => by
      obtain ⟨r, hr, hspec⟩ := h.searchLists bsize (k := k) (i := i + 1) (by omega)
      have hi : i < HEAP_LIST_COUNT := by omega
      by_cases hL : L i = []
      · have h0 : rd m (heapFreeSlot heap i) = 0 := by
          rw [h.first i hi, hL]
          rfl
        have hempty : ∀ l, i ≤ l → l < i + 1 → L l = [] := fun l h1 h2 => by
          have e : l = i := by omega
          rw [e, hL]
        refine ⟨r, fun n => by simp [heapSearchLists, h0, hr n], ?_⟩
        cases r with
        | none =>
            intro l h1 h2
            by_cases e : l < i + 1
            · exact hempty l h1 e
            · exact hspec l (by omega) (by omega)
        | some b =>
            obtain ⟨j, h1, h2, h3, h4⟩ := hspec
            refine ⟨j, by omega, by omega, h3, fun l h5 h6 => ?_⟩
            by_cases e : l < i + 1
            · exact hempty l h5 e
            · exact h4 l (by omega) h6
      · obtain ⟨hm, h0⟩ := h.list_ne hi hL
        refine ⟨some (rd m (heapFreeSlot heap i)), fun n => ?_, i, le_rfl, by omega, hm,
          fun l h1 h2 => by omega⟩
        simp [heapSearchLists, h0]

/-- The walk to the larger heads ends at one that is large enough, or at the largest one. -/
theorem walkLarger_exact (bsize : ℕ) (h : SizeTree (treeFields heapAlign m) 0 root T)
    (hT : T ≠ []) : ∃ b, Returns (fun n => loop (walkLarger m bsize) n root) b ∧ b ∈ heads T ∧
      (heapGetSize m b < bsize → ∀ z ∈ heads T, heapGetSize m z ≤ heapGetSize m b) := by
  refine loop_returns (fun k a => a ∈ heads T ∧ T.length - rank T a = k) _ (fun k a ⟨ha, hk⟩ => ?_)
    ⟨h.root_mem hT, rfl⟩
  unfold walkLarger
  split_ifs with hc
  · obtain ⟨h1, -, h3, h4⟩ := h.larger_step ha hc.2
    refine ⟨fun s' e => ?_, fun b e => by cases e⟩
    obtain rfl := Sum.inl.inj e
    have e3 : rank T (largerBlock m a) = rank T a + 1 := h3
    exact ⟨_, by omega, h1, rfl⟩
  · refine ⟨(fun s' e => by cases e), fun b e => ?_⟩
    obtain rfl := Sum.inr.inj e
    refine ⟨ha, fun hlt z hz => ?_⟩
    have hl : largerBlock m a = 0 := by
      by_contra hne
      exact hc ⟨hlt, hne⟩
    obtain ⟨A, cs, B, rfl⟩ := split_of_mem_heads ha
    obtain rfl := h.larger_nul hl
    simp only [heads_append, heads_cons, List.mem_append, List.mem_cons] at hz
    rcases hz with hz | rfl | hz
    · exact (h.size_split.1 z hz).le
    · exact le_rfl
    · cases hz

/-- The walk back ends at the smallest head that is large enough. -/
theorem walkSmaller_exact (h : SizeTree (treeFields heapAlign m) 0 root T) {a : ℕ}
    (ha : a ∈ heads T) (hs : bsize ≤ heapGetSize m a) :
    ∃ b, Returns (fun n => loop (walkSmaller m bsize) n a) b ∧ b ∈ heads T ∧
      bsize ≤ heapGetSize m b ∧
      ∀ z ∈ heads T, bsize ≤ heapGetSize m z → heapGetSize m b ≤ heapGetSize m z := by
  refine loop_returns (fun k a => (a ∈ heads T ∧ bsize ≤ heapGetSize m a) ∧ rank T a = k) _
    (fun k a ⟨ha, hk⟩ => ?_) ⟨⟨ha, hs⟩, rfl⟩
  unfold walkSmaller
  split_ifs with hc
  · obtain ⟨h1, -, h3⟩ := h.smaller_step ha.1 hc.2.1
    refine ⟨fun s' e => ?_, fun b e => by cases e⟩
    obtain rfl := Sum.inl.inj e
    have e3 : rank T (smallerBlock m a) + 1 = rank T a := h3
    exact ⟨_, by omega, ⟨h1, hc.2.2⟩, rfl⟩
  · refine ⟨(fun s' e => by cases e), fun b e => ?_⟩
    obtain rfl := Sum.inr.inj e
    refine ⟨ha.1, ha.2, fun z hz hzs => ?_⟩
    by_contra hlt
    obtain ⟨A, cs, B, rfl⟩ := split_of_mem_heads ha.1
    -- a smaller head that is large enough lies before the smaller neighbour
    have hzA : z ∈ heads A := by
      simp only [heads_append, heads_cons, List.mem_append, List.mem_cons] at hz
      rcases hz with hz | rfl | hz
      · exact hz
      · exact absurd le_rfl hlt
      · exact absurd (h.size_split.2 z hz).le hlt
    have hle : heapGetSize m z ≤ heapGetSize m (smallerBlock m a) := h.le_smaller z hzA
    refine hc ⟨by omega, fun e => ?_, by omega⟩
    rw [h.smaller_nul e] at hzA
    cases hzA

/-- The node of a chain has the size of its head. -/
theorem head_of_node (h : SizeTree (treeFields heapAlign m) 0 root T) {z : ℕ} (hz : z ∈ nodes T) :
    ∃ a ∈ heads T, heapGetSize m z = heapGetSize m a := by
  obtain ⟨t, ht, hzt⟩ := mem_nodes.mp hz
  refine ⟨t.1, List.mem_map_of_mem ht, ?_⟩
  rcases hzt with rfl | hzt
  · rfl
  · exact h.equal t ht z hzt

/-- The tree yields a block of the smallest size that is large enough. -/
theorem heapTreeSearch_best (bsize : ℕ) (h : SizeTree (treeFields heapAlign m) 0 (rd m tree) T) :
    ∃ b, Returns (fun n => heapTreeSearch n m tree bsize) b ∧
      ((b = 0 ∧ ∀ z ∈ nodes T, heapGetSize m z < bsize) ∨ (b ∈ nodes T ∧ bsize ≤ heapGetSize m b ∧
        ∀ z ∈ nodes T, bsize ≤ heapGetSize m z → heapGetSize m b ≤ heapGetSize m z)) := by
  by_cases hT : T = []
  · subst hT
    refine ⟨0, Returns.of_eq fun n => ?_, .inl ⟨rfl, by simp [nodes]⟩⟩
    simp [heapTreeSearch, h.root_nul rfl]
  · have hroot : rd m tree ≠ 0 := h.ne_nul (heads_sub (h.root_mem hT))
    obtain ⟨a, ha, haT, hmax⟩ := walkLarger_exact bsize h hT
    by_cases hs : heapGetSize m a < bsize
    · refine ⟨0, ?_, .inl ⟨rfl, fun z hz => ?_⟩⟩
      · filter_upwards [ha] with n hn
        simp only [heapTreeSearch, hroot, if_false, hn]
        exact if_pos hs
      · obtain ⟨c, hc, e⟩ := head_of_node h hz
        have := hmax hs c hc
        omega
    · obtain ⟨b, hb, hbT, hbs, hmin⟩ := walkSmaller_exact h haT (not_lt.mp hs)
      refine ⟨b, ?_, .inr ⟨heads_sub hbT, hbs, fun z hz hzs => ?_⟩⟩
      · filter_upwards [ha, hb] with n hn hn'
        simp only [heapTreeSearch, hroot, if_false, hn]
        exact (if_neg hs).trans hn'
      · obtain ⟨c, hc, e⟩ := head_of_node h hz
        rw [e] at hzs ⊢
        exact hmin c hc hzs

/-- What the lists yield for a block size. -/
def ListBest (L : ℕ → List ℕ) (bsize : ℕ) (r : Option ℕ) : Prop :=
  match r with
  | none => ∀ i < HEAP_LIST_COUNT, bsize ≤ 16 * i + 32 → L i = []
  | some b => ∃ j < HEAP_LIST_COUNT, b ∈ L j ∧ bsize ≤ 16 * j + 32 ∧
      ∀ i < HEAP_LIST_COUNT, bsize ≤ 16 * i + 32 → L i ≠ [] → j ≤ i

/-- The lists are searched from the one for the size on. -/
theorem Filed.listSearch (h : Filed m heap S L T) (hb : 48 ≤ bsize) (hd : bsize % 16 = 0) :
    ∃ r, (∀ n, heapListSearch n m heap bsize false = .ok r) ∧ ListBest L bsize r := by
  by_cases hle : bsize ≤ 1056
  · have hidx := heapSizeIdx_eq (s := bsize) (by omega) hle
    by_cases hi : bsize / 16 - 2 ≤ HEAP_LIST_COUNT
    · obtain ⟨r, hr, hspec⟩ := h.searchLists bsize (k := HEAP_LIST_COUNT - (bsize / 16 - 2))
        (i := bsize / 16 - 2) (by omega)
      refine ⟨r, fun n => ?_, ?_⟩
      · unfold heapListSearch
        simp only [hidx, Int.natCast_nonneg, if_true, Int.toNat_natCast]
        exact hr n
      · cases r with
        | none => exact fun i h1 h2 => hspec i (by omega) (by omega)
        | some b =>
            obtain ⟨j, h1, h2, h3, h4⟩ := hspec
            refine ⟨j, by omega, h3, by omega, fun i h5 h6 hne => ?_⟩
            by_contra hlt
            exact hne (h4 i (by omega) (by omega))
    · refine ⟨none, fun n => ?_, fun i h1 h2 => by omega⟩
      unfold heapListSearch
      simp only [hidx, Int.natCast_nonneg, if_true, Int.toNat_natCast]
      rw [Nat.sub_eq_zero_of_le (by omega)]
      rfl
  · refine ⟨none, fun n => ?_, fun i h1 h2 => ?_⟩
    · unfold heapListSearch
      rw [heapSizeIdx_large (by omega)]
      rfl
    · rw [HEAP_LIST_COUNT_eq] at h1
      omega

/-- **Best fit**: the search ends with a free block of the smallest size that is large enough, or
with null when there is none. -/
theorem heap_search_best (h : Filed m heap S L T) (hb : 48 ≤ bsize) (hd : bsize % 16 = 0) :
    ∃ b, Returns (fun n => heapSearch n m heap bsize false) b ∧
      (b = 0 ↔ ∀ z ∈ S, heapGetSize m z < bsize) ∧
      (b ≠ 0 → b ∈ S ∧ bsize ≤ heapGetSize m b ∧
        ∀ z ∈ S, bsize ≤ heapGetSize m z → heapGetSize m b ≤ heapGetSize m z) := by
  obtain ⟨r, hr, hspec⟩ := h.listSearch hb hd
  cases r with
  | some b =>
      obtain ⟨j, hj, hbj, hle, hmin⟩ := hspec
      have hbS : b ∈ S := (h.mem b).mpr (.inl ⟨j, hj, hbj⟩)
      have hsize := h.listed j hj b hbj
      have hb0 : b ≠ 0 := fun e => h.null (e ▸ hbS)
      refine ⟨b, Returns.of_eq fun n => ?_, ⟨fun e => absurd e hb0, fun hall => ?_⟩,
        fun _ => ⟨hbS, by omega, fun z hz hzs => ?_⟩⟩
      · unfold heapSearch
        rw [hr n]
        rfl
      · have := hall b hbS
        omega
      · rcases (h.mem z).mp hz with ⟨i, hi, hzi⟩ | hzt
        · have hzsize := h.listed i hi z hzi
          have := hmin i hi (by omega) (List.ne_nil_of_mem hzi)
          omega
        · have := h.treed z hzt
          rw [HEAP_LIST_COUNT_eq] at hj
          omega
  | none =>
      -- no list has a large enough block
      have hlist : ∀ z ∈ S, z ∉ nodes T → heapGetSize m z < bsize := fun z hz hzt => by
        obtain ⟨i, hi, hzi⟩ := ((h.mem z).mp hz).resolve_right hzt
        rw [h.listed i hi z hzi]
        by_contra hle
        exact List.ne_nil_of_mem hzi (hspec i hi (by omega))
      obtain ⟨b, hret, htree⟩ := heapTreeSearch_best bsize h.tree
      refine ⟨b, ?_, ?_, fun hb0 => ?_⟩
      · filter_upwards [hret] with n hn
        unfold heapSearch
        simp only [hr n, ok_bind, Bool.false_eq_true, if_false]
        exact hn
      · constructor
        · intro e z hz
          by_cases hzt : z ∈ nodes T
          · rcases htree with ⟨-, hall⟩ | ⟨hbT, -⟩
            · exact hall z hzt
            · exact absurd e (h.tree.ne_nul hbT)
          · exact hlist z hz hzt
        · intro hall
          rcases htree with ⟨e, -⟩ | ⟨hbT, hbs, -⟩
          · exact e
          · have := hall b ((h.mem b).mpr (.inr hbT))
            omega
      · obtain ⟨hbT, hbs, hmin⟩ := htree.resolve_left fun e => hb0 e.1
        refine ⟨(h.mem b).mpr (.inr hbT), hbs, fun z hz hzs => ?_⟩
        by_cases hzt : z ∈ nodes T
        · exact hmin z hzt hzs
        · have := hlist z hz hzt
          omega

end best

/-! ### The order of the aligned search -/

/-- The blocks of a list that the aligned search tests: the first one if it is aligned, otherwise
all but the last one. -/
def listScan (l : List ℕ) : List ℕ :=
  if heapIsPageAligned (heapGetPayload (l.headD 0)) then l.take 1 else l.dropLast

/-- The blocks of the tree that the aligned search tests: from the first large enough head at or
above the root on, each head with its chain. -/
def treeScan (m : Mem) (bsize root : ℕ) (T : Chains ℕ) : List ℕ :=
  nodes ((T.dropWhile fun t => decide (t.1 ≠ root)).dropWhile fun t =>
    decide (heapGetSize m t.1 < bsize))

/-- The blocks that the aligned search tests, in its order. -/
def searchOrder (m : Mem) (heap bsize : ℕ) (L : ℕ → List ℕ) (T : Chains ℕ) : List ℕ :=
  (if 0 ≤ heapSizeIdx bsize then
    (List.range' (heapSizeIdx bsize).toNat
      (HEAP_LIST_COUNT - (heapSizeIdx bsize).toNat)).flatMap fun i => listScan (L i)
  else []) ++ treeScan m bsize (rd m (heapFreeSlot heap HEAP_LIST_COUNT)) T

section aligned

variable {m : Mem} {heap tree root bsize i j k p x : ℕ} {S : Set ℕ} {L : ℕ → List ℕ}
  {A B T : Chains ℕ} {cs us vs : List ℕ}

/-- The scan of a list that does not start with an aligned block. -/
theorem listStep_exact (bsize : ℕ) (h0 : 0 ∉ x :: vs)
    (h : Linked (prevBlock m) (nextBlock m) 0 p (x :: vs)) :
    Returns (fun n => loop (listStep m bsize) n x)
      ((x :: vs).dropLast.find? (suitsAligned m bsize)) := by
  induction vs generalizing p x with
  | nil =>
      have hn : nextBlock m x = 0 := h.2.1
      apply Returns.loop_inr
      simp [listStep, hn]
  | cons v vs ih =>
      have hn : nextBlock m x = v := h.2.1
      have hv : v ≠ 0 := fun e => h0 (by simp [e])
      by_cases hs : suitsAligned m bsize x = true
      · rw [List.dropLast_cons_cons, List.find?_cons_of_pos hs]
        apply Returns.loop_inr
        simp [listStep, hn, hv, hs]
      · rw [List.dropLast_cons_cons, List.find?_cons_of_neg hs]
        apply (ih (fun hm => h0 (List.mem_cons_of_mem _ hm)) h.2.2).loop_inl
        simp [listStep, hn, hv, hs]

theorem suitsAligned_of_aligned (m : Mem) (bsize : ℕ)
    (h : heapIsPageAligned (heapGetPayload x) = true) : suitsAligned m bsize x = true := by
  simp [suitsAligned, h]

/-- The lists yield the first block of their scans that passes the test. -/
theorem Filed.searchLists_aligned (h : Filed m heap S L T) (bsize : ℕ) : ∀ {k i : ℕ},
    i + k ≤ HEAP_LIST_COUNT → Returns (fun n => heapSearchLists n m heap bsize true k i)
      (((List.range' i k).flatMap fun i => listScan (L i)).find? (suitsAligned m bsize))
  | 0, i, _ => Returns.of_eq fun _ => rfl
  | k + 1, i, hik => by
      have ih := h.searchLists_aligned bsize (k := k) (i := i + 1) (by omega)
      have hi : i < HEAP_LIST_COUNT := by omega
      have hfirst := h.first i hi
      rw [List.range'_succ, List.flatMap_cons, List.find?_append]
      cases hL : L i with
      | nil =>
          rw [hL] at hfirst
          have hscan : (listScan []).find? (suitsAligned m bsize) = none := by
            unfold listScan
            split_ifs <;> rfl
          rw [hscan, Option.none_or]
          exact ih.congr fun n => by simp [heapSearchLists, hfirst]
      | cons x vs =>
          have hlink := h.linked i hi
          rw [hL] at hfirst hlink
          have hnull : 0 ∉ x :: vs := fun hm =>
            h.null ((h.mem 0).mpr (.inl ⟨i, hi, by rwa [hL]⟩))
          have hx : x ≠ 0 := fun e => hnull (by simp [e])
          have hfirst : rd m (heapFreeSlot heap i) = x := hfirst
          by_cases ha : heapIsPageAligned (heapGetPayload x) = true
          · have hscan : listScan (x :: vs) = [x] := by simp [listScan, ha]
            rw [hscan, List.find?_cons_of_pos (suitsAligned_of_aligned m bsize ha)]
            apply Returns.of_eq
            intro n
            simp [heapSearchLists, hfirst, hx, ha]
          · have hscan : listScan (x :: vs) = (x :: vs).dropLast := by simp [listScan, ha]
            have hloop := listStep_exact bsize hnull hlink
            rw [hscan]
            cases hr : (x :: vs).dropLast.find? (suitsAligned m bsize) with
            | some c =>
                rw [hr] at hloop
                filter_upwards [hloop] with n hn
                simp [heapSearchLists, hfirst, hx, ha, hn, ok_bind]
                rfl
            | none =>
                rw [hr] at hloop
                rw [Option.none_or]
                filter_upwards [hloop, ih] with n hn hn'
                simp only [heapSearchLists, hfirst, hx, ha, hn, ok_bind, if_false]
                exact hn'

/-- The rest of a chain, when the search goes on with the result `r` after it. -/
theorem alignedStep_chain {r : ℕ} (h0 : 0 ∉ vs)
    (h : Linked (parentBlock m) (childBlock m) 0 k vs)
    (hr : Returns (fun n => loop (alignedStep m bsize) n (p, 0)) r) :
    Returns (fun n => loop (alignedStep m bsize) n (p, vs.headD 0))
      ((vs.find? (suitsAligned m bsize)).getD r) := by
  induction vs generalizing k with
  | nil => exact hr
  | cons v vs ih =>
      have hv : v ≠ 0 := fun e => h0 (by simp [e])
      have hc : childBlock m v = vs.headD 0 := h.2.1
      by_cases hs : suitsAligned m bsize v = true
      · rw [List.find?_cons_of_pos hs]
        apply Returns.loop_inr
        simp [alignedStep, hv, hs]
      · rw [List.find?_cons_of_neg hs]
        apply (ih (fun hm => h0 (List.mem_cons_of_mem _ hm)) h.2.2).loop_inl
        simp [alignedStep, hv, hs, hc]

/-- A chain and the larger heads with their chains. -/
theorem alignedStep_exact (bsize : ℕ) (h : SizeTree (treeFields heapAlign m) 0 root T)
    (hT : T = A ++ (p, cs) :: B) : Returns (fun n => loop (alignedStep m bsize) n (p, p))
      (((nodes ((p, cs) :: B)).find? (suitsAligned m bsize)).getD 0) := by
  induction B generalizing A p cs with
  | nil =>
      subst hT
      have hl : largerBlock m p = 0 := h.head_links.2.1
      have hend : Returns (fun n => loop (alignedStep m bsize) n (p, 0)) 0 := by
        apply Returns.loop_inr
        simp [alignedStep, hl]
      have hnull : 0 ∉ p :: cs := fun hm =>
        h.nul_not_mem (mem_nodes.mpr ⟨(p, cs), by simp, List.mem_cons.mp hm⟩)
      have hchain := alignedStep_chain hnull (h.chains (p, cs) (by simp)) hend
      simpa [nodes] using hchain
  | cons t B ih =>
      have hT' : T = (A ++ [(p, cs)]) ++ (t.1, t.2) :: B := by simp [hT]
      have hnext := ih hT'
      subst hT
      have hl : largerBlock m p = t.1 := h.head_links.2.1
      have ht : t.1 ≠ 0 := h.ne_nul (heads_sub (by simp))
      have hend : Returns (fun n => loop (alignedStep m bsize) n (p, 0)) _ :=
        hnext.loop_inl (by simp [alignedStep, hl, ht])
      have hnull : 0 ∉ p :: cs := fun hm =>
        h.nul_not_mem (mem_nodes.mpr ⟨(p, cs), by simp, List.mem_cons.mp hm⟩)
      have hchain := alignedStep_chain hnull (h.chains (p, cs) (by simp)) hend
      rw [nodes_cons, List.find?_append, Option.getD_or]
      exact hchain

/-- The walk to the first large enough head from `p` on. -/
theorem walkLarger_drop (bsize : ℕ) (h : SizeTree (treeFields heapAlign m) 0 root T)
    (hT : T = A ++ (p, cs) :: B) : ∃ b, Returns (fun n => loop (walkLarger m bsize) n p) b ∧
      ((heapGetSize m b < bsize ∧
        ((p, cs) :: B).dropWhile (fun t => decide (heapGetSize m t.1 < bsize)) = []) ∨
      (bsize ≤ heapGetSize m b ∧ ∃ A' ds B', T = A' ++ (b, ds) :: B' ∧
        ((p, cs) :: B).dropWhile (fun t => decide (heapGetSize m t.1 < bsize)) = (b, ds) :: B')) := by
  induction B generalizing A p cs with
  | nil =>
      have hl : largerBlock m p = 0 := by
        subst hT
        exact h.head_links.2.1
      refine ⟨p, Returns.loop_inr (by simp [walkLarger, hl]), ?_⟩
      by_cases hs : heapGetSize m p < bsize
      · exact .inl ⟨hs, by simp [hs]⟩
      · exact .inr ⟨not_lt.mp hs, A, cs, [], hT, by simp [hs]⟩
  | cons t B ih =>
      by_cases hs : heapGetSize m p < bsize
      · have hT' : T = (A ++ [(p, cs)]) ++ (t.1, t.2) :: B := by simp [hT]
        obtain ⟨b, hb, hcase⟩ := ih hT'
        subst hT
        have hl : largerBlock m p = t.1 := h.head_links.2.1
        have ht : t.1 ≠ 0 := h.ne_nul (heads_sub (by simp))
        refine ⟨b, hb.loop_inl (by simp [walkLarger, hl, ht, hs]), ?_⟩
        rw [List.dropWhile_cons_of_pos (by simp [hs])]
        exact hcase
      · refine ⟨p, Returns.loop_inr (by simp [walkLarger, hs]), .inr ⟨not_lt.mp hs, A, cs, t :: B,
          hT, ?_⟩⟩
        rw [List.dropWhile_cons_of_neg (by simp [hs])]

/-- The part of the tree from the root on. -/
theorem dropWhile_root (h : (nodes (A ++ (root, cs) :: B)).Nodup) :
    (A ++ (root, cs) :: B).dropWhile (fun t => decide (t.1 ≠ root)) = (root, cs) :: B := by
  have hA : ∀ t ∈ A, t.1 ≠ root := fun t ht e => by
    have hh := heads_nodup h
    rw [heads_append, List.nodup_append] at hh
    exact hh.2.2 t.1 (List.mem_map_of_mem ht) root (by simp) e
  rw [List.dropWhile_append_of_pos (by simpa using hA), List.dropWhile_cons_of_neg (by simp)]

/-- The tree yields the first block of its scan that passes the test. -/
theorem heapTreeSearchAligned_exact (bsize : ℕ)
    (h : SizeTree (treeFields heapAlign m) 0 (rd m tree) T) :
    Returns (fun n => heapTreeSearchAligned n m tree bsize)
      (((treeScan m bsize (rd m tree) T).find? (suitsAligned m bsize)).getD 0) := by
  by_cases hT : T = []
  · subst hT
    apply Returns.of_eq
    intro n
    simp [heapTreeSearchAligned, h.root_nul rfl, treeScan, nodes]
  · have hroot : rd m tree ≠ 0 := h.ne_nul (heads_sub (h.root_mem hT))
    obtain ⟨A, cs, B, hsplit⟩ := split_of_mem_heads (h.root_mem hT)
    obtain ⟨b, hb, hcase⟩ := walkLarger_drop bsize h hsplit
    have hdrop : T.dropWhile (fun t => decide (t.1 ≠ rd m tree)) = (rd m tree, cs) :: B := by
      have hnd := h.nodup
      rw [hsplit] at hnd ⊢
      exact dropWhile_root hnd
    unfold treeScan
    rw [hdrop]
    rcases hcase with ⟨hs, he⟩ | ⟨hs, A', ds, B', hT', he⟩
    · rw [he]
      filter_upwards [hb] with n hn
      simp only [heapTreeSearchAligned, hroot, if_false, hn]
      exact if_pos hs
    · rw [he]
      filter_upwards [hb, alignedStep_exact bsize h hT'] with n hn hn'
      simp only [heapTreeSearchAligned, hroot, if_false, hn]
      exact (if_neg (not_lt.mpr hs)).trans hn'

/-- **The aligned search** returns the first block of its order that passes the test. -/
theorem heapSearch_aligned (h : Filed m heap S L T) (bsize : ℕ) :
    Returns (fun n => heapSearch n m heap bsize true)
      (((searchOrder m heap bsize L T).find? (suitsAligned m bsize)).getD 0) := by
  have htree := heapTreeSearchAligned_exact bsize h.tree
  unfold searchOrder
  rw [List.find?_append, Option.getD_or]
  by_cases hidx : 0 ≤ heapSizeIdx bsize ∧ (heapSizeIdx bsize).toNat ≤ HEAP_LIST_COUNT
  · have hlists := h.searchLists_aligned bsize (k := HEAP_LIST_COUNT - (heapSizeIdx bsize).toNat)
      (i := (heapSizeIdx bsize).toNat) (by omega)
    rw [if_pos hidx.1]
    filter_upwards [hlists, htree] with n hn hn'
    unfold heapSearch heapListSearch
    simp only [hidx.1, if_true, hn, ok_bind]
    split
    · next c e => rw [e]; rfl
    · next e => rw [e]; exact hn'
  · have hnone : ∀ n, heapListSearch n m heap bsize true = .ok none := fun n => by
      unfold heapListSearch
      dsimp only
      split_ifs with h0
      · rw [Nat.sub_eq_zero_of_le (by omega)]
        rfl
      · rfl
    have hscan : ((if 0 ≤ heapSizeIdx bsize then
        (List.range' (heapSizeIdx bsize).toNat
          (HEAP_LIST_COUNT - (heapSizeIdx bsize).toNat)).flatMap fun i => listScan (L i)
        else []).find? (suitsAligned m bsize)) = none := by
      split_ifs with h0
      · rw [Nat.sub_eq_zero_of_le (by omega)]
        rfl
      · rfl
    rw [hscan, Option.getD_none]
    filter_upwards [htree] with n hn
    unfold heapSearch
    simp only [hnone n, ok_bind, if_true]
    exact hn

end aligned

/-! ### Where an aligned block fits -/

/-- The carve for a page aligned payload fits inside the block. -/
def CarveFits (m : Mem) (bsize b : ℕ) : Prop :=
  (heapIsPageAligned (heapGetPayload b) = true ∧ bsize ≤ heapGetSize m b) ∨
    (HEAP_LIST_MIN ≤ alignedLeft b ∧ alignedLeft b + bsize ≤ heapGetSize m b)

/-- The block passes the test of the search although the carve does not fit: it is aligned but too
small, or it ends before its next page boundary, so that the size right of it wraps around. -/
def PassesShort (m : Mem) (bsize b : ℕ) : Prop :=
  if heapIsPageAligned (heapGetPayload b) then heapGetSize m b < bsize
  else HEAP_LIST_MIN ≤ alignedLeft b ∧ heapGetSize m b < alignedLeft b ∧
    alignedLeft b + bsize ≤ heapGetSize m b + 2 ^ 64

/-- A block that fits comes before every block that passes the test without fitting. -/
def FitsFirst (m : Mem) (bsize : ℕ) (order : List ℕ) : Prop :=
  ∀ us b vs, order = us ++ b :: vs → (∀ c ∈ us, ¬ CarveFits m bsize c) → ¬ PassesShort m bsize b

/-- The block contains a page aligned payload position `q` with room for the block, and with
nothing or a block left of it. -/
def AlignedRoom (m : Mem) (bsize b : ℕ) : Prop :=
  ∃ q, q % PAGE_SIZE = 0 ∧ b + 16 ≤ q ∧ q - 16 + bsize ≤ b + heapGetSize m b ∧
    (q - 16 = b ∨ b + HEAP_LIST_MIN ≤ q - 16)

section carve

variable {m : Mem} {heap bsize b : ℕ} {S : Set ℕ} {L : ℕ → List ℕ} {T : Chains ℕ}

theorem sub64_le_iff {s l : ℕ} (hs : s < 2 ^ 64) (hl : l < 2 ^ 64) :
    bsize ≤ sub64 s l ↔ (l ≤ s ∧ l + bsize ≤ s) ∨ (s < l ∧ l + bsize ≤ s + 2 ^ 64) := by
  by_cases hle : l ≤ s
  · rw [sub64_of_le hs hle]
    omega
  · unfold sub64 u64
    rw [Nat.mod_eq_of_lt (by omega)]
    omega

theorem heapGetSize_lt (m : Mem) (b : ℕ) : heapGetSize m b < 2 ^ 64 :=
  lt_of_le_of_lt Nat.and_le_left (rd_lt m _)

theorem alignedLeft_lt (b : ℕ) : alignedLeft b < 2 ^ 64 := u64_lt _

/-- The test passes blocks that fit, and those that end before the boundary. -/
theorem suitsAligned_iff :
    suitsAligned m bsize b = true ↔ CarveFits m bsize b ∨ PassesShort m bsize b := by
  have hsub : bsize ≤ sub64 (heapGetSize m b) (alignedLeft b) ↔ _ :=
    sub64_le_iff (heapGetSize_lt m b) (alignedLeft_lt b)
  unfold suitsAligned CarveFits PassesShort
  by_cases ha : heapIsPageAligned (heapGetPayload b) = true
  · simp only [ha, Bool.true_or, true_and, if_true, true_iff]
    omega
  · rw [Bool.not_eq_true] at ha
    simp only [ha, Bool.false_or, Bool.and_eq_true, decide_eq_true_eq, hsub, Bool.false_eq_true,
      false_and, false_or, if_false]
    omega

/-- No block does both. -/
theorem CarveFits.not_short (h : CarveFits m bsize b) : ¬ PassesShort m bsize b := by
  unfold CarveFits at h
  unfold PassesShort
  split_ifs with ha
  · omega
  · rcases h with ⟨h, -⟩ | h
    · exact absurd h ha
    · omega

theorem listScan_sub {l : List ℕ} {z : ℕ} (h : z ∈ listScan l) : z ∈ l := by
  unfold listScan at h
  split_ifs at h
  · exact List.mem_of_mem_take h
  · exact List.mem_of_mem_dropLast h

/-- Only free blocks are tested. -/
theorem Filed.searchOrder_sub (h : Filed m heap S L T) (bsize : ℕ) {z : ℕ}
    (hz : z ∈ searchOrder m heap bsize L T) : z ∈ S := by
  rcases List.mem_append.mp hz with hz | hz
  · split_ifs at hz with h0
    · obtain ⟨i, hi, hzi⟩ := List.mem_flatMap.mp hz
      rw [List.mem_range'_1] at hi
      exact (h.mem z).mpr (.inl ⟨i, by omega, listScan_sub hzi⟩)
    · cases hz
  · obtain ⟨t, ht, hzt⟩ := mem_nodes.mp hz
    have htT := (List.dropWhile_sublist _).subset ((List.dropWhile_sublist _).subset ht)
    exact (h.mem z).mpr (.inr (mem_nodes.mpr ⟨t, htT, hzt⟩))

/-- **The carve fits inside every block that the aligned search returns**, exactly when no block
that ends before its next page boundary is tested before one that fits. -/
theorem heap_search_carve_iff (h : Filed m heap S L T) (bsize : ℕ) :
    (∀ b, Returns (fun n => heapSearch n m heap bsize true) b → b ≠ 0 → CarveFits m bsize b) ↔
      FitsFirst m bsize (searchOrder m heap bsize L T) := by
  have hret := heapSearch_aligned h bsize
  cases hfind : (searchOrder m heap bsize L T).find? (suitsAligned m bsize) with
  | none =>
      rw [hfind] at hret
      refine iff_of_true (fun b hb hb0 => absurd (hb.unique hret) hb0) fun us b vs e _ hs => ?_
      have hm : b ∈ searchOrder m heap bsize L T := by simp [e]
      exact absurd (suitsAligned_iff.mpr (.inr hs)) (List.find?_eq_none.mp hfind b hm)
  | some c =>
      rw [hfind] at hret
      obtain ⟨hc, us, vs, hsplit, hus⟩ := List.find?_eq_some_iff_append.mp hfind
      have hcS := h.searchOrder_sub bsize (List.mem_of_find?_eq_some hfind)
      have hc0 : c ≠ 0 := fun e => h.null (e ▸ hcS)
      constructor
      · intro hfit us' b vs' hsplit' hno hshort
        have hcfit := hfit c hret hc0
        have hfind' := hfind
        rw [hsplit', List.find?_append] at hfind'
        cases hu : us'.find? (suitsAligned m bsize) with
        | some d =>
            rw [hu, Option.some_or] at hfind'
            cases hfind'
            exact hno c (List.mem_of_find?_eq_some hu) hcfit
        | none =>
            rw [hu, Option.none_or, List.find?_cons_of_pos (suitsAligned_iff.mpr (.inr hshort))]
              at hfind'
            cases hfind'
            exact hcfit.not_short hshort
      · intro hfirst b hb hb0
        obtain rfl := hb.unique hret
        refine (suitsAligned_iff.mp hc).resolve_right (hfirst us _ vs hsplit fun d hd hdfit => ?_)
        have := hus d hd
        rw [suitsAligned_iff.mpr (.inl hdfit)] at this
        cases this

/-- What the aligned search passes over. -/
inductive Skipped (m : Mem) (heap bsize : ℕ) (L : ℕ → List ℕ) (T : Chains ℕ) (b : ℕ) : Prop
  /-- The carve does not fit at the first page boundary of the block. -/
  | boundary (hfit : ¬ CarveFits m bsize b)
  /-- The block is in a list, and for so small a size no list is searched. -/
  | unlisted {i : ℕ} (hi : i < HEAP_LIST_COUNT) (hb : b ∈ L i) (hsize : bsize < HEAP_OVERHEAD)
  /-- The block is the last of a list that does not start with an aligned block. -/
  | last {i : ℕ} (hi : i < HEAP_LIST_COUNT) (hb : (L i).getLast? = some b)
      (hfirst : heapIsPageAligned (heapGetPayload ((L i).headD 0)) = false)
  /-- The block is in the tree before the root. -/
  | below {A B : Chains ℕ} {cs : List ℕ}
      (hT : T = A ++ (rd m (heapFreeSlot heap HEAP_LIST_COUNT), cs) :: B) (hb : b ∈ nodes A)

theorem CarveFits.le_size (h : CarveFits m bsize b) : bsize ≤ heapGetSize m b := by
  rcases h with ⟨-, h⟩ | ⟨-, h⟩ <;> omega

/-- A block where the carve fits passes the test, or the aligned first block of its list does. -/
theorem Filed.list_tested (h : Filed m heap S L T) {i : ℕ} (hi : i < HEAP_LIST_COUNT) (hb : b ∈ L i)
    (hfit : CarveFits m bsize b) (hns : ¬ Skipped m heap bsize L T b) :
    ∃ c ∈ searchOrder m heap bsize L T, suitsAligned m bsize c = true := by
  have hle := hfit.le_size
  rw [h.listed i hi b hb] at hle
  have hmin : HEAP_OVERHEAD ≤ bsize := not_lt.mp fun hc => hns (.unlisted hi hb hc)
  rw [HEAP_OVERHEAD] at hmin
  have hi' := hi
  rw [HEAP_LIST_COUNT_eq] at hi'
  have hidx := heapSizeIdx_eq hmin (by omega : bsize ≤ 1056)
  suffices hscan : ∃ c ∈ listScan (L i), suitsAligned m bsize c = true by
    obtain ⟨c, hc, hs⟩ := hscan
    refine ⟨c, List.mem_append_left _ ?_, hs⟩
    rw [if_pos (by omega), hidx, Int.toNat_natCast]
    exact List.mem_flatMap.mpr ⟨i, List.mem_range'_1.mpr (by omega), hc⟩
  unfold listScan
  split_ifs with ha
  · obtain ⟨x, vs, hL⟩ := List.exists_cons_of_ne_nil (List.ne_nil_of_mem hb)
    rw [hL] at ha ⊢
    exact ⟨x, by simp, suitsAligned_of_aligned m bsize ha⟩
  · refine ⟨b, ?_, suitsAligned_iff.mpr (.inl hfit)⟩
    have hne := List.ne_nil_of_mem hb
    rw [← List.dropLast_append_getLast hne, List.mem_append, List.mem_singleton] at hb
    refine hb.resolve_right fun hlast => hns (.last hi ?_ (by simpa using ha))
    rw [List.getLast?_eq_some_getLast hne, hlast]

/-- A head that is large enough is not dropped. -/
theorem mem_dropWhile {α : Type} {q : α → Bool} {l : List α} {t : α} (ht : t ∈ l) (hq : q t = false) :
    t ∈ l.dropWhile q := by
  rw [← List.takeWhile_append_dropWhile (p := q) (l := l), List.mem_append] at ht
  refine ht.resolve_left fun hc => ?_
  rw [List.mem_takeWhile_imp hc] at hq
  cases hq

/-- In the tree it passes the test unless it lies before the root. -/
theorem Filed.tree_tested (h : Filed m heap S L T) (hb : b ∈ nodes T) (hfit : CarveFits m bsize b)
    (hns : ¬ Skipped m heap bsize L T b) :
    ∃ c ∈ searchOrder m heap bsize L T, suitsAligned m bsize c = true := by
  refine ⟨b, List.mem_append_right _ ?_, suitsAligned_iff.mpr (.inl hfit)⟩
  have hT : T ≠ [] := by
    rintro rfl
    cases hb
  obtain ⟨A, cs, B, hsplit⟩ := split_of_mem_heads (h.tree.root_mem hT)
  have hdrop : T.dropWhile (fun t => decide (t.1 ≠ rd m (heapFreeSlot heap HEAP_LIST_COUNT))) =
      (rd m (heapFreeSlot heap HEAP_LIST_COUNT), cs) :: B := by
    have hnd := h.tree.nodup
    rw [hsplit] at hnd ⊢
    exact dropWhile_root hnd
  unfold treeScan
  rw [hdrop]
  have hbB : b ∈ nodes ((rd m (heapFreeSlot heap HEAP_LIST_COUNT), cs) :: B) := by
    have hmem := hb
    rw [hsplit, nodes_append, List.mem_append] at hmem
    exact hmem.resolve_left fun hbA => hns (.below hsplit hbA)
  obtain ⟨t, ht, hbt⟩ := mem_nodes.mp hbB
  have htT : t ∈ T := hsplit ▸ List.mem_append_right A ht
  have hsize : heapGetSize m b = heapGetSize m t.1 := by
    rcases hbt with rfl | hbt
    · rfl
    · exact h.tree.equal t htT b hbt
  have hle := hfit.le_size
  exact mem_nodes.mpr ⟨t, mem_dropWhile ht (by simp only [decide_eq_false_iff_not]; omega), hbt⟩

/-- **The aligned search misses no room**, exactly when some block that it tests passes, or it skips
no block with room. -/
theorem heap_search_complete_iff (h : Filed m heap S L T) (bsize : ℕ) :
    (Returns (fun n => heapSearch n m heap bsize true) 0 → ∀ b ∈ S, ¬ AlignedRoom m bsize b) ↔
      (∃ c ∈ searchOrder m heap bsize L T, CarveFits m bsize c ∨ PassesShort m bsize c) ∨
        ∀ b ∈ S, AlignedRoom m bsize b → ¬ Skipped m heap bsize L T b := by
  have hret := heapSearch_aligned h bsize
  simp only [← suitsAligned_iff]
  cases hfind : (searchOrder m heap bsize L T).find? (suitsAligned m bsize) with
  | none =>
      rw [hfind] at hret
      have hnone : ¬ ∃ c ∈ searchOrder m heap bsize L T, suitsAligned m bsize c = true := by
        rintro ⟨c, hc, hs⟩
        exact List.find?_eq_none.mp hfind c hc hs
      rw [or_iff_right hnone]
      refine ⟨fun hall b hb hroom => absurd hroom (hall hret b hb), fun hall _ b hb hroom => ?_⟩
      have hns := hall b hb hroom
      have hfit : CarveFits m bsize b := by
        by_contra hc
        exact hns (.boundary hc)
      rcases (h.mem b).mp hb with ⟨i, hi, hbi⟩ | hbT
      · exact hnone (h.list_tested hi hbi hfit hns)
      · exact hnone (h.tree_tested hbT hfit hns)
  | some c =>
      rw [hfind] at hret
      have hcS := h.searchOrder_sub bsize (List.mem_of_find?_eq_some hfind)
      have hc0 : c ≠ 0 := fun e => h.null (e ▸ hcS)
      exact iff_of_true (fun h0 => absurd (hret.unique h0) hc0)
        (.inl ⟨c, List.mem_of_find?_eq_some hfind, List.find?_some hfind⟩)

end carve

/-! ### Heaps with one free block -/

section single

variable {m : Mem} {heap i b : ℕ}

/-- One free block in a list. -/
theorem filed_list (hi : i < HEAP_LIST_COUNT) (hb : b ≠ 0)
    (hfirst : ∀ j < HEAP_LIST_COUNT, rd m (heapFreeSlot heap j) = if j = i then b else 0)
    (hroot : rd m (heapFreeSlot heap HEAP_LIST_COUNT) = 0) (hp : prevBlock m b = 0)
    (hn : nextBlock m b = 0) (hs : heapGetSize m b = 16 * i + 32) :
    Filed m heap {b} (fun j => if j = i then [b] else []) [] := by
  refine ⟨fun z => ?_, by simpa using hb.symm, fun j hj => ?_, fun j hj => ?_, fun j hj z hz => ?_,
    ?_, fun z hz => ?_⟩
  · constructor
    · rintro rfl
      exact .inl ⟨i, hi, by simp⟩
    · rintro (⟨j, hj, hz⟩ | hz)
      · split_ifs at hz
        · exact List.mem_singleton.mp hz
        · cases hz
      · simp [nodes] at hz
  · split_ifs
    · exact ⟨hp, hn, trivial⟩
    · trivial
  · rw [hfirst j hj]
    split_ifs <;> rfl
  · split_ifs at hz with e
    · rw [List.mem_singleton.mp hz, hs, e]
    · cases hz
  · rw [hroot]
    exact SizeTree.empty _ 0
  · simp [nodes] at hz

/-- One free block in the tree. -/
theorem filed_tree (hb : b ≠ 0)
    (hfirst : ∀ j < HEAP_LIST_COUNT, rd m (heapFreeSlot heap j) = 0)
    (hroot : rd m (heapFreeSlot heap HEAP_LIST_COUNT) = b) (hs : smallerBlock m b = 0)
    (hl : largerBlock m b = 0) (hp : parentBlock m b = 0) (hc : childBlock m b = 0)
    (hsize : 1024 < heapGetSize m b) : Filed m heap {b} (fun _ => []) [(b, [])] := by
  refine ⟨fun z => by simp [nodes], by simpa using hb.symm, fun _ _ => trivial, hfirst,
    (fun _ _ z hz => by cases hz), ⟨⟨hs, hl, trivial⟩, ?_, ?_, ?_, by simp, ?_, ?_, ?_⟩, ?_⟩
  · intro t ht
    rw [List.mem_singleton.mp ht]
    exact ⟨hp, hc, trivial⟩
  · simp [heads]
  · intro t ht c hc
    rw [List.mem_singleton.mp ht] at hc
    cases hc
  · intro
    simp [heads, hroot]
  · simp [nodes]
  · simpa [nodes] using hb.symm
  · intro z hz
    have e : z = b := by simpa [nodes] using hz
    rwa [e]

/-- Cleared memory with one block of a heap at `0x104000`, in entry `i`. -/
def blockMem (i b size : ℕ) : Mem :=
  wr (wr (fun _ => 0) (b + 8) size) (heapFreeSlot 0x104000 i) b

instance (m : Mem) (bsize b : ℕ) : Decidable (CarveFits m bsize b) :=
  inferInstanceAs (Decidable (_ ∨ _))

/-- A block of 1024 bytes over a page boundary, alone in its list. -/
theorem filed_boundary : Filed (blockMem 62 0x105F00 1024) 0x104000 {0x105F00}
    (fun j => if j = 62 then [0x105F00] else []) [] :=
  filed_list (by decide) (by decide) (by decide +kernel) (by decide +kernel) (by decide +kernel)
    (by decide +kernel) (by decide +kernel)

/-- A block of 2048 bytes that ends before its next page boundary, alone in the tree. -/
theorem filed_short : Filed (blockMem 63 0x105000 2048) 0x104000 {0x105000} (fun _ => [])
    [(0x105000, [])] :=
  filed_tree (by decide) (by decide +kernel) (by decide +kernel) (by decide +kernel)
    (by decide +kernel) (by decide +kernel) (by decide +kernel) (by decide +kernel)

/-- The only block is returned although it ends before its next page boundary. -/
theorem heap_search_carve_wraps : ∃ m heap S L T bsize b, Filed m heap S L T ∧ b ≠ 0 ∧
    Returns (fun n => heapSearch n m heap bsize true) b ∧ ¬ CarveFits m bsize b := by
  refine ⟨_, _, _, _, _, 64, 0x105000, filed_short, by decide, ?_, by decide +kernel⟩
  have hret := heapSearch_aligned filed_short 64
  have hfind : (searchOrder (blockMem 63 0x105000 2048) 0x104000 64 (fun _ => [])
      [(0x105000, [])]).find? (suitsAligned (blockMem 63 0x105000 2048) 64) = some 0x105000 := by
    decide +kernel
  rw [hfind] at hret
  exact hret

/-- The last block of a list is not tested. -/
theorem heap_search_complete_skips : ∃ m heap S L T bsize b, Filed m heap S L T ∧ b ∈ S ∧
    AlignedRoom m bsize b ∧ Returns (fun n => heapSearch n m heap bsize true) 0 := by
  refine ⟨_, _, _, _, _, 64, 0x105F00, filed_boundary, rfl,
    ⟨0x106000, by decide, by decide, by decide +kernel, .inr (by decide)⟩, ?_⟩
  have hret := heapSearch_aligned filed_boundary 64
  have hfind : (searchOrder (blockMem 62 0x105F00 1024) 0x104000 64
      (fun j => if j = 62 then [0x105F00] else []) []).find?
        (suitsAligned (blockMem 62 0x105F00 1024) 64) = none := by
    decide +kernel
  rw [hfind] at hret
  exact hret

end single

/-! ### A heap with lists and a tree -/

/-- The lists: blocks of 64 bytes, and of 512 bytes. -/
def threeLists (i : ℕ) : List ℕ :=
  if i = 2 then [0x10A400] else if i = 30 then [0x105F00, 0x107100, 0x108100] else []

/-- A heap at `0x104000` with these lists and the tree of three heads. -/
def filedMem : Mem :=
  let m := headsMem (heapFreeSlot 0x104000 HEAP_LIST_COUNT)
  let m := wr (wr m (heapFreeSlot 0x104000 2) 0x10A400) 0x10A408 64
  let m := wr m (heapFreeSlot 0x104000 30) 0x105F00
  let m := setNext (wr m 0x105F08 512) 0x105F00 0x107100
  let m := setNext (setPrev (wr m 0x107108 512) 0x107100 0x105F00) 0x107100 0x108100
  setPrev (wr m 0x108108 512) 0x108100 0x107100

/-- The free blocks of the heap. -/
def filedBlocks : List ℕ := 0x10A400 :: 0x105F00 :: 0x107100 :: 0x108100 :: nodes headsChains

theorem filed_three : Filed filedMem 0x104000 {z | z ∈ filedBlocks} threeLists headsChains where
  mem := fun z => by
    have h2 : threeLists 2 = [0x10A400] := rfl
    have h30 : threeLists 30 = [0x105F00, 0x107100, 0x108100] := rfl
    constructor
    · intro hz
      rcases List.mem_append.mp
        (show z ∈ [0x10A400] ++ ([0x105F00, 0x107100, 0x108100] ++ nodes headsChains) from hz)
        with hz | hz
      · exact .inl ⟨2, by decide, h2 ▸ hz⟩
      · exact (List.mem_append.mp hz).imp_left fun hz => ⟨30, by decide, h30 ▸ hz⟩
    · rintro (⟨i, -, hz⟩ | hz)
      · unfold threeLists at hz
        split_ifs at hz
        · exact List.mem_append_left (_ :: _ :: _ :: nodes headsChains) hz
        · exact List.mem_cons_of_mem _ (List.mem_append_left (nodes headsChains) hz)
        · cases hz
      · exact List.mem_append_right [0x10A400, 0x105F00, 0x107100, 0x108100] hz
  null := by decide
  linked := by decide +kernel
  first := by decide +kernel
  listed := by decide +kernel
  tree := by decide +kernel
  treed := by decide +kernel

/-- No list has a block of 528 bytes: the smallest head from that size on, below the root. -/
theorem heap_search_best_three : ∃ b,
    Returns (fun n => heapSearch n filedMem 0x104000 528 false) b ∧
      (b = 0 ↔ ∀ z ∈ filedBlocks, heapGetSize filedMem z < 528) ∧
      (b ≠ 0 → b ∈ filedBlocks ∧ 528 ≤ heapGetSize filedMem b ∧
        ∀ z ∈ filedBlocks, 528 ≤ heapGetSize filedMem z →
          heapGetSize filedMem b ≤ heapGetSize filedMem z) :=
  heap_search_best filed_three (by decide) (by decide)

/-- The first block that is tested fits, and comes before one that passes the test without. -/
theorem heap_search_carve_three :
    Returns (fun n => heapSearch n filedMem 0x104000 64 true) 0x105F00 ∧
      CarveFits filedMem 64 0x105F00 := by
  have horder : searchOrder filedMem 0x104000 64 threeLists headsChains =
      [0x105F00, 0x107100, 0x10D900, 0x10F600] := by decide +kernel
  have hfit : CarveFits filedMem 64 0x105F00 := by decide +kernel
  have hfind : (searchOrder filedMem 0x104000 64 threeLists headsChains).find?
      (suitsAligned filedMem 64) = some 0x105F00 := by
    decide +kernel
  have hret := heapSearch_aligned filed_three 64
  rw [hfind] at hret
  refine ⟨hret, (heap_search_carve_iff filed_three 64).mpr (fun us b vs e hus hshort => ?_) _ hret
    (by decide)⟩
  rw [horder] at e
  cases us with
  | nil =>
      obtain rfl := (List.cons.inj e).1
      exact hfit.not_short hshort
  | cons c us =>
      obtain rfl := (List.cons.inj e).1
      exact hus _ List.mem_cons_self hfit

/-- The tree has larger blocks, but no block has room for 1200 bytes at a page boundary. -/
theorem heap_search_complete_three :
    Returns (fun n => heapSearch n filedMem 0x104000 1200 true) 0 ∧
      ∀ b ∈ filedBlocks, ¬ AlignedRoom filedMem 1200 b := by
  have hret := heapSearch_aligned filed_three 1200
  have hfind : (searchOrder filedMem 0x104000 1200 threeLists headsChains).find?
      (suitsAligned filedMem 1200) = none := by
    decide +kernel
  rw [hfind] at hret
  refine ⟨hret, (heap_search_complete_iff filed_three 1200).mpr (.inr ?_) hret⟩
  have hsizes : ∀ b ∈ filedBlocks, heapGetSize filedMem b < 0x1000 - (b + 15) % 0x1000 + 1199 := by
    decide +kernel
  rintro b hb ⟨q, hq, hlo, hhi, -⟩
  have := hsizes b hb
  rw [PAGE_SIZE] at hq
  omega

end Dawos
