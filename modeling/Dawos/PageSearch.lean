import Dawos.PageAlloc

/-! # The search for free pages

`page_free_search` for a pool whose list `i` holds the blocks of `i` pages and whose tree holds the
larger ones (`PoolFiled`).  `pageFreeSearchDeref` is the search with every pointer checked before it
is dereferenced; it is the search itself wherever it does not meet a null pointer
(`pageFreeSearch_of_deref`).

Neither the lists nor the walks from the root miss the best block; what goes wrong is the size of
`_page_tree` read before any test that there is a tree. -/

namespace Dawos

/-- The walk to smaller blocks; `none` is a null pointer dereferenced. -/
def derefSmaller (m : Mem) (size block : ℕ) : ℕ ⊕ Option ℕ :=
  if block = 0 then .inr none
  else if size < pageBlockSize m block then
    if smallerBlock m block ≠ 0 ∧ size ≤ pageBlockSize m (smallerBlock m block) then
      .inl (smallerBlock m block)
    else .inr (some block)
  else .inr (some block)

/-- `page_free_search`; `none` is a null pointer dereferenced. -/
def pageFreeSearchDeref (fuel : ℕ) (p : PagePool) (size : ℕ) : Except Halt (Option ℕ) :=
  let idx := pageSizeIdx size
  match if 0 ≤ idx then pageListSearch p (PAGE_LIST_COUNT - idx.toNat) idx.toNat else none with
  | some block => .ok (some block)
  | none =>
      if p.tree = 0 then .ok none
      else if pageBlockSize p.mem p.tree < size then
        -- this walk tests its pointer first
        loop (pageWalkLarger p.mem size) fuel p.tree >>= fun block => .ok (some block)
      else if size < pageBlockSize p.mem p.tree then loop (derefSmaller p.mem size) fuel p.tree
      else .ok (some p.tree)

/-- The free blocks `S` are filed: each in the list of its number of pages, or in the tree. -/
structure PoolFiled (p : PagePool) (S : Set ℕ) (L : ℕ → List ℕ) (T : Chains ℕ) : Prop where
  mem : ∀ z, z ∈ S ↔ (∃ i < PAGE_LIST_COUNT, z ∈ L i) ∨ z ∈ nodes T
  null : 0 ∉ S
  linked : ∀ i < PAGE_LIST_COUNT, Linked (prevBlock p.mem) (nextBlock p.mem) 0 0 (L i)
  first : ∀ i < PAGE_LIST_COUNT, p.list i = (L i).headD 0
  listed : ∀ i < PAGE_LIST_COUNT, ∀ z ∈ L i, pageBlockSize p.mem z = PAGE_SIZE * i
  tree : SizeTree (treeFields id p.mem) 0 p.tree T
  treed : ∀ z ∈ nodes T, PAGE_SIZE * (PAGE_LIST_COUNT - 1) < pageBlockSize p.mem z

/-! ### The search without null pointers -/

section deref

variable {m : Mem} {p : PagePool} {size block b n : ℕ}

theorem derefSmaller_of_ne (h : block ≠ 0) :
    derefSmaller m size block = (pageWalkSmaller m size block).map id some := by
  unfold derefSmaller pageWalkSmaller
  rw [if_neg h]
  split_ifs <;> rfl

theorem walkSmaller_of_deref (h : loop (derefSmaller m size) n block = .ok (some b)) :
    loop (pageWalkSmaller m size) n block = .ok b := by
  induction n generalizing block with
  | zero => cases h
  | succ n ih =>
      rw [loop] at h ⊢
      rcases eq_or_ne block 0 with h0 | h0
      · rw [derefSmaller, if_pos h0] at h
        cases h
      · rw [derefSmaller_of_ne h0] at h
        cases e : pageWalkSmaller m size block with
        | inl x =>
            rw [e] at h
            exact ih h
        | inr x =>
            rw [e] at h
            cases h
            rfl

/-- Without a null pointer the checks make no difference. -/
theorem pageFreeSearch_of_deref (h : pageFreeSearchDeref n p size = .ok (some b)) :
    pageFreeSearch n p size = .ok b := by
  unfold pageFreeSearchDeref at h
  unfold pageFreeSearch
  dsimp only at h ⊢
  generalize (if 0 ≤ pageSizeIdx size then
    pageListSearch p (PAGE_LIST_COUNT - (pageSizeIdx size).toNat) (pageSizeIdx size).toNat
    else none) = r at h ⊢
  cases r with
  | some x =>
      cases h
      rfl
  | none =>
      dsimp only at h ⊢
      by_cases h0 : p.tree = 0
      · rw [if_pos h0] at h
        cases h
      · rw [if_neg h0] at h
        by_cases h1 : pageBlockSize p.mem p.tree < size
        · rw [if_pos h1] at h ⊢
          cases e : loop (pageWalkLarger p.mem size) n p.tree with
          | error x =>
              rw [e] at h
              cases h
          | ok x =>
              rw [e] at h
              cases h
              rfl
        · rw [if_neg h1] at h ⊢
          by_cases h2 : size < pageBlockSize p.mem p.tree
          · rw [if_pos h2] at h ⊢
            exact walkSmaller_of_deref h
          · rw [if_neg h2] at h ⊢
            cases h
            rfl

end deref

/-! ### Best fit -/

section best

variable {m : Mem} {p : PagePool} {size root i j k b : ℕ} {S : Set ℕ} {L : ℕ → List ℕ} {T : Chains ℕ}

/-- The lists yield the head of the first one that is not empty. -/
theorem pageListSearch_some (h : pageListSearch p k i = some b) :
    ∃ j, i ≤ j ∧ j < i + k ∧ p.list j = b ∧ b ≠ 0 ∧ ∀ l, i ≤ l → l < j → p.list l = 0 := by
  induction k generalizing i with
  | zero => cases h
  | succ k ih =>
      unfold pageListSearch at h
      split_ifs at h with h0
      · cases h
        exact ⟨i, le_rfl, by omega, rfl, h0, fun l h1 h2 => by omega⟩
      · obtain ⟨j, h1, h2, h3, h4, h5⟩ := ih h
        refine ⟨j, by omega, by omega, h3, h4, fun l h6 h7 => ?_⟩
        rcases Nat.lt_or_ge i l with hl | hl
        · exact h5 l hl h7
        · obtain rfl : l = i := by omega
          exact not_not.mp h0

theorem pageListSearch_none :
    pageListSearch p k i = none ↔ ∀ l, i ≤ l → l < i + k → p.list l = 0 := by
  induction k generalizing i with
  | zero => exact iff_of_true rfl fun l h1 h2 => by omega
  | succ k ih =>
      unfold pageListSearch
      split_ifs with h0
      · refine iff_of_false (by simp) fun h => h0 (h i le_rfl (by omega))
      · rw [ih]
        refine ⟨fun h l h1 h2 => ?_, fun h l h1 h2 => h l (by omega) (by omega)⟩
        rcases Nat.lt_or_ge i l with hl | hl
        · exact h l hl (by omega)
        · obtain rfl : l = i := by omega
          exact not_not.mp h0

/-- The smallest head that is large enough, or null if there is none. -/
def BestHead (m : Mem) (T : Chains ℕ) (size b : ℕ) : Prop :=
  (b = 0 ∧ ∀ z ∈ heads T, pageBlockSize m z < size) ∨
    (b ∈ heads T ∧ size ≤ pageBlockSize m b ∧
      ∀ z ∈ heads T, size ≤ pageBlockSize m z → pageBlockSize m b ≤ pageBlockSize m z)

/-- The walk from a head that is too small. -/
theorem pageWalkLarger_best (h : SizeTree (treeFields id m) 0 root T) (hroot : root ∈ heads T)
    (hs : pageBlockSize m root < size) :
    ∃ b, Returns (fun n => loop (pageWalkLarger m size) n root) b ∧ BestHead m T size b := by
  refine loop_returns (fun k a => (a = 0 ∧ k = 0 ∧ ∀ z ∈ heads T, pageBlockSize m z < size) ∨
    (a ∈ heads T ∧ k = T.length - rank T a ∧ 0 < k ∧
      ∀ z ∈ heads T, size ≤ pageBlockSize m z → pageBlockSize m a ≤ pageBlockSize m z)) _
    (fun k a hinv => ?_) (Or.inr ⟨hroot, rfl, ?_, fun z _ hz => by omega⟩)
  · obtain ⟨rfl, -, hall⟩ | ⟨ha, hk, hk0, hmin⟩ := hinv
    · refine ⟨(fun s' e => by cases e), fun b e => ?_⟩
      obtain rfl := Sum.inr.inj e
      exact Or.inl ⟨rfl, hall⟩
    · have ha0 : a ≠ 0 := h.ne_nul (heads_sub ha)
      unfold pageWalkLarger
      split_ifs with hc
      · refine ⟨fun s' e => ?_, fun b e => by cases e⟩
        obtain rfl := Sum.inl.inj e
        by_cases hl : largerBlock m a = 0
        · refine ⟨0, hk0, Or.inl ⟨hl, rfl, fun z hz => ?_⟩⟩
          obtain ⟨A, cs, B, rfl⟩ := split_of_mem_heads ha
          obtain rfl := h.larger_nul hl
          by_contra hzs
          have hle := hmin z hz (by omega)
          rw [heads_append, List.mem_append] at hz
          rcases hz with hz | hz
          · have hlt : pageBlockSize m z < pageBlockSize m a := h.size_split.1 z hz
            omega
          · obtain rfl : z = a := List.mem_singleton.mp hz
            omega
        · obtain ⟨h1, -, h3, h4⟩ := h.larger_step ha hl
          have e3 : rank T (largerBlock m a) = rank T a + 1 := h3
          refine ⟨T.length - rank T (largerBlock m a), by omega, Or.inr ⟨h1, rfl, by omega, ?_⟩⟩
          intro z hz hzs
          obtain ⟨A, cs, B, rfl⟩ := split_of_mem_heads ha
          rw [heads_append, heads_cons, List.mem_append, List.mem_cons] at hz
          rcases hz with hz | rfl | hz
          · have hlt : pageBlockSize m z < pageBlockSize m a := h.size_split.1 z hz
            omega
          · omega
          · exact h.larger_le z hz
      · refine ⟨(fun s' e => by cases e), fun b e => ?_⟩
        obtain rfl := Sum.inr.inj e
        refine Or.inr ⟨ha, ?_, hmin⟩
        by_contra hlt
        exact hc ⟨ha0, by omega⟩
  · have hlt : rank T root < (heads T).length := List.idxOf_lt_length_of_mem hroot
    rw [SizeTree.heads_length] at hlt
    omega

/-- The walk from a head that is large enough. -/
theorem derefSmaller_best (h : SizeTree (treeFields id m) 0 root T) (hroot : root ∈ heads T)
    (hs : size ≤ pageBlockSize m root) :
    ∃ b, Returns (fun n => loop (derefSmaller m size) n root) (some b) ∧ BestHead m T size b := by
  suffices hloop : ∃ r, Returns (fun n => loop (derefSmaller m size) n root) r ∧
      ∃ b, r = some b ∧ BestHead m T size b by
    obtain ⟨r, hr, b, rfl, hb⟩ := hloop
    exact ⟨b, hr, hb⟩
  refine loop_returns (fun k a => (a ∈ heads T ∧ size ≤ pageBlockSize m a) ∧ rank T a = k) _
    (fun k a ⟨ha, hk⟩ => ?_) ⟨⟨hroot, hs⟩, rfl⟩
  have ha0 : a ≠ 0 := h.ne_nul (heads_sub ha.1)
  unfold derefSmaller
  rw [if_neg ha0]
  split_ifs with hlt hc
  · obtain ⟨h1, -, h3⟩ := h.smaller_step ha.1 hc.1
    have e3 : rank T (smallerBlock m a) + 1 = rank T a := h3
    refine ⟨fun s' e => ?_, fun b e => by cases e⟩
    obtain rfl := Sum.inl.inj e
    exact ⟨_, by omega, ⟨h1, hc.2⟩, rfl⟩
  · refine ⟨(fun s' e => by cases e), fun b e => ?_⟩
    obtain rfl := Sum.inr.inj e
    refine ⟨a, rfl, Or.inr ⟨ha.1, ha.2, fun z hz hzs => ?_⟩⟩
    by_contra hza
    obtain ⟨A, cs, B, rfl⟩ := split_of_mem_heads ha.1
    -- a smaller head that is large enough lies before the smaller neighbour
    have hzA : z ∈ heads A := by
      rw [heads_append, heads_cons, List.mem_append, List.mem_cons] at hz
      rcases hz with hz | rfl | hz
      · exact hz
      · exact absurd le_rfl hza
      · exact absurd (h.size_split.2 z hz).le hza
    have hle : pageBlockSize m z ≤ pageBlockSize m (smallerBlock m a) := h.le_smaller z hzA
    refine hc ⟨fun e => ?_, by omega⟩
    rw [h.smaller_nul e] at hzA
    cases hzA
  · refine ⟨(fun s' e => by cases e), fun b e => ?_⟩
    obtain rfl := Sum.inr.inj e
    exact ⟨a, rfl, Or.inr ⟨ha.1, ha.2, fun z hz hzs => by omega⟩⟩

/-- The node of a chain has the size of its head. -/
theorem BestHead.nodes (h : SizeTree (treeFields id m) 0 root T) (hb : BestHead m T size b) :
    (b = 0 ∧ ∀ z ∈ nodes T, pageBlockSize m z < size) ∨ (b ∈ nodes T ∧ size ≤ pageBlockSize m b ∧
      ∀ z ∈ nodes T, size ≤ pageBlockSize m z → pageBlockSize m b ≤ pageBlockSize m z) := by
  have hhead : ∀ z ∈ Dawos.nodes T, ∃ a ∈ heads T, pageBlockSize m z = pageBlockSize m a := by
    intro z hz
    obtain ⟨t, ht, hzt⟩ := mem_nodes.mp hz
    refine ⟨t.1, List.mem_map_of_mem ht, ?_⟩
    rcases hzt with rfl | hzt
    · rfl
    · exact h.equal t ht z hzt
  refine hb.imp (fun ⟨h0, hall⟩ => ⟨h0, fun z hz => ?_⟩)
    fun ⟨hbT, hbs, hmin⟩ => ⟨heads_sub hbT, hbs, fun z hz hzs => ?_⟩
  · obtain ⟨a, ha, e⟩ := hhead z hz
    rw [e]
    exact hall a ha
  · obtain ⟨a, ha, e⟩ := hhead z hz
    rw [e] at hzs ⊢
    exact hmin a ha hzs

/-- In a pool with a tree the search goes on there. -/
theorem pageFreeSearchDeref_tree (h : PoolFiled p S L T) (htree : p.tree ≠ 0)
    (hlist : (if 0 ≤ pageSizeIdx size then
      pageListSearch p (PAGE_LIST_COUNT - (pageSizeIdx size).toNat) (pageSizeIdx size).toNat
      else none) = none) :
    ∃ b, Returns (fun n => pageFreeSearchDeref n p size) (some b) ∧
      BestHead p.mem T size b := by
  have hT : T ≠ [] := fun e => htree (h.tree.root_nul e)
  have hroot := h.tree.root_mem hT
  have hstart : ∀ n, pageFreeSearchDeref n p size =
      if pageBlockSize p.mem p.tree < size then
        loop (pageWalkLarger p.mem size) n p.tree >>= fun block => .ok (some block)
      else if size < pageBlockSize p.mem p.tree then loop (derefSmaller p.mem size) n p.tree
      else .ok (some p.tree) := fun n => by
    unfold pageFreeSearchDeref
    dsimp only
    rw [hlist]
    exact if_neg htree
  rcases Nat.lt_trichotomy (pageBlockSize p.mem p.tree) size with hlt | heq | hgt
  · obtain ⟨b, hret, hb⟩ := pageWalkLarger_best h.tree hroot hlt
    refine ⟨b, (hret.bind (g := fun block _ => .ok (some block))
      (Returns.of_eq fun _ => rfl)).congr fun n => ?_, hb⟩
    rw [hstart, if_pos hlt]
  · refine ⟨p.tree, Returns.of_eq fun n => ?_, Or.inr ⟨hroot, heq.ge, fun z _ hz => by omega⟩⟩
    rw [hstart, if_neg (by omega), if_neg (by omega)]
  · obtain ⟨b, hret, hb⟩ := derefSmaller_best h.tree hroot hgt.le
    refine ⟨b, hret.congr fun n => ?_, hb⟩
    rw [hstart, if_neg (by omega), if_pos hgt]

/-- Which lists are searched for a number of pages. -/
theorem pageListSearch_idx (p : PagePool) (size : ℕ) : (if 0 ≤ pageSizeIdx size then
      pageListSearch p (PAGE_LIST_COUNT - (pageSizeIdx size).toNat) (pageSizeIdx size).toNat
      else none) =
    pageListSearch p (PAGE_LIST_COUNT - size / PAGE_SIZE) (size / PAGE_SIZE) := by
  rcases Nat.lt_or_ge PAGE_LIST_MAX (size / PAGE_SIZE) with h | h
  · have hnone : PAGE_LIST_COUNT - size / PAGE_SIZE = 0 := by
      rw [PAGE_LIST_COUNT_eq]
      unfold PAGE_LIST_MAX at h
      omega
    rw [pageSizeIdx_tree h, hnone]
    rfl
  · rw [pageSizeIdx_list h, if_pos (Int.natCast_nonneg _), Int.toNat_natCast]

/-- **The search never dereferences a null pointer and is a best fit exactly when there is a tree,
or a block in one of the lists from the requested number of pages on.** -/
theorem page_free_search (h : PoolFiled p S L T) (hs : 0 < size) (hd : PAGE_SIZE ∣ size) :
    (∃ b, Returns (fun n => pageFreeSearchDeref n p size) (some b) ∧
      (b = 0 ↔ ∀ z ∈ S, pageBlockSize p.mem z < size) ∧
      (b ≠ 0 → b ∈ S ∧ size ≤ pageBlockSize p.mem b ∧
        ∀ z ∈ S, size ≤ pageBlockSize p.mem z → pageBlockSize p.mem b ≤ pageBlockSize p.mem z)) ↔
    p.tree ≠ 0 ∨ ∃ i, size / PAGE_SIZE ≤ i ∧ i < PAGE_LIST_COUNT ∧ p.list i ≠ 0 := by
  obtain ⟨q, rfl⟩ := hd
  have hidx := pageListSearch_idx p (PAGE_SIZE * q)
  have hdiv : PAGE_SIZE * q / PAGE_SIZE = q := Nat.mul_div_cancel_left q (by decide)
  rw [hdiv] at hidx ⊢
  cases hlist : pageListSearch p (PAGE_LIST_COUNT - q) q with
  | some b =>
      obtain ⟨j, h1, h2, rfl, hb0, hbefore⟩ := pageListSearch_some hlist
      have hj : j < PAGE_LIST_COUNT := by omega
      have hmem : p.list j ∈ L j := by
        rw [h.first j hj] at hb0 ⊢
        exact headD_mem (fun e => hb0 (by rw [e]; rfl)) 0
      have hsize := h.listed j hj _ hmem
      have hS : p.list j ∈ S := (h.mem _).mpr (Or.inl ⟨j, hj, hmem⟩)
      have hle : PAGE_SIZE * q ≤ PAGE_SIZE * j := Nat.mul_le_mul_left _ h1
      refine iff_of_true ⟨p.list j, Returns.of_eq fun n => ?_, ?_, fun _ => ⟨hS, ?_, ?_⟩⟩
        (Or.inr ⟨j, h1, hj, hb0⟩)
      · unfold pageFreeSearchDeref
        dsimp only
        rw [hidx, hlist]
      · refine iff_of_false hb0 fun hall => ?_
        have := hall _ hS
        omega
      · rw [hsize]
        exact hle
      · intro z hz hzs
        rw [hsize]
        rcases (h.mem z).mp hz with ⟨i, hi, hzi⟩ | hzt
        · rw [h.listed i hi z hzi] at hzs ⊢
          apply Nat.mul_le_mul_left
          by_contra hlt
          have hqi : q ≤ i := Nat.le_of_mul_le_mul_left hzs (by decide)
          have hempty := hbefore i hqi (by omega)
          rw [h.first i hi] at hempty
          have hhead := headD_mem (List.ne_nil_of_mem hzi) 0
          rw [hempty] at hhead
          exact h.null ((h.mem 0).mpr (Or.inl ⟨i, hi, hhead⟩))
        · refine le_trans (Nat.mul_le_mul_left _ ?_) (h.treed z hzt).le
          omega
  | none =>
      rw [hlist] at hidx
      have hempty := pageListSearch_none.mp hlist
      have hnolist : ¬ ∃ i, q ≤ i ∧ i < PAGE_LIST_COUNT ∧ p.list i ≠ 0 := by
        rintro ⟨i, h1, h2, h3⟩
        exact h3 (hempty i h1 (by omega))
      -- no list has a large enough block
      have hsmall : ∀ z ∈ S, z ∉ nodes T → pageBlockSize p.mem z < PAGE_SIZE * q := by
        intro z hz hzt
        obtain ⟨i, hi, hzi⟩ := ((h.mem z).mp hz).resolve_right hzt
        rw [h.listed i hi z hzi]
        by_contra hle
        have hqi : q ≤ i := Nat.le_of_mul_le_mul_left (not_lt.mp hle) (by decide)
        have hhead := headD_mem (List.ne_nil_of_mem hzi) 0
        rw [← h.first i hi, hempty i hqi (by omega)] at hhead
        exact h.null ((h.mem 0).mpr (Or.inl ⟨i, hi, hhead⟩))
      by_cases htree : p.tree = 0
      · refine iff_of_false ?_ (not_or.mpr ⟨not_not.mpr htree, hnolist⟩)
        rintro ⟨b, hret, -⟩
        have hnull : Returns (fun n => pageFreeSearchDeref n p (PAGE_SIZE * q)) none :=
          Returns.of_eq fun n => by
            unfold pageFreeSearchDeref
            dsimp only
            rw [hidx]
            exact if_pos htree
        exact absurd (hret.unique hnull) (by simp)
      · obtain ⟨b, hret, hbest⟩ := pageFreeSearchDeref_tree h htree hidx
        refine iff_of_true ⟨b, hret, ?_⟩ (Or.inl htree)
        rcases hbest.nodes h.tree with ⟨rfl, hall⟩ | ⟨hbT, hbs, hmin⟩
        · refine ⟨iff_of_true rfl fun z hz => ?_, fun h0 => absurd rfl h0⟩
          by_cases hzt : z ∈ nodes T
          · exact hall z hzt
          · exact hsmall z hz hzt
        · have hbS : b ∈ S := (h.mem b).mpr (Or.inr hbT)
          refine ⟨iff_of_false (fun e => h.null (e ▸ hbS)) fun hall => ?_, fun _ => ⟨hbS, hbs, ?_⟩⟩
          · have := hall b hbS
            omega
          · intro z hz hzs
            by_cases hzt : z ∈ nodes T
            · exact hmin z hzt hzs
            · have := hsmall z hz hzt
              omega

end best

/-! ### A pool with lists and a tree -/

/-- Blocks of 1, 4, 33, 40 and 64 pages, each with its number of pages. -/
def filedPages : List (ℕ × ℕ) :=
  [(0x200000, 1), (0x201000, 1), (0x210000, 4), (0x300000, 40), (0x400000, 33), (0x500000, 33),
    (0x600000, 64)]

/-- The pool that they are inserted into, one after the other. -/
def filedPool : PagePool :=
  let m := filedPages.foldl (fun m b => wr m (b.1 + 8) (PAGE_SIZE * b.2)) fun _ => 0
  filedPages.foldl (fun p b => insertState p b.1) ⟨m, fun _ => 0, 0⟩

/-- Its lists. -/
def pageLists (i : ℕ) : List ℕ :=
  if i = 1 then [0x201000, 0x200000] else if i = 4 then [0x210000] else []

/-- Its tree. -/
def pageChains : Chains ℕ := [(0x400000, [0x500000]), (0x300000, []), (0x600000, [])]

theorem filedPool_filed :
    PoolFiled filedPool {z | z ∈ filedPages.map Prod.fst} pageLists pageChains where
  mem z := by
    constructor
    · have hcases : ∀ z ∈ filedPages.map Prod.fst,
          (∃ i < PAGE_LIST_COUNT, z ∈ pageLists i) ∨ z ∈ nodes pageChains := by decide +kernel
      exact hcases z
    · rintro (⟨i, hi, hz⟩ | hz)
      · have hlists : ∀ i < PAGE_LIST_COUNT, ∀ z ∈ pageLists i, z ∈ filedPages.map Prod.fst := by
          decide +kernel
        exact hlists i hi z hz
      · have hnodes : ∀ z ∈ nodes pageChains, z ∈ filedPages.map Prod.fst := by decide +kernel
        exact hnodes z hz
  null := by decide
  linked := by decide +kernel
  first := by decide +kernel
  listed := by decide +kernel
  tree := by decide +kernel
  treed := by decide +kernel

/-- 36 pages are asked for: the smallest head of the tree from that size on. -/
theorem page_free_search_heads : ∃ b,
    Returns (fun n => pageFreeSearchDeref n filedPool (36 * PAGE_SIZE)) (some b) ∧
      (b = 0 ↔ ∀ z ∈ {z | z ∈ filedPages.map Prod.fst},
        pageBlockSize filedPool.mem z < 36 * PAGE_SIZE) ∧
      (b ≠ 0 → b ∈ {z | z ∈ filedPages.map Prod.fst} ∧
        36 * PAGE_SIZE ≤ pageBlockSize filedPool.mem b ∧
        ∀ z ∈ {z | z ∈ filedPages.map Prod.fst}, 36 * PAGE_SIZE ≤ pageBlockSize filedPool.mem z →
          pageBlockSize filedPool.mem b ≤ pageBlockSize filedPool.mem z) :=
  (page_free_search filedPool_filed (by decide) (Nat.dvd_mul_left _ _)).mpr
    (.inl (by decide +kernel))

/-! ### A pool of one block -/

/-- One block of one page, in its list. -/
def poolOfOne : PagePool where
  mem := wr (fun _ => 0) 0x200008 0x1000
  list := fun i => if i = 1 then 0x200000 else 0
  tree := 0

theorem poolOfOne_filed :
    PoolFiled poolOfOne {0x200000} (fun i => if i = 1 then [0x200000] else []) [] where
  mem z := by
    constructor
    · rintro rfl
      exact Or.inl ⟨1, by decide, by simp⟩
    · rintro (⟨i, -, hz⟩ | hz)
      · split_ifs at hz
        · exact List.mem_singleton.mp hz
        · cases hz
      · cases hz
  null h := absurd h.symm (by norm_num)
  linked i _ := by
    split_ifs
    · exact ⟨by decide +kernel, by decide +kernel, trivial⟩
    · trivial
  first i _ := by
    simp only [poolOfOne]
    split_ifs <;> rfl
  listed i _ z hz := by
    split_ifs at hz with h1
    · rw [List.mem_singleton.mp hz, h1]
      decide +kernel
    · cases hz
  tree := SizeTree.empty _ 0
  treed z hz := by cases hz

/-- Two pages are asked for, and the pool has a single one and no tree. -/
theorem page_free_search_null :
    PoolFiled poolOfOne {0x200000} (fun i => if i = 1 then [0x200000] else []) [] ∧
      Returns (fun n => pageFreeSearchDeref n poolOfOne 0x2000) none := by
  refine ⟨poolOfOne_filed, Returns.of_eq fun n => ?_⟩
  have hlist : pageListSearch poolOfOne (PAGE_LIST_COUNT - (pageSizeIdx 0x2000).toNat)
      (pageSizeIdx 0x2000).toNat = none := by decide +kernel
  unfold pageFreeSearchDeref
  dsimp only
  rw [hlist, ite_self]
  rfl

end Dawos
