import Dawos.HeapRestore

/-! # Carving a block

`heap_alloc` cuts the block it takes into up to three: what precedes an aligned payload, the used
block, and the remainder.  The leftovers go back into the index, so the cut is as good as
`heap_insert`: `HEAP_SIZE_IDX` gives a leftover of `HEAP_LIST_MAX = 1056` bytes the index 64, and
`free` has 64 entries.

A leftover of 1040 bytes has the index `HEAP_LIST_COUNT` and is pushed on the entry of the tree.
The index is then no longer the one of `HeapIndex`, but a second leftover finds its way through it
(`RootIndex`): from the new root the larger links lead on to the old heads.

`heap_alloc_carve` says for which sizes the pieces replace the block. -/

namespace Dawos

/-- The part of `heap_alloc` from the block it took out of the index to the pointer it returns. -/
def heapAllocCarve (fuel : ℕ) (m : Mem) (heap block bsize : ℕ) (align : Bool) :
    Except Halt (Mem × ℕ) := do
  let (m, block) ← heapCarve fuel m heap block align
  let m ← heapPlace fuel m heap block bsize
  return (m, heapGetPayload block)

/-- An allocation takes a block and carves it. -/
theorem heapAlloc_eq_carve (pageAlloc : PageAlloc) (fuel : ℕ) (m : Mem) (heap size : ℕ)
    (align : Bool) : heapAlloc pageAlloc fuel m heap size align = (do
      let m ← heapWaitLock m heap
      if 0 < size then
        let bsize := heapBsize (heapSizeAlign size)
        let (m, freeBlock) ← heapTake pageAlloc fuel m heap bsize align
        if freeBlock ≠ 0 then
          let (m, p) ← heapAllocCarve fuel m heap freeBlock bsize align
          return (heapUnlock m heap, p)
        else return (heapUnlock m heap, 0)
      else return (heapUnlock m heap, 0)) := by
  simp only [heapAlloc, heapAllocCarve, bind_assoc, pure_bind]

/-! ### An index with a list item at its root -/

/-- From `a` the larger links lead through `l`. -/
def Ascends (m : Mem) : ℕ → List ℕ → Prop
  | a, [] => a = 0
  | a, p :: l => a = p ∧ Ascends m (largerBlock m p) l

/-- A node on the way up: its links lie before its footer, and when it is too large for a list so
do those of its child. -/
structure Rung (m : Mem) (S : Set ℕ) (p : ℕ) : Prop where
  mem : p ∈ S
  room : 64 ≤ heapGetSize m p
  child : HEAP_LIST_MAX < heapGetSize m p → childBlock m p ≠ 0 →
    childBlock m p ∈ S ∧ 64 ≤ heapGetSize m (childBlock m p)

/-- The entries lead to nodes of `S`; the one of the tree leads to a block small enough for a
list, and from there up through nodes. -/
structure RootIndex (m : Mem) (heap : ℕ) (S : Set ℕ) : Prop where
  above : ∀ a ∈ S, heap + HEAP_T_SIZE ≤ a
  entry : ∀ i ≤ HEAP_LIST_COUNT, rd m (heapFreeSlot heap i) ≠ 0 → rd m (heapFreeSlot heap i) ∈ S
  low : rd m (heapFreeSlot heap HEAP_LIST_COUNT) ≠ 0 →
    heapGetSize m (rd m (heapFreeSlot heap HEAP_LIST_COUNT)) ≤ HEAP_LIST_MAX
  climb : ∃ l, Ascends m (rd m (heapFreeSlot heap HEAP_LIST_COUNT)) l ∧ ∀ p ∈ l, Rung m S p

section climb

variable {m m' : Mem} {heap a b : ℕ} {S D : Set ℕ} {l : List ℕ}

theorem Ascends.congr : ∀ {l : List ℕ} {a : ℕ}, Ascends m a l →
    (∀ p ∈ l, largerBlock m' p = largerBlock m p) → Ascends m' a l
  | [], _, h, _ => h
  | p :: l, _, ⟨h1, h2⟩, h => by
      refine ⟨h1, ?_⟩
      rw [h p List.mem_cons_self]
      exact h2.congr fun q hq => h q (List.mem_cons_of_mem _ hq)

/-- The heads of a tree from one of them on. -/
theorem Linked.ascends {prv : ℕ → ℕ} : ∀ {l : List ℕ} {q : ℕ},
    Linked prv (largerBlock m) 0 q l → Ascends m (l.headD 0) l
  | [], _, _ => rfl
  | p :: l, _, ⟨_, h2, h3⟩ => by
      refine ⟨rfl, ?_⟩
      rw [h2]
      exact h3.ascends

/-- The nodes of `D` and of `S` that a climb may write. -/
def climbNodes (m : Mem) (S : Set ℕ) (b : ℕ) : Set ℕ := {a | a = b ∨ (a ∈ S ∧ 64 ≤ heapGetSize m a)}

/-- One round of the climb links the new node in or moves on. -/
theorem treeLinkStep_climb {p : ℕ} (hU : Spaced (insert b S)) (hup : Ascends m p (p :: l))
    (hl : ∀ q ∈ p :: l, Rung m S q) (hs : heapGetSize m p ≤ heapGetSize m b)
    (hb : HEAP_LIST_MAX < heapGetSize m b) :
    (∃ m', treeLinkStep heapAlign m b p = .inr m' ∧ AgreeOff m m' (treeBytes (climbNodes m S b))) ∨
      ∃ q l', l = q :: l' ∧ treeLinkStep heapAlign m b p = .inl q ∧
        heapGetSize m q ≤ heapGetSize m b := by
  have hbD : b ∈ climbNodes m S b := .inl rfl
  have hrung (q : ℕ) (hq : q ∈ p :: l) : q ∈ climbNodes m S b :=
    .inr ⟨(hl q hq).mem, (hl q hq).room⟩
  have hpD := hrung p List.mem_cons_self
  have hrefl := AgreeOff.refl m (treeBytes (climbNodes m S b))
  have hnext := hup.2
  have hstep : treeLinkStep heapAlign m b p = if heapGetSize m p < heapGetSize m b then
      if largerBlock m p = 0 then .inr (setSmaller (setLarger m p b) b p)
      else if heapGetSize m b < heapGetSize m (largerBlock m p) then
        .inr (setSmaller (setLarger (setSmaller (setLarger m b (largerBlock m p))
          (largerBlock (setLarger m b (largerBlock m p)) p) b) p b) b p)
      else .inl (largerBlock m p)
    else
      .inr (setParent (setChild (if childBlock m p ≠ 0 then
        setChild (setParent m (childBlock m p) b) b
          (childBlock (setParent m (childBlock m p) b) p)
        else m) p b) b p) := by
    unfold treeLinkStep
    exact if_neg (not_lt.mpr hs)
  rw [hstep]
  split_ifs with h1 h2 h3 h4
  · exact .inl ⟨_, rfl, (hrefl.setLarger hpD b).setSmaller hbD p⟩
  · -- between this head and the next one
    cases l with
    | nil => exact absurd hnext h2
    | cons q l =>
        have hq := hrung q (by simp)
        have hpU : p ∈ insert b S := .inr (hl p List.mem_cons_self).mem
        have hlt : largerBlock m p < 2 ^ 64 := rd_lt m _
        have hsame : largerBlock (setLarger m b (largerBlock m p)) p = largerBlock m p := by
          rw [(hU.setLarger (Set.mem_insert b S) hpU hlt).2.1]
          split_ifs <;> rfl
        rw [hsame, hnext.1]
        exact .inl ⟨_, rfl,
          (((hrefl.setLarger hbD q).setSmaller hq b).setLarger hpD b).setSmaller hbD p⟩
  · -- on to the next one
    cases l with
    | nil => exact absurd hnext h2
    | cons q l => exact .inr ⟨q, l, rfl, by rw [hnext.1], by rw [← hnext.1]; exact not_lt.mp h3⟩
  · -- an equal head with a child
    have he : heapGetSize m p = heapGetSize m b := le_antisymm hs (not_lt.mp h1)
    obtain ⟨hc1, hc2⟩ := (hl p List.mem_cons_self).child (hb.trans_eq he.symm) h4
    have hcD : childBlock m p ∈ climbNodes m S b := .inr ⟨hc1, hc2⟩
    exact .inl ⟨_, rfl, (((hrefl.setParent hcD b).setChild hbD _).setChild hpD b).setParent hbD p⟩
  · exact .inl ⟨_, rfl, (hrefl.setChild hpD b).setParent hbD p⟩

/-- **The climb** ends, with writes to links only. -/
theorem treeLink_climb (hU : Spaced (insert b S)) (hb : HEAP_LIST_MAX < heapGetSize m b) :
    ∀ (l : List ℕ) (p : ℕ), Ascends m p (p :: l) → (∀ q ∈ p :: l, Rung m S q) →
      heapGetSize m p ≤ heapGetSize m b →
      ∃ m', Returns (fun n => treeLink heapAlign n m p b) m' ∧
        AgreeOff m m' (treeBytes (climbNodes m S b)) := by
  intro l
  induction l with
  | nil =>
      intro p hup hl hs
      rcases treeLinkStep_climb hU hup hl hs hb with ⟨m', he, hf⟩ | ⟨q, l', e, -⟩
      · exact ⟨m', Returns.loop_inr he, hf⟩
      · cases e
  | cons r l ih =>
      intro p hup hl hs
      rcases treeLinkStep_climb hU hup hl hs hb with ⟨m', he, hf⟩ | ⟨q, l', e, he, hq⟩
      · exact ⟨m', Returns.loop_inr he, hf⟩
      · cases e
        obtain ⟨m', hret, hf⟩ := ih r ⟨rfl, hup.2.2⟩
          (fun q hq => hl q (List.mem_cons_of_mem _ hq)) hq
        exact ⟨m', hret.loop_inl he, hf⟩

/-- Writes outside the nodes and the array do not touch the index. -/
theorem RootIndex.congr (h : RootIndex m heap S)
    (hn : ∀ a ∈ S, ∀ x, a + 8 ≤ x → x < a + 48 → m' x = m x)
    (hh : ∀ x, heap + 32 ≤ x → x < heap + HEAP_T_SIZE → m' x = m x) : RootIndex m' heap S := by
  have he (i : ℕ) (hi : i ≤ HEAP_LIST_COUNT) :
      rd m' (heapFreeSlot heap i) = rd m (heapFreeSlot heap i) := by
    rw [HEAP_LIST_COUNT_eq] at hi
    rw [HEAP_T_SIZE] at hh
    unfold heapFreeSlot
    exact rd_congr fun x h1 h2 => hh x (by omega) (by omega)
  have hsize (a : ℕ) (ha : a ∈ S) : heapGetSize m' a = heapGetSize m a := by
    unfold heapGetSize
    rw [rd_congr fun x h1 h2 => hn a ha x (by omega) (by omega)]
  have hlarger (a : ℕ) (ha : a ∈ S) : largerBlock m' a = largerBlock m a :=
    rd_congr fun x h1 h2 => hn a ha x (by omega) (by omega)
  have hchild (a : ℕ) (ha : a ∈ S) : childBlock m' a = childBlock m a :=
    rd_congr fun x h1 h2 => hn a ha x (by omega) (by omega)
  obtain ⟨l, hup, hl⟩ := h.climb
  refine ⟨h.above, fun i hi h0 => ?_, fun h0 => ?_, l, ?_, fun p hp => ?_⟩
  · rw [he i hi] at h0 ⊢
    exact h.entry i hi h0
  · rw [he _ le_rfl] at h0 ⊢
    rw [hsize _ (h.entry _ le_rfl h0)]
    exact h.low h0
  · rw [he _ le_rfl]
    exact hup.congr fun p hp => hlarger p (hl p hp).mem
  · obtain ⟨h1, h2, h3⟩ := hl p hp
    refine ⟨h1, (hsize p h1).symm ▸ h2, fun h4 h5 => ?_⟩
    rw [hsize p h1] at h4
    rw [hchild p h1] at h5 ⊢
    obtain ⟨h6, h7⟩ := h3 h4 h5
    exact ⟨h6, (hsize _ h6).symm ▸ h7⟩

end climb

/-! ### Putting leftovers into the index -/

section insert

variable {m m' : Mem} {heap b i : ℕ} {S : Set ℕ} {zs : List Block} {c : Block}

/-- The nodes of `S` are free blocks of the heap. -/
structure FreeNodes (m : Mem) (heap : ℕ) (zs : List Block) (S : Set ℕ) : Prop where
  tags : TagHeap m heap zs
  sub : S ⊆ freeAddrs zs

theorem FreeNodes.above (h : FreeNodes m heap zs S) {a : ℕ} (ha : a ∈ S) :
    heap + HEAP_T_SIZE ≤ a := by
  obtain ⟨c, hc, -, rfl⟩ := h.sub ha
  exact (h.tags.bounds hc).1

theorem FreeNodes.spaced (h : FreeNodes m heap zs S) : Spaced S where
  apart := by
    intro a ha a' ha' hne
    obtain ⟨c, hc, -, rfl⟩ := h.sub ha
    obtain ⟨d, hd, -, rfl⟩ := h.sub ha'
    have hcm := c.size_min
    have hdm := d.size_min
    have := h.tags.tiles.apart hc hd hne
    omega
  le := by
    intro a ha
    obtain ⟨c, hc, -, rfl⟩ := h.sub ha
    have hcm := c.size_min
    have := (h.tags.bounds hc).2.2.2
    omega
  pos := by
    intro a ha
    have := h.above ha
    rw [HEAP_T_SIZE] at this
    omega

/-- The links of a node: the two of a list, and all four when it has room for them. -/
theorem FreeNodes.linkArea (h : FreeNodes m heap zs S) {a x : ℕ} (ha : a ∈ S) (h1 : a + 16 ≤ x)
    (h2 : x < a + 32 ∨ (64 ≤ heapGetSize m a ∧ x < a + 48)) : linkArea heap zs x := by
  obtain ⟨c, hc, hu, rfl⟩ := h.sub ha
  have hmin := c.size_min
  rw [(h.tags.tagged c hc).getSize] at h2
  exact .inr ⟨c, hc, hu, h1, by omega⟩

/-- A store to an entry. -/
theorem linkArea_wrSlot (h : AgreeOff m m' (linkArea heap zs)) (hi : i ≤ HEAP_LIST_COUNT) (v : ℕ) :
    AgreeOff m (wr m' (heapFreeSlot heap i) v) (linkArea heap zs) := by
  refine h.wr v fun x h1 h2 => .inl ?_
  rw [HEAP_LIST_COUNT_eq] at hi
  rw [HEAP_T_SIZE]
  unfold heapFreeSlot at h1 h2
  omega

/-- A block goes to an entry of the array or to the tree. -/
theorem heapSizeIdx_cases {s : ℕ} (hmin : HEAP_LIST_MIN ≤ s) (hd : s % 16 = 0)
    (hne : s ≠ HEAP_LIST_MAX) : (s ≤ HEAP_LIST_MAX ∧ s / 16 - 2 ≤ HEAP_LIST_COUNT ∧
      heapSizeIdx s = (s / 16 - 2 : ℕ)) ∨ (HEAP_LIST_MAX < s ∧ heapSizeIdx s = -1) := by
  rw [HEAP_LIST_MIN] at hmin
  rw [HEAP_LIST_MAX] at hne ⊢
  rw [HEAP_LIST_COUNT_eq]
  rcases Nat.lt_or_ge 1056 s with h | h
  · exact .inr ⟨h, heapSizeIdx_large h⟩
  · exact .inl ⟨h, by omega, heapSizeIdx_eq (by omega) h⟩

/-- **Pushing a block on a list** or on the entry of the tree. -/
theorem heapInsert_push (h : FreeNodes m heap zs (insert c.addr S))
    (he : rd m (heapFreeSlot heap i) ≠ 0 → rd m (heapFreeSlot heap i) ∈ S)
    (hi : i ≤ HEAP_LIST_COUNT) (hidx : heapSizeIdx (heapGetSize m c.addr) = (i : ℕ)) (n : ℕ) :
    heapInsert n m heap c.addr = .ok (wr (pushItem m c.addr (rd m (heapFreeSlot heap i)))
        (heapFreeSlot heap i) c.addr) ∧
      AgreeOff m (wr (pushItem m c.addr (rd m (heapFreeSlot heap i))) (heapFreeSlot heap i) c.addr)
        (linkArea heap zs) := by
  obtain ⟨-, hf⟩ := pushItem_links (m := m) h.spaced (Set.mem_insert c.addr S)
    fun h0 => Set.mem_insert_of_mem _ (he h0)
  refine ⟨?_, linkArea_wrSlot (hf.mono fun x hx => ?_) hi _⟩
  · have hle : (i : ℤ) ≤ HEAP_LIST_COUNT := by omega
    unfold heapInsert
    simp only [hidx, Int.natCast_nonneg, if_true, Int.toNat_natCast, hle]
  · obtain ⟨a, ha, h1, h2⟩ := hx
    exact h.linkArea ha h1 (.inl h2)

/-- A node of the tree is too large for a list. -/
theorem FreeNodes.treed (h : FreeNodes m heap zs S) {a : ℕ} (ha : a ∈ S)
    (hn : heapSizeIdx (heapGetSize m a) < 0) : HEAP_LIST_MAX < heapGetSize m a := by
  obtain ⟨c, hc, -, rfl⟩ := h.sub ha
  have hmin := c.size_min
  rw [(h.tags.tagged c hc).getSize] at hn ⊢
  by_contra hle
  rw [HEAP_LIST_MAX] at hle
  rw [heapSizeIdx_eq (by omega) (by omega)] at hn
  omega

/-- The heads of the tree from its root on. -/
theorem FreeNodes.rungs (h : FreeNodes m heap zs S) {head : ℕ → ℕ} {root : ℕ} {L : ℕ → List ℕ}
    {T : Chains ℕ} (hx : FreeIndex heapAlign heapSizeIdx HEAP_LIST_COUNT m head root S L T) :
    ∃ l, Ascends m root l ∧ ∀ p ∈ l, Rung m S p := by
  by_cases hT : T = []
  · exact ⟨[], hx.tree.root_nul hT, fun p hp => by cases hp⟩
  · obtain ⟨A, cs, B, rfl⟩ := split_of_mem_heads (hx.tree.root_mem hT)
    have hl := hx.tree.heads
    rw [heads_append, heads_cons, linked_append] at hl
    refine ⟨root :: heads B, Linked.ascends hl.2, fun p hp => ?_⟩
    have hp' : p ∈ heads (A ++ (root, cs) :: B) := by
      rw [heads_append, heads_cons]
      exact List.mem_append_right _ hp
    have hsize (z : ℕ) (hz : z ∈ nodes (A ++ (root, cs) :: B)) : 64 ≤ heapGetSize m z := by
      have := h.treed (hx.tree_sub z hz) (hx.treed z hz)
      rw [HEAP_LIST_MAX] at this
      omega
    obtain ⟨t, ht, rfl⟩ := List.mem_map.mp hp'
    refine ⟨hx.tree_sub _ (heads_sub hp'), hsize _ (heads_sub hp'), fun _ h0 => ?_⟩
    have hchild : childBlock m t.1 = t.2.headD 0 := (hx.tree.chains t ht).2.1
    rw [hchild] at h0 ⊢
    have hmem : t.2.headD 0 ∈ nodes (A ++ (root, cs) :: B) :=
      mem_nodes.mpr ⟨t, ht, .inr (headD_mem (fun e => h0 (by rw [e]; rfl)) 0)⟩
    exact ⟨hx.tree_sub _ hmem, hsize _ hmem⟩

/-- A node of the index is what an entry leads to. -/
theorem HeapIndex.entry (h : HeapIndex m heap S) (hi : i ≤ HEAP_LIST_COUNT)
    (h0 : rd m (heapFreeSlot heap i) ≠ 0) : rd m (heapFreeSlot heap i) ∈ S := by
  obtain ⟨L, T, hx⟩ := h.index
  rcases Nat.lt_or_eq_of_le hi with hlt | rfl
  · have hf : rd m (heapFreeSlot heap i) = (L i).headD 0 := hx.first i hlt
    rw [hf] at h0 ⊢
    exact hx.list_sub hlt _ (headD_mem (fun e => h0 (by rw [e]; rfl)) 0)
  · exact hx.tree_sub _ (heads_sub (hx.tree.root_mem fun hT => h0 (hx.tree.root_nul hT)))

/-- The fields of the nodes after a push. -/
theorem FreeNodes.pushed (h : FreeNodes m heap zs S) (hc : b ∈ S) (hi : i ≤ HEAP_LIST_COUNT)
    {head : ℕ} (hh : head ≠ 0 → head ∈ S) {a : ℕ} (ha : a ∈ S) :
    heapGetSize (wr (pushItem m b head) (heapFreeSlot heap i) b) a = heapGetSize m a ∧
      childBlock (wr (pushItem m b head) (heapFreeSlot heap i) b) a = childBlock m a ∧
      largerBlock (wr (pushItem m b head) (heapFreeSlot heap i) b) a =
        if a = b then head else largerBlock m a := by
  obtain ⟨hlinks, hf⟩ := pushItem_links (m := m) h.spaced hc hh
  have hslot := wrSlot_node (m := pushItem m b head) (v := b) (fun a ha => h.above ha) hi a ha
  refine ⟨?_, ?_, ?_⟩
  · unfold heapGetSize
    rw [rd_congr fun x h1 h2 => hslot x (by omega) (by omega),
      h.spaced.size_frame (hf.mono itemBytes_sub) ha]
  · show rd _ (a + 32) = rd m (a + 32)
    rw [rd_congr fun x h1 h2 => hslot x (by omega) (by omega)]
    refine hf.rd fun x h1 h2 => ?_
    rintro ⟨z, hz, h3, h4⟩
    by_cases e : z = a
    · omega
    · have := h.spaced.apart z hz a ha e
      omega
  · exact (rd_congr fun x h1 h2 => hslot x (by omega) (by omega)).trans (hlinks a ha).2

/-- A block pushed on the entry of the tree. -/
theorem HeapIndex.pushed (h : HeapIndex m heap S) (hn : FreeNodes m heap zs (insert b S))
    (hb : b ∉ S) (hs : 64 ≤ heapGetSize m b) (hs' : heapGetSize m b ≤ HEAP_LIST_MAX) :
    RootIndex (wr (pushItem m b (rd m (heapFreeSlot heap HEAP_LIST_COUNT)))
      (heapFreeSlot heap HEAP_LIST_COUNT) b) heap (insert b S) := by
  have hbU := Set.mem_insert b S
  have hlt := hn.spaced.lt hbU
  have hroot (h0 : rd m (heapFreeSlot heap HEAP_LIST_COUNT) ≠ 0) :
      rd m (heapFreeSlot heap HEAP_LIST_COUNT) ∈ insert b S := .inr (h.entry le_rfl h0)
  have hfields (a : ℕ) (ha : a ∈ insert b S) := hn.pushed hbU le_rfl hroot ha
  obtain ⟨-, hf⟩ := pushItem_links (m := m) hn.spaced hbU hroot
  have hnS : FreeNodes m heap zs S := ⟨hn.tags, fun a ha => hn.sub (.inr ha)⟩
  obtain ⟨L, T, hx⟩ := h.index
  obtain ⟨l, hup, hl⟩ := hnS.rungs hx
  refine ⟨fun a ha => hn.above ha, fun j hj h0 => ?_, fun _ => ?_, b :: l, ?_, fun p hp => ?_⟩
  · rw [rd_wr_slot hlt] at h0 ⊢
    split_ifs at h0 ⊢ with e
    · exact hbU
    · rw [rd_slot_frame (fun a ha => hn.above ha) (hf.mono itemBytes_sub) hj] at h0 ⊢
      exact .inr (h.entry hj h0)
  · rw [rd_wr_slot hlt, if_pos rfl, (hfields b hbU).1]
    exact hs'
  · rw [rd_wr_slot hlt, if_pos rfl]
    refine ⟨rfl, ?_⟩
    rw [(hfields b hbU).2.2, if_pos rfl]
    refine hup.congr fun p hp => ?_
    have hpS := (hl p hp).mem
    rw [(hfields p (.inr hpS)).2.2, if_neg fun e : p = b => hb (e ▸ hpS)]
  · rcases List.mem_cons.mp hp with rfl | hp
    · refine ⟨hbU, ?_, fun hlt => ?_⟩
      · rwa [(hfields p hbU).1]
      · rw [(hfields p hbU).1] at hlt
        omega
    · have hpS := (hl p hp).mem
      refine ⟨.inr hpS, ?_, fun h1 h2 => ?_⟩
      · rw [(hfields p (.inr hpS)).1]
        exact (hl p hp).room
      · rw [(hfields p (.inr hpS)).1] at h1
        rw [(hfields p (.inr hpS)).2.1] at h2 ⊢
        obtain ⟨h3, h4⟩ := (hl p hp).child h1 h2
        rw [(hfields _ (.inr h3)).1]
        exact ⟨.inr h3, h4⟩

/-- The bytes of an index lie in the area of links. -/
theorem FreeNodes.indexBytes_sub (h : FreeNodes m heap zs S) {x : ℕ} (hx : indexBytes m heap S x) :
    Dawos.linkArea heap zs x := by
  rcases hx with hx | ⟨a, ha, h1, h2⟩
  · exact .inl hx
  · refine h.linkArea ha h1 ?_
    split_ifs at h2 with hneg
    · have := h.treed ha hneg
      rw [HEAP_LIST_MAX] at this
      exact .inr ⟨by omega, h2⟩
    · exact .inl h2

/-- **Inserting a leftover** into the index. -/
theorem HeapIndex.insert_leftover (h : HeapIndex m heap S)
    (hn : FreeNodes m heap zs (insert c.addr S)) (hc : c.addr ∉ S)
    (hs : heapGetSize m c.addr = c.size) (hne : c.size ≠ HEAP_LIST_MAX) :
    ∃ m', Returns (fun n => heapInsert n m heap c.addr) m' ∧ AgreeOff m m' (linkArea heap zs) ∧
      (HeapIndex m' heap (insert c.addr S) ∨ RootIndex m' heap (insert c.addr S)) := by
  have hcU := Set.mem_insert c.addr S
  have hindexed (hi : Indexable c.size) : ∃ m', Returns (fun n => heapInsert n m heap c.addr) m' ∧
      AgreeOff m m' (linkArea heap zs) ∧
      (HeapIndex m' heap (insert c.addr S) ∨ RootIndex m' heap (insert c.addr S)) := by
    obtain ⟨m', hret, hx, hf, -⟩ := heapInsert_spec h hc hn.spaced (hn.above hcU) (hs.symm ▸ hi)
      (hs.symm ▸ c.size_min)
    exact ⟨m', hret, hf.mono fun x hx => hn.indexBytes_sub hx, .inl hx⟩
  rcases heapSizeIdx_cases c.size_min c.size_dvd hne with ⟨hle, hi, hidx⟩ | ⟨hlt, hidx⟩
  · rcases Nat.lt_or_eq_of_le hi with hlt | he
    · exact hindexed (by unfold Indexable; omega)
    · -- a leftover of 1040 bytes goes to the entry of the tree
      rw [he] at hidx
      have hpush := heapInsert_push hn (fun h0 => h.entry le_rfl h0) le_rfl (hs.symm ▸ hidx)
      refine ⟨_, Returns.of_eq fun n => (hpush n).1, (hpush 0).2, .inr (h.pushed hn hc ?_ ?_)⟩
      · rw [HEAP_LIST_COUNT_eq] at he
        omega
      · rwa [hs]
  · exact hindexed (by unfold Indexable; rw [hidx]; omega)

theorem clearLinks_frame (m : Mem) (b : ℕ) : AgreeOff m (clearLinks m b) (treeBytes {b}) := by
  have hb : b ∈ ({b} : Set ℕ) := rfl
  exact ((((AgreeOff.refl m _).setParent hb 0).setChild hb 0).setSmaller hb 0).setLarger hb 0

/-- A block that is too large for a list becomes the root or is linked into the tree. -/
theorem heapInsert_large (hidx : heapSizeIdx (heapGetSize m b) = -1) (hs : 48 ≤ heapGetSize m b)
    (hroot : rd (clearLinks m b) (heapFreeSlot heap HEAP_LIST_COUNT) =
      rd m (heapFreeSlot heap HEAP_LIST_COUNT)) (n : ℕ) : heapInsert n m heap b =
    if rd m (heapFreeSlot heap HEAP_LIST_COUNT) = 0 then
      .ok (wr (clearLinks m b) (heapFreeSlot heap HEAP_LIST_COUNT) b)
    else treeLink heapAlign n (clearLinks m b) (rd m (heapFreeSlot heap HEAP_LIST_COUNT)) b := by
  have hneg : ¬ (0 : ℤ) ≤ -1 := by omega
  unfold heapInsert heapTreeInsert
  simp only [hidx, if_neg hneg, if_pos (show HEAP_TREE_DATA_SIZE ≤ heapGetSize m b from hs), hroot]
  split_ifs
  · exact ok_bind _ _
  · simp only [bind_assoc, pure_bind, bind_pure]

/-- The other nodes do not see the links of a new one. -/
theorem clearLinks_node {a x : ℕ} (hU : Spaced (insert b S)) (hb : b ∉ S) (ha : a ∈ S)
    (h1 : a + 8 ≤ x) (h2 : x < a + 48) : clearLinks m b x = m x := by
  refine clearLinks_frame m b x ?_
  rintro ⟨z, rfl, h3, h4⟩
  have := hU.apart z (Set.mem_insert z S) a (.inr ha) fun e => hb (e ▸ ha)
  omega

theorem RootIndex.cleared (h : RootIndex m heap S) (hU : Spaced (insert b S)) (hb : b ∉ S)
    (habove : heap + HEAP_T_SIZE ≤ b) : RootIndex (clearLinks m b) heap S :=
  h.congr (fun _ ha _ h1 h2 => clearLinks_node hU hb ha h1 h2) fun x h1 h2 =>
    clearLinks_frame m b x fun hx => by
      obtain ⟨z, rfl, h3, h4⟩ := hx
      omega

/-- Inserting a leftover that is too large for a list. -/
theorem RootIndex.insert_large (h : RootIndex m heap S)
    (hn : FreeNodes m heap zs (insert c.addr S)) (hc : c.addr ∉ S)
    (hs : heapGetSize m c.addr = c.size) (hlt : HEAP_LIST_MAX < c.size)
    (hidx : heapSizeIdx c.size = -1) :
    ∃ m', Returns (fun n => heapInsert n m heap c.addr) m' ∧ AgreeOff m m' (linkArea heap zs) := by
  have hcU := Set.mem_insert c.addr S
  have hU := hn.spaced
  have hroom : 64 ≤ heapGetSize m c.addr := by
    rw [HEAP_LIST_MAX] at hlt
    omega
  have hf := clearLinks_frame m c.addr
  have hsub : {c.addr} ⊆ insert c.addr S := Set.singleton_subset_iff.mpr hcU
  have hsize : heapGetSize (clearLinks m c.addr) c.addr = heapGetSize m c.addr := by
    unfold heapGetSize
    rw [hU.size_frame (hf.mono (treeBytes_mono hsub)) hcU]
  have hroot : rd (clearLinks m c.addr) (heapFreeSlot heap HEAP_LIST_COUNT) =
      rd m (heapFreeSlot heap HEAP_LIST_COUNT) :=
    rd_slot_frame (fun a ha => hn.above ha) (hf.mono (treeBytes_mono hsub)) le_rfl
  have harea : AgreeOff m (clearLinks m c.addr) (linkArea heap zs) := hf.mono fun x hx => by
    obtain ⟨a, rfl, h1, h2⟩ := hx
    exact hn.linkArea hcU h1 (.inr ⟨hroom, h2⟩)
  have hinsert := heapInsert_large (hs.symm ▸ hidx) (by omega) hroot
  have h' := h.cleared hU hc (hn.above hcU)
  obtain ⟨l, hup, hl⟩ := h'.climb
  have hlow := h'.low
  rw [hroot] at hup hlow
  cases l with
  | nil =>
      have h0 : rd m (heapFreeSlot heap HEAP_LIST_COUNT) = 0 := hup
      refine ⟨_, Returns.of_eq fun n => ?_, linkArea_wrSlot harea le_rfl c.addr⟩
      rw [hinsert, if_pos h0]
  | cons p l =>
      obtain ⟨h1, -⟩ := id hup
      have hp0 : p ≠ 0 := hU.pos p (.inr (hl p List.mem_cons_self).mem)
      rw [h1] at hup hlow
      have hs' : HEAP_LIST_MAX < heapGetSize (clearLinks m c.addr) c.addr := by
        rw [hsize, hs]
        exact hlt
      obtain ⟨m', hret, hf'⟩ := treeLink_climb hU hs' l p hup hl ((hlow hp0).trans hs'.le)
      refine ⟨m', hret.congr fun n => ?_, harea.trans (hf'.mono fun x hx => ?_)⟩
      · rw [hinsert, h1, if_neg hp0]
      · obtain ⟨a, ha, h2, h3⟩ := hx
        rcases ha with rfl | ⟨ha, hr⟩
        · exact hn.linkArea hcU h2 (.inr ⟨hroom, h3⟩)
        · have hsame : heapGetSize (clearLinks m c.addr) a = heapGetSize m a := by
            unfold heapGetSize
            rw [rd_congr fun x h4 h5 => clearLinks_node hU hc ha (by omega) (by omega)]
          exact hn.linkArea (.inr ha) h2 (.inr ⟨hsame ▸ hr, h3⟩)

/-- **Inserting a leftover** after one on the entry of the tree. -/
theorem RootIndex.insert_leftover (h : RootIndex m heap S)
    (hn : FreeNodes m heap zs (insert c.addr S)) (hc : c.addr ∉ S)
    (hs : heapGetSize m c.addr = c.size) (hne : c.size ≠ HEAP_LIST_MAX) :
    ∃ m', Returns (fun n => heapInsert n m heap c.addr) m' ∧ AgreeOff m m' (linkArea heap zs) := by
  rcases heapSizeIdx_cases c.size_min c.size_dvd hne with ⟨hle, hi, hidx⟩ | ⟨hlt, hidx⟩
  · have hpush := heapInsert_push hn (fun h0 => h.entry _ hi h0) hi (hs.symm ▸ hidx)
    exact ⟨_, Returns.of_eq fun n => (hpush n).1, (hpush 0).2⟩
  · exact h.insert_large hn hc hs hlt hidx

/-- A leftover of `HEAP_LIST_MAX` bytes has no entry. -/
theorem heapInsert_max (hs : heapGetSize m b = HEAP_LIST_MAX) (n : ℕ) :
    heapInsert n m heap b = .error .bounds := by
  have hidx : heapSizeIdx HEAP_LIST_MAX = (64 : ℕ) := heapSizeIdx_eq (by decide) le_rfl
  have hout : ¬ ((64 : ℕ) : ℤ) ≤ HEAP_LIST_COUNT := by decide
  unfold heapInsert
  simp only [hs, hidx, Int.natCast_nonneg, if_true, if_neg hout]

end insert

/-! ### Blocks in no list -/

/-- The nodes `S` are indexed, or they were before a block was pushed on the entry of the tree. -/
def IndexReady (m : Mem) (heap : ℕ) (S : Set ℕ) : Prop := HeapIndex m heap S ∨ RootIndex m heap S

/-- The free blocks `mid`, between `xs` and `ys`, are in no list. -/
structure Loose (m : Mem) (heap : ℕ) (xs mid ys : List Block) : Prop where
  tags : TagHeap m heap (xs ++ mid ++ ys)
  free : ∀ c ∈ mid, c.used = false
  index : IndexReady m heap (freeAddrs (xs ++ ys))

section loose

variable {m m' : Mem} {heap bsize : ℕ} {S : Set ℕ} {xs mid ys : List Block} {a b c d : Block}

theorem IndexReady.congr (h : IndexReady m heap S)
    (hn : ∀ a ∈ S, ∀ x, a + 8 ≤ x → x < a + 48 → m' x = m x)
    (hh : ∀ x, heap + 32 ≤ x → x < heap + HEAP_T_SIZE → m' x = m x) : IndexReady m' heap S :=
  h.imp (fun h => h.congr hn hh) fun h => h.congr hn hh

/-- The address of a block in no list. -/
theorem Loose.not_free (h : Loose m heap xs mid ys) (hc : c ∈ mid) :
    c.addr ∉ freeAddrs (xs ++ ys) := by
  obtain ⟨A, B, rfl⟩ := List.append_of_mem hc
  have ht := h.tags.tiles
  have e : xs ++ (A ++ c :: B) ++ ys = (xs ++ A) ++ c :: (B ++ ys) := by simp
  rw [e] at ht
  refine fun hm => ht.not_free ?_
  have e' : xs ++ A ++ (B ++ ys) = xs ++ (A ++ B) ++ ys := by simp
  rw [e']
  exact freeAddrs_around _ hm

/-- The indexed nodes and one more block. -/
theorem Loose.nodes (h : Loose m heap xs mid ys) (hc : c ∈ mid) :
    FreeNodes m heap (xs ++ mid ++ ys) (insert c.addr (freeAddrs (xs ++ ys))) := by
  refine ⟨h.tags, ?_⟩
  rintro a (rfl | ha)
  · exact ⟨c, mem_segment.mpr (.inl hc), h.free c hc, rfl⟩
  · exact freeAddrs_around _ ha

/-- Writes inside a block in no list touch neither the nodes nor the array. -/
theorem Loose.nodes_off (h : Loose m heap xs [c] ys)
    (hf : AgreeOff m m' fun x => c.addr ≤ x ∧ x < c.addr + c.size) :
    (∀ a ∈ freeAddrs (xs ++ ys), ∀ x, a + 8 ≤ x → x < a + 48 → m' x = m x) ∧
      ∀ x, heap + 32 ≤ x → x < heap + HEAP_T_SIZE → m' x = m x := by
  have hcm : c ∈ xs ++ [c] ++ ys := by simp
  have habove := (h.tags.bounds hcm).1
  refine ⟨fun z hz x h1 h2 => hf x fun hx => ?_, fun x h1 h2 => hf x fun hx => by omega⟩
  obtain ⟨e, he, hu, rfl⟩ := hz
  have hne : e.addr ≠ c.addr := fun hea => h.not_free (by simp) ⟨e, he, hu, hea⟩
  have hem : e ∈ xs ++ [c] ++ ys := mem_segment.mpr (.inr he)
  have hmin := e.size_min
  have := h.tags.tiles.apart hem hcm hne
  omega

/-- A block in no list is cut in two. -/
theorem Loose.cut (h : Loose m heap xs [c] ys) (ha : a.addr = c.addr)
    (had : a.addr + a.size = d.addr) (hs : a.size + d.size = c.size) (hau : a.used = false)
    (hdu : d.used = false) (hta : Tagged m' a) (htd : Tagged m' d)
    (hf : AgreeOff m m' fun x => c.addr ≤ x ∧ x < c.addr + c.size) :
    Loose m' heap xs [a, d] ys := by
  have hold : Tiles c.addr [c] (c.addr + c.size) := ⟨rfl, rfl⟩
  have hnew : Tiles c.addr [a, d] (c.addr + c.size) :=
    ⟨ha, by omega, by show c.addr + a.size + d.size = _; omega⟩
  have hmem (P : Block → Prop) (h1 : P a) (h2 : P d) : ∀ e ∈ [a, d], P e := by
    intro e he
    simp only [List.mem_cons, List.not_mem_nil, or_false] at he
    rcases he with rfl | rfl
    · exact h1
    · exact h2
  obtain ⟨hn, hh⟩ := h.nodes_off hf
  exact ⟨(h.tags.replace hold (List.cons_ne_nil _ _) hnew (hmem _ hta htd) hf).1, hmem _ hau hdu,
    h.index.congr hn hh⟩

/-- The left one of two blocks is put into the index. -/
theorem Loose.insert_left (h : Loose m heap xs [a, d] ys)
    (hi : HeapIndex m heap (freeAddrs (xs ++ ys))) (hne : a.size ≠ HEAP_LIST_MAX) :
    ∃ m', Returns (fun n => heapInsert n m heap a.addr) m' ∧ Loose m' heap (xs ++ [a]) [d] ys := by
  have ha : a ∈ [a, d] := by simp
  have hau := h.free a ha
  have hsize : heapGetSize m a.addr = a.size := (h.tags.tagged a (by simp)).getSize
  obtain ⟨m', hret, hf, hx⟩ := hi.insert_leftover (h.nodes ha) (h.not_free ha) hsize hne
  have e : xs ++ [a] ++ [d] ++ ys = xs ++ [a, d] ++ ys := by simp
  have e' : xs ++ [a] ++ ys = xs ++ a :: ys := by simp
  refine ⟨m', hret, e.symm ▸ (h.tags.links hf).1, fun c hc => h.free c (by simp_all), ?_⟩
  rwa [e', freeAddrs_middle hau]

/-- The right one of two blocks is put into the index. -/
theorem Loose.insert_right (h : Loose m heap xs [a, d] ys) (hne : d.size ≠ HEAP_LIST_MAX) :
    ∃ m', Returns (fun n => heapInsert n m heap d.addr) m' ∧
      TagHeap m' heap (xs ++ [a, d] ++ ys) := by
  have hd : d ∈ [a, d] := by simp
  have hsize : heapGetSize m d.addr = d.size := (h.tags.tagged d (by simp)).getSize
  rcases h.index with hi | hi
  · obtain ⟨m', hret, hf, -⟩ := hi.insert_leftover (h.nodes hd) (h.not_free hd) hsize hne
    exact ⟨m', hret, (h.tags.links hf).1⟩
  · obtain ⟨m', hret, hf⟩ := hi.insert_leftover (h.nodes hd) (h.not_free hd) hsize hne
    exact ⟨m', hret, (h.tags.links hf).1⟩

/-- Two headers and two footers written into a block in no list, in either order. -/
theorem Loose.create (h : Loose m heap xs [c] ys) {s : ℕ} (h1 : HEAP_LIST_MIN ≤ s)
    (h2 : HEAP_LIST_MIN ≤ c.size - s) (hd : s % 16 = 0) :
    ∃ a d : Block, a.addr = c.addr ∧ a.size = s ∧ d.addr = c.addr + s ∧ d.size = c.size - s ∧
      Loose (heapCreateBlock (heapCreateBlock m a.addr a.size) d.addr d.size) heap xs [a, d] ys ∧
      Loose (heapCreateBlock (heapCreateBlock m d.addr d.size) a.addr a.size) heap xs [a, d] ys ∧
      AgreeOff m (heapCreateBlock (heapCreateBlock m a.addr a.size) d.addr d.size)
        fun x => c.addr ≤ x ∧ x < c.addr + c.size := by
  have hcd := c.size_dvd
  have hlt := (h.tags.bounds (b := c) (by simp)).2.2.2
  rw [HEAP_LIST_MIN] at h1 h2
  obtain ⟨a, ha1, ha2, hau⟩ : ∃ a : Block, a.addr = c.addr ∧ a.size = s ∧ a.used = false :=
    ⟨⟨c.addr, s, false, h1, hd⟩, rfl, rfl, rfl⟩
  obtain ⟨d, hd1, hd2, hdu⟩ : ∃ d : Block, d.addr = c.addr + s ∧ d.size = c.size - s ∧
      d.used = false := ⟨⟨c.addr + s, c.size - s, false, h2, by omega⟩, rfl, rfl, rfl⟩
  obtain ⟨h3, h4, h5⟩ := heapCreateBlock_pair (m := m) (a := a) (c := d) (.inl (by omega))
    (by omega) (by omega) hau hdu
  obtain ⟨h6, h7, h8⟩ := heapCreateBlock_pair (m := m) (a := d) (c := a) (.inr (by omega))
    (by omega) (by omega) hdu hau
  have hin (x : ℕ) (hx : a.bytes x ∨ d.bytes x) : c.addr ≤ x ∧ x < c.addr + c.size := by
    rcases hx with ⟨hx1, hx2⟩ | ⟨hx1, hx2⟩ <;> omega
  refine ⟨a, d, ha1, ha2, hd1, hd2, ?_, ?_, h5.mono hin⟩
  · exact h.cut ha1 (by omega) (by omega) hau hdu h3 h4 (h5.mono hin)
  · exact h.cut ha1 (by omega) (by omega) hau hdu h7 h6 (h8.mono fun x hx => hin x hx.symm)

/-- The used block `u` and the remainder `rest` take the place of the block `c`. -/
structure Splits (c : Block) (bsize : ℕ) (u : Block) (rest : List Block) : Prop where
  tiles : Tiles c.addr (u :: rest) (c.addr + c.size)
  used : u.used = true
  free : ∀ d ∈ rest, d.used = false
  size : bsize ≤ u.size

/-- **Placing a request** in a block in no list. -/
theorem Loose.place (h : Loose m heap xs [c] ys) (hmin : HEAP_LIST_MIN ≤ bsize)
    (hd : bsize % 16 = 0) (hle : bsize ≤ c.size) (hne : c.size - bsize ≠ HEAP_LIST_MAX) :
    ∃ m' u rest, Returns (fun n => heapPlace n m heap c.addr bsize) m' ∧
      TagHeap m' heap (xs ++ u :: rest ++ ys) ∧ Splits c bsize u rest := by
  have hlt := (h.tags.bounds (b := c) (by simp)).2.2.2
  have hsplit := heapSplitBlock_eq (h.tags.tagged c (by simp)) hlt hd hle
  unfold heapPlace
  split_ifs at hsplit with hrest
  · obtain ⟨a, d, ha1, ha2, hd1, hd2, -, hloose, -⟩ := h.create hmin hrest hd
    rw [← hd2, ← hd1, ← ha2, ← ha1] at hsplit
    have hne' : d.size ≠ HEAP_LIST_MAX := by rwa [hd2]
    obtain ⟨m', hret, htags⟩ := hloose.insert_right hne'
    have e : xs ++ [a, d] ++ ys = xs ++ a :: (d :: ys) := by simp
    have e' : xs ++ a.setUsed true :: [d] ++ ys = xs ++ a.setUsed true :: (d :: ys) := by simp
    rw [e] at htags
    have hd0 : d.addr ≠ 0 := by
      have := d.size_min
      have := a.size_min
      omega
    refine ⟨heapSetUsed m' a.addr 1, a.setUsed true, [d], ?_, e'.symm ▸ (htags.setUsed true).1, ?_⟩
    · filter_upwards [hret] with n hn
      rw [← ha1, ← ha2, hsplit]
      dsimp only
      rw [if_pos hd0, hn]
      rfl
    · refine ⟨⟨ha1, by rw [Block.setUsed_size]; omega, ?_⟩, rfl, ?_, ?_⟩
      · show c.addr + (a.setUsed true).size + d.size = _
        rw [Block.setUsed_size]
        omega
      · intro e he
        rw [List.mem_singleton.mp he]
        exact hloose.free d (by simp)
      · rw [Block.setUsed_size]
        exact ha2.ge
  · have e : xs ++ [c] ++ ys = xs ++ c :: ys := by simp
    have e' : xs ++ c.setUsed true :: [] ++ ys = xs ++ c.setUsed true :: ys := by simp
    have htags := h.tags
    rw [e] at htags
    refine ⟨heapSetUsed m c.addr 1, c.setUsed true, [], Returns.of_eq fun n => ?_,
      e'.symm ▸ (htags.setUsed true).1, ⟨⟨rfl, rfl⟩, rfl, (fun d hd => by cases hd), hle⟩⟩
    rw [hsplit]
    rfl

/-- A remainder of `HEAP_LIST_MAX` bytes has no entry. -/
theorem Loose.place_max (h : Loose m heap xs [c] ys) (hmin : HEAP_LIST_MIN ≤ bsize)
    (hd : bsize % 16 = 0) (hle : bsize ≤ c.size) (he : c.size - bsize = HEAP_LIST_MAX) (n : ℕ) :
    heapPlace n m heap c.addr bsize = .error .bounds := by
  have hlt := (h.tags.bounds (b := c) (by simp)).2.2.2
  have hsplit := heapSplitBlock_eq (h.tags.tagged c (by simp)) hlt hd hle
  have hrest : HEAP_LIST_MIN ≤ c.size - bsize := by
    rw [he]
    decide
  obtain ⟨a, d, ha1, ha2, hd1, hd2, -, hloose, -⟩ := h.create hmin hrest hd
  rw [if_pos hrest, ← hd2, ← hd1, ← ha2, ← ha1] at hsplit
  have hsize := (hloose.tags.tagged d (by simp)).getSize
  have hd0 : d.addr ≠ 0 := by
    have := d.size_min
    have := a.size_min
    omega
  unfold heapPlace
  rw [← ha1, ← ha2, hsplit]
  dsimp only
  rw [if_pos hd0, heapInsert_max (by rw [hsize, hd2, he])]
  rfl

end loose

/-! ### The carve -/

/-- What the carve cuts off before the block it uses. -/
def carveLeft (align : Bool) (addr : ℕ) : ℕ :=
  if align && !heapIsPageAligned (heapGetPayload addr) then alignedLeft addr else 0

/-- The blocks `bs` take the place of `b`, and the one at the payload `p` serves a request. -/
structure PiecesOf (b : Block) (bsize : ℕ) (align : Bool) (p : ℕ) (bs : List Block) : Prop where
  tiles : Tiles b.addr bs (b.addr + b.size)
  total : (bs.map Block.size).sum = b.size
  used : ∃ u ∈ bs, u.used = true ∧ (∀ c ∈ bs, c.used = true → c = u) ∧
    p = heapGetPayload u.addr ∧ bsize ≤ u.size ∧ (align = true → heapIsPageAligned p = true)

/-- The carve returns, and the heap has pieces in the place of the block. -/
def Carves (m : Mem) (heap : ℕ) (xs : List Block) (b : Block) (ys : List Block) (bsize : ℕ)
    (align : Bool) : Prop :=
  ∃ m' p bs, Returns (fun n => heapAllocCarve n m heap b.addr bsize align) (m', p) ∧
    TagHeap m' heap (xs ++ bs ++ ys) ∧ PiecesOf b bsize align p bs

section carve

variable {m m' : Mem} {heap bsize : ℕ} {align : Bool} {xs ys rest : List Block} {a b c u : Block}

theorem Tiles.total : ∀ {bs : List Block} {lo hi : ℕ}, Tiles lo bs hi →
    lo + (bs.map Block.size).sum = hi
  | [], _, _, h => h
  | b :: bs, lo, hi, ⟨_, h⟩ => by
      have := h.total
      rw [List.map_cons, List.sum_cons]
      omega

theorem Held.loose (h : Held m heap xs b ys) : Loose m heap xs [b] ys where
  tags := ⟨h.rep.start.ge, h.rep.start.symm ▸ h.rep.tiles, h.rep.tagged⟩
  free c hc := by
    rw [List.mem_singleton.mp hc]
    exact h.free
  index := .inl h.rep.index

/-- A block that is used from its start on. -/
theorem Splits.pieces (h : Splits b bsize u rest)
    (hal : align = true → heapIsPageAligned (heapGetPayload b.addr) = true) :
    PiecesOf b bsize align (heapGetPayload b.addr) (u :: rest) := by
  have ht := h.tiles.total
  refine ⟨h.tiles, by omega, u, by simp, h.used, fun c hc hcu => ?_, by rw [h.tiles.1], h.size, hal⟩
  rcases List.mem_cons.mp hc with rfl | hc
  · rfl
  · rw [h.free c hc] at hcu
    cases hcu

/-- A block that is used from its second piece on. -/
theorem Splits.pieces_left (h : Splits c bsize u rest) (hau : a.used = false) (ha : a.addr = b.addr)
    (hac : a.addr + a.size = c.addr) (hs : a.size + c.size = b.size)
    (hal : heapIsPageAligned (heapGetPayload c.addr) = true) :
    PiecesOf b bsize align (heapGetPayload c.addr) (a :: u :: rest) := by
  have htiles : Tiles b.addr (a :: u :: rest) (b.addr + b.size) := by
    refine ⟨ha, ?_⟩
    have e1 : b.addr + a.size = c.addr := by omega
    have e2 : b.addr + b.size = c.addr + c.size := by omega
    rw [e1, e2]
    exact h.tiles
  have ht := htiles.total
  refine ⟨htiles, by omega, u, by simp, h.used, fun d hd hdu => ?_, by rw [h.tiles.1], h.size,
    fun _ => hal⟩
  rcases List.mem_cons.mp hd with rfl | hd
  · rw [hau] at hdu
    cases hdu
  · rcases List.mem_cons.mp hd with rfl | hd
    · rfl
    · rw [h.free d hd] at hdu
      cases hdu

/-- Nothing is cut off before the used block. -/
theorem heapCarve_whole (hc : (align && !heapIsPageAligned (heapGetPayload b.addr)) = false)
    (n : ℕ) : heapCarve n m heap b.addr align = .ok (m, b.addr) := by
  unfold heapCarve
  rw [hc]
  rfl

/-- The block before an aligned payload is cut off. -/
theorem Held.cut_left (h : Held m heap xs b ys) (hmin : HEAP_LIST_MIN ≤ bsize)
    (hc : (align && !heapIsPageAligned (heapGetPayload b.addr)) = true)
    (hl : HEAP_LIST_MIN ≤ alignedLeft b.addr) (hle : alignedLeft b.addr + bsize ≤ b.size) :
    ∃ (m₁ : Mem) (a c : Block), a.addr = b.addr ∧ a.size = alignedLeft b.addr ∧
      a.addr + a.size = c.addr ∧ a.size + c.size = b.size ∧
      heapIsPageAligned (heapGetPayload c.addr) = true ∧ Loose m₁ heap xs [a, c] ys ∧
      HeapIndex m₁ heap (freeAddrs (xs ++ ys)) ∧
      ∀ n, heapCarve n m heap b.addr align = (do
        let m ← heapInsert n m₁ heap a.addr
        return (m, c.addr)) := by
  have hbm : b ∈ xs ++ [b] ++ ys := by simp
  obtain ⟨hlow, hlt⟩ := h.rep.mem_low hbm
  have hna : heapIsPageAligned (heapGetPayload b.addr) = false := by
    rw [Bool.and_eq_true] at hc
    simpa using hc.2
  rw [HEAP_LIST_MIN] at hmin
  obtain ⟨hoff, hl16, hpage⟩ := alignedOffset_spec (h.rep.bounds hbm).2.2.2 hlt b.size_dvd hna
    (by omega) (by omega)
  obtain ⟨a, c, ha1, ha2, hc1, hc2, hloose, -, hf⟩ := h.loose.create hl
    (by rw [HEAP_LIST_MIN]; omega) hl16
  obtain ⟨hn, hh⟩ := h.loose.nodes_off hf
  refine ⟨_, a, c, ha1, ha2, by omega, by omega, ?_, hloose, h.rep.index.congr hn hh, fun n => ?_⟩
  · rw [hc1, ← hoff]
    exact hpage
  · unfold heapCarve
    rw [if_pos hc, h.rep.getSize hbm, hoff]
    dsimp only
    rw [sub64_of_le (by omega) (by omega), ← hc2, ← hc1, ← ha2, ← ha1]

/-- The carve after a cut that returns. -/
theorem heapAllocCarve_ok {n block k : ℕ} (h : heapCarve n m heap k align = .ok (m', block)) :
    heapAllocCarve n m heap k bsize align = (do
      let m ← heapPlace n m' heap block bsize
      return (m, heapGetPayload block)) := by
  unfold heapAllocCarve
  rw [h, ok_bind]

/-- A carve that always fails. -/
theorem not_carves {e : Halt} (h : Stops (fun n => heapAllocCarve n m heap b.addr bsize align) e) :
    ¬ Carves m heap xs b ys bsize align := by
  rintro ⟨m', p, bs, hret, -⟩
  exact hret.not_stops h

/-- The carve without a cut before the used block. -/
theorem Held.carves_whole (h : Held m heap xs b ys) (hd : bsize % 16 = 0)
    (hmin : HEAP_LIST_MIN ≤ bsize) (hle : bsize ≤ b.size)
    (hc : (align && !heapIsPageAligned (heapGetPayload b.addr)) = false) :
    Carves m heap xs b ys bsize align ↔ b.size - bsize ≠ HEAP_LIST_MAX := by
  have hcarve : ∀ n, heapCarve n m heap b.addr align = .ok (m, b.addr) := heapCarve_whole hc
  constructor
  · intro hcs he
    have hstop (n : ℕ) : heapAllocCarve n m heap b.addr bsize align = .error .bounds := by
      rw [heapAllocCarve_ok (hcarve n), h.loose.place_max hmin hd hle he, error_bind]
    exact not_carves (Filter.Eventually.of_forall hstop) hcs
  · intro hne
    obtain ⟨m', u, rest, hret, htags, hs⟩ := h.loose.place hmin hd hle hne
    refine ⟨m', _, _, ?_, htags, hs.pieces fun hal => ?_⟩
    · filter_upwards [hret] with n hn
      rw [heapAllocCarve_ok (hcarve n), hn]
      exact ok_bind _ _
    · rw [hal] at hc
      simpa using hc

/-- The carve with a cut before the used block. -/
theorem Held.carves_left (h : Held m heap xs b ys) (hd : bsize % 16 = 0)
    (hmin : HEAP_LIST_MIN ≤ bsize)
    (hc : (align && !heapIsPageAligned (heapGetPayload b.addr)) = true)
    (hl : HEAP_LIST_MIN ≤ alignedLeft b.addr) (hle : alignedLeft b.addr + bsize ≤ b.size) :
    Carves m heap xs b ys bsize align ↔ alignedLeft b.addr ≠ HEAP_LIST_MAX ∧
      b.size - alignedLeft b.addr - bsize ≠ HEAP_LIST_MAX := by
  obtain ⟨m₁, a, c, ha1, ha2, hac, hs, hpage, hloose, hx, hcarve⟩ := h.cut_left hmin hc hl hle
  have hcs : c.size = b.size - alignedLeft b.addr := by omega
  rw [← ha2, show b.size - a.size - bsize = c.size - bsize by omega]
  by_cases hmax : a.size = HEAP_LIST_MAX
  · -- the block before the used one has no entry
    have hsize := (hloose.tags.tagged a (by simp)).getSize
    have hstop (n : ℕ) : heapAllocCarve n m heap b.addr bsize align = .error .bounds := by
      unfold heapAllocCarve
      rw [hcarve, heapInsert_max (by rw [hsize, hmax]), error_bind, error_bind]
    have hno : ¬ Carves m heap xs b ys bsize align :=
      not_carves (Filter.Eventually.of_forall hstop)
    simp only [hno, hmax, ne_eq, not_true_eq_false, false_and]
  · obtain ⟨m₂, hret, hloose'⟩ := hloose.insert_left hx hmax
    have hfirst (n : ℕ) (hn : heapInsert n m₁ heap a.addr = .ok m₂) :
        heapAllocCarve n m heap b.addr bsize align = (do
          let m ← heapPlace n m₂ heap c.addr bsize
          return (m, heapGetPayload c.addr)) := by
      refine heapAllocCarve_ok ?_
      rw [hcarve, hn]
      exact ok_bind _ _
    simp only [ne_eq, hmax, not_false_iff, true_and]
    constructor
    · intro hcv he
      have hstop : Stops (fun n => heapAllocCarve n m heap b.addr bsize align) .bounds := by
        filter_upwards [hret] with n hn
        rw [hfirst n hn, hloose'.place_max hmin hd (by omega) he, error_bind]
      exact not_carves hstop hcv
    · intro hne
      obtain ⟨m', u, rest, hret', htags, hsp⟩ := hloose'.place hmin hd (by omega) hne
      have e : xs ++ [a] ++ u :: rest ++ ys = xs ++ a :: u :: rest ++ ys := by simp
      rw [e] at htags
      refine ⟨m', _, _, ?_, htags, hsp.pieces_left (hloose.free a (by simp)) ha1 hac hs hpage⟩
      filter_upwards [hret, hret'] with n hn hn'
      rw [hfirst n hn, hn']
      exact ok_bind _ _

end carve

/-! ### Which carves succeed -/

/-- A free block at the start of a heap at `0x100000`. -/
def loneBlock (size : ℕ) (hmin : HEAP_LIST_MIN ≤ size) (hdvd : size % 16 = 0) : Block :=
  ⟨0x100220, size, false, hmin, hdvd⟩

/-- The heap of one block, with an empty index. -/
def loneMem (size : ℕ) : Mem :=
  heapCreateBlock (wr (wr (fun _ => 0) 0x100000 0x100220) 0x100008 (0x100220 + size)) 0x100220 size

theorem lone_held {m : Mem} {b : Block} (hu : b.used = false) (hb : b.addr = 0x100220)
    (hst : heapStartAddr m 0x100000 = b.addr) (hen : heapEndAddr m 0x100000 = b.addr + b.size)
    (hslot : ∀ i < HEAP_LIST_COUNT + 1, rd m (heapFreeSlot 0x100000 i) = 0) (ht : Tagged m b) :
    Held m 0x100000 [] b [] := by
  refine ⟨⟨rfl, hst.trans hb, ?_, fun c hc => ?_, by simp, ⟨by simp, ?_⟩⟩, hu⟩
  · rw [hen]
    exact ⟨hb, hb ▸ rfl⟩
  · rw [List.mem_singleton.mp hc]
    exact ht
  · refine ⟨fun _ => [], [], ?_⟩
    rw [hslot _ (Nat.lt_succ_self _), List.append_nil, freeAddrs_nil]
    exact FreeIndex.empty fun i hi => hslot i (by omega)

/-- A free block of 1104 bytes. -/
def wideBlock : Block := loneBlock 1104 (by decide) rfl

def wideMem : Mem := loneMem 1104

theorem wideMem_held : Held wideMem 0x100000 [] wideBlock [] :=
  lone_held rfl rfl (by decide +kernel) (by decide +kernel) (by decide +kernel)
    (by constructor <;> decide +kernel)

/-- A free block of two pages. -/
def longBlock : Block := loneBlock 8192 (by decide) rfl

def longMem : Mem := loneMem 8192

theorem longMem_held : Held longMem 0x100000 [] longBlock [] :=
  lone_held rfl rfl (by decide +kernel) (by decide +kernel) (by decide +kernel)
    (by constructor <;> decide +kernel)

/-- A request of 48 bytes leaves 1056, and the carve goes beyond the array. -/
theorem wideMem_stops (n : ℕ) :
    heapAllocCarve n wideMem 0x100000 wideBlock.addr 48 false = .error .bounds := by
  have hc : (false && !heapIsPageAligned (heapGetPayload wideBlock.addr)) = false := rfl
  have hmin : HEAP_LIST_MIN ≤ 48 := le_rfl
  rw [heapAllocCarve_ok (heapCarve_whole hc n),
    wideMem_held.loose.place_max hmin rfl (by decide) rfl, error_bind]

section carve

variable {m : Mem} {heap bsize : ℕ} {align : Bool} {xs ys : List Block} {b : Block}

/-- **The carve of a block** replaces it by its pieces unless one that goes back into the index is
`HEAP_LIST_MAX` bytes long. -/
theorem heap_alloc_carve (h : Held m heap xs b ys) (hd : bsize % 16 = 0)
    (hmin : HEAP_LIST_MIN ≤ bsize) (hle : bsize ≤ b.size)
    (hal : align = true → heapIsPageAligned (heapGetPayload b.addr) = true ∨
      (HEAP_LIST_MIN ≤ alignedLeft b.addr ∧ alignedLeft b.addr + bsize ≤ b.size)) :
    Carves m heap xs b ys bsize align ↔ carveLeft align b.addr ≠ HEAP_LIST_MAX ∧
      b.size - carveLeft align b.addr - bsize ≠ HEAP_LIST_MAX := by
  unfold carveLeft
  by_cases hc : (align && !heapIsPageAligned (heapGetPayload b.addr)) = true
  · obtain ⟨hl, hlb⟩ : HEAP_LIST_MIN ≤ alignedLeft b.addr ∧
        alignedLeft b.addr + bsize ≤ b.size := by
      rw [Bool.and_eq_true, Bool.not_eq_true'] at hc
      rcases hal hc.1 with hp | hp
      · rw [hc.2] at hp
        cases hp
      · exact hp
    rw [if_pos hc]
    exact h.carves_left hd hmin hc hl hlb
  · have hzero : (0 : ℕ) ≠ HEAP_LIST_MAX := by decide
    rw [if_neg hc, Nat.sub_zero, h.carves_whole hd hmin hle (Bool.eq_false_iff.mpr hc)]
    exact (and_iff_right hzero).symm

end carve

/-- An aligned request for 96 bytes is carved from the middle: 3536 bytes stay before it and 4560
behind it. -/
theorem heap_alloc_carve_middle : Carves longMem 0x100000 [] longBlock [] 96 true :=
  (heap_alloc_carve longMem_held rfl (by decide) (by decide) (by decide)).mpr (by decide)

theorem heap_alloc_carve_overrun : ∃ m heap xs b ys bsize, Held m heap xs b ys ∧ bsize % 16 = 0 ∧
    HEAP_LIST_MIN ≤ bsize ∧ bsize ≤ b.size ∧ ¬ Carves m heap xs b ys bsize false ∧
    ∀ n, heapAllocCarve n m heap b.addr bsize false = .error .bounds :=
  ⟨wideMem, 0x100000, [], wideBlock, [], 48, wideMem_held, rfl, by decide, by decide,
    not_carves (Filter.Eventually.of_forall wideMem_stops), wideMem_stops⟩

end Dawos
