import Dawos.HeapIndex

/-! # The free tree of the heap

The two operations on the tree alone, `heap_tree_insert` and `heap_tree_delete`, with the root in
the word at `tree`.  `HeapTree m tree S` says that the tree is well-formed and that its nodes are
exactly the blocks `S`.  The insertion keeps this always; the deletion keeps it exactly when the
block is inside a chain or has no chain, since the child of a head that takes its place keeps the
deleted head as its parent. -/

namespace Dawos

/-- The tree with its root in the word at `tree` is well-formed, with the nodes `S`. -/
def HeapTree (m : Mem) (tree : ℕ) (S : Set ℕ) : Prop :=
  ∃ T, SizeTree (treeFields heapAlign m) 0 (rd m tree) T ∧ ∀ z, z ∈ nodes T ↔ z ∈ S

/-- The nodes `S` and the word with the root do not overlap. -/
structure TreeSpace (tree : ℕ) (S : Set ℕ) : Prop where
  spaced : Spaced S
  root : ∀ a ∈ S, tree + 8 ≤ a ∨ a + 48 ≤ tree

section tree

variable {m m' : Mem} {tree b c v : ℕ} {S : Set ℕ} {T : Chains ℕ}

/-- The tree as an index without lists. -/
abbrev TreeIndex (m : Mem) (root : ℕ) (S : Set ℕ) (T : Chains ℕ) : Prop :=
  FreeIndex heapAlign (fun _ => -1) 0 m (fun _ => 0) root S (fun _ => []) T

theorem HeapTree.index (h : HeapTree m tree S) (hS : Spaced S) :
    ∃ T, TreeIndex m (rd m tree) S T := by
  obtain ⟨T, ht, hT⟩ := h
  refine ⟨T, hS, fun z => ?_, (by simp), (by simp), (by simp), (by simp), ht, fun _ _ => by decide⟩
  rw [← hT z]
  simp

theorem HeapTree.of_index (h : TreeIndex m (rd m tree) S T) : HeapTree m tree S := by
  refine ⟨T, h.tree, fun z => ?_⟩
  rw [h.mem z]
  simp

/-- The root is not among the links. -/
theorem TreeSpace.root_frame (h : TreeSpace tree S) (hf : AgreeOff m m' (treeBytes S)) :
    rd m' tree = rd m tree := by
  refine hf.rd fun x h1 h2 => ?_
  rintro ⟨a, ha, h3, h4⟩
  have := h.root a ha
  omega

/-- The links are not in the word of the root. -/
theorem TreeSpace.wr_node (h : TreeSpace tree S) :
    ∀ a ∈ S, ∀ x, a + 8 ≤ x → x < a + 48 → wr m tree v x = m x := fun a ha x h1 h2 => by
  have := h.root a ha
  exact wr_off m v (by omega)

/-- A new root. -/
theorem HeapTree.wr_root (h : TreeIndex m v S T) (hs : TreeSpace tree S) (hv : v < 2 ^ 64) :
    HeapTree (wr m tree v) tree S := by
  have hx : TreeIndex (wr m tree v) v S T := h.congr hs.wr_node fun _ _ => rfl
  apply HeapTree.of_index (T := T)
  rw [rd_wr_same, Nat.mod_eq_of_lt hv]
  exact hx

/-- **Inserting a block.** -/
theorem heap_tree_insert (h : HeapTree m tree S) (hs : TreeSpace tree (insert b S)) (hb : b ∉ S)
    (hsize : HEAP_TREE_DATA_SIZE ≤ heapGetSize m b) :
    ∃ m', Returns (fun n => heapTreeInsert n m tree b) (true, m') ∧
      HeapTree m' tree (insert b S) := by
  obtain ⟨T, hx⟩ := h.index (hs.spaced.mono (Set.subset_insert b S))
  have hbU : b ∈ insert b S := Set.mem_insert b S
  have hneg : (-1 : ℤ) < 0 := by decide
  have hclear : rd (clearLinks m b) tree = rd m tree := by
    obtain ⟨-, h2, h3⟩ := hx.ready hb hs.spaced
    exact hs.root_frame (h2.mono (treeBytes_mono h3))
  by_cases hr : rd m tree = 0
  · obtain ⟨hlink, -, -⟩ := hx.linkFirst hr hb hs.spaced hneg
    refine ⟨wr (clearLinks m b) tree b, Returns.of_eq fun _ => ?_,
      HeapTree.wr_root hlink hs (hs.spaced.lt hbU)⟩
    unfold heapTreeInsert
    simp only [hsize, if_true, hclear, hr]
  · obtain ⟨m', T', hret, hlink, hframe, -⟩ := hx.link hr hb hs.spaced hneg
    refine ⟨m', ?_, HeapTree.of_index (T := T') ?_⟩
    · filter_upwards [hret] with n hn
      unfold heapTreeInsert
      simp only [hsize, if_true, hclear, hr, if_false, hn]
      rfl
    · rw [hs.root_frame (hframe.mono linkBytes_sub)]
      exact hlink

/-- Clearing the links of a node before or after the store of the root. -/
theorem TreeSpace.dropLinks_wr (hs : TreeSpace tree S) (hb : b ∈ S) :
    dropLinks (wr m tree v) b = wr (dropLinks m b) tree v := by
  have := hs.root b hb
  unfold dropLinks setChild setParent setLarger setSmaller
  dsimp only
  rw [wr_comm m v 0 (by omega), wr_comm _ v 0 (by omega), wr_comm _ v 0 (by omega),
    wr_comm _ v 0 (by omega)]

/-- Deleting a block inside a chain. -/
theorem heapTreeDelete_child (hx : TreeIndex m (rd m tree) S T) (hs : TreeSpace tree S)
    (hb : b ∈ S) (hp : parentBlock m b ≠ 0) : HeapTree (heapTreeDelete m tree b) tree (S \ {b}) := by
  obtain ⟨⟨T', hun⟩, hf, -⟩ := hx.detachChild hb (by decide : (-1 : ℤ) < 0) hp
  unfold heapTreeDelete
  simp only [hp, ne_eq, not_false_iff, if_true]
  apply HeapTree.of_index (T := T')
  rw [hs.root_frame (hf.mono linkBytes_sub)]
  exact hun

/-- Deleting a head without a chain. -/
theorem heapTreeDelete_head (hx : TreeIndex m (rd m tree) S T) (hs : TreeSpace tree S)
    (hb : b ∈ S) (hp : parentBlock m b = 0) (hc : childBlock m b = 0) :
    HeapTree (heapTreeDelete m tree b) tree (S \ {b}) := by
  obtain ⟨⟨T', hun⟩, hf, hf', -⟩ := hx.detachHead hb (by decide : (-1 : ℤ) < 0) hp hc
  have hroot : rd (unlinkHead m b).1 tree = rd m tree := hs.root_frame hf
  unfold heapTreeDelete
  simp only [hp, hc, ne_eq, not_true, if_false, hroot]
  split_ifs at hun ⊢ with he
  · rw [hs.dropLinks_wr hb]
    have hs' : TreeSpace tree (S \ {b}) := ⟨hun.spaced, fun a ha => hs.root a ha.1⟩
    exact HeapTree.wr_root hun hs' (unlinkHead_lt m b)
  · apply HeapTree.of_index (T := T')
    rw [hs.root_frame (hf'.mono linkBytes_sub)]
    exact hun

/-- What the promotion of the child `c` of `b` relies on and keeps. -/
structure Promoting (m : Mem) (b c : ℕ) (m' : Mem) : Prop where
  child : childBlock m' b = c
  smaller : smallerBlock m' b = smallerBlock m b
  parent : parentBlock m' c = parentBlock m c

theorem Promoting.setSmaller (h : Promoting m b c m') (hS : Spaced S) (hb : b ∈ S) (hc : c ∈ S)
    {a : ℕ} (ha : a ∈ S) (hab : b ≠ a) (hv : v < 2 ^ 64) : Promoting m b c (setSmaller m' a v) := by
  refine ⟨?_, ?_, ?_⟩
  · rw [(hS.setSmaller ha hb hv).2.2.1, h.child]
  · rw [(hS.setSmaller ha hb hv).1, if_neg hab, h.smaller]
  · rw [(hS.setSmaller ha hc hv).2.2.2.1, h.parent]

theorem Promoting.setLarger (h : Promoting m b c m') (hS : Spaced S) (hb : b ∈ S) (hc : c ∈ S)
    {a : ℕ} (ha : a ∈ S) (hv : v < 2 ^ 64) : Promoting m b c (setLarger m' a v) := by
  refine ⟨?_, ?_, ?_⟩
  · rw [(hS.setLarger ha hb hv).2.2.1, h.child]
  · rw [(hS.setLarger ha hb hv).1, h.smaller]
  · rw [(hS.setLarger ha hc hv).2.2.2.1, h.parent]

/-- The promotion writes the neighbours' links and two links of the child, not its parent. -/
theorem promoteChild_spec (hS : Spaced S) (hb : b ∈ S) (hc : childBlock m b ∈ S)
    (hcb : childBlock m b ≠ b) (hl : largerBlock m b ≠ 0 → largerBlock m b ∈ S ∧ largerBlock m b ≠ b)
    (hsm : smallerBlock m b ≠ 0 → smallerBlock m b ∈ S) :
    Promoting m b (childBlock m b) (promoteChild m b).1 := by
  have hlt (m : Mem) : childBlock m b < 2 ^ 64 := rd_lt m _
  have hlt' (m : Mem) : largerBlock m b < 2 ^ 64 := rd_lt m _
  have hlt'' (m : Mem) : smallerBlock m b < 2 ^ 64 := rd_lt m _
  have h0 : Promoting m b (childBlock m b) m := ⟨rfl, rfl, rfl⟩
  unfold promoteChild
  extract_lets m1 m2 m3 m4
  have h1 : Promoting m b (childBlock m b) m1 := by
    show Promoting m b (childBlock m b) (if largerBlock m b ≠ 0 then _ else m)
    split_ifs with h
    · exact h0.setSmaller hS hb hc (hl h).1 (hl h).2.symm (hlt m)
    · exact h0
  have h2 : Promoting m b (childBlock m b) m2 := by
    show Promoting m b (childBlock m b) (Dawos.setLarger m1 (childBlock m1 b) (largerBlock m1 b))
    rw [h1.child]
    exact h1.setLarger hS hb hc hc (hlt' m1)
  have h3 : Promoting m b (childBlock m b) m3 := by
    show Promoting m b (childBlock m b) (if smallerBlock m2 b ≠ 0 then _ else m2)
    rw [h2.smaller]
    split_ifs with h
    · exact h2.setLarger hS hb hc (hsm h) (hlt m2)
    · exact h2
  show Promoting m b (childBlock m b) (Dawos.setSmaller m3 (childBlock m3 b) (smallerBlock m3 b))
  rw [h3.child]
  exact h3.setSmaller hS hb hc hc hcb.symm (hlt'' m3)

/-- The child of a deleted head keeps it as its parent. -/
theorem heapTreeDelete_parent (hx : TreeIndex m (rd m tree) S T) (hs : TreeSpace tree S)
    (hb : b ∈ S) (hp : parentBlock m b = 0) (hc : childBlock m b ≠ 0) :
    childBlock m b ∈ S \ {b} ∧ parentBlock (heapTreeDelete m tree b) (childBlock m b) = b := by
  have hbT := hx.mem_tree_iff.mpr ⟨hb, (by decide : (-1 : ℤ) < 0)⟩
  obtain ⟨hcT, hcp⟩ := hx.parent_of_child hbT hc
  have hcS := hx.tree_sub _ hcT
  have hcb : childBlock m b ≠ b := fun e => by
    rw [e, hp] at hcp
    exact hx.spaced.pos b hb hcp.symm
  have hhead : b ∈ heads T := by
    rcases split_of_mem_nodes hbT with ⟨A, cs, B, rfl⟩ | ⟨A, p, xs, ys, B, rfl⟩
    · simp
    · have hpm := (chain_neighbours hx.tree hx.tree_sub).2.2.1
      rw [hp] at hpm
      exact absurd rfl (hx.spaced.pos 0 hpm)
  have hpro : Promoting m b (childBlock m b) (promoteChild m b).1 := by
    refine promoteChild_spec hx.spaced hb hcS hcb (fun h => ?_) fun h => ?_
    · obtain ⟨h1, h2, -⟩ := hx.tree.larger_step hhead h
      exact ⟨hx.tree_sub _ (heads_sub h1), fun e => by
        have e' : (treeFields heapAlign m).larger b = b := e
        rw [e'] at h2
        omega⟩
    · exact hx.tree_sub _ (heads_sub (hx.tree.smaller_step hhead h).1)
  refine ⟨⟨hcS, hcb⟩, ?_⟩
  unfold heapTreeDelete
  simp only [hp, hc, ne_eq, not_true, not_false_iff, if_true, if_false]
  rw [(dropLinks_off hx.spaced hb _ _ hcS hcb).2.2.2]
  split_ifs
  · have := hs.root _ hcS
    have e := rd_wr_apart (promoteChild m b).1 (a := tree) (b := childBlock m b + 40)
      (promoteChild m b).2 (by omega)
    exact e.trans (hpro.parent.trans hcp)
  · exact hpro.parent.trans hcp

/-- A block has a parent in the tree or none. -/
theorem HeapTree.parent_mem (h : HeapTree m tree S) (hS : Spaced S) (hc : c ∈ S)
    (hp : parentBlock m c ≠ 0) : parentBlock m c ∈ S := by
  obtain ⟨T, hx⟩ := h.index hS
  have hcT := hx.mem_tree_iff.mpr ⟨hc, (by decide : (-1 : ℤ) < 0)⟩
  rcases split_of_mem_nodes hcT with ⟨A, cs, B, rfl⟩ | ⟨A, p, xs, ys, B, rfl⟩
  · exact absurd hx.tree.head_links.2.2.1 hp
  · exact (chain_neighbours hx.tree hx.tree_sub).2.2.1

/-- Deleting a head with a chain leaves a node whose parent is gone. -/
theorem heapTreeDelete_promote (h : HeapTree m tree S) (hs : TreeSpace tree S) (hb : b ∈ S)
    (hp : parentBlock m b = 0) (hc : childBlock m b ≠ 0) :
    ¬ HeapTree (heapTreeDelete m tree b) tree (S \ {b}) := by
  intro h'
  obtain ⟨T, hx⟩ := h.index hs.spaced
  obtain ⟨hcm, hpar⟩ := heapTreeDelete_parent hx hs hb hp hc
  have hmem := h'.parent_mem (hs.spaced.mono Set.sdiff_subset) hcm
    (by rw [hpar]; exact hs.spaced.pos b hb)
  rw [hpar] at hmem
  exact hmem.2 rfl

/-- **Deleting a block** leaves a well-formed tree of the other blocks, unless it is a head with a
chain. -/
theorem heap_tree_delete_iff (h : HeapTree m tree S) (hs : TreeSpace tree S) (hb : b ∈ S) :
    HeapTree (heapTreeDelete m tree b) tree (S \ {b}) ↔
      parentBlock m b ≠ 0 ∨ childBlock m b = 0 := by
  constructor
  · intro h'
    by_contra hcon
    obtain ⟨hp, hc⟩ := not_or.mp hcon
    exact heapTreeDelete_promote h hs hb (not_not.mp hp) hc h'
  · intro hd
    obtain ⟨T, hx⟩ := h.index hs.spaced
    by_cases hp : parentBlock m b = 0
    · exact heapTreeDelete_head hx hs hb hp (hd.resolve_left (not_not.mpr hp))
    · exact heapTreeDelete_child hx hs hb hp

end tree

/-! ### Trees on given inputs -/

/-- A tree of three heads entered at the second one, with a node below the first one and the root at
`tree`, and two more blocks with sizes of its nodes and between them. -/
def headsMem (tree : ℕ) : Mem :=
  let m := wr (fun _ => 0) tree 0x10D900
  let m := setLarger (setChild (wr m 0x109C08 1536) 0x109C00 0x10BB00) 0x109C00 0x10D900
  let m := setParent (wr m 0x10BB08 1536) 0x10BB00 0x109C00
  let m := setLarger (setSmaller (wr m 0x10D908 2048) 0x10D900 0x109C00) 0x10D900 0x10F600
  let m := setSmaller (wr m 0x10F608 3072) 0x10F600 0x10D900
  wr (wr m 0x112008 1536) 0x113008 2560

/-- The chains of the tree. -/
def headsChains : Chains ℕ := [(0x109C00, [0x10BB00]), (0x10D900, []), (0x10F600, [])]

theorem heapTree_three : HeapTree (headsMem 0x1000) 0x1000 {z | z ∈ nodes headsChains} :=
  ⟨headsChains, by decide +kernel, fun _ => Iff.rfl⟩

/-- Blocks that are apart from each other and from the root. -/
theorem TreeSpace.of_list {tree : ℕ} {S : Set ℕ} (l : List ℕ) (hS : ∀ a ∈ S, a ∈ l)
    (h : ∀ a ∈ l, (∀ b ∈ l, a ≠ b → a + 48 ≤ b ∨ b + 48 ≤ a) ∧ a + 48 ≤ 2 ^ 64 ∧ a ≠ 0 ∧
      (tree + 8 ≤ a ∨ a + 48 ≤ tree)) : TreeSpace tree S :=
  ⟨⟨fun a ha b hb => (h a (hS a ha)).1 b (hS b hb), fun a ha => (h a (hS a ha)).2.1,
    fun a ha => (h a (hS a ha)).2.2.1⟩, fun a ha => (h a (hS a ha)).2.2.2⟩

/-- The tree with one more block, apart from the root at 4096. -/
theorem treeSpace_three {b : ℕ} (hb : b = 0x112000 ∨ b = 0x113000) :
    TreeSpace 0x1000 (insert b {z | z ∈ nodes headsChains}) := by
  refine .of_list (0x112000 :: 0x113000 :: nodes headsChains) ?_ (by decide)
  rintro a (rfl | ha)
  · rcases hb with rfl | rfl <;> decide
  · exact List.mem_cons_of_mem _ (List.mem_cons_of_mem _ ha)

/-- From the middle root down to the chain of an equal head, and up to between two heads. -/
theorem heap_tree_insert_three :
    (∃ m', Returns (fun n => heapTreeInsert n (headsMem 0x1000) 0x1000 0x112000) (true, m') ∧
      HeapTree m' 0x1000 (insert 0x112000 {z | z ∈ nodes headsChains})) ∧
    ∃ m', Returns (fun n => heapTreeInsert n (headsMem 0x1000) 0x1000 0x113000) (true, m') ∧
      HeapTree m' 0x1000 (insert 0x113000 {z | z ∈ nodes headsChains}) :=
  ⟨heap_tree_insert heapTree_three (treeSpace_three (.inl rfl)) (by decide) (by decide +kernel),
    heap_tree_insert heapTree_three (treeSpace_three (.inr rfl)) (by decide) (by decide +kernel)⟩

/-- The node of the chain and the root are deleted. -/
theorem heap_tree_delete_three :
    HeapTree (heapTreeDelete (headsMem 0x1000) 0x1000 0x10BB00) 0x1000
        ({z | z ∈ nodes headsChains} \ {0x10BB00}) ∧
      HeapTree (heapTreeDelete (headsMem 0x1000) 0x1000 0x10D900) 0x1000
        ({z | z ∈ nodes headsChains} \ {0x10D900}) :=
  ⟨(heap_tree_delete_iff heapTree_three (.of_list _ (fun _ h => h) (by decide)) (by decide)).mpr
      (.inl (by decide +kernel)),
    (heap_tree_delete_iff heapTree_three (.of_list _ (fun _ h => h) (by decide)) (by decide)).mpr
      (.inr (by decide +kernel))⟩

/-- Two blocks of one page, the second below the first one, and the root at 4096. -/
def chainMem : Mem :=
  let m := wr (wr (wr (fun _ => 0) 0x200008 0x1000) 0x300008 0x1000) 0x1000 0x200000
  setParent (setChild m 0x200000 0x300000) 0x300000 0x200000

theorem treeSpace_pair : TreeSpace 0x1000 {0x200000, 0x300000} :=
  .of_list [0x200000, 0x300000] (by rintro a (rfl | rfl) <;> decide) (by decide)

/-- A tree of one head and one node below it. -/
theorem heapTree_chain : HeapTree chainMem 0x1000 {0x200000, 0x300000} :=
  ⟨[(0x200000, [0x300000])], by decide +kernel, by simp [nodes]⟩

/-- The head of a chain of two blocks is deleted. -/
theorem heap_tree_delete_stale : ∃ m tree S b, HeapTree m tree S ∧ TreeSpace tree S ∧ b ∈ S ∧
    ¬ HeapTree (heapTreeDelete m tree b) tree (S \ {b}) :=
  ⟨chainMem, 0x1000, {0x200000, 0x300000}, 0x200000, heapTree_chain, treeSpace_pair, .inl rfl,
    heapTreeDelete_promote heapTree_chain treeSpace_pair (.inl rfl) (by decide +kernel)
      (by decide +kernel)⟩

end Dawos
