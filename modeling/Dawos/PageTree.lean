import Dawos.PagePool

/-! # Deleting from the tree of page blocks

`page_tree_delete` alone.  `PageTree p S` says that the tree of the pool is well-formed and that its
nodes are exactly the blocks `S`.  The deletion keeps this exactly for a block without a child: the
next child of the deleted one, in the middle of a chain or in the place of a head, keeps it as its
parent. -/

namespace Dawos

/-- The tree is well-formed, with the nodes `S`. -/
def PageTree (p : PagePool) (S : Set ℕ) : Prop :=
  ∃ T, SizeTree (treeFields id p.mem) 0 p.tree T ∧ ∀ z, z ∈ nodes T ↔ z ∈ S

section pagetree

variable {m m' : Mem} {p : PagePool} {b root : ℕ} {S : Set ℕ} {T : Chains ℕ}

/-- The tree as an index without lists. -/
abbrev PageTreeIndex (m : Mem) (root : ℕ) (S : Set ℕ) (T : Chains ℕ) : Prop :=
  FreeIndex id (fun _ => -1) 0 m (fun _ => 0) root S (fun _ => []) T

theorem PageTree.index (h : PageTree p S) (hS : Spaced S) :
    ∃ T, PageTreeIndex p.mem p.tree S T := by
  obtain ⟨T, ht, hT⟩ := h
  refine ⟨T, hS, fun z => ?_, (by simp), (by simp), (by simp), (by simp), ht, fun _ _ => by decide⟩
  rw [← hT z]
  simp

theorem PageTree.of_index (h : PageTreeIndex p.mem p.tree S T) : PageTree p S := by
  refine ⟨T, h.tree, fun z => ?_⟩
  rw [h.mem z]
  simp

/-- Deleting a block without a child. -/
theorem pageTreeDelete_last (hx : PageTreeIndex p.mem p.tree S T) (hb : b ∈ S)
    (hc : childBlock p.mem b = 0) : PageTree (pageTreeDelete p b) (S \ {b}) := by
  have hneg : (-1 : ℤ) < 0 := by decide
  have hbT := hx.mem_tree_iff.mpr ⟨hb, hneg⟩
  unfold pageTreeDelete
  simp only [pageClearNode_eq]
  by_cases hp : parentBlock p.mem b = 0
  · obtain ⟨⟨T', hun⟩, -⟩ := hx.detachHead hb hneg hp hc
    simp only [hp, hc, ne_eq, not_true, if_false]
    exact PageTree.of_index hun
  · obtain ⟨⟨T', hun⟩, -⟩ := hx.detachChild hb hneg hp
    simp only [hp, ne_eq, not_false_iff, if_true, setChild_last hx hbT hc hp]
    exact PageTree.of_index hun

/-- The words for the child and the parent of a node lie behind those of a list item. -/
theorem itemBytes_chain (hS : Spaced S) (hf : AgreeOff m m' (itemBytes S)) (hb : b ∈ S) :
    childBlock m' b = childBlock m b ∧ parentBlock m' b = parentBlock m b := by
  have hoff : ∀ x, b + 32 ≤ x → x < b + 48 → ¬ itemBytes S x := by
    rintro x h1 h2 ⟨a, ha, h3, h4⟩
    rcases eq_or_ne a b with rfl | hne
    · omega
    · have := hS.apart a ha b hb hne
      omega
  exact ⟨hf.rd fun x h1 h2 => hoff x (by omega) (by omega),
    hf.rd fun x h1 h2 => hoff x (by omega) (by omega)⟩

/-- Without a parent, copying the branches of a head writes no links of chains. -/
theorem pageCopyBranches_frame (hS : Spaced S) (hb : b ∈ S) (hc : childBlock m b ∈ S)
    (hl : largerBlock m b ≠ 0 → largerBlock m b ∈ S ∧ largerBlock m b ≠ b)
    (hsm : smallerBlock m b ≠ 0 → smallerBlock m b ∈ S) (hp : parentBlock m b = 0) :
    AgreeOff m (pageCopyBranches m b).1 (itemBytes S) := by
  have hlt (m : Mem) : childBlock m b < 2 ^ 64 := rd_lt m _
  have hlt' (m : Mem) : largerBlock m b < 2 ^ 64 := rd_lt m _
  have h0 := AgreeOff.refl m (itemBytes S)
  unfold pageCopyBranches
  extract_lets m₁ m₂ m₃ m₄ m₅ m₆
  -- `m₂` has the links of the larger head, `m₄` those of the smaller one
  have h2 : AgreeOff m m₂ (itemBytes S) ∧ smallerBlock m₂ b = smallerBlock m b := by
    unfold m₂
    split_ifs with h
    · obtain ⟨hlS, hlb⟩ := hl h
      have hf : AgreeOff m m₁ (itemBytes S) := h0.setPrev hlS _
      have hs : smallerBlock m₁ b = smallerBlock m b := by
        unfold m₁
        rw [(hS.setSmaller hlS hb (hlt m)).1, if_neg hlb.symm]
      rw [(itemBytes_chain hS hf hb).1]
      exact ⟨hf.setNext hc _, by rw [(hS.setLarger hc hb (hlt' _)).1, hs]⟩
    · exact ⟨h0.setNext hc 0, (hS.setLarger hc hb (by norm_num)).1⟩
  clear_value m₂
  have h4 : AgreeOff m m₄ (itemBytes S) := by
    unfold m₄
    split_ifs with h
    · rw [h2.2] at h
      have hf : AgreeOff m m₃ (itemBytes S) := by
        unfold m₃
        rw [h2.2]
        exact h2.1.setNext (hsm h) _
      rw [(itemBytes_chain hS hf hb).1]
      exact hf.setPrev hc _
    · rw [(itemBytes_chain hS h2.1 hb).1]
      exact h2.1.setPrev hc 0
  clear_value m₄
  have hp4 : parentBlock m₄ b = 0 := (itemBytes_chain hS h4 hb).2.trans hp
  have h6 : m₆ = m₄ := by
    unfold m₆
    rw [hp4, if_neg (by simp)]
  clear_value m₆
  rw [← h6] at h4
  exact h4

/-- A block is a head, or has another block as its parent. -/
theorem parent_cases (hx : PageTreeIndex m root S T) (hb : b ∈ S) :
    parentBlock m b = 0 ∧ b ∈ heads T ∨
      parentBlock m b ≠ 0 ∧ parentBlock m b ∈ S ∧ parentBlock m b ≠ b := by
  have hbT := hx.mem_tree_iff.mpr ⟨hb, (by decide : (-1 : ℤ) < 0)⟩
  rcases split_of_mem_nodes hbT with ⟨A, cs, B, rfl⟩ | ⟨A, q, xs, ys, B, rfl⟩
  · exact Or.inl ⟨hx.tree.head_links.2.2.1, by simp⟩
  · obtain ⟨-, -, hpS, hpb, -⟩ := chain_neighbours hx.tree hx.tree_sub
    exact Or.inr ⟨hx.spaced.pos _ hpS, hpS, hpb⟩

/-- The child of a deleted block keeps it as its parent. -/
theorem pageTreeDelete_parent (hx : PageTreeIndex p.mem p.tree S T) (hb : b ∈ S)
    (hc : childBlock p.mem b ≠ 0) :
    childBlock p.mem b ∈ S \ {b} ∧
      parentBlock (pageTreeDelete p b).mem (childBlock p.mem b) = b := by
  have hS := hx.spaced
  have hbT := hx.mem_tree_iff.mpr ⟨hb, (by decide : (-1 : ℤ) < 0)⟩
  obtain ⟨hcT, hcp⟩ := hx.parent_of_child hbT hc
  have hcS := hx.tree_sub _ hcT
  have hcb : childBlock p.mem b ≠ b := fun e => by
    rw [e] at hcp
    obtain ⟨h0, -⟩ | ⟨-, -, hne⟩ := parent_cases hx hb
    · exact hS.pos b hb (hcp.symm.trans h0)
    · exact hne hcp
  refine ⟨⟨hcS, hcb⟩, ?_⟩
  unfold pageTreeDelete
  simp only [pageClearNode_eq]
  rw [(dropLinks_off hS hb _ _ hcS hcb).2.2.2]
  obtain ⟨hp, hhead⟩ | ⟨hp, hpS, -⟩ := parent_cases hx hb
  · have hframe : AgreeOff p.mem (pageCopyBranches p.mem b).1 (itemBytes S) := by
      refine pageCopyBranches_frame hS hb hcS (fun h => ?_) (fun h => ?_) hp
      · obtain ⟨h1, h2, -⟩ := hx.tree.larger_step hhead h
        exact ⟨hx.tree_sub _ (heads_sub h1), fun e => by
          have e' : (treeFields id p.mem).larger b = b := e
          rw [e'] at h2
          omega⟩
      · exact hx.tree_sub _ (heads_sub (hx.tree.smaller_step hhead h).1)
    simp only [hp, hc, ne_eq, not_true, not_false_iff, if_true, if_false]
    exact (itemBytes_chain hS hframe hcS).2.trans hcp
  · simp only [hp, ne_eq, not_false_iff, if_true]
    have hlt : childBlock p.mem b < 2 ^ 64 := rd_lt p.mem _
    rw [(hS.setChild hpS hcS hlt).2.2.2.1]
    exact hcp

/-- Deleting a block with a child leaves a node whose parent is gone. -/
theorem pageTreeDelete_stale (h : PageTree p S) (hS : Spaced S) (hb : b ∈ S)
    (hc : childBlock p.mem b ≠ 0) : ¬ PageTree (pageTreeDelete p b) (S \ {b}) := by
  intro h'
  obtain ⟨T, hx⟩ := h.index hS
  obtain ⟨T', hx'⟩ := h'.index (hS.mono Set.sdiff_subset)
  obtain ⟨hcm, hpar⟩ := pageTreeDelete_parent hx hb hc
  obtain ⟨h0, -⟩ | ⟨-, hmem, -⟩ := parent_cases hx' hcm
  · exact hS.pos b hb (hpar.symm.trans h0)
  · rw [hpar] at hmem
    exact hmem.2 rfl

/-- **Deleting a block** leaves a well-formed tree of the other blocks exactly if it has no child. -/
theorem page_tree_delete_iff (h : PageTree p S) (hS : Spaced S) (hb : b ∈ S) :
    PageTree (pageTreeDelete p b) (S \ {b}) ↔ childBlock p.mem b = 0 := by
  constructor
  · intro h'
    by_contra hc
    exact pageTreeDelete_stale h hS hb hc h'
  · intro hc
    obtain ⟨T, hx⟩ := h.index hS
    exact pageTreeDelete_last hx hb hc

end pagetree

/-! ### A chain of two blocks -/

/-- Blocks of 33 pages at 2 and 3 megabytes, the second one below the first one. -/
def pageChain : PagePool where
  mem := setParent (setChild (wr (wr (fun _ => 0) 0x200008 0x21000) 0x300008 0x21000)
    0x200000 0x300000) 0x300000 0x200000
  list := fun _ => 0
  tree := 0x200000

theorem pageChain_spaced : Spaced {0x200000, 0x300000} := by
  refine ⟨?_, ?_, ?_⟩
  · rintro a (rfl | rfl) b (rfl | rfl) hne <;> first | exact absurd rfl hne | omega
  · rintro a (rfl | rfl) <;> norm_num
  · rintro a (rfl | rfl) <;> norm_num

theorem pageChain_tree : PageTree pageChain {0x200000, 0x300000} := by
  refine ⟨[(0x200000, [0x300000])], ⟨⟨?_, ?_, trivial⟩, ?_, ?_, ?_, by simp, ?_, by simp [nodes],
    by simp [nodes]⟩, by simp [nodes]⟩
  · decide +kernel
  · decide +kernel
  · rintro t ht
    rw [List.mem_singleton.mp ht]
    exact ⟨by decide +kernel, by decide +kernel, by decide +kernel, by decide +kernel, trivial⟩
  · simp [heads]
  · rintro t ht c hc
    rw [List.mem_singleton.mp ht] at hc ⊢
    rw [List.mem_singleton.mp hc]
    decide +kernel
  · intro
    simp [heads, pageChain]

/-- The last block of the chain is deleted. -/
theorem page_tree_delete_last : PageTree (pageTreeDelete pageChain 0x300000)
      ({0x200000, 0x300000} \ {0x300000}) ↔ childBlock pageChain.mem 0x300000 = 0 :=
  page_tree_delete_iff pageChain_tree pageChain_spaced (Or.inr rfl)

/-- The first block of the chain is deleted: the second one keeps it as its parent. -/
theorem page_tree_delete_head : ∃ p S b, PageTree p S ∧ Spaced S ∧ b ∈ S ∧
    ¬ PageTree (pageTreeDelete p b) (S \ {b}) :=
  ⟨pageChain, {0x200000, 0x300000}, 0x200000, pageChain_tree, pageChain_spaced, Or.inl rfl,
    pageTreeDelete_stale pageChain_tree pageChain_spaced (Or.inl rfl) (by decide +kernel)⟩

end Dawos
