import Dawos.Loop
import Dawos.SizeTree

/-! # Free blocks as nodes

Both allocators of the loader, the heap (`heap.c`) and the pool of physical pages (`paging.c`),
keep their free blocks in the same two structures, threaded through the first bytes of the
blocks themselves:

* `free_item_t`: header, then `prev_block` at offset 16 and `next_block` at 24, for the
  segregated lists;
* `free_node_t`: header, then `smaller_block` at 16, `larger_block` at 24, `child_block` at 32
  and `parent_block` at 40, for the tree.

The header is a magic number followed by the size word at offset 8; `sz` is what the allocator
reads as a size from that word (the heap masks the flag bits, the pool does not).

The loop of `heap_tree_insert` and `page_tree_insert` is the same code up to `sz` and is
`treeLink` here; `treeLink_spec` is its specification over `SizeTree`. -/

namespace Dawos

/-! ### Fields -/

def prevBlock (m : Mem) (b : ℕ) : ℕ := rd m (b + 16)
def nextBlock (m : Mem) (b : ℕ) : ℕ := rd m (b + 24)
def smallerBlock (m : Mem) (b : ℕ) : ℕ := rd m (b + 16)
def largerBlock (m : Mem) (b : ℕ) : ℕ := rd m (b + 24)
def childBlock (m : Mem) (b : ℕ) : ℕ := rd m (b + 32)
def parentBlock (m : Mem) (b : ℕ) : ℕ := rd m (b + 40)

def setPrev (m : Mem) (b v : ℕ) : Mem := wr m (b + 16) v
def setNext (m : Mem) (b v : ℕ) : Mem := wr m (b + 24) v
def setSmaller (m : Mem) (b v : ℕ) : Mem := wr m (b + 16) v
def setLarger (m : Mem) (b v : ℕ) : Mem := wr m (b + 24) v
def setChild (m : Mem) (b v : ℕ) : Mem := wr m (b + 32) v
def setParent (m : Mem) (b v : ℕ) : Mem := wr m (b + 40) v

/-- The tree fields of every address. -/
def treeFields (sz : ℕ → ℕ) (m : Mem) : Fields ℕ where
  smaller := smallerBlock m
  larger := largerBlock m
  child := childBlock m
  parent := parentBlock m
  size a := sz (rd m (a + 8))

/-! ### Nodes that do not overlap -/

/-- Addresses of nodes whose header and link fields are apart from each other. -/
structure Spaced (S : Set ℕ) : Prop where
  apart : ∀ a ∈ S, ∀ b ∈ S, a ≠ b → a + 48 ≤ b ∨ b + 48 ≤ a
  le : ∀ a ∈ S, a + 48 ≤ 2 ^ 64
  pos : ∀ a ∈ S, a ≠ 0

namespace Spaced

variable {S S' : Set ℕ} {a b v i j : ℕ} {m m' : Mem}

theorem mono (h : Spaced S) (hs : S' ⊆ S) : Spaced S' :=
  ⟨fun a ha b hb => h.apart a (hs ha) b (hs hb), fun a ha => h.le a (hs ha),
    fun a ha => h.pos a (hs ha)⟩

theorem lt (h : Spaced S) (ha : a ∈ S) : a < 2 ^ 64 := by
  have := h.le a ha
  omega

/-- A field of one node after a store to a field of another one. -/
theorem rd_wr (h : Spaced S) (ha : a ∈ S) (hb : b ∈ S) (hv : v < 2 ^ 64)
    (hi : i % 8 = 0 ∧ i ≤ 40) (hj : j % 8 = 0 ∧ j ≤ 40) :
    rd (wr m (a + i) v) (b + j) = if b = a ∧ j = i then v else rd m (b + j) := by
  by_cases hab : b = a
  · subst hab
    rw [Dawos.rd_wr m v (by omega), Nat.mod_eq_of_lt hv]
    simp
  · have := h.apart b hb a ha hab
    rw [rd_wr_apart m v (by omega)]
    simp [hab]

/-- All fields of a node after a store to one link field of another one. -/
theorem fields_wr (h : Spaced S) (ha : a ∈ S) (hb : b ∈ S) (hv : v < 2 ^ 64)
    (hi : i % 8 = 0 ∧ 16 ≤ i ∧ i ≤ 40) :
    smallerBlock (wr m (a + i) v) b = (if b = a ∧ 16 = i then v else smallerBlock m b) ∧
      largerBlock (wr m (a + i) v) b = (if b = a ∧ 24 = i then v else largerBlock m b) ∧
      childBlock (wr m (a + i) v) b = (if b = a ∧ 32 = i then v else childBlock m b) ∧
      parentBlock (wr m (a + i) v) b = (if b = a ∧ 40 = i then v else parentBlock m b) ∧
      rd (wr m (a + i) v) (b + 8) = rd m (b + 8) := by
  have e (j : ℕ) (hj : j % 8 = 0 ∧ j ≤ 40) :
      rd (wr m (a + i) v) (b + j) = if b = a ∧ j = i then v else rd m (b + j) :=
    h.rd_wr ha hb hv (by omega) hj
  refine ⟨e 16 (by omega), e 24 (by omega), e 32 (by omega), e 40 (by omega), ?_⟩
  rw [e 8 (by omega), if_neg (by omega)]

theorem setSmaller (h : Spaced S) (ha : a ∈ S) (hb : b ∈ S) (hv : v < 2 ^ 64) :
    smallerBlock (Dawos.setSmaller m a v) b = (if b = a then v else smallerBlock m b) ∧
      largerBlock (Dawos.setSmaller m a v) b = largerBlock m b ∧
      childBlock (Dawos.setSmaller m a v) b = childBlock m b ∧
      parentBlock (Dawos.setSmaller m a v) b = parentBlock m b ∧
      rd (Dawos.setSmaller m a v) (b + 8) = rd m (b + 8) := by
  simpa [Dawos.setSmaller] using h.fields_wr ha hb hv (i := 16) (by omega)

theorem setLarger (h : Spaced S) (ha : a ∈ S) (hb : b ∈ S) (hv : v < 2 ^ 64) :
    smallerBlock (Dawos.setLarger m a v) b = smallerBlock m b ∧
      largerBlock (Dawos.setLarger m a v) b = (if b = a then v else largerBlock m b) ∧
      childBlock (Dawos.setLarger m a v) b = childBlock m b ∧
      parentBlock (Dawos.setLarger m a v) b = parentBlock m b ∧
      rd (Dawos.setLarger m a v) (b + 8) = rd m (b + 8) := by
  simpa [Dawos.setLarger] using h.fields_wr ha hb hv (i := 24) (by omega)

theorem setChild (h : Spaced S) (ha : a ∈ S) (hb : b ∈ S) (hv : v < 2 ^ 64) :
    smallerBlock (Dawos.setChild m a v) b = smallerBlock m b ∧
      largerBlock (Dawos.setChild m a v) b = largerBlock m b ∧
      childBlock (Dawos.setChild m a v) b = (if b = a then v else childBlock m b) ∧
      parentBlock (Dawos.setChild m a v) b = parentBlock m b ∧
      rd (Dawos.setChild m a v) (b + 8) = rd m (b + 8) := by
  simpa [Dawos.setChild] using h.fields_wr ha hb hv (i := 32) (by omega)

theorem setParent (h : Spaced S) (ha : a ∈ S) (hb : b ∈ S) (hv : v < 2 ^ 64) :
    smallerBlock (Dawos.setParent m a v) b = smallerBlock m b ∧
      largerBlock (Dawos.setParent m a v) b = largerBlock m b ∧
      childBlock (Dawos.setParent m a v) b = childBlock m b ∧
      parentBlock (Dawos.setParent m a v) b = (if b = a then v else parentBlock m b) ∧
      rd (Dawos.setParent m a v) (b + 8) = rd m (b + 8) := by
  simpa [Dawos.setParent] using h.fields_wr ha hb hv (i := 40) (by omega)

end Spaced

/-- The bytes of the tree links of the nodes in `S`. -/
def treeBytes (S : Set ℕ) (x : ℕ) : Prop := ∃ a ∈ S, a + 16 ≤ x ∧ x < a + 48

namespace AgreeOff

variable {m m' : Mem} {S : Set ℕ} {a : ℕ}

theorem setSmaller (h : AgreeOff m m' (treeBytes S)) (ha : a ∈ S) (v : ℕ) :
    AgreeOff m (setSmaller m' a v) (treeBytes S) :=
  h.wr v fun _ _ _ => ⟨a, ha, by omega, by omega⟩

theorem setLarger (h : AgreeOff m m' (treeBytes S)) (ha : a ∈ S) (v : ℕ) :
    AgreeOff m (setLarger m' a v) (treeBytes S) :=
  h.wr v fun _ _ _ => ⟨a, ha, by omega, by omega⟩

theorem setChild (h : AgreeOff m m' (treeBytes S)) (ha : a ∈ S) (v : ℕ) :
    AgreeOff m (setChild m' a v) (treeBytes S) :=
  h.wr v fun _ _ _ => ⟨a, ha, by omega, by omega⟩

theorem setParent (h : AgreeOff m m' (treeBytes S)) (ha : a ∈ S) (v : ℕ) :
    AgreeOff m (setParent m' a v) (treeBytes S) :=
  h.wr v fun _ _ _ => ⟨a, ha, by omega, by omega⟩

end AgreeOff

/-! ### Linking a node into the tree -/

/-- Clear the four links of a new node. -/
def clearLinks (m : Mem) (b : ℕ) : Mem :=
  let m := setParent m b 0
  let m := setChild m b 0
  let m := setSmaller m b 0
  setLarger m b 0

/-- One round of the insertion loop at the head `parent`: move on, or link `b` in and exit. -/
def treeLinkStep (sz : ℕ → ℕ) (m : Mem) (b : ℕ) (parent : ℕ) : ℕ ⊕ Mem :=
  let bsize := sz (rd m (b + 8))
  let blockSize := sz (rd m (parent + 8))
  if bsize < blockSize then
    if smallerBlock m parent = 0 then
      let m := setSmaller m parent b
      .inr (setLarger m b parent)
    else if sz (rd m (smallerBlock m parent + 8)) < bsize then
      let m := setSmaller m b (smallerBlock m parent)
      let m := setLarger m (smallerBlock m parent) b
      let m := setSmaller m parent b
      .inr (setLarger m b parent)
    else .inl (smallerBlock m parent)
  else if blockSize < bsize then
    if largerBlock m parent = 0 then
      let m := setLarger m parent b
      .inr (setSmaller m b parent)
    else if bsize < sz (rd m (largerBlock m parent + 8)) then
      let m := setLarger m b (largerBlock m parent)
      let m := setSmaller m (largerBlock m parent) b
      let m := setLarger m parent b
      .inr (setSmaller m b parent)
    else .inl (largerBlock m parent)
  else
    let m := if childBlock m parent ≠ 0 then
        let m := setParent m (childBlock m parent) b
        setChild m b (childBlock m parent)
      else m
    let m := setChild m parent b
    .inr (setParent m b parent)

/-- The insertion loop, started at a root that is not null. -/
def treeLink (sz : ℕ → ℕ) (fuel : ℕ) (m : Mem) (root b : ℕ) : Except Halt Mem :=
  loop (treeLinkStep sz m b) fuel root

/-! ### Specification of the insertion -/

section spec

variable {sz : ℕ → ℕ} {m m' : Mem} {S : Set ℕ} {root b p q : ℕ} {A B T : Chains ℕ}
  {cs : List ℕ}

/-- What an insertion of `b` achieves: a tree of the old nodes and `b`, which is not a head with a
chain, with writes to link fields only. -/
structure TreeLinked (sz : ℕ → ℕ) (m : Mem) (S : Set ℕ) (root b : ℕ) (T : Chains ℕ)
    (m' : Mem) : Prop where
  tree : ∃ T', SizeTree (treeFields sz m') 0 root T' ∧ T' ≠ [] ∧
    ∀ z, z ∈ nodes T' ↔ z = b ∨ z ∈ nodes T
  leaf : parentBlock m' b ≠ 0 ∨ childBlock m' b = 0
  frame : AgreeOff m m' (treeBytes S)

/-- The state an insertion starts from: `b` is a new node with cleared links. -/
structure TreeReady (sz : ℕ → ℕ) (m : Mem) (S : Set ℕ) (root b : ℕ) (T : Chains ℕ) : Prop where
  tree : SizeTree (treeFields sz m) 0 root T
  spaced : Spaced S
  sub : ∀ z ∈ nodes T, z ∈ S
  mem : b ∈ S
  fresh : b ∉ nodes T
  smaller : smallerBlock m b = 0
  larger : largerBlock m b = 0
  child : childBlock m b = 0
  parent : parentBlock m b = 0

/-- The size word of a node is not a link. -/
theorem Spaced.size_frame (h : Spaced S) (hf : AgreeOff m m' (treeBytes S)) {z : ℕ} (hz : z ∈ S) :
    rd m' (z + 8) = rd m (z + 8) := by
  refine hf.rd fun x h1 h2 => ?_
  rintro ⟨a, ha, h3, h4⟩
  by_cases e : a = z
  · subst e; omega
  · have := h.apart a ha z hz e
    omega

/-- Linking `b` in as a head between the heads `q` and `p`. -/
theorem TreeReady.link_head (h : TreeReady sz m S root b (A ++ B)) (hne : A ++ B ≠ [])
    (hq : q = (heads A).getLastD 0) (hp : p = (heads B).headD 0)
    (hA : ∀ a ∈ heads A, sz (rd m (a + 8)) < sz (rd m (b + 8)))
    (hB : ∀ a ∈ heads B, sz (rd m (b + 8)) < sz (rd m (a + 8)))
    (hs : ∀ z ∈ S, smallerBlock m' z = if z = b then q else if z = p then b else smallerBlock m z)
    (hl : ∀ z ∈ S, largerBlock m' z = if z = b then p else if z = q then b else largerBlock m z)
    (hc : ∀ z ∈ S, childBlock m' z = childBlock m z)
    (hpa : ∀ z ∈ S, parentBlock m' z = parentBlock m z)
    (hf : AgreeOff m m' (treeBytes S)) : TreeLinked sz m S root b (A ++ B) m' := by
  have hbz : ∀ z ∈ nodes (A ++ B), z ≠ b := fun z hz e => h.fresh (e ▸ hz)
  have hsz : ∀ z ∈ S, sz (rd m' (z + 8)) = sz (rd m (z + 8)) := fun z hz => by
    rw [h.spaced.size_frame hf hz]
  refine ⟨⟨A ++ (b, []) :: B, h.tree.insertHead h.fresh (h.spaced.pos b h.mem) hA hB ?_ ?_ ?_ ?_ ?_
    ?_ ?_ ?_ ?_ (by rw [if_neg hne]), by simp, fun z => ?_⟩, .inr ((hc b h.mem).trans h.child), hf⟩
  · intro z hz
    rw [← hp]
    exact (hs z (h.sub z hz)).trans (if_neg (hbz z hz))
  · intro z hz
    rw [← hq]
    exact (hl z (h.sub z hz)).trans (if_neg (hbz z hz))
  · exact fun z hz => hc z (h.sub z hz)
  · exact fun z hz => hpa z (h.sub z hz)
  · rintro z (rfl | hz)
    · exact hsz z h.mem
    · exact hsz z (h.sub z hz)
  · rw [← hq]; exact (hs b h.mem).trans (if_pos rfl)
  · rw [← hp]; exact (hl b h.mem).trans (if_pos rfl)
  · exact (hc b h.mem).trans h.child
  · exact (hpa b h.mem).trans h.parent
  · rw [mem_nodes_mid]
    simp

/-- Linking `b` in below a head of its size. -/
theorem TreeReady.link_child (h : TreeReady sz m S root b (A ++ (p, cs) :: B))
    (hsz : sz (rd m (b + 8)) = sz (rd m (p + 8)))
    (hs : ∀ z ∈ S, smallerBlock m' z = smallerBlock m z)
    (hl : ∀ z ∈ S, largerBlock m' z = largerBlock m z)
    (hc : ∀ z ∈ S, childBlock m' z =
      if z = p then b else if z = b then cs.headD 0 else childBlock m z)
    (hpa : ∀ z ∈ S, parentBlock m' z =
      if z = b then p else if z = cs.headD 0 then b else parentBlock m z)
    (hf : AgreeOff m m' (treeBytes S)) : TreeLinked sz m S root b (A ++ (p, cs) :: B) m' := by
  have hbz : ∀ z ∈ nodes (A ++ (p, cs) :: B), z ≠ b := fun z hz e => h.fresh (e ▸ hz)
  have hbp : b ≠ p := fun e => hbz p (mem_nodes_mid.mpr (.inl rfl)) e.symm
  have hz' : ∀ z ∈ S, sz (rd m' (z + 8)) = sz (rd m (z + 8)) := fun z hz => by
    rw [h.spaced.size_frame hf hz]
  refine ⟨⟨A ++ (p, b :: cs) :: B, h.tree.insertChild h.fresh (h.spaced.pos b h.mem) hsz ?_ ?_ ?_
    ?_ ?_ ?_ ?_, by simp, fun z => ?_⟩, .inl ?_, hf⟩
  · exact fun z hz => hs z (h.sub z hz)
  · exact fun z hz => hl z (h.sub z hz)
  · intro z hz
    refine (hc z (h.sub z hz)).trans ?_
    rw [if_neg (hbz z hz)]
    rfl
  · exact fun z hz => (hpa z (h.sub z hz)).trans (if_neg (hbz z hz))
  · rintro z (rfl | hz)
    · exact hz' z h.mem
    · exact hz' z (h.sub z hz)
  · exact (hc b h.mem).trans (by rw [if_neg hbp, if_pos rfl])
  · exact (hpa b h.mem).trans (if_pos rfl)
  · rw [mem_nodes_mid, mem_nodes_mid, List.mem_cons]
    tauto
  · rw [hpa b h.mem, if_pos rfl]
    exact h.spaced.pos p (h.sub p (mem_nodes_mid.mpr (.inl rfl)))

/-- How far the loop is from the place of a node of size `k`, in heads. -/
def walkDist (sz : ℕ → ℕ) (m : Mem) (T : Chains ℕ) (k a : ℕ) : ℕ :=
  if sz (rd m (a + 8)) = k then 0
  else if k < sz (rd m (a + 8)) then rank T a + 1 else T.length - rank T a

/-- A round at a head larger than the new node. -/
theorem TreeReady.step_smaller (h : TreeReady sz m S root b (A ++ (p, cs) :: B))
    (hgt : sz (rd m (b + 8)) < sz (rd m (p + 8))) :
    (∀ p', treeLinkStep sz m b p = .inl p' → p' ∈ heads (A ++ (p, cs) :: B) ∧
      walkDist sz m (A ++ (p, cs) :: B) (sz (rd m (b + 8))) p' <
        walkDist sz m (A ++ (p, cs) :: B) (sz (rd m (b + 8))) p) ∧
      ∀ m', treeLinkStep sz m b p = .inr m' → TreeLinked sz m S root b (A ++ (p, cs) :: B) m' := by
  have hpm : p ∈ heads (A ++ (p, cs) :: B) := by simp
  have hpS : p ∈ S := h.sub p (heads_sub hpm)
  have hbp : p ≠ b := fun e => h.fresh (e ▸ heads_sub hpm)
  have hlinks := h.tree.head_links
  have hpl : p < 2 ^ 64 := h.spaced.lt hpS
  have hbl : b < 2 ^ 64 := h.spaced.lt h.mem
  have hup : ∀ a ∈ heads ((p, cs) :: B), sz (rd m (b + 8)) < sz (rd m (a + 8)) := by
    intro a ha
    rcases List.mem_cons.mp ha with rfl | ha
    · exact hgt
    · exact lt_trans hgt (h.tree.size_split.2 a ha)
  have hframe := AgreeOff.refl m (treeBytes S)
  unfold treeLinkStep
  simp only [hgt, if_true]
  split_ifs with h0 h1
  · -- `p` is the smallest head: `b` becomes the first one
    refine ⟨(fun p' e => by cases e), fun m' e => ?_⟩
    obtain rfl := Sum.inr.inj e
    have hA0 : A = [] := h.tree.smaller_nul h0
    subst hA0
    refine h.link_head (by simp) (q := 0) (p := p) rfl rfl (by simp [heads]) hup ?_ ?_ ?_ ?_
      ((hframe.setSmaller hpS b).setLarger h.mem p)
    all_goals
      intro z hz
      have hz0 := h.spaced.pos z hz
      simp only [h.spaced.setSmaller hpS hz hbl, h.spaced.setLarger h.mem hz hpl]
    · by_cases e : z = b
      · subst e; simp [hbp.symm, h.smaller]
      · simp [e]
    · simp [hz0]
  · -- `b` fits between `p` and the next smaller head
    refine ⟨(fun p' e => by cases e), fun m' e => ?_⟩
    obtain rfl := Sum.inr.inj e
    set q := smallerBlock m p with hq
    obtain ⟨hqm, -, -⟩ := h.tree.smaller_step hpm h0
    have hqm : q ∈ heads (A ++ (p, cs) :: B) := hqm
    have hqS : q ∈ S := h.sub q (heads_sub hqm)
    have hbq : q ≠ b := fun e => h.fresh (e ▸ heads_sub hqm)
    have hql : q < 2 ^ 64 := h.spaced.lt hqS
    have hpq : p ≠ q := fun e => by rw [← e] at h1; omega
    have hA : ∀ a ∈ heads A, sz (rd m (a + 8)) < sz (rd m (b + 8)) := fun a ha =>
      lt_of_le_of_lt (h.tree.le_smaller a ha) h1
    have e1 : smallerBlock (setSmaller m b q) p = q := by
      rw [(h.spaced.setSmaller h.mem hpS hql).1, if_neg hbp]
    rw [e1]
    refine h.link_head (q := q) (p := p) (by simp) hlinks.1 rfl hA hup ?_ ?_ ?_ ?_
      ((((hframe.setSmaller h.mem q).setLarger hqS b).setSmaller hpS b).setLarger h.mem p)
    all_goals
      intro z hz
      simp only [h.spaced.setSmaller h.mem hz hql, h.spaced.setLarger hqS hz hbl,
        h.spaced.setSmaller hpS hz hbl, h.spaced.setLarger h.mem hz hpl]
    · by_cases e : z = b
      · subst e; simp [hbp.symm]
      · simp [e]
  · -- the next smaller head is not too small: move on
    refine ⟨fun p' e => ?_, (fun m' e => by cases e)⟩
    obtain rfl := Sum.inl.inj e
    obtain ⟨hqm, hlt, hr⟩ := h.tree.smaller_step hpm h0
    refine ⟨hqm, ?_⟩
    have hge : sz (rd m (b + 8)) ≤ sz (rd m (smallerBlock m p + 8)) := Nat.le_of_not_lt h1
    have hr' : rank (A ++ (p, cs) :: B) (smallerBlock m p) + 1 = rank (A ++ (p, cs) :: B) p := hr
    unfold walkDist
    split_ifs <;> omega

/-- A round at a head smaller than the new node. -/
theorem TreeReady.step_larger (h : TreeReady sz m S root b (A ++ (p, cs) :: B))
    (hlt : sz (rd m (p + 8)) < sz (rd m (b + 8))) :
    (∀ p', treeLinkStep sz m b p = .inl p' → p' ∈ heads (A ++ (p, cs) :: B) ∧
      walkDist sz m (A ++ (p, cs) :: B) (sz (rd m (b + 8))) p' <
        walkDist sz m (A ++ (p, cs) :: B) (sz (rd m (b + 8))) p) ∧
      ∀ m', treeLinkStep sz m b p = .inr m' → TreeLinked sz m S root b (A ++ (p, cs) :: B) m' := by
  have hpm : p ∈ heads (A ++ (p, cs) :: B) := by simp
  have hpS : p ∈ S := h.sub p (heads_sub hpm)
  have hbp : p ≠ b := fun e => h.fresh (e ▸ heads_sub hpm)
  have hlinks := h.tree.head_links
  have hpl : p < 2 ^ 64 := h.spaced.lt hpS
  have hbl : b < 2 ^ 64 := h.spaced.lt h.mem
  have hlist : A ++ (p, cs) :: B = (A ++ [(p, cs)]) ++ B := by simp
  have hlow : ∀ a ∈ heads (A ++ [(p, cs)]), sz (rd m (a + 8)) < sz (rd m (b + 8)) := by
    intro a ha
    rw [heads_append, List.mem_append] at ha
    rcases ha with ha | ha
    · exact lt_trans (h.tree.size_split.1 a ha) hlt
    · have : a = p := by simpa [heads] using ha
      rw [this]; exact hlt
  have hlast : p = (heads (A ++ [(p, cs)])).getLastD 0 := by simp [heads]
  have hframe := AgreeOff.refl m (treeBytes S)
  unfold treeLinkStep
  simp only [Nat.lt_asymm hlt, hlt, if_true, if_false]
  split_ifs with h0 h1
  · -- `p` is the largest head: `b` becomes the last one
    refine ⟨(fun p' e => by cases e), fun m' e => ?_⟩
    obtain rfl := Sum.inr.inj e
    have hB0 : B = [] := h.tree.larger_nul h0
    subst hB0
    rw [hlist] at h ⊢
    refine h.link_head (q := p) (p := 0) (by simp) hlast rfl hlow (by simp [heads]) ?_ ?_ ?_ ?_
      ((hframe.setLarger hpS b).setSmaller h.mem p)
    all_goals
      intro z hz
      have hz0 := h.spaced.pos z hz
      simp only [h.spaced.setLarger hpS hz hbl, h.spaced.setSmaller h.mem hz hpl]
    · simp [hz0]
    · by_cases e : z = b
      · subst e; simp [hbp.symm, h.larger]
      · simp [e]
  · -- `b` fits between `p` and the next larger head
    refine ⟨(fun p' e => by cases e), fun m' e => ?_⟩
    obtain rfl := Sum.inr.inj e
    set q := largerBlock m p with hq
    obtain ⟨hqm, -, -⟩ := h.tree.larger_step hpm h0
    have hqm : q ∈ heads (A ++ (p, cs) :: B) := hqm
    have hqS : q ∈ S := h.sub q (heads_sub hqm)
    have hbq : q ≠ b := fun e => h.fresh (e ▸ heads_sub hqm)
    have hql : q < 2 ^ 64 := h.spaced.lt hqS
    have hB : ∀ a ∈ heads B, sz (rd m (b + 8)) < sz (rd m (a + 8)) := fun a ha =>
      lt_of_lt_of_le h1 (h.tree.larger_le a ha)
    have e1 : largerBlock (setLarger m b q) p = q := by
      rw [(h.spaced.setLarger h.mem hpS hql).2.1, if_neg hbp]
    rw [e1]
    rw [hlist] at h ⊢
    refine h.link_head (q := p) (p := q) (by simp) hlast hlinks.2.1 hlow hB ?_ ?_ ?_ ?_
      ((((hframe.setLarger h.mem q).setSmaller hqS b).setLarger hpS b).setSmaller h.mem p)
    all_goals
      intro z hz
      simp only [h.spaced.setLarger h.mem hz hql, h.spaced.setSmaller hqS hz hbl,
        h.spaced.setLarger hpS hz hbl, h.spaced.setSmaller h.mem hz hpl]
    · by_cases e : z = b
      · subst e; simp [hbp.symm]
      · simp [e]
  · -- the next larger head is not too large: move on
    refine ⟨fun p' e => ?_, (fun m' e => by cases e)⟩
    obtain rfl := Sum.inl.inj e
    obtain ⟨hqm, hgt, hr, hlen⟩ := h.tree.larger_step hpm h0
    refine ⟨hqm, ?_⟩
    have hle : sz (rd m (largerBlock m p + 8)) ≤ sz (rd m (b + 8)) := Nat.le_of_not_lt h1
    have hr' : rank (A ++ (p, cs) :: B) (largerBlock m p) = rank (A ++ (p, cs) :: B) p + 1 := hr
    unfold walkDist
    split_ifs <;> omega

/-- The round at a head of the size of the new node. -/
theorem TreeReady.step_equal (h : TreeReady sz m S root b (A ++ (p, cs) :: B))
    (heq : sz (rd m (b + 8)) = sz (rd m (p + 8))) :
    ∃ m', treeLinkStep sz m b p = .inr m' ∧ TreeLinked sz m S root b (A ++ (p, cs) :: B) m' := by
  have hpm : p ∈ heads (A ++ (p, cs) :: B) := by simp
  have hpS : p ∈ S := h.sub p (heads_sub hpm)
  have hbp : p ≠ b := fun e => h.fresh (e ▸ heads_sub hpm)
  have hpl : p < 2 ^ 64 := h.spaced.lt hpS
  have hbl : b < 2 ^ 64 := h.spaced.lt h.mem
  have hchild : childBlock m p = cs.headD 0 := h.tree.head_links.2.2.2
  have hframe := AgreeOff.refl m (treeBytes S)
  unfold treeLinkStep
  simp only [heq, lt_irrefl, if_false]
  refine ⟨_, rfl, ?_⟩
  split_ifs with h0
  · -- the chain has a first node: it moves below `b`
    set q := childBlock m p with hq
    have hqc : q ∈ cs := by
      rw [hchild]
      exact headD_mem (fun e => h0 (by rw [hchild, e]; rfl)) 0
    have hqT : q ∈ nodes (A ++ (p, cs) :: B) := mem_nodes_mid.mpr (.inr (.inl hqc))
    have hqS : q ∈ S := h.sub q hqT
    have hbq : q ≠ b := fun e => h.fresh (e ▸ hqT)
    have hql : q < 2 ^ 64 := h.spaced.lt hqS
    have e1 : childBlock (setParent m q b) p = q := (h.spaced.setParent hqS hpS hbl).2.2.1
    rw [e1]
    refine h.link_child heq ?_ ?_ ?_ ?_
      ((((hframe.setParent hqS b).setChild h.mem q).setChild hpS b).setParent h.mem p)
    all_goals
      intro z hz
      simp only [h.spaced.setParent hqS hz hbl, h.spaced.setChild h.mem hz hql,
        h.spaced.setChild hpS hz hbl, h.spaced.setParent h.mem hz hpl, ← hchild]
  · have hcs : cs = [] := by
      by_contra hne
      have hm : childBlock m p ∈ nodes (A ++ (p, cs) :: B) := by
        rw [hchild]
        exact mem_nodes_mid.mpr (.inr (.inl (headD_mem hne 0)))
      exact h.spaced.pos _ (h.sub _ hm) (not_not.mp h0)
    subst hcs
    refine h.link_child heq ?_ ?_ ?_ ?_ ((hframe.setChild hpS b).setParent h.mem p)
    all_goals
      intro z hz
      have hz0 := h.spaced.pos z hz
      simp only [h.spaced.setChild hpS hz hbl, h.spaced.setParent h.mem hz hpl]
    · by_cases e : z = b
      · subst e; simp [hbp.symm, h.child]
      · simp [e]
    · simp [hz0]

/-- **The insertion loop** ends, and it has linked the new node in. -/
theorem TreeReady.treeLink (h : TreeReady sz m S root b T) (hT : T ≠ []) :
    ∃ m', Returns (fun n => treeLink sz n m root b) m' ∧ TreeLinked sz m S root b T m' := by
  refine loop_returns (fun k a => a ∈ heads T ∧ walkDist sz m T (sz (rd m (b + 8))) a = k)
    (TreeLinked sz m S root b T) (fun k a ⟨ha, hk⟩ => ?_) ⟨h.tree.root_mem hT, rfl⟩
  suffices hs : (∀ p', treeLinkStep sz m b a = .inl p' → p' ∈ heads T ∧
      walkDist sz m T (sz (rd m (b + 8))) p' < walkDist sz m T (sz (rd m (b + 8))) a) ∧
      ∀ m', treeLinkStep sz m b a = .inr m' → TreeLinked sz m S root b T m' from
    ⟨fun p' e => ⟨_, hk ▸ (hs.1 p' e).2, (hs.1 p' e).1, rfl⟩, hs.2⟩
  obtain ⟨A, cs, B, rfl⟩ := split_of_mem_heads ha
  rcases lt_trichotomy (sz (rd m (b + 8))) (sz (rd m (a + 8))) with hlt | heq | hgt
  · exact h.step_smaller hlt
  · obtain ⟨m', e, hm'⟩ := h.step_equal heq
    rw [e]
    refine ⟨(fun p' e => by cases e), fun b' e => ?_⟩
    obtain rfl := Sum.inr.inj e
    exact hm'
  · exact h.step_larger hgt

end spec

/-! ### A new node -/

section new

variable {sz : ℕ → ℕ} {m : Mem} {S : Set ℕ} {root b : ℕ} {T : Chains ℕ}

/-- Clearing the links of a node outside the tree prepares its insertion. -/
theorem treeReady_clear (h : SizeTree (treeFields sz m) 0 root T) (hS : Spaced S)
    (hT : ∀ z ∈ nodes T, z ∈ S) (hb : b ∈ S) (hf : b ∉ nodes T) :
    TreeReady sz (clearLinks m b) S root b T ∧ AgreeOff m (clearLinks m b) (treeBytes S) := by
  have hbz : ∀ z ∈ nodes T, z ≠ b := fun z hz e => hf (e ▸ hz)
  have h0 : 0 < 2 ^ 64 := by norm_num
  have e : ∀ z ∈ S, smallerBlock (clearLinks m b) z = (if z = b then 0 else smallerBlock m z) ∧
      largerBlock (clearLinks m b) z = (if z = b then 0 else largerBlock m z) ∧
      childBlock (clearLinks m b) z = (if z = b then 0 else childBlock m z) ∧
      parentBlock (clearLinks m b) z = (if z = b then 0 else parentBlock m z) ∧
      rd (clearLinks m b) (z + 8) = rd m (z + 8) := by
    intro z hz
    unfold clearLinks
    simp only [hS.setParent hb hz h0, hS.setChild hb hz h0, hS.setSmaller hb hz h0,
      hS.setLarger hb hz h0, and_self]
  have ez : ∀ z ∈ nodes T, smallerBlock (clearLinks m b) z = smallerBlock m z ∧
      largerBlock (clearLinks m b) z = largerBlock m z ∧
      childBlock (clearLinks m b) z = childBlock m z ∧
      parentBlock (clearLinks m b) z = parentBlock m z ∧
      sz (rd (clearLinks m b) (z + 8)) = sz (rd m (z + 8)) := by
    intro z hz
    obtain ⟨h1, h2, h3, h4, h5⟩ := e z (hT z hz)
    rw [h1, h2, h3, h4, h5]
    simp [hbz z hz]
  obtain ⟨b1, b2, b3, b4, -⟩ := e b hb
  rw [if_pos rfl] at b1 b2 b3 b4
  refine ⟨⟨h.congr (fun z hz => (ez z hz).1) (fun z hz => (ez z hz).2.1)
    (fun z hz => (ez z hz).2.2.1) (fun z hz => (ez z hz).2.2.2.1) (fun z hz => (ez z hz).2.2.2.2),
    hS, hT, hb, hf, b1, b2, b3, b4⟩, ?_⟩
  exact ((((AgreeOff.refl m _).setParent hb 0).setChild hb 0).setSmaller hb 0).setLarger hb 0

/-- The first node of a tree. -/
theorem TreeReady.first (h : TreeReady sz m S root b []) :
    SizeTree (treeFields sz m) 0 b [(b, [])] := by
  have he : SizeTree (treeFields sz m) 0 0 ([] ++ []) := SizeTree.empty _ _
  exact he.insertHead (A := []) (B := []) h.fresh (h.spaced.pos b h.mem) (by simp [heads])
    (by simp [heads]) (by simp [nodes]) (by simp [nodes]) (by simp [nodes]) (by simp [nodes])
    (fun _ _ => rfl) h.smaller h.larger h.child h.parent rfl

end new

/-! ### Taking a head out of the tree -/

/-- Take a head that has no chain out of the list of heads: the memory and a replacement for the
root. -/
def unlinkHead (m : Mem) (b : ℕ) : Mem × ℕ :=
  let r := if largerBlock m b ≠ 0 then
      (setSmaller m (largerBlock m b) (smallerBlock m b), largerBlock m b)
    else (m, 0)
  if smallerBlock r.1 b ≠ 0 then
    (setLarger r.1 (smallerBlock r.1 b) (largerBlock r.1 b), smallerBlock r.1 b)
  else r

section remove

variable {sz : ℕ → ℕ} {m m' : Mem} {S : Set ℕ} {root root' b p : ℕ} {A B T : Chains ℕ}
  {xs ys : List ℕ}

/-- The neighbours of a head are null or other nodes of the tree. -/
theorem head_neighbours (h : SizeTree (treeFields sz m) 0 root (A ++ (b, []) :: B))
    (hT : ∀ z ∈ nodes (A ++ (b, []) :: B), z ∈ S) :
    ((heads A).getLastD 0 ≠ 0 → (heads A).getLastD 0 ∈ S ∧ (heads A).getLastD 0 ≠ b) ∧
      ((heads B).headD 0 ≠ 0 → (heads B).headD 0 ∈ S ∧ (heads B).headD 0 ≠ b) ∧
      (heads A).getLastD 0 < 2 ^ 64 ∧ (heads B).headD 0 < 2 ^ 64 := by
  have hl : (treeFields sz m).larger b = (heads B).headD 0 := h.head_links.2.1
  have hs : (treeFields sz m).smaller b = (heads A).getLastD 0 := h.head_links.1
  have hbm : b ∈ heads (A ++ (b, []) :: B) := by simp
  rw [← hl, ← hs]
  have hsS : (treeFields sz m).smaller b ≠ 0 →
      (treeFields sz m).smaller b ∈ S ∧ (treeFields sz m).smaller b ≠ b := fun h0 => by
    obtain ⟨h1, h2, -⟩ := h.smaller_step hbm h0
    exact ⟨hT _ (heads_sub h1), fun e => by rw [e] at h2; omega⟩
  have hlS : (treeFields sz m).larger b ≠ 0 →
      (treeFields sz m).larger b ∈ S ∧ (treeFields sz m).larger b ≠ b := fun h0 => by
    obtain ⟨h1, h2, -⟩ := h.larger_step hbm h0
    exact ⟨hT _ (heads_sub h1), fun e => by rw [e] at h2; omega⟩
  exact ⟨hsS, hlS, rd_lt m _, rd_lt m _⟩

/-- The fields of every node after taking out a head. -/
theorem unlinkHead_spec (h : SizeTree (treeFields sz m) 0 root (A ++ (b, []) :: B)) (hS : Spaced S)
    (hT : ∀ z ∈ nodes (A ++ (b, []) :: B), z ∈ S) :
    (∀ z ∈ S, smallerBlock (unlinkHead m b).1 z =
        (if z = (heads B).headD 0 then (heads A).getLastD 0 else smallerBlock m z) ∧
      largerBlock (unlinkHead m b).1 z =
        (if z = (heads A).getLastD 0 then (heads B).headD 0 else largerBlock m z) ∧
      childBlock (unlinkHead m b).1 z = childBlock m z ∧
      parentBlock (unlinkHead m b).1 z = parentBlock m z) ∧
      (unlinkHead m b).2 = (if (heads A).getLastD 0 ≠ 0 then (heads A).getLastD 0
        else (heads B).headD 0) ∧
      AgreeOff m (unlinkHead m b).1 (treeBytes S) := by
  obtain ⟨hsS, hlS, hslt, hllt⟩ := head_neighbours h hT
  have hl : largerBlock m b = (heads B).headD 0 := h.head_links.2.1
  have hs : smallerBlock m b = (heads A).getLastD 0 := h.head_links.1
  have hbS := hT b (heads_sub (by simp : b ∈ heads (A ++ (b, []) :: B)))
  have hframe := AgreeOff.refl m (treeBytes S)
  generalize (heads B).headD 0 = l at *
  generalize (heads A).getLastD 0 = s at *
  by_cases hl0 : l = 0 <;> by_cases hs0 : s = 0
  · have hu : unlinkHead m b = (m, 0) := by simp [unlinkHead, hl, hs, hl0, hs0]
    rw [hu]
    refine ⟨fun z hz => ?_, by simp [hl0, hs0], hframe⟩
    have hz0 := hS.pos z hz
    simp [hl0, hs0, hz0]
  · obtain ⟨hsm, hsb⟩ := hsS hs0
    have hu : unlinkHead m b = (setLarger m s l, s) := by simp [unlinkHead, hl, hs, hl0, hs0]
    rw [hu]
    refine ⟨fun z hz => ?_, by simp [hs0], hframe.setLarger hsm l⟩
    have hz0 := hS.pos z hz
    simp only [hS.setLarger hsm hz hllt]
    simp [hl0, hz0]
  · obtain ⟨hlm, hlb⟩ := hlS hl0
    subst hs0
    have e1 : smallerBlock (setSmaller m l 0) b = 0 := by
      rw [(hS.setSmaller hlm hbS hslt).1, if_neg hlb.symm, hs]
    have hu : unlinkHead m b = (setSmaller m l 0, l) := by simp [unlinkHead, hl, hs, hl0, e1]
    rw [hu]
    refine ⟨fun z hz => ?_, by simp, hframe.setSmaller hlm 0⟩
    have hz0 := hS.pos z hz
    simp only [hS.setSmaller hlm hz hslt]
    simp [hz0]
  · obtain ⟨hlm, hlb⟩ := hlS hl0
    obtain ⟨hsm, hsb⟩ := hsS hs0
    have e1 : smallerBlock (setSmaller m l s) b = s := by
      rw [(hS.setSmaller hlm hbS hslt).1, if_neg hlb.symm, hs]
    have e2 : largerBlock (setSmaller m l s) b = l := by
      rw [(hS.setSmaller hlm hbS hslt).2.1, hl]
    have hu : unlinkHead m b = (setLarger (setSmaller m l s) s l, s) := by
      simp [unlinkHead, hl, hs, hl0, e1, e2, hs0]
    rw [hu]
    refine ⟨fun z hz => ?_, by simp [hs0], (hframe.setSmaller hlm s).setLarger hsm l⟩
    simp only [hS.setLarger hsm hz hllt, hS.setSmaller hlm hz hslt, and_self]

/-- All nodes but `b` keep their links. -/
def LinksOff (S : Set ℕ) (b : ℕ) (m m' : Mem) : Prop :=
  ∀ z ∈ S, z ≠ b → smallerBlock m' z = smallerBlock m z ∧ largerBlock m' z = largerBlock m z ∧
    childBlock m' z = childBlock m z ∧ parentBlock m' z = parentBlock m z

/-- What a removal of `b` achieves: a tree of the other nodes, entered at `root'`, with writes to
link fields only. -/
structure TreeUnlinked (sz : ℕ → ℕ) (m : Mem) (S : Set ℕ) (b : ℕ) (T : Chains ℕ) (root' : ℕ)
    (m' : Mem) : Prop where
  tree : ∃ T', SizeTree (treeFields sz m') 0 root' T' ∧ ∀ z, z ∈ nodes T' ↔ z ≠ b ∧ z ∈ nodes T
  frame : AgreeOff m m' (treeBytes S)

/-- **Removal of a head without a chain.** -/
theorem unlinkHead_tree (h : SizeTree (treeFields sz m) 0 root (A ++ (b, []) :: B)) (hS : Spaced S)
    (hT : ∀ z ∈ nodes (A ++ (b, []) :: B), z ∈ S) (hm : LinksOff S b (unlinkHead m b).1 m')
    (hf : AgreeOff m m' (treeBytes S))
    (hroot : root' = if root = b then (unlinkHead m b).2 else root) :
    TreeUnlinked sz m S b (A ++ (b, []) :: B) root' m' := by
  obtain ⟨hfields, hrepl, -⟩ := unlinkHead_spec h hS hT
  have hb : b ∉ nodes (A ++ B) := fun hz => not_mem_chain h.nodup hz List.mem_cons_self
  have hmid : ∀ z ∈ nodes (A ++ B), z ∈ S ∧ z ≠ b := fun z hz =>
    ⟨hT z (mem_nodes_mid.mpr (.inr (.inr hz))), fun e => hb (e ▸ hz)⟩
  refine ⟨⟨A ++ B, h.removeHead ?_ ?_ ?_ ?_ ?_ (by rw [hroot, hrepl]), fun z => ?_⟩, hf⟩
  · intro z hz
    obtain ⟨hzS, hzb⟩ := hmid z hz
    exact (hm z hzS hzb).1.trans (hfields z hzS).1
  · intro z hz
    obtain ⟨hzS, hzb⟩ := hmid z hz
    exact (hm z hzS hzb).2.1.trans (hfields z hzS).2.1
  · intro z hz
    obtain ⟨hzS, hzb⟩ := hmid z hz
    exact (hm z hzS hzb).2.2.1.trans (hfields z hzS).2.2.1
  · intro z hz
    obtain ⟨hzS, hzb⟩ := hmid z hz
    exact (hm z hzS hzb).2.2.2.trans (hfields z hzS).2.2.2
  · intro z hz
    exact congrArg sz (hS.size_frame hf (hmid z hz).1)
  · rw [mem_nodes_mid]
    constructor
    · exact fun hz => ⟨(hmid z hz).2, .inr (.inr hz)⟩
    · rintro ⟨hz, e | e | e⟩
      · exact absurd e hz
      · cases e
      · exact e

/-- Take a node out of the chain it is in. -/
def unlinkChild (m : Mem) (b : ℕ) : Mem :=
  let m := setChild m (parentBlock m b) (childBlock m b)
  if childBlock m b ≠ 0 then setParent m (childBlock m b) (parentBlock m b) else m

/-- The links after taking a node out of its chain. -/
theorem unlinkChild_spec (hS : Spaced S) (hb : b ∈ S) (hp : parentBlock m b ∈ S)
    (hpb : parentBlock m b ≠ b) (hc : childBlock m b ≠ 0 → childBlock m b ∈ S) :
    (∀ z ∈ S, smallerBlock (unlinkChild m b) z = smallerBlock m z ∧
      largerBlock (unlinkChild m b) z = largerBlock m z ∧
      childBlock (unlinkChild m b) z =
        (if z = parentBlock m b then childBlock m b else childBlock m z) ∧
      parentBlock (unlinkChild m b) z =
        (if z = childBlock m b then parentBlock m b else parentBlock m z)) ∧
      AgreeOff m (unlinkChild m b) (treeBytes S) := by
  have hclt : childBlock m b < 2 ^ 64 := rd_lt m _
  have hplt : parentBlock m b < 2 ^ 64 := rd_lt m _
  have hframe := (AgreeOff.refl m (treeBytes S)).setChild hp (childBlock m b)
  unfold unlinkChild
  simp only [hS.setChild hp hb hclt, hpb.symm, if_false]
  split_ifs with h0
  · refine ⟨fun z hz => ?_, hframe.setParent (hc h0) _⟩
    simp only [hS.setParent (hc h0) hz hplt, hS.setChild hp hz hclt, and_self]
  · refine ⟨fun z hz => ?_, hframe⟩
    have hzc : z ≠ childBlock m b := fun e => hS.pos z hz (e.trans (not_not.mp h0))
    simp only [hS.setChild hp hz hclt, hzc, if_false, and_self]

/-- The neighbours of a node inside a chain. -/
theorem chain_neighbours (h : SizeTree (treeFields sz m) 0 root (A ++ (p, xs ++ b :: ys) :: B))
    (hT : ∀ z ∈ nodes (A ++ (p, xs ++ b :: ys) :: B), z ∈ S) :
    (∀ z ∈ nodes (A ++ (p, xs ++ ys) :: B), z ∈ S ∧ z ≠ b) ∧ b ∈ S ∧ parentBlock m b ∈ S ∧
      parentBlock m b ≠ b ∧ (childBlock m b ≠ 0 → childBlock m b ∈ S) := by
  have hpar : parentBlock m b = xs.getLastD p := h.chain_links.1
  have hchild : childBlock m b = ys.headD 0 := h.chain_links.2
  have hperm := nodes_cons_perm A B p b xs ys
  have hnd := List.nodup_cons.mp (hperm.nodup_iff.mp h.nodup)
  have hrest : ∀ z ∈ nodes (A ++ (p, xs ++ ys) :: B), z ∈ S ∧ z ≠ b := fun z hz =>
    ⟨hT z (hperm.mem_iff.mpr (List.mem_cons_of_mem _ hz)), fun e => hnd.1 (e ▸ hz)⟩
  have hpm : parentBlock m b ∈ nodes (A ++ (p, xs ++ ys) :: B) := by
    have hlast := getLastD_mem (List.cons_ne_nil p xs) 0
    rw [List.getLastD_cons] at hlast
    rw [hpar, mem_nodes_mid]
    rcases List.mem_cons.mp hlast with e | hxs
    · exact .inl e
    · exact .inr (.inl (List.mem_append_left _ hxs))
  refine ⟨hrest, hT b (hperm.mem_iff.mpr List.mem_cons_self), (hrest _ hpm).1, (hrest _ hpm).2,
    fun h0 => ?_⟩
  rw [hchild] at h0 ⊢
  refine (hrest _ (mem_nodes_mid.mpr (.inr (.inl (List.mem_append_right _ (headD_mem ?_ 0)))))).1
  exact fun e => h0 (by rw [e]; rfl)

/-- **Removal of a node inside a chain.** -/
theorem unlinkChild_tree
    (h : SizeTree (treeFields sz m) 0 root (A ++ (p, xs ++ b :: ys) :: B)) (hS : Spaced S)
    (hT : ∀ z ∈ nodes (A ++ (p, xs ++ b :: ys) :: B), z ∈ S)
    (hm : LinksOff S b (unlinkChild m b) m') (hf : AgreeOff m m' (treeBytes S)) :
    TreeUnlinked sz m S b (A ++ (p, xs ++ b :: ys) :: B) root m' := by
  obtain ⟨hrest, hbS, hpS, hpb, hcS⟩ := chain_neighbours h hT
  obtain ⟨hfields, -⟩ := unlinkChild_spec hS hbS hpS hpb hcS
  have hpar : parentBlock m b = xs.getLastD p := h.chain_links.1
  have hchild : childBlock m b = ys.headD 0 := h.chain_links.2
  rw [hpar, hchild] at hfields
  refine ⟨⟨A ++ (p, xs ++ ys) :: B, h.removeChild ?_ ?_ ?_ ?_ ?_, fun z => ?_⟩, hf⟩
  · intro z hz
    obtain ⟨hzS, hzb⟩ := hrest z hz
    exact (hm z hzS hzb).1.trans (hfields z hzS).1
  · intro z hz
    obtain ⟨hzS, hzb⟩ := hrest z hz
    exact (hm z hzS hzb).2.1.trans (hfields z hzS).2.1
  · intro z hz
    obtain ⟨hzS, hzb⟩ := hrest z hz
    exact (hm z hzS hzb).2.2.1.trans (hfields z hzS).2.2.1
  · intro z hz
    obtain ⟨hzS, hzb⟩ := hrest z hz
    exact (hm z hzS hzb).2.2.2.trans (hfields z hzS).2.2.2
  · intro z hz
    exact congrArg sz (hS.size_frame hf (hrest z hz).1)
  · rw [(nodes_cons_perm A B p b xs ys).mem_iff, List.mem_cons]
    constructor
    · exact fun hz => ⟨(hrest z hz).2, .inr hz⟩
    · rintro ⟨hz, e | e⟩
      · exact absurd e hz
      · exact e

end remove

end Dawos
