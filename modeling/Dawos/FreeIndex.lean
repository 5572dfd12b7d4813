import Dawos.FreeNode

/-! # The free index

Both allocators sort their free blocks by size into an array of `n` segregated lists and one
tree: a block whose size has a nonnegative index is in the list of that index, every other one
is in the tree.

`FreeIndex sz idx n m head root S L T` says that the free blocks are exactly `S`, that list `i`
holds `L i` and starts at `head i`, and that the tree holds `T` and is entered at `root`.  The
results below are the edits (`FreeIndex.push`, `FreeIndex.unlink`, `FreeIndex.linkFirst`,
`FreeIndex.link`, `FreeIndex.detachChild`, `FreeIndex.detachHead`) and `FreeIndex.congr`: the
index depends on nothing but the nodes and the entries of the array. -/

namespace Dawos

/-! ### List items -/

/-- Link `b` in before `head`. -/
def pushItem (m : Mem) (b head : ℕ) : Mem :=
  let m := setPrev m b 0
  let m := setNext m b head
  if nextBlock m b ≠ 0 then setPrev m (nextBlock m b) b else m

/-- Take `b` out of its list: the memory, and the new first item when that changes. -/
def unlinkItem (m : Mem) (b : ℕ) : Mem × Option ℕ :=
  if prevBlock m b = 0 then
    if nextBlock m b = 0 then
      -- the only block on the list
      (m, some 0)
    else
      -- the top block
      let m := setPrev m (nextBlock m b) 0
      (m, some (nextBlock m b))
  else if nextBlock m b ≠ 0 then
    -- a block in the middle
    let m := setPrev m (nextBlock m b) (prevBlock m b)
    (setNext m (prevBlock m b) (nextBlock m b), none)
  else
    -- the bottom block
    (setNext m (prevBlock m b) 0, none)

/-- Clear the two links of an item. -/
def clearItem (m : Mem) (b : ℕ) : Mem :=
  let m := setNext m b 0
  setPrev m b 0

/-- The bytes of the list links of the items in `S`. -/
def itemBytes (S : Set ℕ) (x : ℕ) : Prop := ∃ a ∈ S, a + 16 ≤ x ∧ x < a + 32

theorem itemBytes_sub {S : Set ℕ} (x : ℕ) (h : itemBytes S x) : treeBytes S x := by
  obtain ⟨a, ha, h1, h2⟩ := h
  exact ⟨a, ha, h1, by omega⟩

section item

variable {m m' : Mem} {S : Set ℕ} {a b c v : ℕ} {xs ys l : List ℕ}

theorem Spaced.setPrev (h : Spaced S) (ha : a ∈ S) (hb : b ∈ S) (hv : v < 2 ^ 64) :
    prevBlock (Dawos.setPrev m a v) b = (if b = a then v else prevBlock m b) ∧
      nextBlock (Dawos.setPrev m a v) b = nextBlock m b :=
  ⟨(h.setSmaller ha hb hv).1, (h.setSmaller ha hb hv).2.1⟩

theorem Spaced.setNext (h : Spaced S) (ha : a ∈ S) (hb : b ∈ S) (hv : v < 2 ^ 64) :
    prevBlock (Dawos.setNext m a v) b = prevBlock m b ∧
      nextBlock (Dawos.setNext m a v) b = (if b = a then v else nextBlock m b) :=
  ⟨(h.setLarger ha hb hv).1, (h.setLarger ha hb hv).2.1⟩

theorem AgreeOff.setPrev (h : AgreeOff m m' (itemBytes S)) (ha : a ∈ S) (v : ℕ) :
    AgreeOff m (setPrev m' a v) (itemBytes S) :=
  h.wr v fun _ _ _ => ⟨a, ha, by omega, by omega⟩

theorem AgreeOff.setNext (h : AgreeOff m m' (itemBytes S)) (ha : a ∈ S) (v : ℕ) :
    AgreeOff m (setNext m' a v) (itemBytes S) :=
  h.wr v fun _ _ _ => ⟨a, ha, by omega, by omega⟩

/-- A push onto an empty list. -/
theorem pushItem_zero (m : Mem) (b : ℕ) : pushItem m b 0 = setNext (setPrev m b 0) b 0 := by
  have hnext : nextBlock (setNext (setPrev m b 0) b 0) b = 0 := rd_wr_same _ _ _
  unfold pushItem
  simp only [hnext, ne_eq, not_true_eq_false, if_false]

/-- The links after a push, and the bytes it writes. -/
theorem pushItem_links {head : ℕ} (hS : Spaced S) (hb : b ∈ S) (hh : head ≠ 0 → head ∈ S) :
    (∀ z ∈ S, prevBlock (pushItem m b head) z =
      (if z = head then b else if z = b then 0 else prevBlock m z) ∧
      nextBlock (pushItem m b head) z = if z = b then head else nextBlock m z) ∧
      AgreeOff m (pushItem m b head) (itemBytes S) := by
  have hblt := hS.lt hb
  have hlt : head < 2 ^ 64 := by
    by_cases h0 : head = 0
    · rw [h0]; norm_num
    · exact hS.lt (hh h0)
  have h0 : 0 < 2 ^ 64 := by norm_num
  have hframe := ((AgreeOff.refl m (itemBytes S)).setPrev hb 0).setNext hb head
  unfold pushItem
  simp only [hS.setNext hb hb hlt, if_true]
  split_ifs with hne
  · refine ⟨fun z hz => ?_, hframe.setPrev (hh hne) b⟩
    simp only [hS.setPrev (hh hne) hz hblt, hS.setNext hb hz hlt, hS.setPrev hb hz h0, and_self]
  · refine ⟨fun z hz => ?_, hframe⟩
    have hz0 : z ≠ head := fun e => hS.pos z hz (e.trans (not_not.mp hne))
    simp only [hS.setNext hb hz hlt, hS.setPrev hb hz h0, hz0, if_false, and_self]

/-- The list after a push. -/
theorem pushItem_spec (hS : Spaced S) (hl : Linked (prevBlock m) (nextBlock m) 0 0 l)
    (hnd : (b :: l).Nodup) (hm : ∀ z ∈ b :: l, z ∈ S) :
    Linked (prevBlock (pushItem m b (l.headD 0))) (nextBlock (pushItem m b (l.headD 0))) 0 0
        (b :: l) ∧ AgreeOff m (pushItem m b (l.headD 0)) (itemBytes S) := by
  have hb : b ∈ S := hm b List.mem_cons_self
  have hmem : l.headD 0 ≠ 0 → l.headD 0 ∈ S := fun h0 =>
    hm _ (List.mem_cons_of_mem _ (headD_mem (fun e => h0 (by rw [e]; rfl)) 0))
  obtain ⟨hbl, hnl⟩ := List.nodup_cons.mp hnd
  obtain ⟨hfields, hframe⟩ := pushItem_links (m := m) hS hb hmem
  refine ⟨?_, hframe⟩
  have hbh : b ≠ l.headD 0 := ne_headD hbl (hS.pos b hb)
  have hl : Linked (prevBlock m) (nextBlock m) 0 0 ([] ++ l) := hl
  refine hl.insert hnl ?_ ?_ (by simp) fun z hz => ?_
  · rw [(hfields b hb).1, if_neg hbh, if_pos rfl]
    rfl
  · rw [(hfields b hb).2, if_pos rfl]
  · have hzb : z ≠ b := fun e => hbl (e ▸ hz)
    obtain ⟨e1, e2⟩ := hfields z (hm z (List.mem_cons_of_mem _ hz))
    rw [e1, e2, if_neg hzb, if_neg hzb]
    exact ⟨rfl, rfl⟩

/-- The list after taking an item out and clearing it. -/
theorem unlinkItem_spec (hS : Spaced S)
    (hl : Linked (prevBlock m) (nextBlock m) 0 0 (xs ++ b :: ys)) (hnd : (xs ++ b :: ys).Nodup)
    (hm : ∀ z ∈ xs ++ b :: ys, z ∈ S) :
    (∀ z ∈ S, prevBlock (unlinkItem m b).1 z =
        (if z = ys.headD 0 then xs.getLastD 0 else prevBlock m z) ∧
      nextBlock (unlinkItem m b).1 z =
        if z = xs.getLastD 0 then ys.headD 0 else nextBlock m z) ∧
      AgreeOff m (unlinkItem m b).1 (itemBytes S) ∧
      (unlinkItem m b).2.getD ((xs ++ b :: ys).headD 0) = (xs ++ ys).headD 0 := by
  obtain ⟨hp, hn⟩ := hl.at
  have hb : b ∈ S := hm b (by simp)
  have hplt : prevBlock m b < 2 ^ 64 := rd_lt m _
  have hnlt : nextBlock m b < 2 ^ 64 := rd_lt m _
  have hframe := AgreeOff.refl m (itemBytes S)
  obtain ⟨-, hnd2, hdisj⟩ := List.nodup_append.mp hnd
  have hxs0 : xs.getLastD 0 = 0 ↔ xs = [] := by
    refine ⟨fun e => ?_, fun e => by rw [e]; rfl⟩
    by_contra hne
    exact hS.pos 0 (hm 0 (by rw [← e]; exact List.mem_append_left _ (getLastD_mem hne 0))) rfl
  have hpS : prevBlock m b ≠ 0 → prevBlock m b ∈ S ∧ prevBlock m b ≠ b := fun h0 => by
    rw [hp] at h0 ⊢
    have hx := getLastD_mem (fun e => h0 (hxs0.mpr e)) 0
    exact ⟨hm _ (List.mem_append_left _ hx), hdisj _ hx b List.mem_cons_self⟩
  have hnS : nextBlock m b ≠ 0 → nextBlock m b ∈ S ∧ nextBlock m b ≠ b := fun h0 => by
    rw [hn] at h0 ⊢
    have hy : ys.headD 0 ∈ ys := headD_mem (fun e => h0 (by rw [e]; rfl)) 0
    exact ⟨hm _ (List.mem_append_right _ (List.mem_cons_of_mem _ hy)),
      fun e => (List.nodup_cons.mp hnd2).1 (e ▸ hy)⟩
  rw [← hp, ← hn]
  unfold unlinkItem
  split_ifs with hp0 hn0 hn0
  · refine ⟨fun z hz => ?_, hframe, ?_⟩
    · have hz0 := hS.pos z hz
      simp [hp0, hn0, hz0]
    · rw [hp] at hp0
      rw [hn] at hn0
      rw [hxs0.mp hp0]
      simpa using hn0.symm
  · obtain ⟨hnm, hnb⟩ := hnS hn0
    refine ⟨fun z hz => ?_, hframe.setPrev hnm 0, ?_⟩
    · have hz0 := hS.pos z hz
      simp only [hS.setPrev hnm hz (by norm_num : 0 < 2 ^ 64)]
      simp [hp0, hz0]
    · rw [hp] at hp0
      dsimp only
      rw [(hS.setPrev hnm hb (by norm_num : 0 < 2 ^ 64)).2, hxs0.mp hp0, hn]
      rfl
  · obtain ⟨hnm, hnb⟩ := hnS hn0
    obtain ⟨hpm, hpb⟩ := hpS hp0
    have e1 : prevBlock (setPrev m (nextBlock m b) (prevBlock m b)) b = prevBlock m b := by
      rw [(hS.setPrev hnm hb hplt).1, if_neg hnb.symm]
    have e2 : nextBlock (setPrev m (nextBlock m b) (prevBlock m b)) b = nextBlock m b :=
      (hS.setPrev hnm hb hplt).2
    simp only [e1, e2]
    refine ⟨fun z hz => ?_, (hframe.setPrev hnm _).setNext hpm _, ?_⟩
    · simp only [hS.setNext hpm hz hnlt, hS.setPrev hnm hz hplt, and_self]
    · rw [hp, hxs0.not] at hp0
      obtain ⟨x, xs, rfl⟩ := List.exists_cons_of_ne_nil hp0
      rfl
  · obtain ⟨hpm, hpb⟩ := hpS hp0
    rw [not_not] at hn0
    refine ⟨fun z hz => ?_, hframe.setNext hpm _, ?_⟩
    · have hz0 := hS.pos z hz
      simp only [hS.setNext hpm hz (by norm_num : 0 < 2 ^ 64)]
      simp [hn0, hz0]
    · rw [hp, hxs0.not] at hp0
      obtain ⟨x, xs, rfl⟩ := List.exists_cons_of_ne_nil hp0
      rfl

end item

theorem unlinkItem_lt (m : Mem) (b : ℕ) {first : ℕ} (h : (unlinkItem m b).2 = some first) :
    first < 2 ^ 64 := by
  unfold unlinkItem at h
  split_ifs at h <;> simp only [Option.some.injEq] at h
  · rw [← h]
    norm_num
  · rw [← h]
    exact rd_lt _ _

theorem clearItem_wr (m : Mem) {a b : ℕ} (v : ℕ) (h : a + 8 ≤ b) :
    clearItem (wr m a v) b = wr (clearItem m b) a v := by
  unfold clearItem setNext setPrev
  rw [wr_comm m v 0 (by omega), wr_comm _ v 0 (by omega)]

/-! ### The index -/

/-- The removal of the block does not promote a child: the block is a child itself, or it has
none. -/
def Detachable (m : Mem) (b : ℕ) : Prop := parentBlock m b ≠ 0 ∨ childBlock m b = 0

instance (m : Mem) (b : ℕ) : Decidable (Detachable m b) :=
  inferInstanceAs (Decidable (parentBlock m b ≠ 0 ∨ childBlock m b = 0))

/-- The free blocks `S` are sorted into `n` lists and a tree. -/
structure FreeIndex (sz : ℕ → ℕ) (idx : ℕ → ℤ) (n : ℕ) (m : Mem) (head : ℕ → ℕ) (root : ℕ)
    (S : Set ℕ) (L : ℕ → List ℕ) (T : Chains ℕ) : Prop where
  spaced : Spaced S
  mem : ∀ z, z ∈ S ↔ (∃ i < n, z ∈ L i) ∨ z ∈ nodes T
  linked : ∀ i < n, Linked (prevBlock m) (nextBlock m) 0 0 (L i)
  first : ∀ i < n, head i = (L i).headD 0
  nodup : ∀ i < n, (L i).Nodup
  listed : ∀ i < n, ∀ z ∈ L i, idx (sz (rd m (z + 8))) = i
  tree : SizeTree (treeFields sz m) 0 root T
  treed : ∀ z ∈ nodes T, idx (sz (rd m (z + 8))) < 0

/-- Nothing is indexed by null heads and a null root. -/
theorem FreeIndex.empty {sz : ℕ → ℕ} {idx : ℕ → ℤ} {n : ℕ} {m : Mem} {head : ℕ → ℕ}
    (h : ∀ i < n, head i = 0) : FreeIndex sz idx n m head 0 ∅ (fun _ => []) [] where
  spaced := ⟨fun _ ha => ha.elim, fun _ ha => ha.elim, fun _ ha => ha.elim⟩
  mem z := by simp [nodes]
  linked _ _ := trivial
  first i hi := h i hi
  nodup _ _ := List.nodup_nil
  listed _ _ z hz := by cases hz
  tree := SizeTree.empty _ 0
  treed z hz := by simp [nodes] at hz

/-- Links outside the written nodes. -/
theorem Spaced.links_frame {S D : Set ℕ} {m m' : Mem} (h : Spaced S) (hD : D ⊆ S)
    (hf : AgreeOff m m' (treeBytes D)) {z : ℕ} (hz : z ∈ S) (hn : z ∉ D) :
    smallerBlock m' z = smallerBlock m z ∧ largerBlock m' z = largerBlock m z ∧
      childBlock m' z = childBlock m z ∧ parentBlock m' z = parentBlock m z := by
  have off : ∀ x, z ≤ x → x < z + 48 → ¬ treeBytes D x := by
    rintro x h1 h2 ⟨a, ha, h3, h4⟩
    have hne : a ≠ z := fun e => hn (e ▸ ha)
    have := h.apart a (hD ha) z hz hne
    omega
  refine ⟨hf.rd ?_, hf.rd ?_, hf.rd ?_, hf.rd ?_⟩ <;>
    exact fun x h1 h2 => off x (by omega) (by omega)

theorem treeBytes_mono {S D : Set ℕ} (h : D ⊆ S) (x : ℕ) (hx : treeBytes D x) : treeBytes S x := by
  obtain ⟨a, ha, h1⟩ := hx
  exact ⟨a, h ha, h1⟩

/-- The bytes of the links of the blocks in `S`: two links in a list, four in the tree. -/
def linkBytes (sz : ℕ → ℕ) (idx : ℕ → ℤ) (m : Mem) (S : Set ℕ) (x : ℕ) : Prop :=
  ∃ a ∈ S, a + 16 ≤ x ∧ x < a + if idx (sz (rd m (a + 8))) < 0 then 48 else 32

section linkBytes

variable {sz : ℕ → ℕ} {idx : ℕ → ℤ} {m : Mem} {S D : Set ℕ}

theorem linkBytes_sub (x : ℕ) (h : linkBytes sz idx m S x) : treeBytes S x := by
  obtain ⟨a, ha, h1, h2⟩ := h
  refine ⟨a, ha, h1, ?_⟩
  split_ifs at h2 <;> omega

theorem linkBytes_of_item (hD : D ⊆ S) (x : ℕ) (h : itemBytes D x) : linkBytes sz idx m S x := by
  obtain ⟨a, ha, h1, h2⟩ := h
  refine ⟨a, hD ha, h1, ?_⟩
  split_ifs <;> omega

theorem linkBytes_of_tree (hD : D ⊆ S) (hn : ∀ a ∈ D, idx (sz (rd m (a + 8))) < 0) (x : ℕ)
    (h : treeBytes D x) : linkBytes sz idx m S x := by
  obtain ⟨a, ha, h1, h2⟩ := h
  refine ⟨a, hD ha, h1, ?_⟩
  rwa [if_pos (hn a ha)]

end linkBytes

namespace FreeIndex

variable {sz : ℕ → ℕ} {idx : ℕ → ℤ} {n i b : ℕ} {m m' : Mem} {head head' : ℕ → ℕ}
  {root root' : ℕ} {S S' U D : Set ℕ} {L : ℕ → List ℕ} {T T' : Chains ℕ} {l : List ℕ}

theorem list_sub (h : FreeIndex sz idx n m head root S L T) (hi : i < n) : ∀ z ∈ L i, z ∈ S :=
  fun z hz => (h.mem z).mpr (.inl ⟨i, hi, hz⟩)

theorem tree_sub (h : FreeIndex sz idx n m head root S L T) : ∀ z ∈ nodes T, z ∈ S :=
  fun z hz => (h.mem z).mpr (.inr hz)

/-- A block is in the list of its index only. -/
theorem mem_list_iff (h : FreeIndex sz idx n m head root S L T) (hi : i < n) {z : ℕ} :
    z ∈ L i ↔ z ∈ S ∧ idx (sz (rd m (z + 8))) = i := by
  refine ⟨fun hz => ⟨h.list_sub hi z hz, h.listed i hi z hz⟩, fun ⟨hz, e⟩ => ?_⟩
  rcases (h.mem z).mp hz with ⟨j, hj, hzj⟩ | hzt
  · have := h.listed j hj z hzj
    have hij : j = i := by omega
    exact hij ▸ hzj
  · have := h.treed z hzt
    omega

/-- A block is in the tree when its index is negative. -/
theorem mem_tree_iff (h : FreeIndex sz idx n m head root S L T) {z : ℕ} :
    z ∈ nodes T ↔ z ∈ S ∧ idx (sz (rd m (z + 8))) < 0 := by
  refine ⟨fun hz => ⟨h.tree_sub z hz, h.treed z hz⟩, fun ⟨hz, e⟩ => ?_⟩
  rcases (h.mem z).mp hz with ⟨j, hj, hzj⟩ | hzt
  · have := h.listed j hj z hzj
    omega
  · exact hzt

/-- The index only depends on its nodes and the entries of the array. -/
theorem congr (h : FreeIndex sz idx n m head root S L T)
    (hm : ∀ a ∈ S, ∀ x, a + 8 ≤ x → x < a + 48 → m' x = m x) (hh : ∀ i < n, head' i = head i) :
    FreeIndex sz idx n m' head' root S L T := by
  have hsz : ∀ z ∈ S, rd m' (z + 8) = rd m (z + 8) := fun z hz =>
    rd_congr fun x h1 h2 => hm z hz x (by omega) (by omega)
  have hs : ∀ z ∈ S, smallerBlock m' z = smallerBlock m z := fun z hz =>
    rd_congr fun x h1 h2 => hm z hz x (by omega) (by omega)
  have hl : ∀ z ∈ S, largerBlock m' z = largerBlock m z := fun z hz =>
    rd_congr fun x h1 h2 => hm z hz x (by omega) (by omega)
  have hc : ∀ z ∈ S, childBlock m' z = childBlock m z := fun z hz =>
    rd_congr fun x h1 h2 => hm z hz x (by omega) (by omega)
  have hp : ∀ z ∈ S, parentBlock m' z = parentBlock m z := fun z hz =>
    rd_congr fun x h1 h2 => hm z hz x (by omega) (by omega)
  have hT := h.tree_sub
  refine ⟨h.spaced, h.mem, fun i hi => ?_, fun i hi => ?_, h.nodup, fun i hi z hz => ?_, ?_,
    fun z hz => ?_⟩
  · exact (h.linked i hi).congr fun z hz =>
      ⟨hs z (h.list_sub hi z hz), hl z (h.list_sub hi z hz)⟩
  · rw [hh i hi, h.first i hi]
  · rw [hsz z (h.list_sub hi z hz)]
    exact h.listed i hi z hz
  · exact h.tree.congr (fun z hz => hs z (hT z hz)) (fun z hz => hl z (hT z hz))
      (fun z hz => hc z (hT z hz)) (fun z hz => hp z (hT z hz))
      fun z hz => congrArg sz (hsz z (hT z hz))
  · rw [hsz z (hT z hz)]
    exact h.treed z hz

/-- Replace list `i`: the writes fall into nodes of the old and the new list. -/
theorem relist (h : FreeIndex sz idx n m head root S L T) (hi : i < n) (hU : Spaced U)
    (hSU : S ⊆ U) (hD : D ⊆ U) (hf : AgreeOff m m' (treeBytes D))
    (hDi : ∀ z ∈ D, z ∈ S → z ∈ L i) (hl : Linked (prevBlock m') (nextBlock m') 0 0 l)
    (hnd : l.Nodup) (hlU : ∀ z ∈ l, z ∈ U) (hsz : ∀ z ∈ l, idx (sz (rd m (z + 8))) = i)
    (hS' : ∀ z, z ∈ S' ↔ z ∈ l ∨ (z ∈ S ∧ z ∉ L i)) :
    FreeIndex sz idx n m' (Function.update head i (l.headD 0)) root S'
      (Function.update L i l) T := by
  have hfU := hf.mono (treeBytes_mono hD)
  have hS'U : S' ⊆ U := fun z hz => by
    rcases (hS' z).mp hz with hz | hz
    · exact hlU z hz
    · exact hSU hz.1
  -- nodes outside list `i` keep their links
  have hout : ∀ z ∈ S, z ∉ L i → smallerBlock m' z = smallerBlock m z ∧
      largerBlock m' z = largerBlock m z ∧ childBlock m' z = childBlock m z ∧
      parentBlock m' z = parentBlock m z := fun z hz hn =>
    hU.links_frame hD hf (hSU hz) fun hd => hn (hDi z hd hz)
  have hword : ∀ z ∈ U, rd m' (z + 8) = rd m (z + 8) := fun z hz => hU.size_frame hfU hz
  have hTi : ∀ z ∈ nodes T, z ∉ L i := fun z hz hzi => by
    have h1 := h.treed z hz
    have h2 := h.listed i hi z hzi
    omega
  have hji : ∀ j < n, j ≠ i → ∀ z ∈ L j, z ∉ L i := fun j hj hne z hz hzi => by
    have h1 := h.listed j hj z hz
    have h2 := h.listed i hi z hzi
    omega
  refine ⟨hU.mono hS'U, fun z => ?_, fun j hj => ?_, fun j hj => ?_, fun j hj => ?_,
    fun j hj => ?_, ?_, fun z hz => ?_⟩
  · rw [hS' z, h.mem z]
    constructor
    · rintro (hz | ⟨⟨j, hj, hz⟩ | hz, hn⟩)
      · exact .inl ⟨i, hi, by rwa [Function.update_self]⟩
      · have hne : j ≠ i := fun e => hn (e ▸ hz)
        exact .inl ⟨j, hj, by rwa [Function.update_of_ne hne]⟩
      · exact .inr hz
    · rintro (⟨j, hj, hz⟩ | hz)
      · by_cases hne : j = i
        · subst hne
          rw [Function.update_self] at hz
          exact .inl hz
        · rw [Function.update_of_ne hne] at hz
          exact .inr ⟨.inl ⟨j, hj, hz⟩, hji j hj hne z hz⟩
      · exact .inr ⟨.inr hz, hTi z hz⟩
  · by_cases hne : j = i
    · subst hne
      rwa [Function.update_self]
    · rw [Function.update_of_ne hne]
      refine (h.linked j hj).congr fun z hz => ?_
      have e := hout z (h.list_sub hj z hz) (hji j hj hne z hz)
      exact ⟨e.1, e.2.1⟩
  · by_cases hne : j = i
    · subst hne
      rw [Function.update_self, Function.update_self]
    · rw [Function.update_of_ne hne, Function.update_of_ne hne]
      exact h.first j hj
  · by_cases hne : j = i
    · subst hne
      rwa [Function.update_self]
    · rw [Function.update_of_ne hne]
      exact h.nodup j hj
  · by_cases hne : j = i
    · subst hne
      rw [Function.update_self]
      intro z hz
      rw [hword z (hlU z hz)]
      exact hsz z hz
    · rw [Function.update_of_ne hne]
      intro z hz
      rw [hword z (hSU (h.list_sub hj z hz))]
      exact h.listed j hj z hz
  · have hT := fun z hz => hout z (h.tree_sub z hz) (hTi z hz)
    exact h.tree.congr (fun z hz => (hT z hz).1) (fun z hz => (hT z hz).2.1)
      (fun z hz => (hT z hz).2.2.1) (fun z hz => (hT z hz).2.2.2)
      fun z hz => congrArg sz (hword z (hSU (h.tree_sub z hz)))
  · rw [hword z (hSU (h.tree_sub z hz))]
    exact h.treed z hz

/-- Replace the tree: the writes fall into nodes of the old and the new tree. -/
theorem retree (h : FreeIndex sz idx n m head root S L T) (hU : Spaced U) (hSU : S ⊆ U)
    (hD : D ⊆ U) (hf : AgreeOff m m' (treeBytes D)) (hDT : ∀ z ∈ D, z ∈ S → z ∈ nodes T)
    (ht : SizeTree (treeFields sz m') 0 root' T') (hTU : ∀ z ∈ nodes T', z ∈ U)
    (hsz : ∀ z ∈ nodes T', idx (sz (rd m (z + 8))) < 0)
    (hS' : ∀ z, z ∈ S' ↔ z ∈ nodes T' ∨ (z ∈ S ∧ z ∉ nodes T)) :
    FreeIndex sz idx n m' head root' S' L T' := by
  have hfU := hf.mono (treeBytes_mono hD)
  have hS'U : S' ⊆ U := fun z hz => by
    rcases (hS' z).mp hz with hz | hz
    · exact hTU z hz
    · exact hSU hz.1
  have hword : ∀ z ∈ U, rd m' (z + 8) = rd m (z + 8) := fun z hz => hU.size_frame hfU hz
  have hiT : ∀ i < n, ∀ z ∈ L i, z ∉ nodes T := fun i hi z hz hzT => by
    have h1 := h.treed z hzT
    have h2 := h.listed i hi z hz
    omega
  refine ⟨hU.mono hS'U, fun z => ?_, fun i hi => ?_, h.first, h.nodup, fun i hi z hz => ?_, ht,
    fun z hz => ?_⟩
  · rw [hS' z, h.mem z]
    constructor
    · rintro (hz | ⟨hz | hz, hn⟩)
      · exact .inr hz
      · exact .inl hz
      · exact absurd hz hn
    · rintro (⟨i, hi, hz⟩ | hz)
      · exact .inr ⟨.inl ⟨i, hi, hz⟩, hiT i hi z hz⟩
      · exact .inl hz
  · refine (h.linked i hi).congr fun z hz => ?_
    have hzS := h.list_sub hi z hz
    have e := hU.links_frame hD hf (hSU hzS) fun hd => hiT i hi z hz (hDT z hd hzS)
    exact ⟨e.1, e.2.1⟩
  · rw [hword z (hSU (h.list_sub hi z hz))]
    exact h.listed i hi z hz
  · rw [hword z (hTU z hz)]
    exact hsz z hz

/-- **A block is pushed on its list.** -/
theorem push (h : FreeIndex sz idx n m head root S L T) (hb : b ∉ S) (hU : Spaced (insert b S))
    (hi : i < n) (hsz : idx (sz (rd m (b + 8))) = i) :
    FreeIndex sz idx n (pushItem m b (head i)) (Function.update head i b) root (insert b S)
        (Function.update L i (b :: L i)) T ∧
      AgreeOff m (pushItem m b (head i)) (linkBytes sz idx m (insert b S)) := by
  set D : Set ℕ := {z | z ∈ b :: L i} with hD
  have hDU : D ⊆ insert b S := fun z hz => by
    rcases List.mem_cons.mp hz with rfl | hz
    · exact Set.mem_insert _ _
    · exact Set.mem_insert_of_mem _ (h.list_sub hi z hz)
  have hnd : (b :: L i).Nodup :=
    List.nodup_cons.mpr ⟨fun hm => hb (h.list_sub hi b hm), h.nodup i hi⟩
  obtain ⟨hlink, hframe⟩ := pushItem_spec (hU.mono hDU) (h.linked i hi) hnd fun z hz => hz
  rw [← h.first i hi] at hlink hframe
  refine ⟨h.relist hi hU (Set.subset_insert b S) hDU (hframe.mono itemBytes_sub)
    (fun z hz hzS => ?_) hlink hnd (fun z hz => hDU hz) (fun z hz => ?_) fun z => ?_,
    hframe.mono (linkBytes_of_item hDU)⟩
  · rcases List.mem_cons.mp hz with rfl | hz
    · exact absurd hzS hb
    · exact hz
  · rcases List.mem_cons.mp hz with rfl | hz
    · exact hsz
    · exact h.listed i hi z hz
  · rw [Set.mem_insert_iff, List.mem_cons]
    by_cases hz : z ∈ L i
    · simp [hz, h.list_sub hi z hz]
    · simp [hz]

/-- **A block is taken out of its list.** -/
theorem unlink (h : FreeIndex sz idx n m head root S L T) (hb : b ∈ S) (hi : i < n)
    (hsz : idx (sz (rd m (b + 8))) = i) :
    (∃ L', FreeIndex sz idx n (clearItem (unlinkItem m b).1 b)
        (Function.update head i ((unlinkItem m b).2.getD (head i))) root (S \ {b}) L' T) ∧
      AgreeOff m (clearItem (unlinkItem m b).1 b) (linkBytes sz idx m S) ∧
      ∀ z ∈ nodes T, childBlock (clearItem (unlinkItem m b).1 b) z = childBlock m z ∧
        parentBlock (clearItem (unlinkItem m b).1 b) z = parentBlock m z := by
  have hbi := (h.mem_list_iff hi).mpr ⟨hb, hsz⟩
  obtain ⟨xs, ys, hL⟩ := List.append_of_mem hbi
  have hlink := h.linked i hi
  have hnd := h.nodup i hi
  have hfirst := h.first i hi
  have hsub := h.list_sub hi
  have hlisted := h.listed i hi
  rw [hL] at hlink hnd hfirst hsub hlisted
  set D : Set ℕ := {z | z ∈ xs ++ b :: ys} with hD
  have hDS : D ⊆ S := hsub
  have hspaced := h.spaced.mono hDS
  have hbD : b ∈ D := List.mem_append_right _ List.mem_cons_self
  obtain ⟨hfields, hframe, hhead⟩ := unlinkItem_spec hspaced hlink hnd fun z hz => hz
  have h0 : 0 < 2 ^ 64 := by norm_num
  have hframe' : AgreeOff m (clearItem (unlinkItem m b).1 b) (itemBytes D) :=
    (hframe.setNext hbD 0).setPrev hbD 0
  have hperm : (xs ++ b :: ys).Perm (b :: (xs ++ ys)) := List.perm_middle
  have hnd' := List.nodup_cons.mp (hperm.nodup_iff.mp hnd)
  have hmem : ∀ z ∈ xs ++ ys, z ∈ D ∧ z ≠ b := fun z hz =>
    ⟨hperm.mem_iff.mpr (List.mem_cons_of_mem _ hz), fun e => hnd'.1 (e ▸ hz)⟩
  obtain ⟨-, -, hdisj⟩ := List.nodup_append.mp hnd'.2
  -- the links of the remaining items
  have hrest : ∀ z ∈ xs ++ ys, prevBlock (clearItem (unlinkItem m b).1 b) z =
      (if z = ys.headD 0 then xs.getLastD 0 else prevBlock m z) ∧
      nextBlock (clearItem (unlinkItem m b).1 b) z =
        if z = xs.getLastD 0 then ys.headD 0 else nextBlock m z := fun z hz => by
    obtain ⟨hzD, hzb⟩ := hmem z hz
    unfold clearItem
    simp only [hspaced.setPrev hbD hzD h0, hspaced.setNext hbD hzD h0, hzb, if_false]
    exact hfields z hzD
  have hpos : ∀ z ∈ xs ++ ys, z ≠ 0 := fun z hz => hspaced.pos z (hmem z hz).1
  have hlink' : Linked (prevBlock (clearItem (unlinkItem m b).1 b))
      (nextBlock (clearItem (unlinkItem m b).1 b)) 0 0 (xs ++ ys) := by
    refine hlink.remove hnd (fun z hz => ?_) fun z hz => ?_
    · have hzm := List.mem_append_left ys hz
      obtain ⟨e1, e2⟩ := hrest z hzm
      refine ⟨?_, e2⟩
      rw [e1, if_neg (ne_headD (fun hy => hdisj z hz z hy rfl) (hpos z hzm))]
    · have hzm := List.mem_append_right xs hz
      obtain ⟨e1, e2⟩ := hrest z hzm
      refine ⟨?_, e1⟩
      rw [e2, if_neg (ne_getLastD (fun hx => hdisj z hx z hz rfl) (hpos z hzm))]
  rw [hfirst, hhead]
  refine ⟨⟨_, h.relist hi h.spaced Set.Subset.rfl hDS (hframe'.mono itemBytes_sub)
    (fun z hz _ => by rwa [hL]) hlink' hnd'.2 (fun z hz => hDS (hmem z hz).1) (fun z hz => hlisted z (hmem z hz).1) fun z => ?_⟩,
    hframe'.mono (linkBytes_of_item hDS), fun z hz => ?_⟩
  swap
  · refine (h.spaced.links_frame hDS (hframe'.mono itemBytes_sub) (h.tree_sub z hz) fun hzD => ?_).2.2
    have h1 := h.treed z hz
    have h2 := hlisted z hzD
    omega
  rw [hL, hperm.mem_iff, List.mem_cons, Set.mem_sdiff, Set.mem_singleton_iff]
  constructor
  · rintro ⟨hzS, hzb⟩
    by_cases hz : z ∈ xs ++ ys
    · exact .inl hz
    · exact .inr ⟨hzS, fun hc => hc.elim hzb hz⟩
  · rintro (hz | ⟨hzS, hn⟩)
    · exact ⟨hDS (hmem z hz).1, (hmem z hz).2⟩
    · exact ⟨hzS, fun e => hn (.inl e)⟩

theorem root_eq_nul (h : FreeIndex sz idx n m head root S L T) : root = 0 ↔ T = [] := by
  refine ⟨fun e => ?_, h.tree.root_nul⟩
  by_contra hne
  exact h.tree.ne_nul (heads_sub (h.tree.root_mem hne)) e

/-- The state in which a new block is linked into the tree. -/
theorem ready (h : FreeIndex sz idx n m head root S L T) (hb : b ∉ S)
    (hU : Spaced (insert b S)) :
    TreeReady sz (clearLinks m b) {z | z = b ∨ z ∈ nodes T} root b T ∧
      AgreeOff m (clearLinks m b) (treeBytes {z | z = b ∨ z ∈ nodes T}) ∧
      {z | z = b ∨ z ∈ nodes T} ⊆ insert b S := by
  have hD : {z | z = b ∨ z ∈ nodes T} ⊆ insert b S := by
    rintro z (rfl | hz)
    · exact Set.mem_insert _ _
    · exact Set.mem_insert_of_mem _ (h.tree_sub z hz)
  obtain ⟨h1, h2⟩ := treeReady_clear h.tree (hU.mono hD) (fun z hz => .inr hz) (.inl rfl)
    fun hz => hb (h.tree_sub b hz)
  exact ⟨h1, h2, hD⟩

/-- The tree with `b` is the tree of the index with `b`. -/
theorem linked_tree (h : FreeIndex sz idx n m head root S L T) (hb : b ∉ S)
    (hU : Spaced (insert b S)) (hsz : idx (sz (rd m (b + 8))) < 0)
    (hf : AgreeOff m m' (treeBytes {z | z = b ∨ z ∈ nodes T}))
    (ht : SizeTree (treeFields sz m') 0 root' T') (hT' : ∀ z, z ∈ nodes T' ↔ z = b ∨ z ∈ nodes T) :
    FreeIndex sz idx n m' head root' (insert b S) L T' ∧
      AgreeOff m m' (linkBytes sz idx m (insert b S)) := by
  obtain ⟨-, -, hD⟩ := h.ready hb hU
  have hneg : ∀ z ∈ {z | z = b ∨ z ∈ nodes T}, idx (sz (rd m (z + 8))) < 0 := by
    rintro z (rfl | hz)
    · exact hsz
    · exact h.treed z hz
  refine ⟨h.retree hU (Set.subset_insert b S) hD hf ?_ ht (fun z hz => hD ((hT' z).mp hz)) ?_
    fun z => ?_, hf.mono (linkBytes_of_tree hD hneg)⟩
  · rintro z (rfl | hz) hzS
    · exact absurd hzS hb
    · exact hz
  · exact fun z hz => hneg z ((hT' z).mp hz)
  · rw [hT' z, Set.mem_insert_iff]
    by_cases hz : z ∈ nodes T
    · simp [hz, h.tree_sub z hz]
    · simp [hz]

/-- **A block becomes the first one of the tree.** -/
theorem linkFirst (h : FreeIndex sz idx n m head root S L T) (hr : root = 0) (hb : b ∉ S)
    (hU : Spaced (insert b S)) (hsz : idx (sz (rd m (b + 8))) < 0) :
    FreeIndex sz idx n (clearLinks m b) head b (insert b S) L [(b, [])] ∧
      AgreeOff m (clearLinks m b) (linkBytes sz idx m (insert b S)) ∧
      Detachable (clearLinks m b) b := by
  obtain ⟨h1, h2, -⟩ := h.ready hb hU
  have hT := h.root_eq_nul.mp hr
  subst hT
  obtain ⟨hx, hf⟩ := h.linked_tree hb hU hsz h2 h1.first fun z => by simp [nodes]
  exact ⟨hx, hf, .inr h1.child⟩

/-- **A block is linked into the tree.** -/
theorem link (h : FreeIndex sz idx n m head root S L T) (hr : root ≠ 0) (hb : b ∉ S)
    (hU : Spaced (insert b S)) (hsz : idx (sz (rd m (b + 8))) < 0) :
    ∃ m' T', Returns (fun k => treeLink sz k (clearLinks m b) root b) m' ∧
      FreeIndex sz idx n m' head root (insert b S) L T' ∧
      AgreeOff m m' (linkBytes sz idx m (insert b S)) ∧ Detachable m' b := by
  obtain ⟨h1, h2, -⟩ := h.ready hb hU
  obtain ⟨m', hret, ⟨T', ht, -, hT'⟩, hleaf, hf⟩ := h1.treeLink fun e => hr (h.root_eq_nul.mpr e)
  obtain ⟨hx, hf'⟩ := h.linked_tree hb hU hsz (h2.trans hf) ht hT'
  exact ⟨m', T', hret, hx, hf', hleaf⟩

/-- The tree without `b` is the tree of the index without `b`. -/
theorem unlinked_tree (h : FreeIndex sz idx n m head root S L T) (hb : b ∈ nodes T)
    (ht : TreeUnlinked sz m {z | z ∈ nodes T} b T root' m') :
    (∃ T', FreeIndex sz idx n m' head root' (S \ {b}) L T') ∧
      AgreeOff m m' (linkBytes sz idx m S) := by
  obtain ⟨⟨T', ht', hT'⟩, hf⟩ := ht
  have hD : {z | z ∈ nodes T} ⊆ S := h.tree_sub
  refine ⟨⟨T', h.retree h.spaced Set.Subset.rfl hD hf (fun z hz _ => hz) ht'
    (fun z hz => h.tree_sub z ((hT' z).mp hz).2) (fun z hz => h.treed z ((hT' z).mp hz).2)
    fun z => ?_⟩, hf.mono (linkBytes_of_tree hD fun z hz => h.treed z hz)⟩
  rw [hT' z, Set.mem_sdiff, Set.mem_singleton_iff]
  by_cases hz : z ∈ nodes T
  · simp [hz, h.tree_sub z hz]
  · have hzb : z ≠ b := fun e => hz (e ▸ hb)
    simp [hz, hzb]

/-- In the tree, a block that is the child of another one has it as its parent. -/
theorem parent_of_child (h : FreeIndex sz idx n m head root S L T) {z : ℕ} (hz : z ∈ nodes T)
    (hc : childBlock m z ≠ 0) : childBlock m z ∈ nodes T ∧ parentBlock m (childBlock m z) = z := by
  rcases split_of_mem_nodes hz with ⟨A, cs, B, rfl⟩ | ⟨A, p, xs, ys, B, rfl⟩
  · have e : childBlock m z = cs.headD 0 := h.tree.head_links.2.2.2
    rw [e] at hc ⊢
    cases cs with
    | nil => exact absurd rfl hc
    | cons c cs =>
        have ht : SizeTree (treeFields sz m) 0 root (A ++ (z, [] ++ c :: cs) :: B) := h.tree
        exact ⟨mem_nodes_mid.mpr (.inr (.inl List.mem_cons_self)), ht.chain_links.1⟩
  · have e : childBlock m z = ys.headD 0 := h.tree.chain_links.2
    rw [e] at hc ⊢
    cases ys with
    | nil => exact absurd rfl hc
    | cons c ys =>
        refine ⟨mem_nodes_mid.mpr (.inr (.inl (by simp))), ?_⟩
        have ht := h.tree
        have hlist : xs ++ z :: c :: ys = (xs ++ [z]) ++ c :: ys := by simp
        rw [hlist] at ht
        have hp : parentBlock m c = (xs ++ [z]).getLastD p := ht.chain_links.1
        refine hp.trans ?_
        simp

/-- In the tree, a block that has a parent is the child of it. -/
theorem child_of_parent (h : FreeIndex sz idx n m head root S L T) {z : ℕ} (hz : z ∈ nodes T)
    (hp : parentBlock m z ≠ 0) : childBlock m (parentBlock m z) = z := by
  rcases split_of_mem_nodes hz with ⟨A, cs, B, rfl⟩ | ⟨A, p, xs, ys, B, rfl⟩
  · exact absurd h.tree.head_links.2.2.1 hp
  · have e : parentBlock m z = xs.getLastD p := h.tree.chain_links.1
    rcases List.eq_nil_or_concat xs with rfl | ⟨xs, w, rfl⟩
    · have hc : childBlock m p = z := h.tree.head_links.2.2.2
      rw [e]
      exact hc
    · have ht := h.tree
      have hlist : xs.concat w ++ z :: ys = xs ++ w :: z :: ys := by simp
      rw [hlist] at ht
      have hc : childBlock m w = z := ht.chain_links.2
      rw [e, List.concat_eq_append, List.getLastD_concat]
      exact hc

end FreeIndex

/-! ### Taking a block out of the tree -/

/-- Clear the links of a removed node. -/
def dropLinks (m : Mem) (b : ℕ) : Mem :=
  let m := setChild m b 0
  let m := setParent m b 0
  let m := setLarger m b 0
  setSmaller m b 0

theorem dropLinks_off {S : Set ℕ} (hS : Spaced S) {b : ℕ} (hb : b ∈ S) (m : Mem) :
    LinksOff S b m (dropLinks m b) := by
  have h0 : 0 < 2 ^ 64 := by norm_num
  intro z hz hzb
  unfold dropLinks
  simp only [hS.setSmaller hb hz h0, hS.setLarger hb hz h0, hS.setParent hb hz h0,
    hS.setChild hb hz h0, hzb, if_false, and_self]

theorem dropLinks_wr (m : Mem) {a b : ℕ} (v : ℕ) (h : a + 8 ≤ b) :
    dropLinks (wr m a v) b = wr (dropLinks m b) a v := by
  simp only [dropLinks, setChild, setParent, setLarger, setSmaller]
  rw [wr_comm m v 0 (by omega), wr_comm _ v 0 (by omega), wr_comm _ v 0 (by omega),
    wr_comm _ v 0 (by omega)]

theorem unlinkHead_lt (m : Mem) (b : ℕ) : (unlinkHead m b).2 < 2 ^ 64 := by
  have hs (m : Mem) : smallerBlock m b < 2 ^ 64 := rd_lt m _
  have hl : largerBlock m b < 2 ^ 64 := rd_lt m _
  unfold unlinkHead
  by_cases h0 : largerBlock m b = 0
  · simp only [h0, ne_eq, not_true, if_false]
    split_ifs
    · norm_num
    · exact hs _
  · simp only [h0, ne_eq, not_false_iff, if_true]
    split_ifs
    · exact hl
    · exact hs _

theorem AgreeOff.dropLinks {S : Set ℕ} {b : ℕ} {m m' : Mem} (h : AgreeOff m m' (treeBytes S))
    (hb : b ∈ S) : AgreeOff m (dropLinks m' b) (treeBytes S) :=
  (((h.setChild hb 0).setParent hb 0).setLarger hb 0).setSmaller hb 0


/-- The block can be detached, if need be after its only child `b` is gone. -/
def DetachableAfter (m : Mem) (b z : ℕ) : Prop :=
  Detachable m z ∨ (childBlock m z = b ∧ childBlock m b = 0)

instance (m : Mem) (b z : ℕ) : Decidable (DetachableAfter m b z) :=
  inferInstanceAs (Decidable (Detachable m z ∨ (childBlock m z = b ∧ childBlock m b = 0)))

section detach

variable {sz : ℕ → ℕ} {idx : ℕ → ℤ} {n b : ℕ} {m : Mem} {head : ℕ → ℕ} {root : ℕ} {S : Set ℕ}
  {L : ℕ → List ℕ} {T : Chains ℕ}

/-- **A block inside a chain is taken out of the tree.** -/
theorem FreeIndex.detachChild (h : FreeIndex sz idx n m head root S L T) (hb : b ∈ S)
    (hsz : idx (sz (rd m (b + 8))) < 0) (hp : parentBlock m b ≠ 0) :
    (∃ T', FreeIndex sz idx n (dropLinks (unlinkChild m b) b) head root (S \ {b}) L T') ∧
      AgreeOff m (dropLinks (unlinkChild m b) b) (linkBytes sz idx m S) ∧
      ∀ z ∈ nodes T, z ≠ b → DetachableAfter m b z →
        Detachable (dropLinks (unlinkChild m b) b) z := by
  have hbT := h.mem_tree_iff.mpr ⟨hb, hsz⟩
  have hS : Spaced {z | z ∈ nodes T} := h.spaced.mono h.tree_sub
  have hoff := dropLinks_off hS hbT (unlinkChild m b)
  have hkeep : ∀ z ∈ nodes T, childBlock m z = b → parentBlock m b = z := fun z hz e => by
    have hb0 : childBlock m z ≠ 0 := by
      rw [e]
      exact hS.pos b hbT
    have := (h.parent_of_child hz hb0).2
    rwa [e] at this
  rcases split_of_mem_nodes hbT with ⟨A, cs, B, rfl⟩ | ⟨A, p, xs, ys, B, rfl⟩
  · exact absurd h.tree.head_links.2.2.1 hp
  · obtain ⟨-, hbS, hpS, hpb, hcS⟩ := chain_neighbours h.tree fun z hz => hz
    obtain ⟨hfields, hframe⟩ := unlinkChild_spec hS hbS hpS hpb hcS
    have hdrop := hframe.dropLinks hbT
    obtain ⟨h1, h2⟩ := h.unlinked_tree hbT (unlinkChild_tree h.tree hS (fun z hz => hz) hoff hdrop)
    refine ⟨h1, h2, fun z hz hzb hd => ?_⟩
    obtain ⟨-, -, e3, e4⟩ := hoff z hz hzb
    obtain ⟨-, -, f3, f4⟩ := hfields z hz
    unfold Detachable
    rw [e3, e4, f3, f4]
    rcases hd with (hd | hd) | ⟨hzc, hc0⟩
    · refine .inl ?_
      split_ifs
      · exact hp
      · exact hd
    · refine .inr ?_
      rw [if_neg, hd]
      intro he
      rw [he] at hd
      exact hS.pos b hbT ((h.child_of_parent hbT hp).symm.trans hd)
    · exact .inr (by rw [if_pos (hkeep z hz hzc).symm, hc0])

/-- **A head without a chain is taken out of the tree.** -/
theorem FreeIndex.detachHead (h : FreeIndex sz idx n m head root S L T) (hb : b ∈ S)
    (hsz : idx (sz (rd m (b + 8))) < 0) (hp : parentBlock m b = 0) (hc : childBlock m b = 0) :
    (∃ T', FreeIndex sz idx n (dropLinks (unlinkHead m b).1 b) head
        (if root = b then (unlinkHead m b).2 else root) (S \ {b}) L T') ∧
      AgreeOff m (unlinkHead m b).1 (treeBytes S) ∧
      AgreeOff m (dropLinks (unlinkHead m b).1 b) (linkBytes sz idx m S) ∧
      ∀ z ∈ nodes T, z ≠ b → DetachableAfter m b z →
        Detachable (dropLinks (unlinkHead m b).1 b) z := by
  have hbT := h.mem_tree_iff.mpr ⟨hb, hsz⟩
  have hS : Spaced {z | z ∈ nodes T} := h.spaced.mono h.tree_sub
  have hb0 : b ≠ 0 := hS.pos b hbT
  have hoff := dropLinks_off hS hbT (unlinkHead m b).1
  have hchild : ∀ z ∈ nodes T, childBlock m z ≠ b := fun z hz e => by
    have := (h.parent_of_child hz (by rwa [e])).2
    rw [e, hp] at this
    exact hS.pos z hz this.symm
  rcases split_of_mem_nodes hbT with ⟨A, cs, B, rfl⟩ | ⟨A, p, xs, ys, B, rfl⟩
  · have hcs : cs = [] := by
      by_contra hne
      have e : childBlock m b = cs.headD 0 := h.tree.head_links.2.2.2
      exact hS.pos 0 (mem_nodes_mid.mpr (.inr (.inl (by
        rw [← e.symm.trans hc]
        exact headD_mem hne 0)))) rfl
    subst hcs
    obtain ⟨hfields, -, hframe⟩ := unlinkHead_spec h.tree hS fun z hz => hz
    have hdrop := hframe.dropLinks hbT
    obtain ⟨h1, h2⟩ := h.unlinked_tree hbT
      (unlinkHead_tree h.tree hS (fun z hz => hz) hoff hdrop rfl)
    refine ⟨h1, hframe.mono (treeBytes_mono h.tree_sub), h2, fun z hz hzb hd => ?_⟩
    obtain ⟨-, -, e3, e4⟩ := hoff z hz hzb
    obtain ⟨-, -, f3, f4⟩ := hfields z hz
    unfold Detachable
    rw [e3, e4, f3, f4]
    exact hd.resolve_right fun hzc => hchild z hz hzc.1
  · have hpm := (chain_neighbours h.tree fun z hz => hz).2.2.1
    rw [hp] at hpm
    exact absurd rfl (hS.pos 0 hpm)

end detach

end Dawos
