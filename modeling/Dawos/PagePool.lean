import Dawos.Config
import Dawos.FreeIndex

/-! # The pool of page blocks

`paging.c` keeps free blocks of whole pages in the array `_page_list`, one segregated list for
each number of pages, and in the tree `_page_tree`.  Both are static variables of the loader, so
they are parts of the state `PagePool` beside the memory with the blocks.  An access to
`_page_list` beyond its last entry is the error `Halt.bounds`.

`PoolIndex p S` says that the pool holds exactly the blocks `S`.  A `PoolRun` is any sequence of
`page_free_insert` and `page_free_remove` from the empty pool on; in between everybody else may
write, but not into blocks of the pool. -/

namespace Dawos

/-! ### The code -/

/-- Segregated list min size. -/
def PAGE_LIST_MIN : ℕ := 1
/-- Segregated list max size. -/
def PAGE_LIST_MAX : ℕ := 32
/-- Segregated list count. -/
def PAGE_LIST_COUNT : ℕ := PAGE_LIST_MAX - PAGE_LIST_MIN

/-- The field `size` of a page block header. -/
def pageBlockSize (m : Mem) (block : ℕ) : ℕ := rd m (block + 8)

/-- The list index of a block size. -/
def pageSizeIdx (s : ℕ) : ℤ :=
  if s / PAGE_SIZE ≤ PAGE_LIST_MAX then ((s / PAGE_SIZE : ℕ) : ℤ) else -1

/-- The memory, `_page_list` and `_page_tree`. -/
structure PagePool where
  mem : Mem
  list : ℕ → ℕ
  tree : ℕ

/-- Insert a free block into the tree; `false` if the block is too small for it. -/
def pageTreeInsert (fuel : ℕ) (p : PagePool) (block : ℕ) : Except Halt (Bool × PagePool) :=
  if PAGE_LIST_MAX < pageBlockSize p.mem block / PAGE_SIZE then
    let m := clearLinks p.mem block
    if p.tree = 0 then .ok (true, { p with mem := m, tree := block })
    else do
      let m ← treeLink id fuel m p.tree block
      return (true, { p with mem := m })
  else .ok (false, p)

/-- Copy the branches of a head to its child: the memory and the child. -/
def pageCopyBranches (m : Mem) (block : ℕ) : Mem × ℕ :=
  let m := if largerBlock m block ≠ 0 then
      let m := setSmaller m (largerBlock m block) (childBlock m block)
      setLarger m (childBlock m block) (largerBlock m block)
    else setLarger m (childBlock m block) 0
  let m := if smallerBlock m block ≠ 0 then
      let m := setLarger m (smallerBlock m block) (childBlock m block)
      setSmaller m (childBlock m block) (smallerBlock m block)
    else setSmaller m (childBlock m block) 0
  let m := if parentBlock m block ≠ 0 then
      let m := setParent m (childBlock m block) (parentBlock m block)
      setChild m (parentBlock m block) (childBlock m block)
    else m
  (m, childBlock m block)

/-- Clear the pointers of a removed node. -/
def pageClearNode (m : Mem) (block : ℕ) : Mem :=
  let m := setParent m block 0
  let m := setChild m block 0
  let m := setLarger m block 0
  setSmaller m block 0

/-- Delete a block from the search tree. -/
def pageTreeDelete (p : PagePool) (block : ℕ) : PagePool :=
  let p := if parentBlock p.mem block ≠ 0 then
      -- only the child of the parent is set, not the parent of the next child
      { p with mem := setChild p.mem (parentBlock p.mem block) (childBlock p.mem block) }
    else
      let r := if childBlock p.mem block ≠ 0 then pageCopyBranches p.mem block
        else unlinkHead p.mem block
      { p with mem := r.1, tree := if p.tree = block then r.2 else p.tree }
  { p with mem := pageClearNode p.mem block }

/-- Put a free block into its segregated list or into the tree. -/
def pageFreeInsert (fuel : ℕ) (p : PagePool) (block : ℕ) : Except Halt PagePool :=
  let idx := pageSizeIdx (pageBlockSize p.mem block)
  if 0 ≤ idx then
    if idx < PAGE_LIST_COUNT then
      .ok { p with
        mem := pushItem p.mem block (p.list idx.toNat)
        list := Function.update p.list idx.toNat block }
    else .error .bounds
  else do
    let r ← pageTreeInsert fuel p block
    return r.2

/-- Take a free block out of its segregated list or out of the tree. -/
def pageFreeRemove (p : PagePool) (block : ℕ) : Except Halt PagePool :=
  let idx := pageSizeIdx (pageBlockSize p.mem block)
  if 0 ≤ idx then
    match unlinkItem p.mem block with
    | (m, none) => .ok { p with mem := clearItem m block }
    | (m, some first) =>
        if idx < PAGE_LIST_COUNT then
          .ok { p with
            mem := clearItem m block
            list := Function.update p.list idx.toNat first }
        else .error .bounds
  else .ok (pageTreeDelete p block)

/-! ### What the pool holds -/

/-- The pool holds exactly the blocks `S`, each of them once: in the list of its number of pages,
which starts at `_page_list`, or in the tree, which starts at `_page_tree`. -/
def PoolIndex (p : PagePool) (S : Set ℕ) : Prop :=
  ∃ L T, FreeIndex id pageSizeIdx PAGE_LIST_COUNT p.mem p.list p.tree S L T

/-- A block of whole pages apart from the blocks `S`. -/
structure Insertable (p : PagePool) (S : Set ℕ) (b : ℕ) : Prop where
  pos : b ≠ 0
  size : 0 < pageBlockSize p.mem b
  pages : PAGE_SIZE ∣ pageBlockSize p.mem b
  fits : b + pageBlockSize p.mem b ≤ 2 ^ 64
  apart : ∀ a ∈ S, a + pageBlockSize p.mem a ≤ b ∨ b + pageBlockSize p.mem b ≤ a

/-- Calls of the two functions. -/
inductive PoolCall where
  | insert (block : ℕ)
  | remove (block : ℕ)

/-- A run from the empty pool in which every call satisfies `good` in the state before it, and the
blocks inserted and not yet removed. -/
inductive PoolRun (good : PagePool → PoolCall → Prop) : PagePool → Set ℕ → Prop
  | empty (m : Mem) : PoolRun good ⟨m, fun _ => 0, 0⟩ ∅
  /-- Everybody else writes. -/
  | other {p : PagePool} {S : Set ℕ} {m : Mem} (h : PoolRun good p S)
      (hm : ∀ a ∈ S, ∀ x, a ≤ x → x < a + pageBlockSize p.mem a → m x = p.mem x) :
      PoolRun good { p with mem := m } S
  | insert {p p' : PagePool} {S : Set ℕ} {b : ℕ} (h : PoolRun good p S) (hb : Insertable p S b)
      (hg : good p (.insert b)) (hret : Returns (fun n => pageFreeInsert n p b) p') :
      PoolRun good p' (insert b S)
  | remove {p p' : PagePool} {S : Set ℕ} {b : ℕ} (h : PoolRun good p S) (hb : b ∈ S)
      (hg : good p (.remove b)) (hret : pageFreeRemove p b = .ok p') :
      PoolRun good p' (S \ {b})

/-- The blocks of 31 and 32 pages have no entry in `_page_list`; the removal of a block from the
tree leaves its next child with a wrong parent. -/
def PoolOk (p : PagePool) : PoolCall → Prop
  | .insert b => pageBlockSize p.mem b / PAGE_SIZE ≠ 31 ∧ pageBlockSize p.mem b / PAGE_SIZE ≠ 32
  | .remove b => pageBlockSize p.mem b / PAGE_SIZE ≤ PAGE_LIST_MAX ∨ childBlock p.mem b = 0

/-- The next call with a legal argument that satisfies `good` returns. -/
structure PoolServes (good : PagePool → PoolCall → Prop) (p : PagePool) (S : Set ℕ) : Prop where
  insert : ∀ b, Insertable p S b → good p (.insert b) →
    ∃ p', Returns (fun n => pageFreeInsert n p b) p'
  remove : ∀ b ∈ S, good p (.remove b) → ∃ p', pageFreeRemove p b = .ok p'

section index

variable {p p' : PagePool} {S : Set ℕ} {m : Mem} {s b : ℕ}

theorem PAGE_LIST_COUNT_eq : PAGE_LIST_COUNT = 31 := rfl

theorem pageSizeIdx_list (h : s / PAGE_SIZE ≤ PAGE_LIST_MAX) :
    pageSizeIdx s = ((s / PAGE_SIZE : ℕ) : ℤ) := if_pos h

theorem pageSizeIdx_tree (h : PAGE_LIST_MAX < s / PAGE_SIZE) : pageSizeIdx s = -1 :=
  if_neg (Nat.not_le.mpr h)

/-- A page block is large enough for the links of a node. -/
theorem Insertable.page_le (h : Insertable p S b) : PAGE_SIZE ≤ pageBlockSize p.mem b :=
  Nat.le_of_dvd h.size h.pages

theorem Insertable.not_mem (h : Insertable p S b) : b ∉ S := fun hb => by
  have := h.apart b hb
  have := h.size
  omega

/-- The invariant of a run. -/
structure PoolInv (p : PagePool) (S : Set ℕ) : Prop where
  index : PoolIndex p S
  size : ∀ a ∈ S, PAGE_SIZE ≤ pageBlockSize p.mem a

theorem PoolInv.spaced_insert (h : PoolInv p S) (hb : Insertable p S b) :
    Spaced (insert b S) := by
  obtain ⟨⟨L, T, hx⟩, hsize⟩ := h
  have hbsize := hb.page_le
  have hfits := hb.fits
  unfold PAGE_SIZE at hsize hbsize
  refine ⟨fun x hx' y hy hne => ?_, fun x hx' => ?_, fun x hx' => ?_⟩
  · rcases hx' with rfl | hxS
    · rcases hy with rfl | hyS
      · exact absurd rfl hne
      · have := hb.apart y hyS
        have := hsize y hyS
        omega
    · rcases hy with rfl | hyS
      · have := hb.apart x hxS
        have := hsize x hxS
        omega
      · exact hx.spaced.apart x hxS y hyS hne
  · rcases hx' with rfl | hxS
    · omega
    · exact hx.spaced.le x hxS
  · rcases hx' with rfl | hxS
    · exact hb.pos
    · exact hx.spaced.pos x hxS

/-- The operations write links only, so the size words stay. -/
theorem size_of_links {U : Set ℕ} (hU : Spaced U) (hS : S ⊆ U)
    (hf : AgreeOff p.mem p'.mem (linkBytes id pageSizeIdx p.mem U))
    (hsize : ∀ a ∈ S, PAGE_SIZE ≤ pageBlockSize p.mem a) :
    ∀ a ∈ S, PAGE_SIZE ≤ pageBlockSize p'.mem a := fun a ha => by
  have e : pageBlockSize p'.mem a = pageBlockSize p.mem a :=
    hU.size_frame (hf.mono linkBytes_sub) (hS ha)
  rw [e]
  exact hsize a ha

end index

/-! ### One call -/

section calls

variable {p p' : PagePool} {S : Set ℕ} {b i : ℕ} {L : ℕ → List ℕ} {T : Chains ℕ}

/-- Inserting a block into a list. -/
theorem pageFreeInsert_list (h : PoolInv p S) (hb : Insertable p S b)
    (hi : pageBlockSize p.mem b / PAGE_SIZE < PAGE_LIST_COUNT) :
    ∃ p', Returns (fun n => pageFreeInsert n p b) p' ∧ PoolIndex p' (insert b S) ∧
      AgreeOff p.mem p'.mem (linkBytes id pageSizeIdx p.mem (insert b S)) := by
  obtain ⟨L, T, hx⟩ := h.index
  have hidx := pageSizeIdx_list (s := pageBlockSize p.mem b) (hi.le.trans (by decide))
  generalize pageBlockSize p.mem b / PAGE_SIZE = i at hi hidx
  obtain ⟨hpush, hframe⟩ := hx.push hb.not_mem (h.spaced_insert hb) hi hidx
  have hi' : (i : ℤ) < (PAGE_LIST_COUNT : ℤ) := by exact_mod_cast hi
  generalize hm : pushItem p.mem b (p.list i) = m at hpush hframe
  refine ⟨⟨m, Function.update p.list i b, p.tree⟩, Returns.of_eq fun _ => ?_, ⟨_, T, hpush⟩,
    hframe⟩
  unfold pageFreeInsert
  simp only [hidx, Int.natCast_nonneg, if_true, Int.toNat_natCast, hi', hm]

/-- Inserting a block into the tree. -/
theorem pageFreeInsert_tree (h : PoolInv p S) (hb : Insertable p S b)
    (hi : PAGE_LIST_MAX < pageBlockSize p.mem b / PAGE_SIZE) :
    ∃ p', Returns (fun n => pageFreeInsert n p b) p' ∧ PoolIndex p' (insert b S) ∧
      AgreeOff p.mem p'.mem (linkBytes id pageSizeIdx p.mem (insert b S)) := by
  obtain ⟨L, T, hx⟩ := h.index
  have hidx : pageSizeIdx (pageBlockSize p.mem b) = -1 := pageSizeIdx_tree hi
  have hneg : pageSizeIdx (id (rd p.mem (b + 8))) < 0 := by
    show pageSizeIdx (pageBlockSize p.mem b) < 0
    omega
  by_cases hr : p.tree = 0
  · obtain ⟨hlink, hframe, -⟩ := hx.linkFirst hr hb.not_mem (h.spaced_insert hb) hneg
    refine ⟨{ p with mem := clearLinks p.mem b, tree := b }, Returns.of_eq fun _ => ?_,
      ⟨L, _, hlink⟩, hframe⟩
    unfold pageFreeInsert pageTreeInsert
    simp only [hidx, hi, hr, if_true]
    rfl
  · obtain ⟨m', T', hret, hlink, hframe, -⟩ := hx.link hr hb.not_mem (h.spaced_insert hb) hneg
    refine ⟨{ p with mem := m' }, ?_, ⟨L, T', hlink⟩, hframe⟩
    filter_upwards [hret] with n hn
    unfold pageFreeInsert pageTreeInsert
    simp only [hidx, hi, hr, hn, if_true, if_false]
    rfl

/-- **Inserting a block.** -/
theorem pageFreeInsert_spec (h : PoolInv p S) (hb : Insertable p S b) (hg : PoolOk p (.insert b)) :
    ∃ p', Returns (fun n => pageFreeInsert n p b) p' ∧ PoolInv p' (insert b S) := by
  have hcase : pageBlockSize p.mem b / PAGE_SIZE < PAGE_LIST_COUNT ∨
      PAGE_LIST_MAX < pageBlockSize p.mem b / PAGE_SIZE := by
    obtain ⟨h31, h32⟩ := hg
    rw [PAGE_LIST_COUNT_eq]
    unfold PAGE_LIST_MAX
    omega
  obtain ⟨p', hret, hindex, hframe⟩ := hcase.elim (pageFreeInsert_list h hb)
    (pageFreeInsert_tree h hb)
  refine ⟨p', hret, hindex, size_of_links (h.spaced_insert hb) Set.Subset.rfl hframe ?_⟩
  rintro a (rfl | ha)
  · exact hb.page_le
  · exact h.size a ha

/-- Removing a block from a list. -/
theorem pageFreeRemove_list (hx : FreeIndex id pageSizeIdx PAGE_LIST_COUNT p.mem p.list p.tree S L T)
    (hb : b ∈ S) (hi : i < PAGE_LIST_COUNT) (hidx : pageSizeIdx (pageBlockSize p.mem b) = i) :
    ∃ p', pageFreeRemove p b = .ok p' ∧ PoolIndex p' (S \ {b}) ∧
      AgreeOff p.mem p'.mem (linkBytes id pageSizeIdx p.mem S) := by
  obtain ⟨⟨L', hun⟩, hframe, -⟩ := hx.unlink hb hi hidx
  unfold pageFreeRemove
  simp only [hidx, Int.natCast_nonneg, if_true, Int.toNat_natCast]
  cases e : (unlinkItem p.mem b).2 with
  | none =>
      have e' : unlinkItem p.mem b = ((unlinkItem p.mem b).1, none) := by rw [← e]
      rw [e, Option.getD_none, Function.update_eq_self] at hun
      rw [e']
      exact ⟨_, rfl, ⟨L', T, hun⟩, hframe⟩
  | some first =>
      have e' : unlinkItem p.mem b = ((unlinkItem p.mem b).1, some first) := by rw [← e]
      rw [e, Option.getD_some] at hun
      rw [e']
      dsimp only
      rw [if_pos (by exact_mod_cast hi)]
      exact ⟨_, rfl, ⟨L', T, hun⟩, hframe⟩

theorem pageClearNode_eq (m : Mem) (b : ℕ) : pageClearNode m b = dropLinks m b := by
  unfold pageClearNode dropLinks setParent setChild
  dsimp only
  rw [wr_comm m 0 0 (by omega)]

/-- For a block that ends its chain the removal from the chain is complete. -/
theorem setChild_last {idx : ℕ → ℤ} {n : ℕ} {head : ℕ → ℕ} {root : ℕ}
    (hx : FreeIndex id idx n p.mem head root S L T)
    (hb : b ∈ nodes T) (hc : childBlock p.mem b = 0) (hp : parentBlock p.mem b ≠ 0) :
    setChild p.mem (parentBlock p.mem b) (childBlock p.mem b) = unlinkChild p.mem b := by
  have hsub := hx.tree_sub
  have hspaced := hx.spaced
  rcases split_of_mem_nodes hb with ⟨A, cs, B, rfl⟩ | ⟨A, q, xs, ys, B, rfl⟩
  · exact absurd hx.tree.head_links.2.2.1 hp
  · obtain ⟨-, hbS, hpS, hpb, -⟩ := chain_neighbours hx.tree hsub
    have hlt : childBlock p.mem b < 2 ^ 64 := rd_lt _ _
    have e : childBlock (setChild p.mem (parentBlock p.mem b) (childBlock p.mem b)) b = 0 := by
      rw [(hspaced.setChild hpS hbS hlt).2.2.1, if_neg hpb.symm, hc]
    unfold unlinkChild
    simp [e]

/-- Removing a block without a child from the tree. -/
theorem pageFreeRemove_tree (hx : FreeIndex id pageSizeIdx PAGE_LIST_COUNT p.mem p.list p.tree S L T)
    (hb : b ∈ S) (hneg : pageSizeIdx (pageBlockSize p.mem b) < 0)
    (hc : childBlock p.mem b = 0) :
    ∃ p', pageFreeRemove p b = .ok p' ∧ PoolIndex p' (S \ {b}) ∧
      AgreeOff p.mem p'.mem (linkBytes id pageSizeIdx p.mem S) := by
  have hbT : b ∈ nodes T := hx.mem_tree_iff.mpr ⟨hb, hneg⟩
  have hnot : ¬ 0 ≤ pageSizeIdx (pageBlockSize p.mem b) := not_le.mpr hneg
  unfold pageFreeRemove pageTreeDelete
  simp only [hnot, if_false, pageClearNode_eq]
  by_cases hp : parentBlock p.mem b = 0
  · obtain ⟨⟨T', hun⟩, -, hframe, -⟩ := hx.detachHead hb hneg hp hc
    simp only [hp, hc, ne_eq, not_true, if_false]
    exact ⟨_, rfl, ⟨L, T', hun⟩, hframe⟩
  · obtain ⟨⟨T', hun⟩, hframe, -⟩ := hx.detachChild hb hneg hp
    simp only [hp, ne_eq, not_false_iff, if_true, setChild_last hx hbT hc hp]
    exact ⟨_, rfl, ⟨L, T', hun⟩, hframe⟩

/-- **Removing a block.** -/
theorem pageFreeRemove_spec (h : PoolInv p S) (hb : b ∈ S) (hg : PoolOk p (.remove b)) :
    ∃ p', pageFreeRemove p b = .ok p' ∧ PoolInv p' (S \ {b}) := by
  obtain ⟨L, T, hx⟩ := h.index
  have hcall : ∃ p', pageFreeRemove p b = .ok p' ∧ PoolIndex p' (S \ {b}) ∧
      AgreeOff p.mem p'.mem (linkBytes id pageSizeIdx p.mem S) := by
    rcases (hx.mem b).mp hb with ⟨i, hi, hbi⟩ | hbt
    · exact pageFreeRemove_list hx hb hi (hx.listed i hi b hbi)
    · have hneg : pageSizeIdx (pageBlockSize p.mem b) < 0 := hx.treed b hbt
      refine pageFreeRemove_tree hx hb hneg (hg.resolve_left fun hle => ?_)
      rw [pageSizeIdx_list hle] at hneg
      exact absurd hneg (not_lt.mpr (Int.natCast_nonneg _))
  obtain ⟨p', hret, hindex, hframe⟩ := hcall
  exact ⟨p', hret, hindex, size_of_links hx.spaced Set.sdiff_subset hframe fun a ha =>
    h.size a ha.1⟩

end calls

/-! ### Runs -/

section runs

variable {p : PagePool} {S : Set ℕ} {b : ℕ}

theorem PoolRun.inv (h : PoolRun PoolOk p S) : PoolInv p S := by
  induction h with
  | empty m => exact ⟨⟨_, _, FreeIndex.empty fun _ _ => rfl⟩, fun _ ha => ha.elim⟩
  | @other p S m h hm ih =>
      obtain ⟨⟨L, T, hx⟩, hsize⟩ := ih
      have hkeep : ∀ a ∈ S, ∀ x, a ≤ x → x < a + 48 → m x = p.mem x := fun a ha x h1 h2 => by
        have := hsize a ha
        unfold PAGE_SIZE at this
        exact hm a ha x h1 (by omega)
      refine ⟨⟨L, T, hx.congr (fun a ha x h1 h2 => hkeep a ha x (by omega) h2) fun _ _ => rfl⟩,
        fun a ha => ?_⟩
      have e : pageBlockSize m a = pageBlockSize p.mem a :=
        rd_congr fun x h1 h2 => hkeep a ha x (by omega) (by omega)
      show PAGE_SIZE ≤ pageBlockSize m a
      rw [e]
      exact hsize a ha
  | insert h hb hg hret ih =>
      obtain ⟨p'', hret', hinv⟩ := pageFreeInsert_spec ih hb hg
      rwa [hret.unique hret']
  | remove h hb hg hret ih =>
      obtain ⟨p'', hret', hinv⟩ := pageFreeRemove_spec ih hb hg
      rw [hret'] at hret
      cases hret
      exact hinv

/-- **In a run without the excluded calls the pool holds exactly the blocks inserted and not yet
removed, and every further such call returns.** -/
theorem page_pool_run (h : PoolRun PoolOk p S) : PoolIndex p S ∧ PoolServes PoolOk p S := by
  refine ⟨h.inv.index, fun b hb hg => ?_, fun b hb hg => ?_⟩
  · obtain ⟨p', hret, -⟩ := pageFreeInsert_spec h.inv hb hg
    exact ⟨p', hret⟩
  · obtain ⟨p', hret, -⟩ := pageFreeRemove_spec h.inv hb hg
    exact ⟨p', hret⟩

instance : Inhabited PagePool := ⟨⟨fun _ => 0, fun _ => 0, 0⟩⟩

/-- The pool after an insertion that returns. -/
def insertState (p : PagePool) (b : ℕ) : PagePool := resultOf (pageFreeInsert 9 p b)

/-- The pool after a removal that returns. -/
def removeState (p : PagePool) (b : ℕ) : PagePool := resultOf (pageFreeRemove p b)

/-- The empty pool, in cleared memory with the size words of blocks at 2 and 3 megabytes. -/
def emptyPool (size : ℕ) : PagePool :=
  ⟨wr (wr (fun _ => 0) 0x200008 size) 0x300008 size, fun _ => 0, 0⟩

theorem pageFreeInsert_steady (p : PagePool) (b : ℕ) : Steady fun n => pageFreeInsert n p b := by
  unfold pageFreeInsert pageTreeInsert
  refine Steady.ite (Steady.const _) (Steady.bind (Steady.ite ?_ (Steady.const _)) fun _ =>
    Steady.const _)
  exact Steady.ite (Steady.const _) (Steady.bind (loop_steady _ _) fun _ => Steady.const _)

theorem insertState_run {good : PagePool → PoolCall → Prop} (h : PoolRun good p S)
    (hb : Insertable p S b) (hg : good p (.insert b))
    (hok : (pageFreeInsert 9 p b).isOk = true) :
    PoolRun good (insertState p b) (insert b S) :=
  h.insert hb hg ((pageFreeInsert_steady p b).returns (resultOf_eq hok))

theorem removeState_run {good : PagePool → PoolCall → Prop} (h : PoolRun good p S) (hb : b ∈ S)
    (hg : good p (.remove b)) (hok : (pageFreeRemove p b).isOk = true) :
    PoolRun good (removeState p b) (S \ {b}) :=
  h.remove hb hg (resultOf_eq hok)

/-- Two blocks of 33 pages are inserted. -/
theorem pairRun {good : PagePool → PoolCall → Prop} (hg₁ : good (emptyPool 0x21000) (.insert 0x200000))
    (hg₂ : good (insertState (emptyPool 0x21000) 0x200000) (.insert 0x300000)) :
    PoolRun good (insertState (insertState (emptyPool 0x21000) 0x200000) 0x300000)
      (insert 0x300000 (insert 0x200000 ∅)) := by
  have h0 : PoolRun good (emptyPool 0x21000) ∅ := .empty _
  have h1 := insertState_run h0 (b := 0x200000)
    ⟨by decide, by decide +kernel, Nat.dvd_of_mod_eq_zero (by decide +kernel), by decide +kernel,
      fun _ ha => ha.elim⟩ hg₁ (by decide +kernel)
  exact insertState_run h1 (b := 0x300000)
    ⟨by decide, by decide +kernel, Nat.dvd_of_mod_eq_zero (by decide +kernel), by decide +kernel,
      by rintro a (rfl | ha); exacts [.inl (by decide +kernel), ha.elim]⟩
    hg₂ (by decide +kernel)

/-- The second block is the child of the first one in the tree, and is removed. -/
theorem page_pool_pair :
    let p := removeState (insertState (insertState (emptyPool 0x21000) 0x200000) 0x300000) 0x300000
    PoolIndex p {0x200000} ∧ PoolServes PoolOk p {0x200000} := by
  have h2 : PoolRun PoolOk _ _ := pairRun ⟨by decide +kernel, by decide +kernel⟩
    ⟨by decide +kernel, by decide +kernel⟩
  have h3 := removeState_run h2 (b := 0x300000) (.inl rfl) (.inr (by decide +kernel))
    (by decide +kernel)
  have e : insert 0x300000 (insert 0x200000 ∅) \ {0x300000} = ({0x200000} : Set ℕ) := by
    ext x
    simp only [Set.mem_sdiff, Set.mem_insert_iff, Set.mem_singleton_iff, Set.mem_empty_iff_false]
    grind
  rw [e] at h3
  exact page_pool_run h3

/-- Two blocks of 33 pages, inserted and removed in the same order: the second one stays behind. -/
theorem orphan_run : PoolRun (fun _ _ => True)
    (removeState (removeState (insertState (insertState (emptyPool 0x21000) 0x200000) 0x300000)
      0x200000) 0x300000) ∅ := by
  have h2 : PoolRun (fun _ _ => True) _ _ := pairRun trivial trivial
  have h3 := removeState_run h2 (b := 0x200000) (.inr (.inl rfl)) trivial (by decide +kernel)
  have h4 := removeState_run h3 (b := 0x300000) ⟨.inl rfl, by simp⟩ trivial (by decide +kernel)
  have e : (insert 0x300000 (insert 0x200000 ∅) \ {0x200000}) \ {0x300000} = (∅ : Set ℕ) := by
    ext x
    simp only [Set.mem_sdiff, Set.mem_insert_iff, Set.mem_singleton_iff, Set.mem_empty_iff_false]
    tauto
  rw [e] at h4
  exact h4

/-- A block of 31 pages is put into an entry beyond the last one, and the tree may keep a block
that was removed. -/
theorem page_pool_fails :
    (∃ p S, PoolRun (fun _ _ => True) p S ∧ ¬ PoolServes (fun _ _ => True) p S) ∧
      ∃ p, PoolRun (fun _ _ => True) p ∅ ∧ ¬ PoolIndex p ∅ := by
  refine ⟨⟨emptyPool 0x1F000, ∅, .empty _, fun h => ?_⟩, _, orphan_run, ?_⟩
  · obtain ⟨p', hret⟩ := h.insert 0x200000 ⟨by decide, by decide +kernel,
      Nat.dvd_of_mod_eq_zero (by decide +kernel), by decide +kernel, fun _ ha => ha.elim⟩ trivial
    have hstop := (pageFreeInsert_steady (emptyPool 0x1F000) 0x200000).stops (n := 9)
      (errorOf_eq (e := .bounds) (by decide +kernel)) (by decide)
    exact hret.not_stops hstop
  · rintro ⟨L, T, hx⟩
    have hT : T = [] := by
      by_contra hne
      exact hx.tree_sub _ (heads_sub (hx.tree.root_mem hne))
    have htree := hx.root_eq_nul.mpr hT
    revert htree
    decide +kernel

end runs

end Dawos
