import Dawos.BlockStore
import Dawos.HeapFrame

/-! # The memory manager of the loader

`memory.c`: until there is a heap, memory is taken from a placement address that only grows and never
comes back; `mem_init_heap` puts the heap there.  `memTake` is the common form of the four allocating
functions.

`MemSeen` is a step of a run with what the callers do and get.  `memory_blockStore` says that they see a
store of separate blocks, from `mem_init` on and across `mem_init_heap`: as large as requested, page
aligned and cleared if requested.  `memory_load_stored` follows: a load gives the byte that its owner
stored last. -/

namespace Dawos.Memory

/-! ### The code -/

/-- `_heap` and `_placement_addr`. -/
structure MemVars where
  heap : ℕ
  placementAddr : ℕ

def memInit (placementAddr32 : ℕ) : MemVars := ⟨0, placementAddr32⟩

def memInitHeap (fuel : ℕ) (v : MemVars) (m : Mem) (maxSize : ℕ) : Except Halt (MemVars × Mem) := do
  let m ← heapCreate fuel m v.placementAddr PAGE_SIZE maxSize
  return (⟨v.placementAddr, INIT_MEM⟩, m)

/-- Take memory, page aligned or not, and clear it or not. -/
def memTake (align clean : Bool) (pageAlloc : PageAlloc) (fuel : ℕ) (v : MemVars) (m : Mem) (size : ℕ) :
    Except Halt (MemVars × Mem × ℕ) :=
  if v.heap ≠ 0 then do
    let (m, ptr) ← heapAlloc pageAlloc fuel m v.heap size align
    let m := if clean then fill m ptr 0 (heapAllocSize m ptr) else m
    return (v, m, ptr)
  else
    let ptr := if align then pageSizeAlign v.placementAddr else v.placementAddr
    let m := if clean then fill m ptr 0 size else m
    .ok ({ v with placementAddr := u64 (ptr + size) }, m, ptr)

def memAlloc := memTake false false
def memAllocAlign := memTake true false
def memAllocClean := memTake false true
def memAllocAc := memTake true true

/-- Without a heap nothing is reallocated. -/
def memRealloc (pageAlloc : PageAlloc) (fuel : ℕ) (v : MemVars) (m : Mem) (ptr size : ℕ) :
    Except Halt (Mem × ℕ) :=
  if v.heap ≠ 0 then heapRealloc pageAlloc fuel m v.heap ptr size false else .ok (m, 0)

def memFree (fuel : ℕ) (v : MemVars) (m : Mem) (ptr : ℕ) : Except Halt Mem :=
  if v.heap ≠ 0 then heapFree fuel m v.heap ptr else .ok m

def memFreeClean (fuel : ℕ) (v : MemVars) (m : Mem) (ptr : ℕ) : Except Halt Mem :=
  if v.heap ≠ 0 then heapFree fuel (fill m ptr 0 (heapAllocSize m ptr)) v.heap ptr else .ok m

/-! ### Runs -/

/-- The variables, memory, the pointers into the heap that were handed out and not released, and the
sizes of the blocks that were taken from the placement address and not released. -/
structure MemState where
  vars : MemVars
  mem : Mem
  live : List ℕ
  placed : ℕ → Option ℕ

/-- A size, and whether the memory is to be page aligned and cleared. -/
structure Request where
  size : ℕ
  align : Bool
  clean : Bool

/-- What a request asks for. -/
def Request.Meets (r : Request) (p n : ℕ) (f : ℕ → Option UInt8) : Prop :=
  r.size ≤ n ∧ (r.align = true → p % PAGE_SIZE = 0) ∧ (r.clean = true → ∀ i < n, f i = some 0)

namespace MemState

/-- The sizes of the blocks that are in use. -/
def size (s : MemState) (p : ℕ) : Option ℕ :=
  if p ∈ s.live then some (heapAllocSize s.mem p) else s.placed p

/-- The bytes of the blocks that were placed. -/
def PlacedByte (s : MemState) (x : ℕ) : Prop := ∃ p n, s.placed p = some n ∧ p ≤ x ∧ x < p + n

/-- The address that the placement address is taken up to. -/
def placeAddr (s : MemState) (align : Bool) : ℕ :=
  if align then pageSizeAlign s.vars.placementAddr else s.vars.placementAddr

/-- The condition on the state before a request is served: in the heap the one of `heap_alloc`, before
there is a heap that the size is not zero and that the addresses do not wrap. -/
def TakeOk (s : MemState) (r : Request) (g : ℕ) : Prop :=
  if s.vars.heap ≠ 0 then AllocOk s.mem s.vars.heap r.size r.align g
  else 0 < r.size ∧ s.vars.placementAddr ≤ s.placeAddr r.align ∧ s.placeAddr r.align + r.size < 2 ^ 64

/-- The state after a request is served with `p`. -/
def taken (s : MemState) (v : MemVars) (m : Mem) (p size : ℕ) : MemState :=
  if p = 0 then ⟨v, m, s.live, s.placed⟩
  else if s.vars.heap ≠ 0 then ⟨v, m, p :: s.live, s.placed⟩
  else ⟨v, m, s.live, Function.update s.placed p (some size)⟩

/-- The memory that `heap_free` finds. -/
def cleared (s : MemState) (p : ℕ) (clean : Bool) : Mem :=
  if clean then fill s.mem p 0 (heapAllocSize s.mem p) else s.mem

/-- The condition on a release: the pointer names a block, and in the heap the merges can be made. -/
def FreeOk (s : MemState) (p : ℕ) (clean : Bool) : Prop :=
  if s.vars.heap ≠ 0 then p ∈ s.live ∧ Dawos.FreeOk (s.cleared p clean) s.vars.heap p
  else ∃ n, s.placed p = some n

/-- The state after a release. -/
def freed (s : MemState) (m : Mem) (p : ℕ) : MemState :=
  if s.vars.heap ≠ 0 then ⟨s.vars, m, s.live.erase p, s.placed⟩
  else ⟨s.vars, m, s.live, Function.update s.placed p none⟩

end MemState

/-- A step with what the callers see of it.  The page allocator leaves the heap and the blocks that were
placed. -/
inductive MemSeen : MemState → BlockEvent Request ℕ UInt8 → MemState → Prop
  | take {s : MemState} {r : Request} {g p : ℕ} {pa : ℕ → PageAlloc} {v : MemVars} {m : Mem}
      (hok : s.TakeOk r g)
      (hpa : s.vars.heap ≠ 0 → GrantsIn (fun x => (x < s.vars.heap ∨ heapEndAddr s.mem s.vars.heap ≤ x) ∧
        ¬ s.PlacedByte x) pa (heapLock s.mem s.vars.heap) s.vars.heap (heapBsize (heapSizeAlign r.size)) g)
      (hret : Returns (fun n => memTake r.align r.clean (pa n) n s.vars s.mem r.size) (v, m, p)) :
      MemSeen s (if p = 0 then .fail r else .alloc r p) (s.taken v m p r.size)
  | realloc {s : MemState} {r : Request} {p q : ℕ} {pa : ℕ → PageAlloc} {m : Mem}
      (hp : s.vars.heap ≠ 0 → p ∈ s.live) (hn : r.size < 2 ^ 64)
      (hret : Returns (fun n => memRealloc (pa n) n s.vars s.mem p r.size) (m, q)) :
      MemSeen s (if q = 0 then .fail r else .holds p r.size) { s with mem := m }
  | free {s : MemState} {p : ℕ} {clean : Bool} {m : Mem} (hok : s.FreeOk p clean)
      (hret : Returns (fun n => (if clean then memFreeClean else memFree) n s.vars s.mem p) m) :
      MemSeen s (.free p) (s.freed m p)
  | initHeap {s : MemState} {v : MemVars} {m : Mem} {maxSize : ℕ} (h0 : s.vars.heap = 0)
      (h1 : s.vars.placementAddr ≠ 0) (hok : CreateOk s.vars.placementAddr PAGE_SIZE)
      (hret : Returns (fun n => memInitHeap n s.vars s.mem maxSize) (v, m)) :
      MemSeen s .other { s with vars := v, mem := m }
  | store {s : MemState} {p i n : ℕ} {b : UInt8} (hp : s.size p = some n) (hi : i < n) :
      MemSeen s (.store p i b) { s with mem := Function.update s.mem (p + i) b }
  | load {s : MemState} {p i n : ℕ} (hp : s.size p = some n) (hi : i < n) :
      MemSeen s (.load p i (s.mem (p + i))) s
  /-- Memory outside the heap and the blocks that were placed changes. -/
  | other {s : MemState} {m : Mem}
      (h : ∀ x, (s.vars.heap ≠ 0 ∧ s.vars.heap ≤ x ∧ x < heapEndAddr s.mem s.vars.heap) ∨ s.PlacedByte x →
        m x = s.mem x) : MemSeen s .other { s with mem := m }

/-! ### The invariant -/

/-- Where the placed blocks end: at the heap, or at the placement address. -/
def MemState.base (s : MemState) : ℕ := if s.vars.heap ≠ 0 then s.vars.heap else s.vars.placementAddr

/-- The blocks that were placed are apart and below the heap, and the live pointers are those of the
heap. -/
structure MemInv (s : MemState) : Prop where
  heap : s.vars.heap ≠ 0 → ∃ bs, HeapInv s.vars.heap bs ⟨s.mem, s.live⟩
  live : s.vars.heap = 0 → s.live = []
  below : ∀ {p n}, s.placed p = some n → 0 < n ∧ p + n ≤ s.base
  apart : ∀ {p q n k}, p ≠ q → s.placed p = some n → s.placed q = some k → p + n ≤ q ∨ q + k ≤ p

section invariant

variable {s : MemState} {p q n k i j : ℕ} {x : ℕ} {m : Mem} {v : MemVars}

/-- A live pointer names no block that was placed. -/
theorem MemInv.live_placed (h : MemInv s) (hp : p ∈ s.live) :
    s.vars.heap ≠ 0 ∧ s.base ≤ p ∧ s.placed p = none := by
  have hheap : s.vars.heap ≠ 0 := fun h0 => by
    rw [h.live h0] at hp
    cases hp
  obtain ⟨bs, hs⟩ := h.heap hheap
  have hle := (hs.payload_inside hp).1
  have hbase : s.base = s.vars.heap := if_pos hheap
  refine ⟨hheap, by omega, Option.eq_none_iff_forall_ne_some.mpr fun n hn => ?_⟩
  have := h.below hn
  omega

/-- A block is a payload in the heap, or it was placed. -/
theorem MemState.size_cases (h : s.size p = some n) :
    (p ∈ s.live ∧ heapAllocSize s.mem p = n) ∨ (p ∉ s.live ∧ s.placed p = some n) := by
  unfold size at h
  split_ifs at h with hp
  · exact .inl ⟨hp, Option.some.inj h⟩
  · exact .inr ⟨hp, h⟩

/-- **Blocks that are in use are apart.** -/
theorem MemInv.ne (h : MemInv s) (hp : s.size p = some n) (hi : i < n) (hqp : q ≠ p)
    (hq : s.size q = some k) (hj : j < k) : q + j ≠ p + i := by
  rcases s.size_cases hp with ⟨hpl, rfl⟩ | ⟨-, hpp⟩ <;> rcases s.size_cases hq with ⟨hql, rfl⟩ | ⟨-, hqq⟩
  · obtain ⟨hheap, -⟩ := h.live_placed hpl
    obtain ⟨bs, hs⟩ := h.heap hheap
    exact hs.payload_ne hpl hql hqp hi hj
  · have h1 := (h.live_placed hpl).2.1
    have h2 := h.below hqq
    omega
  · have h1 := (h.live_placed hql).2.1
    have h2 := h.below hpp
    omega
  · have h1 := h.apart hqp hqq hpp
    omega

/-- **Writes that avoid the tags of the heap** leave the blocks where they are. -/
theorem MemInv.write (h : MemInv s) (hm : s.vars.heap ≠ 0 → ∀ x, s.vars.heap ≤ x →
    x < heapEndAddr s.mem s.vars.heap → (∀ p ∈ s.live, ¬ (p ≤ x ∧ x < p + heapAllocSize s.mem p)) →
      m x = s.mem x) : MemInv { s with mem := m } ∧ MemState.size { s with mem := m } = s.size := by
  have hheap : s.vars.heap ≠ 0 → ∃ bs, HeapInv s.vars.heap bs ⟨s.mem, s.live⟩ ∧
      HeapInv s.vars.heap bs ⟨m, s.live⟩ := fun h0 => by
    obtain ⟨bs, hs⟩ := h.heap h0
    exact ⟨bs, hs, (hs.other (hm h0)).1⟩
  refine ⟨⟨fun h0 => (hheap h0).imp fun _ hs => hs.2, h.live, h.below, h.apart⟩, funext fun p => ?_⟩
  unfold MemState.size
  by_cases hp : p ∈ s.live
  · obtain ⟨bs, hs, hs'⟩ := hheap (h.live_placed hp).1
    rw [if_pos hp, if_pos hp]
    exact congrArg some (hs.size_eq hs' hp)
  · rw [if_neg hp, if_neg hp]

end invariant

/-! ### The simulation -/

/-- The blocks of the store are the blocks in use, at the addresses that name them. -/
structure Holds (s : MemState) (B : BlockStore ℕ UInt8) : Prop where
  inv : MemInv s
  laid : BlockStore.Laid s.size s.mem B

/-- The block that `q` names, if any, is where it was and as it was. -/
structure BlockKept (s s' : MemState) (q : ℕ) : Prop where
  size : s'.size q = s.size q
  byte : ∀ {n i}, s.size q = some n → i < n → s'.mem (q + i) = s.mem (q + i)

section simulation

variable {s s' s'' : MemState} {B : BlockStore ℕ UInt8} {p q i n g size : ℕ} {m m' : Mem} {v : MemVars}
  {b : UInt8} {f : ℕ → Option UInt8} {P : ℕ → Prop} {pa : ℕ → PageAlloc} {align clean : Bool}

theorem BlockKept.trans (h : BlockKept s s' q) (h' : BlockKept s' s'' q) : BlockKept s s'' q :=
  ⟨h'.size.trans h.size, fun hs hi => (h'.byte (h.size.trans hs) hi).trans (h.byte hs hi)⟩

/-- A block that a call in the heap leaves. -/
theorem MemInv.kept {live : List ℕ} (h : MemInv s) (hl : Left s.vars.heap P live s.mem s'.mem)
    (hP : ∀ x, P x → ¬ s.PlacedByte x) (hq : q ∈ s.live → q ∈ live) (hlive : q ∈ s'.live ↔ q ∈ s.live)
    (hplaced : s'.placed q = s.placed q) (hheap : s.vars.heap ≠ 0) : BlockKept s s' q := by
  have hbase : s.base = s.vars.heap := if_pos hheap
  refine ⟨?_, fun {n i} hs hi => ?_⟩
  · unfold MemState.size
    by_cases hql : q ∈ s.live
    · rw [if_pos hql, if_pos (hlive.mpr hql), (hl.kept q (hq hql)).size]
    · rw [if_neg hql, if_neg fun hc => hql (hlive.mp hc), hplaced]
  · rcases s.size_cases hs with ⟨hql, rfl⟩ | ⟨-, hqp⟩
    · exact (hl.kept q (hq hql)).byte i hi
    · have hbelow := h.below hqp
      exact hl.below _ (by omega) fun hx => hP _ hx ⟨q, n, hqp, by omega, by omega⟩

/-- A block while writes avoid it, and no heap is in use. -/
theorem MemInv.kept_placed (h : MemInv s) (hheap : s.vars.heap = 0) (hlive : s'.live = s.live)
    (hplaced : s'.placed q = s.placed q) (hm : ∀ x, x < s.vars.placementAddr → s'.mem x = s.mem x) :
    BlockKept s s' q := by
  have hnil := h.live hheap
  have hbase : s.base = s.vars.placementAddr := if_neg (not_not.mpr hheap)
  have hsize : s.size q = s.placed q := if_neg (by rw [hnil]; exact List.not_mem_nil)
  refine ⟨?_, fun {n i} hs hi => ?_⟩
  · rw [hsize, ← hplaced]
    exact if_neg (by rw [hlive, hnil]; exact List.not_mem_nil)
  · have hbelow := h.below (hsize.symm.trans hs)
    exact hm _ (by omega)

theorem Holds.kept (h : Holds s B) (hinv : MemInv s') (hk : ∀ q, BlockKept s s' q) : Holds s' B := by
  have hsize : s'.size = s.size := funext fun q => (hk q).size
  refine ⟨hinv, ?_⟩
  rw [hsize]
  exact h.laid.kept fun hp hi => (hk _).byte hp hi

theorem Holds.alloc (h : Holds s B) (hinv : MemInv s') (hp : s'.size p = some n) (hnone : s.size p = none)
    (hk : ∀ q ≠ p, BlockKept s s' q) (hf : ∀ i < n, ∀ b, f i = some b → s'.mem (p + i) = b) :
    Holds s' (B.alloc p n f) := by
  have hsize : s'.size = Function.update s.size p (some n) := by
    funext q
    by_cases hqp : q = p
    · rw [hqp, hp, Function.update_self]
    · rw [Function.update_of_ne hqp, (hk q hqp).size]
  refine ⟨hinv, ?_⟩
  rw [hsize]
  refine h.laid.alloc (fun {q k i} hq hi => ?_) hf
  have hqp : q ≠ p := fun e => by
    rw [e, hnone] at hq
    cases hq
  exact (hk q hqp).byte hq hi

theorem Holds.free (h : Holds s B) (hinv : MemInv s') (hp : s'.size p = none)
    (hk : ∀ q ≠ p, BlockKept s s' q) : Holds s' (B.free p) := by
  have hsize : s'.size = Function.update s.size p none := by
    funext q
    by_cases hqp : q = p
    · rw [hqp, hp, Function.update_self]
    · rw [Function.update_of_ne hqp, (hk q hqp).size]
  refine ⟨hinv, ?_⟩
  rw [hsize]
  refine h.laid.free p fun {q k i} hq hi => ?_
  have hqp : q ≠ p := fun e => by
    rw [e, Function.update_self] at hq
    cases hq
  rw [Function.update_of_ne hqp] at hq
  exact (hk q hqp).byte hq hi

/-- Clearing the payload of a live pointer, or not. -/
theorem clear_own {heap : ℕ} {bs : List Block} {live : List ℕ} (h : HeapInv heap bs ⟨m, live⟩)
    (hp : p ∈ live) (hm : m' = if clean then fill m p 0 (heapAllocSize m p) else m) :
    HeapInv heap bs ⟨m', live⟩ ∧ Left heap (fun _ => False) (live.erase p) m m' ∧
      heapAllocSize m' p = heapAllocSize m p ∧
      (clean = true → ∀ i < heapAllocSize m p, m' (p + i) = 0) := by
  subst hm
  cases clean with
  | false => exact ⟨h, ⟨fun q _ => Kept.refl m q, fun _ _ _ => rfl⟩, rfl, fun hc => nomatch hc⟩
  | true =>
      have hout : ∀ x, ¬ (p ≤ x ∧ x < p + heapAllocSize m p) →
          fill m p 0 (heapAllocSize m p) x = m x := fun _ hx => if_neg hx
      obtain ⟨hinv, hleft⟩ := h.own hp hout
      exact ⟨hinv, hleft, h.size_eq hinv hp, fun _ i hi => if_pos ⟨by omega, by omega⟩⟩

theorem memTake_returns {m₁ : Mem} (hheap : v.heap ≠ 0)
    (h : Returns (fun n => heapAlloc (pa n) n m v.heap size align) (m₁, p)) :
    Returns (fun n => memTake align clean (pa n) n v m size)
      (v, if clean then fill m₁ p 0 (heapAllocSize m₁ p) else m₁, p) := by
  unfold memTake
  simp only [if_pos hheap]
  exact h.bind (Returns.of_eq fun _ => rfl)

theorem memTake_plain {m₁ : Mem} (hheap : v.heap ≠ 0)
    (h : Returns (fun n => heapAlloc (pa n) n m v.heap size align) (m₁, p)) :
    Returns (fun n => memTake align false (pa n) n v m size) (v, m₁, p) := memTake_returns hheap h

theorem memInitHeap_returns {maxSize : ℕ}
    (h : Returns (fun n => heapCreate n m v.placementAddr PAGE_SIZE maxSize) m') :
    Returns (fun n => memInitHeap n v m maxSize) (⟨v.placementAddr, INIT_MEM⟩, m') :=
  h.bind (Returns.of_eq fun _ => rfl)

/-- What `memTake` does in the heap. -/
theorem memTake_heap {bs : List Block} {v' : MemVars} {live : List ℕ} (hheap : v.heap ≠ 0)
    (h : HeapInv v.heap bs ⟨m, live⟩) (hok : AllocOk m v.heap size align g)
    (hpa : GrantsIn P pa (heapLock m v.heap) v.heap (heapBsize (heapSizeAlign size)) g)
    (hret : Returns (fun n => memTake align clean (pa n) n v m size) (v', m', p)) :
    v' = v ∧ ∃ m₁, Returns (fun n => heapAlloc (pa n) n m v.heap size align) (m₁, p) ∧
      m' = if clean then fill m₁ p 0 (heapAllocSize m₁ p) else m₁ := by
  obtain ⟨m₁, q, hq⟩ := h.alloc_returns hok hpa
  obtain ⟨rfl, hmq⟩ := Prod.mk.inj (hret.unique (memTake_returns hheap hq))
  obtain ⟨hm, rfl⟩ := Prod.mk.inj hmq
  exact ⟨rfl, m₁, hq, hm⟩

/-- A new payload. -/
theorem Holds.push {r : Request} (h : Holds s B) (hheap : s.vars.heap ≠ 0)
    (hinv : ∃ bs, HeapInv s.vars.heap bs ⟨m', p :: s.live⟩) (hl : Left s.vars.heap P s.live s.mem m')
    (hP : ∀ x, P x → ¬ s.PlacedByte x) (hp : p ∉ s.live) (hle : s.vars.heap ≤ p)
    (hn : heapAllocSize m' p = n) (hr : r.Meets p n f)
    (hf : ∀ i < n, ∀ b, f i = some b → m' (p + i) = b) :
    ∃ B', BlockStore.Step Request.Meets B (.alloc r p) B' ∧ Holds ⟨s.vars, m', p :: s.live, s.placed⟩ B' := by
  have hplaced : s.placed p = none := Option.eq_none_iff_forall_ne_some.mpr fun n hn => by
    have hbelow := h.inv.below hn
    have hbase : s.base = s.vars.heap := if_pos hheap
    omega
  have hnone : s.size p = none := (if_neg hp).trans hplaced
  have hsize : (⟨s.vars, m', p :: s.live, s.placed⟩ : MemState).size p = some n :=
    (if_pos List.mem_cons_self).trans (congrArg some hn)
  refine ⟨B.alloc p n f, .alloc ((h.laid.blocks p).trans hnone) hr,
    h.alloc ⟨fun _ => hinv, fun h0 => absurd h0 hheap, h.inv.below, h.inv.apart⟩ hsize hnone
      (fun q hq => ?_) hf⟩
  exact h.inv.kept hl hP id (List.mem_cons.trans (or_iff_right hq)) rfl hheap

/-- **A request served from the heap.** -/
theorem Holds.take_heap {r : Request} (h : Holds s B) (hheap : s.vars.heap ≠ 0)
    (hok : AllocOk s.mem s.vars.heap r.size r.align g)
    (hpa : GrantsIn (fun x => (x < s.vars.heap ∨ heapEndAddr s.mem s.vars.heap ≤ x) ∧ ¬ s.PlacedByte x)
      pa (heapLock s.mem s.vars.heap) s.vars.heap (heapBsize (heapSizeAlign r.size)) g)
    (hret : Returns (fun n => memTake r.align r.clean (pa n) n s.vars s.mem r.size) (v, m, p)) :
    ∃ B', BlockStore.Step Request.Meets B (if p = 0 then .fail r else .alloc r p) B' ∧
      Holds (s.taken v m p r.size) B' := by
  obtain ⟨bs, hs⟩ := h.inv.heap hheap
  obtain ⟨rfl, m₁, halloc, rfl⟩ := memTake_heap hheap hs hok hpa hret
  obtain ⟨⟨bs₁, hinv₁⟩, -⟩ := hs.alloc hok hpa.grants halloc
  obtain ⟨hleft, hnew⟩ := hs.alloc_left hok hpa halloc
  have hP : ∀ x, (x < s.vars.heap ∨ heapEndAddr s.mem s.vars.heap ≤ x) ∧ ¬ s.PlacedByte x →
      ¬ s.PlacedByte x := fun _ hx => hx.2
  unfold MemState.taken
  by_cases hp0 : p = 0
  · subst hp0
    -- nothing was handed out, and nothing is cleared
    have hclear : (if r.clean then fill m₁ 0 0 (heapAllocSize m₁ 0) else m₁) = m₁ := by
      split_ifs
      · funext x
        exact if_neg fun hx => Nat.not_lt_zero x hx.2
      · rfl
    rw [if_pos rfl, if_pos rfl, hclear]
    rw [if_pos rfl] at hinv₁
    exact ⟨B, .fail, h.kept ⟨fun _ => ⟨bs₁, hinv₁⟩, h.inv.live, h.inv.below, h.inv.apart⟩
      fun q => h.inv.kept hleft hP id Iff.rfl rfl hheap⟩
  · obtain ⟨hfresh, hle, hsize, halign⟩ := hnew hp0
    rw [if_neg hp0] at hinv₁
    obtain ⟨hinv', hleft', hsize', hzero⟩ := clear_own hinv₁ List.mem_cons_self
      (rfl : (if r.clean then fill m₁ p 0 (heapAllocSize m₁ p) else m₁) = _)
    rw [List.erase_cons_head] at hleft'
    generalize (if r.clean then fill m₁ p 0 (heapAllocSize m₁ p) else m₁) = m' at *
    rw [if_neg hp0, if_neg hp0, if_pos hheap]
    refine h.push hheap ⟨bs₁, hinv'⟩ (hleft.trans hleft') hP hfresh hle hsize'
      (f := fun _ => if r.clean then some 0 else none) ⟨hsize, halign, fun hc _ _ => if_pos hc⟩ ?_
    intro i hi b hb
    split_ifs at hb with hc
    exact (hzero hc i hi).trans (Option.some.inj hb)

/-- A block more below a placement address that grew. -/
theorem MemInv.place (h : MemInv s) (hheap : s.vars.heap = 0) (hle : s.vars.placementAddr ≤ p)
    (hpos : 0 < n) : MemInv ⟨⟨0, p + n⟩, m', s.live, Function.update s.placed p (some n)⟩ := by
  have hold : ∀ {q k}, s.placed q = some k → 0 < k ∧ q + k ≤ p := fun hq => by
    have hbase : s.base = s.vars.placementAddr := if_neg (not_not.mpr hheap)
    have hbelow := h.below hq
    omega
  -- a block is the new one, or an old one below it
  have hcases : ∀ {q k}, Function.update s.placed p (some n) q = some k →
      (q = p ∧ k = n) ∨ (q ≠ p ∧ s.placed q = some k ∧ 0 < k ∧ q + k ≤ p) := fun {q k} hq => by
    by_cases hqp : q = p
    · rw [hqp, Function.update_self] at hq
      exact .inl ⟨hqp, (Option.some.inj hq).symm⟩
    · rw [Function.update_of_ne hqp] at hq
      exact .inr ⟨hqp, hq, hold hq⟩
  refine ⟨fun hc => absurd rfl hc, fun _ => h.live hheap, fun {q k} hq => ?_, fun {q q' k k'} hne hq hq' => ?_⟩
  · change 0 < k ∧ q + k ≤ p + n
    rcases hcases hq with ⟨rfl, rfl⟩ | ⟨-, -, hq⟩ <;> omega
  · rcases hcases hq with ⟨rfl, rfl⟩ | ⟨-, hq, hqle⟩ <;> rcases hcases hq' with ⟨rfl, rfl⟩ | ⟨-, hq', hqle'⟩
    · exact absurd rfl hne
    · omega
    · omega
    · exact h.apart hne hq hq'

/-- **A request served from the placement address.** -/
theorem Holds.take_placed {r : Request} (h : Holds s B) (hheap : s.vars.heap = 0) (hok : s.TakeOk r g)
    (hret : Returns (fun n => memTake r.align r.clean (pa n) n s.vars s.mem r.size) (v, m, p)) :
    ∃ B', BlockStore.Step Request.Meets B (if p = 0 then .fail r else .alloc r p) B' ∧
      Holds (s.taken v m p r.size) B' := by
  unfold MemState.TakeOk at hok
  rw [if_neg (not_not.mpr hheap)] at hok
  obtain ⟨hpos, hle, hlt⟩ := hok
  have hret' : Returns (fun n => memTake r.align r.clean (pa n) n s.vars s.mem r.size)
      (⟨0, s.placeAddr r.align + r.size⟩,
        if r.clean then fill s.mem (s.placeAddr r.align) 0 r.size else s.mem, s.placeAddr r.align) := by
    refine Returns.of_eq fun n => ?_
    unfold memTake
    rw [if_neg (not_not.mpr hheap)]
    change Except.ok ((⟨s.vars.heap, u64 (s.placeAddr r.align + r.size)⟩ : MemVars),
      (if r.clean then fill s.mem (s.placeAddr r.align) 0 r.size else s.mem), s.placeAddr r.align) = _
    rw [u64_of_lt hlt, hheap]
  obtain ⟨rfl, hmp⟩ := Prod.mk.inj (hret.unique hret')
  obtain ⟨hm, rfl⟩ := Prod.mk.inj hmp
  have hbyte : ∀ x, x < s.vars.placementAddr → m x = s.mem x := fun x hx => by
    rw [hm]
    split_ifs
    · exact if_neg fun hc => by omega
    · rfl
  have hnone : s.placed (s.placeAddr r.align) = none := Option.eq_none_iff_forall_ne_some.mpr fun n hn => by
    have hbase : s.base = s.vars.placementAddr := if_neg (not_not.mpr hheap)
    have hbelow := h.inv.below hn
    omega
  have hlive : ∀ q, q ∉ s.live := fun q => by
    rw [h.inv.live hheap]
    exact List.not_mem_nil
  unfold MemState.taken
  by_cases hp0 : s.placeAddr r.align = 0
  · rw [if_pos hp0, if_pos hp0]
    have hbase : s.base = s.vars.placementAddr := if_neg (not_not.mpr hheap)
    refine ⟨B, .fail, h.kept ⟨fun hc => absurd rfl hc, fun _ => h.inv.live hheap, fun {q k} hq => ?_,
      h.inv.apart⟩ fun q => h.inv.kept_placed hheap rfl rfl hbyte⟩
    change 0 < k ∧ q + k ≤ s.placeAddr r.align + r.size
    have hbelow := h.inv.below hq
    omega
  · rw [if_neg hp0, if_neg hp0, if_neg (not_not.mpr hheap)]
    refine ⟨B.alloc (s.placeAddr r.align) r.size fun _ => if r.clean then some 0 else none,
      .alloc ((h.laid.blocks _).trans ((if_neg (hlive _)).trans hnone))
        ⟨le_rfl, fun ha => ?_, fun hc _ _ => if_pos hc⟩,
      h.alloc (h.inv.place hheap hle hpos) ((if_neg (hlive _)).trans (Function.update_self _ _ _))
        ((if_neg (hlive _)).trans hnone) (fun q hq => ?_) fun i hi b hb => ?_⟩
    · have hpage : s.placeAddr r.align = pageSizeAlign s.vars.placementAddr := if_pos ha
      rw [hpage, pageSizeAlign_eq, PAGE_SIZE]
      omega
    · exact h.inv.kept_placed hheap rfl (Function.update_of_ne hq _ _) hbyte
    · split_ifs at hb with hc
      rw [hm, if_pos hc]
      exact (if_pos ⟨by omega, by omega⟩).trans (Option.some.inj hb)

/-- **A release.** -/
theorem Holds.release (h : Holds s B) (hok : s.FreeOk p clean)
    (hret : Returns (fun n => (if clean then memFreeClean else memFree) n s.vars s.mem p) m) :
    ∃ B', BlockStore.Step Request.Meets B (.free p) B' ∧ Holds (s.freed m p) B' := by
  unfold MemState.FreeOk at hok
  unfold MemState.freed
  by_cases hheap : s.vars.heap ≠ 0
  · rw [if_pos hheap] at hok ⊢
    obtain ⟨hp, hfree⟩ := hok
    obtain ⟨bs, hs⟩ := h.inv.heap hheap
    obtain ⟨hinv, hleft, -, -⟩ := clear_own hs hp (rfl : s.cleared p clean = _)
    have hret' : Returns (fun n => heapFree n (s.cleared p clean) s.vars.heap p) m := by
      refine hret.congr fun n => ?_
      cases clean <;> exact (if_pos hheap).symm
    obtain ⟨⟨bs', hinv'⟩, -⟩ := hinv.free hp hfree hret'
    have hleft' := hleft.trans (hinv.free_left hp hfree hret')
    have hp' : p ∉ s.live.erase p := fun hc => (hs.nodup.mem_erase_iff.mp hc).1 rfl
    refine ⟨B.free p, .free ((h.laid.blocks p).trans (if_pos hp)),
      h.free ⟨fun _ => ⟨bs', hinv'⟩, fun h0 => absurd h0 hheap, h.inv.below, h.inv.apart⟩
        ((if_neg hp').trans (h.inv.live_placed hp).2.2) fun q hq => ?_⟩
    have hmem : q ∈ s.live.erase p ↔ q ∈ s.live :=
      hs.nodup.mem_erase_iff.trans (and_iff_right hq)
    exact h.inv.kept hleft' (fun _ hx => hx.elim) hmem.mpr hmem rfl hheap
  · rw [if_neg hheap] at hok ⊢
    have hheap := not_not.mp hheap
    obtain ⟨n, hn⟩ := hok
    have hret' : Returns (fun n => (if clean then memFreeClean else memFree) n s.vars s.mem p) s.mem := by
      refine Returns.of_eq fun n => ?_
      cases clean <;> exact if_neg (not_not.mpr hheap)
    obtain rfl := hret.unique hret'
    have hlive : ∀ q, q ∉ s.live := fun q => by
      rw [h.inv.live hheap]
      exact List.not_mem_nil
    have hold : ∀ {q k}, Function.update s.placed p none q = some k → s.placed q = some k :=
      fun {q k} hq => by
        by_cases hqp : q = p
        · rw [hqp, Function.update_self] at hq
          cases hq
        · rwa [Function.update_of_ne hqp] at hq
    refine ⟨B.free p, .free ((h.laid.blocks p).trans ((if_neg (hlive p)).trans hn)),
      h.free ⟨fun hc => absurd hheap hc, h.inv.live, fun hq => h.inv.below (hold hq),
        fun hne hq hq' => h.inv.apart hne (hold hq) (hold hq')⟩
        ((if_neg (hlive p)).trans (Function.update_self _ _ _)) fun q hq => ?_⟩
    exact h.inv.kept_placed hheap rfl (Function.update_of_ne hq _ _) fun _ _ => rfl

/-- **A reallocation** that returns a pointer returns the one it was given. -/
theorem Holds.realloc {r : Request} (h : Holds s B) (hp : s.vars.heap ≠ 0 → p ∈ s.live)
    (hn : r.size < 2 ^ 64) (hret : Returns (fun n => memRealloc (pa n) n s.vars s.mem p r.size) (m, q)) :
    BlockStore.Step Request.Meets B (if q = 0 then .fail r else .holds p r.size) B ∧
      Holds { s with mem := m } B := by
  by_cases hheap : s.vars.heap ≠ 0
  · obtain ⟨bs, hs⟩ := h.inv.heap hheap
    have hp := hp hheap
    obtain ⟨hlt, rfl, rfl⟩ := realloc_fits hs.lock (hret.congr fun n => (if_pos hheap).symm)
    obtain ⟨b, hb, hbq⟩ := (hs.live _).mp hp
    have hsize := hs.rep.allocSize hb.1
    have hd := b.size_dvd
    rw [hbq] at hsize
    dsimp only at hsize hlt
    rw [heapAlign_eq hn] at hlt
    rw [if_neg fun e => absurd (hbq.trans e) (Nat.succ_ne_zero _)]
    exact ⟨.holds ((h.laid.blocks _).trans (if_pos hp)) (by omega), h⟩
  · have hret' : Returns (fun n => memRealloc (pa n) n s.vars s.mem p r.size) (s.mem, 0) :=
      Returns.of_eq fun n => if_neg hheap
    obtain ⟨rfl, rfl⟩ := Prod.mk.inj (hret.unique hret')
    rw [if_pos rfl]
    exact ⟨.fail, h⟩

/-- **The heap is made** above the blocks that were placed. -/
theorem Holds.init {maxSize : ℕ} (h : Holds s B) (h0 : s.vars.heap = 0) (h1 : s.vars.placementAddr ≠ 0)
    (hok : CreateOk s.vars.placementAddr PAGE_SIZE)
    (hret : Returns (fun n => memInitHeap n s.vars s.mem maxSize) (v, m)) :
    Holds { s with vars := v, mem := m } B := by
  obtain ⟨m₁, b, hcreate, -⟩ := heapCreate_spec s.mem maxSize hok
  obtain ⟨rfl, rfl⟩ := Prod.mk.inj (hret.unique (memInitHeap_returns hcreate))
  have hframe := heapCreate_frame hok hcreate
  have hbase : s.base = s.vars.placementAddr := if_neg (not_not.mpr h0)
  refine h.kept ⟨fun _ => ?_, fun hc => absurd hc h1, fun hq => ?_, h.inv.apart⟩
    fun q => h.inv.kept_placed h0 rfl rfl fun x hx => hframe x (by omega)
  · have hc : Created s.vars.placementAddr PAGE_SIZE maxSize ⟨m, s.live⟩ :=
      ⟨⟨s.mem, hcreate⟩, h.inv.live h0⟩
    obtain ⟨bs, hinv, -⟩ := hc.inv hok
    exact ⟨bs, hinv⟩
  · have hnew : MemState.base ⟨⟨s.vars.placementAddr, INIT_MEM⟩, m, s.live, s.placed⟩ =
        s.vars.placementAddr := if_pos h1
    have hbelow := h.inv.below hq
    omega

/-- **The owner of a block stores a byte.** -/
theorem Holds.store (h : Holds s B) (hp : s.size p = some n) (hi : i < n) :
    Holds { s with mem := Function.update s.mem (p + i) b } (B.store p i b) := by
  have hlaid := h.laid.store (b := b) hp hi fun hqp hq hj => h.inv.ne hp hi hqp hq hj
  obtain ⟨hinv, hsize⟩ := h.inv.write (m := Function.update s.mem (p + i) b) fun hheap x h1 h2 hx => by
    refine Function.update_of_ne (fun e => ?_) _ _
    rcases s.size_cases hp with ⟨hpl, rfl⟩ | ⟨-, hpp⟩
    · exact hx p hpl ⟨by omega, by omega⟩
    · have hbase : s.base = s.vars.heap := if_pos hheap
      have hbelow := h.inv.below hpp
      omega
  refine ⟨hinv, ?_⟩
  rw [hsize]
  exact hlaid

/-- **Everybody else writes.** -/
theorem Holds.other (h : Holds s B) (hm : ∀ x, (s.vars.heap ≠ 0 ∧ s.vars.heap ≤ x ∧
    x < heapEndAddr s.mem s.vars.heap) ∨ s.PlacedByte x → m x = s.mem x) : Holds { s with mem := m } B := by
  obtain ⟨hinv, hsize⟩ := h.inv.write (m := m) fun hheap x h1 h2 _ => hm x (.inl ⟨hheap, h1, h2⟩)
  refine ⟨hinv, ?_⟩
  rw [hsize]
  refine h.laid.kept fun {q n i} hq hi => ?_
  rcases s.size_cases hq with ⟨hql, rfl⟩ | ⟨-, hqp⟩
  · obtain ⟨hheap, -⟩ := h.inv.live_placed hql
    obtain ⟨bs, hs⟩ := h.inv.heap hheap
    have hin := hs.payload_inside hql
    exact hm _ (.inl ⟨hheap, by omega, by omega⟩)
  · exact hm _ (.inr ⟨q, n, hqp, by omega, by omega⟩)

/-- **Every step of the memory manager is a step of the store.** -/
theorem memSeen_simulates : Simulates MemSeen (BlockStore.Step Request.Meets) Holds where
  step := by
    intro s B e s' h hst
    cases hst with
    | take hok hpa hret =>
        by_cases hheap : s.vars.heap = 0
        · exact h.take_placed hheap hok hret
        · unfold MemState.TakeOk at hok
          rw [if_pos hheap] at hok
          exact h.take_heap hheap hok (hpa hheap) hret
    | realloc hp hn hret => exact ⟨B, h.realloc hp hn hret⟩
    | free hok hret => exact h.release hok hret
    | initHeap h0 h1 hok hret => exact ⟨B, .other, h.init h0 h1 hok hret⟩
    | @store p i n b hp hi => exact ⟨B.store p i b, .store ((h.laid.blocks p).trans hp) hi, h.store hp hi⟩
    | @load p i n hp hi =>
        exact ⟨B, .load ((h.laid.blocks p).trans hp) hi fun c hc => h.laid.cell hp hi hc, h⟩
    | other hm => exact ⟨B, .other, h.other hm⟩

end simulation

/-! ### Runs from the start -/

section runs

variable {placementAddr32 p i : ℕ} {m : Mem} {s : MemState} {b c : UInt8}
  {es es' : List (BlockEvent Request ℕ UInt8)}

/-- The state after `mem_init`. -/
def started (placementAddr32 : ℕ) (m : Mem) : MemState := ⟨memInit placementAddr32, m, [], fun _ => none⟩

theorem started_holds (placementAddr32 : ℕ) (m : Mem) : Holds (started placementAddr32 m) BlockStore.empty := by
  refine ⟨⟨fun hc => absurd rfl hc, fun _ => rfl, fun hq => (nomatch hq), fun _ hq => (nomatch hq)⟩, ?_⟩
  exact BlockStore.Laid.empty m

/-- **The callers of the memory manager see a store of separate blocks**, from `mem_init` on. -/
theorem memory_blockStore (h : Steps MemSeen (started placementAddr32 m) es s) :
    ∃ B, Steps (BlockStore.Step Request.Meets) BlockStore.empty es B ∧ Holds s B :=
  memSeen_simulates.run (started_holds placementAddr32 m) h

/-- **A load gives the byte that the owner of the block stored last**, whatever was allocated and
released in between, and whether or not the heap was made in between. -/
theorem memory_load_stored
    (h : Steps MemSeen (started placementAddr32 m) (es ++ (.store p i b :: es' ++ [.load p i c])) s)
    (hes : ∀ e ∈ es', ¬ BlockStore.Touches p i e) : c = b := by
  obtain ⟨B, hB, -⟩ := memSeen_simulates.run (started_holds placementAddr32 m) h
  obtain ⟨B₁, -, hB₁⟩ := hB.split
  exact BlockStore.load_stored hB₁ hes

end runs

/-! ### A run across the creation of the heap

A page is placed at 0x103000, the heap is made behind it, and 100 bytes are allocated in the heap. -/

/-- The allocation in the heap. -/
theorem hundred_returns : ∃ m, Returns (fun n => heapAlloc (granting 0 n) n
    (madeHeap 0x104000 0x100000).mem 0x104000 100 false) (m, 0x104230) ∧ heapAllocSize m 0x104230 = 112 := by
  obtain ⟨-, -, hret, hmem, hsize⟩ := pageHeap_facts
  have hret := granting_returns 0 hret
  unfold allocState at hmem hsize
  generalize resultOf (heapAlloc (granting 0 9) 9 _ 0x104000 100 false) = r at hret hmem hsize
  obtain ⟨m, p⟩ := r
  dsimp only at hmem hsize
  split_ifs at hmem with h0
  · cases hmem
  · obtain rfl := List.mem_singleton.mp hmem
    exact ⟨m, hret, hsize⟩

theorem madeHeap_returns {heap maxSize : ℕ}
    (h : (heapCreate 9 (fun _ => 0) heap PAGE_SIZE maxSize).isOk = true) :
    Returns (fun n => heapCreate n (fun _ => 0) heap PAGE_SIZE maxSize) (madeHeap heap maxSize).mem :=
  (heapCreate_steady _ _ _ _).returns (resultOf_eq h)

def onePlaced : ℕ → Option ℕ := Function.update (fun _ => none) 0x103000 (some 0x1000)

/-- No pages are granted. -/
theorem granting_grantsIn {P : ℕ → Prop} {m : Mem} {heap bsize : ℕ}
    (hP : ∀ x, P x → x < heap ∨ heapEndAddr m heap ≤ x) :
    GrantsIn P (granting 0) (heapLock m heap) heap bsize 0 := by
  refine ⟨.inl rfl, ⟨_, Returns.of_eq fun _ => rfl, AgreeOff.refl _ _⟩, fun x hx => ?_⟩
  rw [(lock_bounded m heap).2.1]
  exact hP x hx

/-- A step in which the heap hands out a pointer. -/
theorem MemSeen.take_heap {v : MemVars} {m m' : Mem} {live : List ℕ} {placed : ℕ → Option ℕ}
    {size g p : ℕ} {align clean : Bool} {pa : ℕ → PageAlloc} (hheap : v.heap ≠ 0) (hp : p ≠ 0)
    (hok : AllocOk m v.heap size align g)
    (hpa : GrantsIn (fun x => (x < v.heap ∨ heapEndAddr m v.heap ≤ x) ∧
      ¬ MemState.PlacedByte ⟨v, m, live, placed⟩ x) pa (heapLock m v.heap) v.heap
        (heapBsize (heapSizeAlign size)) g)
    (hret : Returns (fun n => memTake align clean (pa n) n v m size) (v, m', p)) :
    MemSeen ⟨v, m, live, placed⟩ (.alloc ⟨size, align, clean⟩ p) ⟨v, m', p :: live, placed⟩ := by
  have hok' : MemState.TakeOk ⟨v, m, live, placed⟩ ⟨size, align, clean⟩ g := by
    unfold MemState.TakeOk
    rw [if_pos hheap]
    exact hok
  have h := MemSeen.take hok' (fun _ => hpa) hret
  unfold MemState.taken at h
  rwa [if_neg hp, if_neg hp, if_pos hheap] at h

theorem hundred_steps : ∃ m, heapAllocSize m 0x104230 = 112 ∧
    Steps MemSeen (started 0x103000 fun _ => 0)
      [.alloc ⟨0x1000, true, false⟩ 0x103000, .other, .alloc ⟨100, false, false⟩ 0x104230]
      ⟨⟨0x104000, INIT_MEM⟩, m, [0x104230], onePlaced⟩ := by
  obtain ⟨m₁, hret, hsize⟩ := hundred_returns
  have hne : (0x104000 : ℕ) ≠ 0 := by norm_num
  have hplace : MemSeen (started 0x103000 fun _ => 0) (.alloc ⟨0x1000, true, false⟩ 0x103000)
      ⟨⟨0, 0x104000⟩, fun _ => 0, [], onePlaced⟩ := by
    have hret : Returns (fun n => memTake true false (granting 0 n) n (memInit 0x103000) (fun _ => 0) 0x1000)
        (⟨0, 0x104000⟩, fun _ => 0, 0x103000) := Returns.of_eq fun n => rfl
    exact MemSeen.take (s := started 0x103000 fun _ => 0) (r := ⟨0x1000, true, false⟩) (g := 0)
      ⟨by decide, by decide, by decide⟩ (fun hc => absurd rfl hc) hret
  have hinit : MemSeen ⟨⟨0, 0x104000⟩, fun _ => 0, [], onePlaced⟩ .other
      ⟨⟨0x104000, INIT_MEM⟩, (madeHeap 0x104000 0x100000).mem, [], onePlaced⟩ := by
    exact MemSeen.initHeap rfl hne (createOk_page (by decide) (by decide))
      (memInitHeap_returns (v := ⟨0, 0x104000⟩) (madeHeap_returns pageHeap_facts.1))
  have halloc : MemSeen ⟨⟨0x104000, INIT_MEM⟩, (madeHeap 0x104000 0x100000).mem, [], onePlaced⟩
      (.alloc ⟨100, false, false⟩ 0x104230) ⟨⟨0x104000, INIT_MEM⟩, m₁, [0x104230], onePlaced⟩ :=
    MemSeen.take_heap hne (by norm_num) pageHeap_allocOk (granting_grantsIn fun _ hx => hx.1)
      (memTake_plain (v := ⟨0x104000, INIT_MEM⟩) hne hret)
  exact ⟨m₁, hsize, .cons hplace (.cons hinit (.cons halloc (.nil _)))⟩

/-- A byte is stored in each of two blocks, and the first one is loaded. -/
theorem Holds.stores {B : BlockStore ℕ UInt8} {s : MemState} {p q i j n k : ℕ} {b c : UInt8}
    (h : Holds s B) (hp : s.size p = some n) (hi : i < n) (hq : s.size q = some k) (hj : j < k)
    (hqp : q ≠ p) : ∃ s', Steps MemSeen s [.store p i b, .store q j c, .load p i b] s' := by
  have h₁ := h.store (b := b) hp hi
  have hq₁ := (h₁.laid.blocks q).symm.trans ((h.laid.blocks q).trans hq)
  have h₂ := h₁.store (b := c) hq₁ hj
  have hp₂ := (h₂.laid.blocks p).symm.trans ((h.laid.blocks p).trans hp)
  have hload := MemSeen.load hp₂ hi
  have hb : Function.update (Function.update s.mem (p + i) b) (q + j) c (p + i) = b := by
    rw [Function.update_of_ne (h.inv.ne hp hi hqp hq hj).symm, Function.update_self]
  dsimp only at hload
  rw [hb] at hload
  exact ⟨_, .cons (.store hp hi) (.cons (.store hq₁ hj) (.cons hload (.nil _)))⟩

theorem memory_blockStore_hundred : ∃ s B, Steps (BlockStore.Step Request.Meets) BlockStore.empty
    [.alloc ⟨0x1000, true, false⟩ 0x103000, .other, .alloc ⟨100, false, false⟩ 0x104230] B ∧
    Holds s B := by
  obtain ⟨m, -, hsteps⟩ := hundred_steps
  exact ⟨_, memory_blockStore hsteps⟩

theorem memory_load_stored_hundred : ∃ s c, Steps MemSeen (started 0x103000 fun _ => 0)
    ([.alloc ⟨0x1000, true, false⟩ 0x103000, .other, .alloc ⟨100, false, false⟩ 0x104230] ++
      (.store 0x104230 3 7 :: [.store 0x103000 5 9] ++ [.load 0x104230 3 c])) s ∧ c = 7 := by
  obtain ⟨m, hsize, hsteps⟩ := hundred_steps
  obtain ⟨B, -, hB⟩ := memSeen_simulates.run (started_holds _ _) hsteps
  have hheap : MemState.size ⟨⟨0x104000, INIT_MEM⟩, m, [0x104230], onePlaced⟩ 0x104230 = some 112 :=
    (if_pos (List.mem_singleton.mpr rfl)).trans (congrArg some hsize)
  have hplaced : MemState.size ⟨⟨0x104000, INIT_MEM⟩, m, [0x104230], onePlaced⟩ 0x103000 = some 0x1000 :=
    (if_neg (show (0x103000 : ℕ) ∉ [0x104230] by decide)).trans
      (by simp only [onePlaced, Function.update_self])
  obtain ⟨s, hs⟩ := hB.stores (b := 7) (c := 9) (i := 3) (j := 5) hheap (by norm_num) hplaced
    (by norm_num) (by norm_num)
  have hr : Steps MemSeen (started 0x103000 fun _ => 0)
      ([.alloc ⟨0x1000, true, false⟩ 0x103000, .other, .alloc ⟨100, false, false⟩ 0x104230] ++
        (.store 0x104230 3 7 :: [.store 0x103000 5 9] ++ [.load 0x104230 3 7])) s := hsteps.append hs
  refine ⟨s, 7, hr, memory_load_stored hr fun e he => ?_⟩
  obtain rfl := List.mem_singleton.mp he
  rintro (h | ⟨c, h⟩) <;> cases h

end Dawos.Memory
