import Dawos.E820
import Dawos.PageMap
import Dawos.PagePool

/-! # Allocating pages in the loader

`page_init`, `page_free_search` and `page_alloc` of the loader's `paging.c`.  The state is the pool
of page blocks with the memory, and the number of calls of `mem_alloc_align` so far.

`page_alloc` maps the page of its address if it does not resolve, and looks for a free block that is
large enough; it does nothing else.  So what it grants is present and its own just if it was so
before, apart from this page (`pageAlloc_granted`), and in a run of such calls everything granted
stays so (`page_alloc_run`). -/

namespace Dawos

/-! ### The code -/

/-- Magic number used in page blocks for sanity checks. -/
def PAGE_MAGIC : ℕ := 0xFFFFDEADBEEFFFFF

/-- The pool, and the number of calls of `mem_alloc_align`. -/
structure LoaderPages where
  pool : PagePool
  calls : ℕ

/-- Create a page block: write its header and footer. -/
def pageCreateBlock (m : Mem) (ptr size : ℕ) : Mem :=
  let size := pageSizeAlign size
  let m := wr m ptr PAGE_MAGIC
  let m := wr m (ptr + 8) size
  let footer := sub64 (u64 (ptr + pageBlockSize m ptr)) 16
  let m := wr m (footer + 8) ptr
  wr m footer PAGE_MAGIC

/-- The loop of `page_init` that maps a region, from offset `k` on. -/
def pageMapRegion (alloc : TableAlloc) (root base length : ℕ) :
    ℕ → ℕ → ℕ → Mem → Except Halt (ℕ × Mem)
  | 0, _, _, _ => .error .fuel
  | fuel + 1, k, calls, m =>
      if k < length then
        let va := pageAlign (u64 (base + k))
        if INIT_MEM ≤ va then
          pageIdMap alloc calls m root va va >>= fun r =>
            pageMapRegion alloc root base length fuel (u64 (k + PAGE_SIZE)) r.1 r.2.1
        else pageMapRegion alloc root base length fuel (u64 (k + PAGE_SIZE)) calls m
      else .ok (calls, m)

/-- Map a usable region, and put what lies behind the initial memory into the pool. -/
def pageInitRegion (alloc : TableAlloc) (root fuel : ℕ) (s : LoaderPages) (base length : ℕ) :
    Except Halt LoaderPages :=
  pageMapRegion alloc root base length fuel 0 s.calls s.pool.mem >>= fun r =>
  let s : LoaderPages := ⟨{ s.pool with mem := r.2 }, r.1⟩
  if INIT_MEM < u64 (base + length) then
    let start := if base < INIT_MEM then INIT_MEM else base
    let size := sub64 length (sub64 start base)
    let m := pageCreateBlock s.pool.mem start size
    pageFreeInsert fuel { s.pool with mem := m } start >>= fun p => .ok ⟨p, s.calls⟩
  else .ok s

/-- The loop of `page_init` over the map, from entry `i` on. -/
def pageInitEntries (alloc : TableAlloc) (root n : ℕ) : ℕ → ℕ → LoaderPages → Except Halt LoaderPages
  | 0, _, _ => .error .fuel
  | fuel + 1, i, s =>
      if i < e820Size s.pool.mem then
        let e := e820Entry s.pool.mem i
        if e.type = kMemOk then
          pageInitRegion alloc root n s e.base e.length >>= fun s =>
            pageInitEntries alloc root n fuel (i + 1) s
        else pageInitEntries alloc root n fuel (i + 1) s
      else .ok s

/-- Initialize paging. -/
def pageInit (alloc : TableAlloc) (root fuel : ℕ) (m : Mem) : Except Halt LoaderPages :=
  pageInitEntries alloc root fuel fuel 0 ⟨⟨sortE820 m, fun _ => 0, 0⟩, 0⟩

/-- The first list from `idx` on that is not empty, of the `k` last ones. -/
def pageListSearch (p : PagePool) : ℕ → ℕ → Option ℕ
  | 0, _ => none
  | k + 1, idx => if p.list idx ≠ 0 then some (p.list idx) else pageListSearch p k (idx + 1)

/-- The walk to larger blocks, which may end behind the last one. -/
def pageWalkLarger (m : Mem) (size block : ℕ) : ℕ ⊕ ℕ :=
  if block ≠ 0 ∧ pageBlockSize m block < size then .inl (largerBlock m block) else .inr block

/-- The walk to smaller blocks. -/
def pageWalkSmaller (m : Mem) (size block : ℕ) : ℕ ⊕ ℕ :=
  if size < pageBlockSize m block then
    if smallerBlock m block ≠ 0 ∧ size ≤ pageBlockSize m (smallerBlock m block) then
      .inl (smallerBlock m block)
    else .inr block
  else .inr block

/-- Find a free block of a size. -/
def pageFreeSearch (fuel : ℕ) (p : PagePool) (size : ℕ) : Except Halt ℕ :=
  let idx := pageSizeIdx size
  match if 0 ≤ idx then pageListSearch p (PAGE_LIST_COUNT - idx.toNat) idx.toNat else none with
  | some block => .ok block
  | none =>
      if pageBlockSize p.mem p.tree < size then loop (pageWalkLarger p.mem size) fuel p.tree
      else if size < pageBlockSize p.mem p.tree then loop (pageWalkSmaller p.mem size) fuel p.tree
      else .ok p.tree

/-- Allocate `size` bytes of pages at an address: the number of bytes. -/
def pageAlloc (alloc : TableAlloc) (root fuel : ℕ) (s : LoaderPages) (vaddr size : ℕ) :
    Except Halt (LoaderPages × ℕ) :=
  let size := pageSizeAlign size
  let search (s : LoaderPages) : Except Halt (LoaderPages × ℕ) :=
    -- nothing is done with the block that is found
    pageFreeSearch fuel s.pool size >>= fun pages => .ok (s, if pages ≠ 0 then size else 0)
  if pageResolve s.pool.mem root vaddr = 0 then
    pageIdMap alloc s.calls s.pool.mem root vaddr vaddr >>= fun r =>
    let s : LoaderPages := ⟨{ s.pool with mem := r.2.1 }, r.1⟩
    if r.2.2 then search s else .ok (s, 0)
  else search s

/-! ### What is granted -/

/-- The blocks on the segregated lists. -/
inductive InLists (p : PagePool) : ℕ → Prop
  | head {i : ℕ} (hi : i < PAGE_LIST_COUNT) (h : p.list i ≠ 0) : InLists p (p.list i)
  | next {a : ℕ} (ha : InLists p a) (h : nextBlock p.mem a ≠ 0) : InLists p (nextBlock p.mem a)

/-- The blocks of the tree. -/
inductive InTree (p : PagePool) : ℕ → Prop
  | root (h : p.tree ≠ 0) : InTree p p.tree
  | smaller {a : ℕ} (ha : InTree p a) (h : smallerBlock p.mem a ≠ 0) :
      InTree p (smallerBlock p.mem a)
  | larger {a : ℕ} (ha : InTree p a) (h : largerBlock p.mem a ≠ 0) : InTree p (largerBlock p.mem a)
  | child {a : ℕ} (ha : InTree p a) (h : childBlock p.mem a ≠ 0) : InTree p (childBlock p.mem a)

/-- The blocks in the pool. -/
def InPool (p : PagePool) (a : ℕ) : Prop := InLists p a ∨ InTree p a

/-- The bytes that the headers and links of the blocks are in. -/
def poolBytes (p : PagePool) (x : ℕ) : Prop := ∃ a, InPool p a ∧ a ≤ x ∧ x < a + 48

/-- No block of the pool overlaps the page at `f`. -/
def PoolApart (p : PagePool) (f : ℕ) : Prop := ∀ a, InPool p a →
  a + pageBlockSize p.mem a ≤ f / PAGE_SIZE * PAGE_SIZE ∨ f / PAGE_SIZE * PAGE_SIZE + PAGE_SIZE ≤ a

/-- The `n` bytes at `v` are present, and no block of the pool overlaps the pages that back them. -/
structure Granted (root : ℕ) (s : LoaderPages) (v n : ℕ) : Prop where
  present : ∀ x, v ≤ x → x < v + n → (translate s.pool.mem root x).isSome = true
  apart : ∀ x, v ≤ x → x < v + n → ∀ f, translate s.pool.mem root x = some f → PoolApart s.pool f

/-- The condition for `page_alloc` before the call: the first page does not resolve if it is not
present, all other pages are present, and no block of the pool overlaps the pages that back
them; for the first page that may be the one at the address itself. -/
structure AllocPagesOk (root : ℕ) (s : LoaderPages) (v size : ℕ) : Prop where
  first : translate s.pool.mem root v = none → pageResolve s.pool.mem root v = 0
  rest : ∀ x, v ≤ x → x < v + pageSizeAlign size → ¬ SamePage x v →
    (translate s.pool.mem root x).isSome = true
  apart : ∀ x, v ≤ x → x < v + pageSizeAlign size →
    PoolApart s.pool ((translate s.pool.mem root x).getD (v % 2 ^ 52))

/-- The tables are pages, no two paths share one, and neither they nor the pages that
`mem_alloc_align` has left nor its own data meet the headers of the pool. -/
structure TablesApart (fresh : ℕ → ℕ) (own : ℕ → Prop) (n root : ℕ) (s : LoaderPages) : Prop where
  pages : PagesOk fresh (fun x => own x ∨ poolBytes s.pool x) n s.pool.mem root s.calls
  fresh : ∀ k < n, ∀ x, fresh k ≤ x → x < fresh k + 4096 → ¬ poolBytes s.pool x
  own : ∀ x, own x → ¬ poolBytes s.pool x

/-- A run from `page_init` on, and what it granted: `good` holds of the arguments in the state before
each call of `page_alloc`. -/
inductive AllocRun (alloc : TableAlloc) (root : ℕ) (start : LoaderPages → Prop)
    (good : LoaderPages → ℕ → ℕ → Prop) : LoaderPages → List (ℕ × ℕ) → Prop
  | init {fuel : ℕ} {m : Mem} {s : LoaderPages} (h : pageInit alloc root fuel m = .ok s)
      (hs : start s) : AllocRun alloc root start good s []
  | alloc {fuel v size n : ℕ} {s s' : LoaderPages} {gs : List (ℕ × ℕ)}
      (h : AllocRun alloc root start good s gs) (hv : v < 2 ^ 64) (hg : good s v size)
      (hret : pageAlloc alloc root fuel s v size = .ok (s', n)) :
      AllocRun alloc root start good s' ((v, n) :: gs)

/-! ### The pool -/

section pool

variable {p q : PagePool} {m : Mem} {a : ℕ}

/-- Two pools with the same heads and the same links at the blocks of the first. -/
structure SameLinks (p q : PagePool) : Prop where
  list : ∀ i, q.list i = p.list i
  tree : q.tree = p.tree
  next : ∀ b, InLists p b → nextBlock q.mem b = nextBlock p.mem b
  smaller : ∀ b, InTree p b → smallerBlock q.mem b = smallerBlock p.mem b
  larger : ∀ b, InTree p b → largerBlock q.mem b = largerBlock p.mem b
  child : ∀ b, InTree p b → childBlock q.mem b = childBlock p.mem b

theorem SameLinks.inLists (h : SameLinks p q) : InLists q a ↔ InLists p a := by
  constructor
  · intro ha
    induction ha with
    | head hi h0 =>
        rw [h.list] at h0 ⊢
        exact .head hi h0
    | next _ h0 ih =>
        rw [h.next _ ih] at h0 ⊢
        exact .next ih h0
  · intro ha
    induction ha with
    | head hi h0 =>
        rw [← h.list] at h0 ⊢
        exact .head hi h0
    | next ha h0 ih =>
        rw [← h.next _ ha] at h0 ⊢
        exact .next ih h0

theorem SameLinks.inTree (h : SameLinks p q) : InTree q a ↔ InTree p a := by
  constructor
  · intro ha
    induction ha with
    | root h0 =>
        rw [h.tree] at h0 ⊢
        exact .root h0
    | smaller _ h0 ih =>
        rw [h.smaller _ ih] at h0 ⊢
        exact .smaller ih h0
    | larger _ h0 ih =>
        rw [h.larger _ ih] at h0 ⊢
        exact .larger ih h0
    | child _ h0 ih =>
        rw [h.child _ ih] at h0 ⊢
        exact .child ih h0
  · intro ha
    induction ha with
    | root h0 =>
        rw [← h.tree] at h0 ⊢
        exact .root h0
    | smaller ha h0 ih =>
        rw [← h.smaller _ ha] at h0 ⊢
        exact .smaller ih h0
    | larger ha h0 ih =>
        rw [← h.larger _ ha] at h0 ⊢
        exact .larger ih h0
    | child ha h0 ih =>
        rw [← h.child _ ha] at h0 ⊢
        exact .child ih h0

/-- The pool is the same in a memory that agrees on its headers. -/
theorem inPool_congr (hm : ∀ x, poolBytes p x → m x = p.mem x) :
    InPool { p with mem := m } a ↔ InPool p a := by
  have hrd : ∀ b, InPool p b → ∀ o, o + 8 ≤ 48 → rd m (b + o) = rd p.mem (b + o) :=
    fun b hb o ho => rd_congr fun x h1 h2 => hm x ⟨b, hb, by omega, by omega⟩
  have hsame : SameLinks p { p with mem := m } :=
    ⟨fun _ => rfl, rfl, fun b hb => hrd b (.inl hb) 24 (by omega),
      fun b hb => hrd b (.inr hb) 16 (by omega), fun b hb => hrd b (.inr hb) 24 (by omega),
      fun b hb => hrd b (.inr hb) 32 (by omega)⟩
  exact or_congr hsame.inLists hsame.inTree

theorem poolApart_congr (hm : ∀ x, poolBytes p x → m x = p.mem x) {f : ℕ} :
    PoolApart { p with mem := m } f ↔ PoolApart p f := by
  have hsize : ∀ b, InPool p b → pageBlockSize m b = pageBlockSize p.mem b := fun b hb =>
    rd_congr fun x h1 h2 => hm x ⟨b, hb, by omega, by omega⟩
  unfold PoolApart
  refine forall_congr' fun b => ?_
  rw [inPool_congr hm]
  refine imp_congr_right fun hb => ?_
  rw [hsize b hb]

theorem poolBytes_congr (hm : ∀ x, poolBytes p x → m x = p.mem x) {x : ℕ} :
    poolBytes { p with mem := m } x ↔ poolBytes p x :=
  exists_congr fun _ => and_congr_left fun _ => inPool_congr hm

/-- Only the page matters. -/
theorem PoolApart.page {f g : ℕ} (h : PoolApart p f) (hfg : f / PAGE_SIZE = g / PAGE_SIZE) :
    PoolApart p g := by
  unfold PoolApart at h ⊢
  rwa [← hfg]

end pool

/-! ### One call -/

section call

variable {alloc : TableAlloc} {fresh : ℕ → ℕ} {own : ℕ → Prop} {root fuel n v size g : ℕ}
  {s s' : LoaderPages}

/-- What a call of `page_alloc` does: nothing, if the address resolves, else it maps its page. -/
theorem pageAlloc_inv (h : pageAlloc alloc root fuel s v size = .ok (s', g)) :
    (g = 0 ∨ g = pageSizeAlign size) ∧
      ((pageResolve s.pool.mem root v ≠ 0 ∧ s' = s) ∨
        (pageResolve s.pool.mem root v = 0 ∧ ∃ c m b,
          pageIdMap alloc s.calls s.pool.mem root v v = .ok (c, m, b) ∧
            s' = ⟨{ s.pool with mem := m }, c⟩)) := by
  have hsearch : ∀ s₀ : LoaderPages, (pageFreeSearch fuel s₀.pool (pageSizeAlign size) >>= fun pages =>
      (Except.ok (s₀, if pages ≠ 0 then pageSizeAlign size else 0) : Except Halt _)) = .ok (s', g) →
      s' = s₀ ∧ (g = 0 ∨ g = pageSizeAlign size) := by
    intro s₀ hs₀
    cases hp : pageFreeSearch fuel s₀.pool (pageSizeAlign size) with
    | error e =>
        rw [hp, error_bind] at hs₀
        cases hs₀
    | ok pages =>
        rw [hp, ok_bind] at hs₀
        split_ifs at hs₀ <;> cases hs₀
        · exact ⟨rfl, .inr rfl⟩
        · exact ⟨rfl, .inl rfl⟩
  unfold pageAlloc at h
  dsimp only at h
  by_cases hr : pageResolve s.pool.mem root v = 0
  · rw [if_pos hr] at h
    cases hm : pageIdMap alloc s.calls s.pool.mem root v v with
    | error e =>
        rw [hm, error_bind] at h
        cases h
    | ok r =>
        rw [hm, ok_bind] at h
        obtain ⟨c, m, b⟩ := r
        dsimp only at h
        split_ifs at h with hb
        · obtain ⟨hs', hg⟩ := hsearch ⟨{ s.pool with mem := m }, c⟩ h
          exact ⟨hg, .inr ⟨hr, c, m, b, rfl, hs'⟩⟩
        · cases h
          exact ⟨.inl rfl, .inr ⟨hr, c, m, b, rfl, rfl⟩⟩
  · rw [if_neg hr] at h
    obtain ⟨hs', hg⟩ := hsearch s h
    exact ⟨hg, .inl ⟨hr, hs'⟩⟩

/-- The translations and the pool after a call for the address `v`. -/
structure AllocStep (root : ℕ) (s : LoaderPages) (v : ℕ) (s' : LoaderPages) : Prop where
  pool : ∀ f, PoolApart s'.pool f ↔ PoolApart s.pool f
  kept : ∀ x f, translate s.pool.mem root x = some f → translate s'.pool.mem root x = some f
  other : ∀ x, ¬ SamePage x v → translate s'.pool.mem root x = translate s.pool.mem root x
  resolved : pageResolve s.pool.mem root v ≠ 0 → s' = s
  new : ∀ x, SamePage x v → translate s.pool.mem root x = none →
    pageResolve s.pool.mem root v = 0 → translate s'.pool.mem root x =
      some (v % 2 ^ 52 / PAGE_SIZE * PAGE_SIZE + x % PAGE_SIZE)

theorem PagesOk.own_congr {m : Mem} {k : ℕ} {own' : ℕ → Prop} (h : PagesOk fresh own n m root k)
    (ho : ∀ x, own' x → own x) : PagesOk fresh own' n m root k :=
  ⟨h.rootPage, h.distinct, h.unused, fun hd ht h1 h2 hx => h.apart hd ht h1 h2 (ho _ hx)⟩

theorem TablesApart.step (hf : FreshTables alloc fresh own n) (h : TablesApart fresh own n root s)
    (hn : s.calls + 3 ≤ n) (hv : v < 2 ^ 64)
    (hret : pageAlloc alloc root fuel s v size = .ok (s', g)) :
    TablesApart fresh own n root s' ∧ AllocStep root s v s' := by
  obtain ⟨-, ⟨hr, rfl⟩ | ⟨hr, c, m, b, hmap, rfl⟩⟩ := pageAlloc_inv hret
  · exact ⟨h, fun _ => Iff.rfl, fun _ _ => id, fun _ _ => rfl, fun _ => rfl,
      fun _ _ _ h0 => absurd h0 hr⟩
  · have hle := missing_le s.pool.mem root v 3
    have hf' : FreshTables alloc fresh (fun x => own x ∨ poolBytes s.pool x) n := by
      refine ⟨fun hk m => ?_, hf.page, hf.inj, fun hk h1 h2 hx => ?_⟩
      · obtain ⟨m', e, ha⟩ := hf.alloc_eq hk m
        exact ⟨m', e, ha.mono fun x => .inl⟩
      · rcases hx with hx | hx
        · exact hf.apart hk h1 h2 hx
        · exact h.fresh _ hk _ h1 h2 hx
    have hleft : ∀ k m m' p, k < n → alloc k m = .ok (m', p) →
        ∀ x, poolBytes s.pool x → m' x = m x := by
      intro k m m' p hk e x hx
      obtain ⟨m₁, e₁, ha⟩ := hf.alloc_eq hk m
      rw [e] at e₁
      cases e₁
      exact ha x fun ho => h.own x ho hx
    have hm : ∀ x, poolBytes s.pool x → m x = s.pool.mem x :=
      pageIdMap_frame hf' (fun x => .inr) hleft h.pages (by omega) hv hmap
    obtain ⟨m', b', hmap', hpages, htrue, hfalse, -⟩ := pageIdMap_page hf' h.pages (by omega) hv hv
    rw [hmap] at hmap'
    cases hmap'
    have hsame : ∀ x, SamePage x v → translate s.pool.mem root x = none → b = true := by
      intro x hx hnone
      cases b with
      | true => rfl
      | false =>
          have := (hfalse rfl).1 x hx
          rw [hnone] at this
          cases this
    refine ⟨⟨hpages.own_congr fun x hx => ?_, fun k hk x h1 h2 hx => ?_, fun x ho hx => ?_⟩,
      fun f => poolApart_congr hm, fun x f hx => ?_, fun x hx => ?_, fun h0 => absurd hr h0,
      fun x hx hnone _ => ((htrue (hsame x hx hnone)).1 x hx).2⟩
    · exact hx.imp_right (poolBytes_congr hm).mp
    · exact h.fresh k hk x h1 h2 ((poolBytes_congr hm).mp hx)
    · exact h.own x ho ((poolBytes_congr hm).mp hx)
    · cases b with
      | true =>
          by_cases hxv : SamePage x v
          · rw [((htrue rfl).1 x hxv).1] at hx
            cases hx
          · exact ((htrue rfl).2 x hxv).trans hx
      | false =>
          rw [(hfalse rfl).2]
          exact hx
    · cases b with
      | true => exact (htrue rfl).2 x hx
      | false => rw [(hfalse rfl).2]

/-- Addresses of one page are present together. -/
theorem translate_none_page {m : Mem} {x y : ℕ} (h : SamePage x y) :
    translate m root x = none ↔ translate m root y = none := by
  unfold translate
  rw [tableAt_pre le_rfl (samePage_iff.mp h), Option.map_eq_none_iff, Option.map_eq_none_iff]

/-- An address that is not present before the call is backed by the page at `v` after it, or not at
all. -/
theorem AllocStep.backed (h : AllocStep root s v s') {x f : ℕ}
    (hnone : translate s.pool.mem root x = none) (hx : translate s'.pool.mem root x = some f) :
    SamePage x v ∧ pageResolve s.pool.mem root v = 0 ∧ f / PAGE_SIZE = v % 2 ^ 52 / PAGE_SIZE := by
  have hxv : SamePage x v := by
    by_contra hc
    rw [h.other x hc, hnone] at hx
    cases hx
  have hr : pageResolve s.pool.mem root v = 0 := by
    by_contra hc
    rw [h.resolved hc, hnone] at hx
    cases hx
  rw [h.new x hxv hnone hr] at hx
  cases hx
  refine ⟨hxv, hr, ?_⟩
  rw [PAGE_SIZE]
  omega

/-- **What a call grants is present and apart from the pool just if the condition held before.** -/
theorem AllocStep.granted (h : AllocStep root s v s') (hn : 0 < pageSizeAlign size) :
    Granted root s' v (pageSizeAlign size) ↔ AllocPagesOk root s v size := by
  constructor
  · intro hg
    refine ⟨fun hnone => ?_, fun x h1 h2 hx => ?_, fun x h1 h2 => ?_⟩
    · obtain ⟨f, hf⟩ := Option.isSome_iff_exists.mp (hg.present v le_rfl (by omega))
      exact (h.backed hnone hf).2.1
    · rw [← h.other x hx]
      exact hg.present x h1 h2
    · obtain ⟨f, hf⟩ := Option.isSome_iff_exists.mp (hg.present x h1 h2)
      have hapart := (h.pool f).mp (hg.apart x h1 h2 f hf)
      cases hx : translate s.pool.mem root x with
      | none => exact hapart.page (h.backed hx hf).2.2
      | some f' =>
          rw [h.kept x f' hx] at hf
          cases hf
          exact hapart
  · intro hok
    constructor
    · intro x h1 h2
      cases hx : translate s.pool.mem root x with
      | none =>
          have hxv : SamePage x v := by
            by_contra hc
            have := hok.rest x h1 h2 hc
            rw [hx] at this
            cases this
          rw [h.new x hxv hx (hok.first ((translate_none_page hxv).mp hx))]
          rfl
      | some f =>
          rw [h.kept x f hx]
          rfl
    · intro x h1 h2 f hf
      have hapart := hok.apart x h1 h2
      rw [h.pool]
      cases hx : translate s.pool.mem root x with
      | none =>
          rw [hx] at hapart
          exact hapart.page (h.backed hx hf).2.2.symm
      | some f' =>
          rw [hx] at hapart
          rw [h.kept x f' hx] at hf
          cases hf
          exact hapart

/-- A page that is not present and does not resolve, and that no block of the pool overlaps. -/
theorem allocPagesOk_page (hv : v < 2 ^ 52) (hpage : v % PAGE_SIZE = 0)
    (hnone : translate s.pool.mem root v = none) (hr : pageResolve s.pool.mem root v = 0)
    (hapart : PoolApart s.pool v) : AllocPagesOk root s v PAGE_SIZE := by
  have hn : pageSizeAlign PAGE_SIZE = PAGE_SIZE := by decide
  have hsame : ∀ x, v ≤ x → x < v + PAGE_SIZE → SamePage x v := by
    intro x h1 h2
    unfold SamePage
    rw [PAGE_SIZE] at hpage h2 ⊢
    omega
  refine ⟨fun _ => hr, fun x h1 h2 hx => ?_, fun x h1 h2 => ?_⟩
  · rw [hn] at h2
    exact absurd (hsame x h1 h2) hx
  · rw [hn] at h2
    rw [(translate_none_page (hsame x h1 h2)).mpr hnone]
    exact (Nat.mod_eq_of_lt hv).symm ▸ hapart

theorem granted_zero : Granted root s v 0 :=
  ⟨fun x _ _ => by omega, fun x _ _ => by omega⟩

/-- What was granted before stays granted. -/
theorem AllocStep.still (h : AllocStep root s v s') {w k : ℕ} (hg : Granted root s w k) :
    Granted root s' w k := by
  constructor
  · intro x h1 h2
    obtain ⟨f, hf⟩ := Option.isSome_iff_exists.mp (hg.present x h1 h2)
    rw [h.kept x f hf]
    rfl
  · intro x h1 h2 f hf
    obtain ⟨f', hf'⟩ := Option.isSome_iff_exists.mp (hg.present x h1 h2)
    rw [h.kept x f' hf'] at hf
    cases hf
    exact (h.pool _).mpr (hg.apart x h1 h2 _ hf')

/-- **In a run of calls that meet the condition, everything granted so far is present and apart from
the pool.** -/
theorem page_alloc_run {gs : List (ℕ × ℕ)} (hf : FreshTables alloc fresh own n)
    (h : AllocRun alloc root (TablesApart fresh own n root)
      (fun s v size => AllocPagesOk root s v size ∧ s.calls + 3 ≤ n) s gs) :
    ∀ g ∈ gs, Granted root s g.1 g.2 := by
  suffices hinv : TablesApart fresh own n root s ∧ ∀ g ∈ gs, Granted root s g.1 g.2 from hinv.2
  induction h with
  | init _ hs => exact ⟨hs, by simp⟩
  | @alloc fuel v size k s₀ s₁ gs₀ hrun hv hg hret ih =>
      obtain ⟨htab, hgs⟩ := ih
      obtain ⟨htab', hstep⟩ := htab.step hf hg.2 hv hret
      refine ⟨htab', fun g hmem => ?_⟩
      rcases List.mem_cons.mp hmem with rfl | hmem
      · have hk := (pageAlloc_inv hret).1
        by_cases hpos : 0 < k
        · obtain rfl : k = pageSizeAlign size := by omega
          exact (hstep.granted hpos).mpr hg.1
        · obtain rfl : k = 0 := by omega
          exact granted_zero
      · exact hstep.still (hgs g hmem)

end call

/-! ### One page behind the initial memory -/

/-- A map with one usable page behind the initial memory. -/
def onePageMap : Mem :=
  let m := wrN (fun _ => 0) 2 E820_LOC 1
  let m := wr m (e820Addr 0 + 2) INIT_MEM
  let m := wr m (e820Addr 0 + 10) PAGE_SIZE
  wrN m 4 (e820Addr 0 + 18) kMemOk

instance : Inhabited LoaderPages := ⟨⟨⟨fun _ => 0, fun _ => 0, 0⟩, 0⟩⟩

/-- The state after `page_init`, with an empty PML4 table at page 1. -/
def onePage : LoaderPages := resultOf (pageInit pagesFrom 0x1000 5 onePageMap)

theorem onePage_init : pageInit pagesFrom 0x1000 5 onePageMap = .ok onePage :=
  resultOf_eq (by decide +kernel)

theorem onePage_facts : onePage.calls = 3 ∧ onePage.pool.list 1 = 0x200000 ∧
    pageBlockSize onePage.pool.mem 0x200000 = 0x1000 ∧ nextBlock onePage.pool.mem 0x200000 = 0 ∧
    translate onePage.pool.mem 0x1000 0x200000 = some 0x200000 ∧
    translate onePage.pool.mem 0x1000 0x201000 = none ∧
    pageResolve onePage.pool.mem 0x1000 0x201000 = 0 := by
  decide +kernel

/-- The first page and what lies behind the initial memory. -/
def notTables (x : ℕ) : Prop := x < 0x1000 ∨ 0x200000 ≤ x

theorem pagesFrom_notTables : FreshTables pagesFrom (fun k => 0x2000 + 0x1000 * k) notTables 9 :=
  pagesFrom_fresh (by norm_num) fun x h1 h2 hx => by
    unfold notTables at hx
    omega

theorem onePageMap_tables :
    PagesOk (fun k => 0x2000 + 0x1000 * k) notTables 9 onePageMap 0x1000 0 := by
  refine empty_pagesOk rfl (fun i hi => ?_) (fun j _ => by omega) fun x h1 h2 hx => ?_
  · have hz : AgreeOff (fun _ => 0) onePageMap fun x => x < 0x1000 := by
      intro x hx
      have haddr : e820Addr 0 = 0x502 := rfl
      unfold onePageMap
      rw [haddr, wrN_off _ _ (by omega), wr_off _ _ (by omega), wr_off _ _ (by omega),
        wrN_off _ _ (by rw [E820_LOC]; omega)]
    exact (hz.rd fun x h1 h2 hx => by omega).trans zero_entry
  · unfold notTables at hx
    omega

/-- The block that `page_init` makes of the page, and its place on the first list. -/
theorem onePage_block (m : Mem) : ∃ m',
    pageFreeInsert 5 ⟨pageCreateBlock m 0x200000 0x1000, fun _ => 0, 0⟩ 0x200000 =
        .ok ⟨m', Function.update (fun _ => 0) 1 0x200000, 0⟩ ∧ AgreeOff m m' fun x => 0x200000 ≤ x := by
  have hfield : pageBlockSize (wr (wr m 0x200000 PAGE_MAGIC) (0x200000 + 8) 0x1000) 0x200000 = 0x1000 :=
    rd_wr_same _ _ _
  have hblock : pageCreateBlock m 0x200000 0x1000 = wr (wr (wr (wr m 0x200000 PAGE_MAGIC)
      (0x200000 + 8) 0x1000) (0x200FF0 + 8) 0x200000) 0x200FF0 PAGE_MAGIC := by
    have hsize : pageSizeAlign 0x1000 = 0x1000 := by decide
    have hfoot : sub64 (u64 (0x200000 + 0x1000)) 16 = 0x200FF0 := by decide
    unfold pageCreateBlock
    rw [hsize]
    dsimp only
    rw [hfield, hfoot]
  generalize hm₂ : pageCreateBlock m 0x200000 0x1000 = m₂ at hblock
  have hsize : pageBlockSize m₂ 0x200000 = 0x1000 := by
    rw [hblock, pageBlockSize, rd_wr_apart _ _ (by norm_num), rd_wr_apart _ _ (by norm_num)]
    exact hfield
  refine ⟨pushItem m₂ 0x200000 0, ?_, ?_⟩
  · have hidx : pageSizeIdx 0x1000 = 1 := by decide
    unfold pageFreeInsert
    dsimp only
    rw [hsize, hidx]
    rfl
  · have hhigh : ∀ a, 0x200000 ≤ a → ∀ x, a ≤ x → x < a + 8 → 0x200000 ≤ x := fun a ha x h1 _ =>
      ha.trans h1
    rw [pushItem_zero, hblock]
    unfold setNext setPrev
    exact ((((((AgreeOff.refl m _).wr _ (hhigh _ le_rfl)).wr _ (hhigh _ (by norm_num))).wr _
      (hhigh _ (by norm_num))).wr _ (hhigh _ (by norm_num))).wr _ (hhigh _ (by norm_num))).wr _
      (hhigh _ (by norm_num))

theorem onePage_state : PagesOk (fun k => 0x2000 + 0x1000 * k) notTables 9 onePage.pool.mem 0x1000
      onePage.calls ∧
    onePage.pool.list = Function.update (fun _ => 0) 1 0x200000 ∧ onePage.pool.tree = 0 := by
  have hle := missing_le onePageMap 0x1000 0x200000 3
  obtain ⟨m, b, hmap, hpages, -⟩ := pageIdMap_page (p := 0x200000) (v := 0x200000)
    pagesFrom_notTables onePageMap_tables (by omega) (by norm_num) (by norm_num)
  generalize 0 + missing onePageMap 0x1000 0x200000 3 = k at hmap hpages
  have hframe := pageIdMap_frame pagesFrom_notTables (fun x => id) (fun k m m' p _ h x _ => by cases h; rfl)
    onePageMap_tables (by omega) (by norm_num) hmap
  have hsize : e820Size onePageMap = 1 := by decide +kernel
  have hsort : sortE820 onePageMap = onePageMap := by
    unfold sortE820
    rw [hsize]
    rfl
  have hentry : e820Entry onePageMap 0 = ⟨0x200000, 0x1000, kMemOk⟩ := by
    rw [E820Entry.ext_iff]
    decide +kernel
  have hregion : pageMapRegion pagesFrom 0x1000 0x200000 0x1000 5 0 0 onePageMap = .ok (k, m) := by
    have hva : pageAlign (u64 (0x200000 + 0)) = 0x200000 := by decide
    rw [pageMapRegion, if_pos (by norm_num)]
    dsimp only
    rw [hva, if_pos (by decide), hmap, ok_bind]
    rfl
  obtain ⟨m', hins, hagree⟩ := onePage_block m
  have hlow : ∀ x, x < 0x1000 → m' x = onePageMap x := fun x hx =>
    (hagree x (by omega)).trans (hframe x (.inl hx))
  have hsize' : e820Size m' = 1 := by
    rw [← hsize]
    refine rdN_congr fun x _ h => hlow x ?_
    rw [E820_LOC] at h
    omega
  have hinit : pageInitRegion pagesFrom 0x1000 5 ⟨⟨onePageMap, fun _ => 0, 0⟩, 0⟩ 0x200000 0x1000 =
      .ok ⟨⟨m', Function.update (fun _ => 0) 1 0x200000, 0⟩, k⟩ := by
    have hsub : sub64 0x1000 (sub64 0x200000 0x200000) = 0x1000 := by decide
    unfold pageInitRegion
    dsimp only
    rw [hregion, ok_bind]
    dsimp only
    rw [if_pos (by decide), if_neg (by decide), hsub, hins, ok_bind]
  have hstate : pageInit pagesFrom 0x1000 5 onePageMap =
      .ok ⟨⟨m', Function.update (fun _ => 0) 1 0x200000, 0⟩, k⟩ := by
    unfold pageInit
    rw [hsort, pageInitEntries, if_pos (by rw [hsize]; norm_num)]
    dsimp only
    rw [hentry, if_pos rfl, hinit, ok_bind, pageInitEntries, if_neg (by rw [hsize']; norm_num)]
  rw [onePage_init] at hstate
  rw [Except.ok.inj hstate]
  exact ⟨hpages.agree fun hd ht h1 h2 => hagree _ fun hx => hpages.apart hd ht h1 h2 (.inr hx), rfl,
    rfl⟩

/-- The pool holds the one block. -/
theorem onePage_pool {a : ℕ} (h : InPool onePage.pool a) : a = 0x200000 := by
  obtain ⟨-, hlist, htree⟩ := onePage_state
  rcases h with h | h
  · induction h with
    | @head i hi h0 =>
        rw [hlist] at h0 ⊢
        by_cases he : i = 1
        · rw [he, Function.update_self]
        · rw [Function.update_of_ne he] at h0
          exact absurd rfl h0
    | next _ h0 ih =>
        rw [ih] at h0
        exact absurd onePage_facts.2.2.2.1 h0
  · exfalso
    induction h with
    | root h0 => exact h0 htree
    | smaller _ _ ih => exact ih
    | larger _ _ ih => exact ih
    | child _ _ ih => exact ih

theorem onePage_apart :
    TablesApart (fun k => 0x2000 + 0x1000 * k) (fun _ => False) 9 0x1000 onePage := by
  have hbytes : ∀ x, poolBytes onePage.pool x → notTables x := by
    rintro x ⟨a, ha, h1, -⟩
    rw [onePage_pool ha] at h1
    exact .inr h1
  refine ⟨onePage_state.1.own_congr fun x hx => hbytes x (hx.resolve_left id), ?_, fun x h => h.elim⟩
  intro k hk x h1 h2 hx
  exact pagesFrom_notTables.apart hk h1 h2 (hbytes x hx)

theorem onePage_fresh : FreshTables pagesFrom (fun k => 0x2000 + 0x1000 * k) (fun _ => False) 9 :=
  pagesFrom_fresh (by norm_num) fun _ _ _ => id

theorem onePage_room : onePage.calls + 3 ≤ 9 := by
  rw [onePage_facts.1]
  norm_num

/-- The pages behind the one block are apart from the pool. -/
theorem onePage_poolApart {f : ℕ} (hf : 0x201000 ≤ f) : PoolApart onePage.pool f := by
  intro a ha
  rw [onePage_pool ha, onePage_facts.2.2.1, PAGE_SIZE]
  omega

theorem ok_of_map_snd {α β : Type} {x : Except Halt (α × β)} {b : β} (h : x.map Prod.snd = .ok b) :
    ∃ a, x = .ok (a, b) := by
  cases x with
  | error e => cases h
  | ok r => exact ⟨r.1, congrArg Except.ok (Prod.ext rfl (Except.ok.inj h))⟩

/-- The state after the call for the page behind the block. -/
def nextPage : LoaderPages := (resultOf (pageAlloc pagesFrom 0x1000 5 onePage 0x201000 0x1000)).1

theorem nextPage_alloc : pageAlloc pagesFrom 0x1000 5 onePage 0x201000 0x1000 = .ok (nextPage, 0x1000) := by
  obtain ⟨s, hs⟩ := ok_of_map_snd (x := pageAlloc pagesFrom 0x1000 5 onePage 0x201000 0x1000)
    (b := 0x1000) (by decide +kernel)
  unfold nextPage
  rw [hs]
  rfl

theorem nextPage_facts : nextPage.calls = 3 ∧ translate nextPage.pool.mem 0x1000 0x202000 = none ∧
    pageResolve nextPage.pool.mem 0x1000 0x202000 = 0 ∧
    (pageAlloc pagesFrom 0x1000 5 nextPage 0x202000 0x1000).map Prod.snd = .ok 0x1000 := by
  decide +kernel

/-- Two pages behind the block are granted one after the other. -/
theorem page_alloc_run_two : ∃ s,
    pageAlloc pagesFrom 0x1000 5 nextPage 0x202000 0x1000 = .ok (s, 0x1000) ∧
      ∀ g ∈ [(0x202000, 0x1000), (0x201000, 0x1000)], Granted 0x1000 s g.1 g.2 := by
  obtain ⟨-, -, -, -, -, hnone, hresolve⟩ := onePage_facts
  obtain ⟨hcalls, hnone', hresolve', hret⟩ := nextPage_facts
  have hok := allocPagesOk_page (by decide) (by decide) hnone hresolve (onePage_poolApart (by decide))
  obtain ⟨-, hstep⟩ := onePage_apart.step onePage_fresh onePage_room (by norm_num) nextPage_alloc
  have hok' := allocPagesOk_page (by decide) (by decide) hnone' hresolve'
    ((hstep.pool _).mpr (onePage_poolApart (by decide)))
  obtain ⟨s, hs⟩ := ok_of_map_snd hret
  exact ⟨s, hs, page_alloc_run onePage_fresh (.alloc (.alloc (.init onePage_init onePage_apart)
    (by norm_num) ⟨hok, onePage_room⟩ nextPage_alloc) (by norm_num) ⟨hok', by rw [hcalls]; norm_num⟩ hs)⟩

/-- The block that `page_alloc` finds stays in the pool. -/
theorem page_alloc_shared : ∃ (alloc : TableAlloc) (fresh : ℕ → ℕ) (own : ℕ → Prop) (n root : ℕ)
    (s : LoaderPages) (gs : List (ℕ × ℕ)), FreshTables alloc fresh own n ∧
      AllocRun alloc root (TablesApart fresh own n root) (fun s _ _ => s.calls + 3 ≤ n) s gs ∧
      ∃ g ∈ gs, 0 < g.2 ∧ ¬ Granted root s g.1 g.2 := by
  obtain ⟨s, hs⟩ := ok_of_map_snd (x := pageAlloc pagesFrom 0x1000 5 onePage 0x200000 0x1000)
    (b := 0x1000) (by decide +kernel)
  refine ⟨pagesFrom, _, _, 9, 0x1000, s, [(0x200000, 0x1000)], onePage_fresh,
    .alloc (.init onePage_init onePage_apart) (by norm_num) onePage_room hs, (0x200000, 0x1000),
    by simp, by norm_num, fun hg => ?_⟩
  obtain ⟨-, hstep⟩ := onePage_apart.step onePage_fresh onePage_room (by norm_num) hs
  have hback := hstep.kept 0x200000 0x200000 onePage_facts.2.2.2.2.1
  have hin : InPool onePage.pool 0x200000 := by
    have hl := onePage_facts.2.1
    rw [← hl]
    exact .inl (.head (by decide) (by rw [hl]; norm_num))
  have hc := (hstep.pool _).mp (hg.apart 0x200000 le_rfl (by norm_num) _ hback) _ hin
  rw [onePage_facts.2.2.1, PAGE_SIZE] at hc
  omega

end Dawos
