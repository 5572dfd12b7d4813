import Dawos.HeapAlloc

/-! # The heap invariant

`HeapRep m heap bs S` says that the heap at `heap` consists of the blocks `bs`, laid end to end
and tagged, and that the free blocks with addresses in `S` are indexed.  Between operations `S`
is `freeAddrs bs`; in the middle of one, some free block is in no list.

An operation is followed by two kinds of steps: `HeapRep.insert` and `HeapRep.remove` change
the index, `HeapRep.replace` rewrites a segment of blocks that are in no list.  Every step
writes only `workBytes`: heap structure, tags and free blocks, never the payload of a used
block. -/

namespace Dawos

/-! ### Blocks by address -/

/-- The addresses of the free blocks. -/
def freeAddrs (bs : List Block) : Set ℕ := {a | ∃ b ∈ bs, b.used = false ∧ b.addr = a}

/-- The used blocks. -/
def usedBlocks (bs : List Block) : Set Block := {b | b ∈ bs ∧ b.used = true}

section lists

variable {xs ys bs : List Block} {b : Block} {lo hi : ℕ}

@[simp] theorem freeAddrs_nil : freeAddrs [] = ∅ := by simp [freeAddrs]

@[simp] theorem freeAddrs_append : freeAddrs (xs ++ ys) = freeAddrs xs ∪ freeAddrs ys := by
  ext a
  simp only [freeAddrs, List.mem_append, Set.mem_ofPred_eq, Set.mem_union]
  constructor
  · rintro ⟨b, hb | hb, h⟩
    · exact .inl ⟨b, hb, h⟩
    · exact .inr ⟨b, hb, h⟩
  · rintro (⟨b, hb, h⟩ | ⟨b, hb, h⟩)
    · exact ⟨b, .inl hb, h⟩
    · exact ⟨b, .inr hb, h⟩

theorem freeAddrs_cons_free (h : b.used = false) :
    freeAddrs (b :: bs) = insert b.addr (freeAddrs bs) := by
  ext a
  simp only [freeAddrs, List.mem_cons, Set.mem_ofPred_eq, Set.mem_insert_iff]
  constructor
  · rintro ⟨c, rfl | hc, h1, h2⟩
    · exact .inl h2.symm
    · exact .inr ⟨c, hc, h1, h2⟩
  · rintro (rfl | ⟨c, hc, h1⟩)
    · exact ⟨b, .inl rfl, h, rfl⟩
    · exact ⟨c, .inr hc, h1⟩

theorem freeAddrs_cons_used (h : b.used = true) : freeAddrs (b :: bs) = freeAddrs bs := by
  ext a
  simp only [freeAddrs, List.mem_cons, Set.mem_ofPred_eq]
  constructor
  · rintro ⟨c, rfl | hc, h1, h2⟩
    · rw [h] at h1
      cases h1
    · exact ⟨c, hc, h1, h2⟩
  · rintro ⟨c, hc, h1⟩
    exact ⟨c, .inr hc, h1⟩

theorem freeAddrs_middle (h : b.used = false) :
    freeAddrs (xs ++ b :: ys) = insert b.addr (freeAddrs (xs ++ ys)) := by
  rw [freeAddrs_append, freeAddrs_cons_free h, Set.union_insert, ← freeAddrs_append]

@[simp] theorem usedBlocks_nil : usedBlocks [] = ∅ := by simp [usedBlocks]

@[simp] theorem usedBlocks_append : usedBlocks (xs ++ ys) = usedBlocks xs ∪ usedBlocks ys := by
  ext c
  simp only [usedBlocks, List.mem_append, Set.mem_ofPred_eq, Set.mem_union]
  tauto

theorem usedBlocks_cons_free (h : b.used = false) : usedBlocks (b :: bs) = usedBlocks bs := by
  ext c
  simp only [usedBlocks, List.mem_cons, Set.mem_ofPred_eq]
  constructor
  · rintro ⟨rfl | hc, h1⟩
    · rw [h] at h1
      cases h1
    · exact ⟨hc, h1⟩
  · exact fun ⟨hc, h1⟩ => ⟨.inr hc, h1⟩

theorem usedBlocks_cons_used (h : b.used = true) :
    usedBlocks (b :: bs) = insert b (usedBlocks bs) := by
  ext c
  simp only [usedBlocks, List.mem_cons, Set.mem_ofPred_eq, Set.mem_insert_iff]
  constructor
  · rintro ⟨hc | hc, h1⟩
    · exact .inl hc
    · exact .inr ⟨hc, h1⟩
  · rintro (rfl | ⟨hc, h1⟩)
    · exact ⟨.inl rfl, h⟩
    · exact ⟨.inr hc, h1⟩

theorem mem_segment {mid : List Block} : b ∈ xs ++ mid ++ ys ↔ b ∈ mid ∨ b ∈ xs ++ ys := by
  simp only [List.mem_append]
  tauto

/-- The used blocks around a segment of free blocks. -/
theorem usedBlocks_around {mid : List Block} (h : ∀ b ∈ mid, b.used = false) :
    usedBlocks (xs ++ mid ++ ys) = usedBlocks (xs ++ ys) := by
  ext c
  constructor
  · rintro ⟨hc, hu⟩
    rcases mem_segment.mp hc with hc | hc
    · rw [h c hc] at hu
      cases hu
    · exact ⟨hc, hu⟩
  · rintro ⟨hc, hu⟩
    exact ⟨mem_segment.mpr (.inr hc), hu⟩

/-- The free blocks around a segment of used blocks. -/
theorem freeAddrs_around_used {mid : List Block} (h : ∀ b ∈ mid, b.used = true) :
    freeAddrs (xs ++ mid ++ ys) = freeAddrs (xs ++ ys) := by
  ext a
  constructor
  · rintro ⟨c, hc, hu, e⟩
    rcases mem_segment.mp hc with hc | hc
    · rw [h c hc] at hu
      cases hu
    · exact ⟨c, hc, hu, e⟩
  · rintro ⟨c, hc, h⟩
    exact ⟨c, mem_segment.mpr (.inr hc), h⟩

/-- The free blocks around a segment. -/
theorem freeAddrs_around (mid : List Block) :
    freeAddrs (xs ++ ys) ⊆ freeAddrs (xs ++ mid ++ ys) := by
  rintro a ⟨b, hb, h⟩
  exact ⟨b, mem_segment.mpr (.inr hb), h⟩

/-- In a tiling, no other block has the address of a block. -/
theorem Tiles.not_free (h : Tiles lo (xs ++ b :: ys) hi) : b.addr ∉ freeAddrs (xs ++ ys) := by
  obtain ⟨h1, h2⟩ := h.split
  have hb := b.size_min
  rintro ⟨c, hc, -, he⟩
  have hcm := c.size_min
  rcases List.mem_append.mp hc with hc | hc
  · have := h1.bounds c hc
    omega
  · have := h2.bounds c hc
    omega

/-- Without a free block the other free blocks remain. -/
theorem Tiles.freeAddrs_sdiff (h : Tiles lo (xs ++ b :: ys) hi) (hu : b.used = false) :
    freeAddrs (xs ++ b :: ys) \ {b.addr} = freeAddrs (xs ++ ys) := by
  rw [freeAddrs_middle hu]
  exact Set.insert_sdiff_self_of_notMem h.not_free

/-- Blocks do not overlap, so their nodes do not. -/
theorem Tiles.spaced (h : Tiles lo bs hi) (hlo : 0 < lo) (hhi : hi < 2 ^ 64) :
    Spaced {a | ∃ b ∈ bs, b.addr = a} where
  apart := by
    rintro _ ⟨b, hb, rfl⟩ _ ⟨c, hc, rfl⟩ hne
    have h1 := b.size_min
    have h2 := c.size_min
    have := h.apart hb hc hne
    omega
  le := by
    rintro _ ⟨b, hb, rfl⟩
    have h1 := b.size_min
    have := h.bounds b hb
    omega
  pos := by
    rintro _ ⟨b, hb, rfl⟩
    have := h.bounds b hb
    omega

/-- A tiling determines its ends. -/
theorem Tiles.unique : ∀ {bs : List Block} {lo lo' hi' : ℕ}, Tiles lo bs hi → Tiles lo' bs hi' →
    bs ≠ [] → lo' = lo ∧ hi' = hi
  | [], _, _, _, _, _, hne => absurd rfl hne
  | [b], lo, lo', hi', ⟨h1, h2⟩, ⟨h3, h4⟩, _ => by
      have h2 : lo + b.size = hi := h2
      have h4 : lo' + b.size = hi' := h4
      omega
  | b :: c :: bs, lo, lo', hi', ⟨h1, h2⟩, ⟨h3, h4⟩, _ => by
      obtain ⟨h5, h6⟩ := h2.unique h4 (List.cons_ne_nil c bs)
      omega

/-- Addresses in a tiling that starts at a multiple of 16. -/
theorem Tiles.dvd : ∀ {bs : List Block} {lo : ℕ}, Tiles lo bs hi → lo % 16 = 0 →
    (∀ b ∈ bs, b.addr % 16 = 0) ∧ hi % 16 = 0
  | [], lo, h, h0 => ⟨(fun b hb => by cases hb), h ▸ h0⟩
  | c :: bs, lo, ⟨h1, h2⟩, h0 => by
      have hc := c.size_dvd
      obtain ⟨h3, h4⟩ := h2.dvd (by omega)
      refine ⟨fun b hb => ?_, h4⟩
      rcases List.mem_cons.mp hb with rfl | hb
      · rw [h1]; exact h0
      · exact h3 b hb

end lists

/-! ### The invariant -/

/-- The heap at `heap` consists of the blocks `bs`; the free blocks in `S` are indexed. -/
structure HeapRep (m : Mem) (heap : ℕ) (bs : List Block) (S : Set ℕ) : Prop where
  aligned : heap % 16 = 0
  start : heapStartAddr m heap = heap + HEAP_T_SIZE
  tiles : Tiles (heap + HEAP_T_SIZE) bs (heapEndAddr m heap)
  tagged : ∀ b ∈ bs, Tagged m b
  sub : S ⊆ freeAddrs bs
  index : HeapIndex m heap S

/-- The array of the heap, and what lies between the tags of free blocks. -/
def linkArea (heap : ℕ) (bs : List Block) (x : ℕ) : Prop :=
  (heap + 32 ≤ x ∧ x < heap + HEAP_T_SIZE) ∨
    ∃ b ∈ bs, b.used = false ∧ b.addr + 16 ≤ x ∧ x < b.addr + b.size - 16

/-- Links lie between the tags. -/
theorem indexBytes_linkArea {m : Mem} {heap : ℕ} {bs : List Block} {S : Set ℕ}
    (ht : ∀ b ∈ bs, b.used = false → Tagged m b) (hS : S ⊆ freeAddrs bs) {x : ℕ}
    (hx : indexBytes m heap S x) : linkArea heap bs x := by
  rcases hx with hx | ⟨a, ha, h1, h2⟩
  · exact .inl hx
  · obtain ⟨b, hb, hu, rfl⟩ := hS ha
    refine .inr ⟨b, hb, hu, h1, ?_⟩
    have hmin := b.size_min
    have hsz : heapAlign (rd m (b.addr + 8)) = b.size := (ht b hb hu).getSize
    rw [hsz] at h2
    split_ifs at h2 with hneg
    · have : 1056 < b.size := by
        by_contra hc
        rw [heapSizeIdx_eq (by omega) (not_lt.mp hc)] at hneg
        omega
      omega
    · omega

/-- The bytes that the invariant depends on. -/
def metaBytes (heap : ℕ) (bs : List Block) (S : Set ℕ) (x : ℕ) : Prop :=
  (heap ≤ x ∧ x < heap + 16) ∨ (heap + 32 ≤ x ∧ x < heap + HEAP_T_SIZE) ∨
    (∃ b ∈ bs, b.tagBytes x) ∨ ∃ a ∈ S, a + 8 ≤ x ∧ x < a + 48

/-- The bytes that a step may write: the array and the blocks up to `hi`, but not the payloads of
the used blocks `U`. -/
def workBytes (heap : ℕ) (U : Set Block) (hi x : ℕ) : Prop :=
  (heap + 32 ≤ x ∧ x < hi) ∧ ∀ b ∈ U, ¬ (b.addr + 16 ≤ x ∧ x < b.addr + b.size - 16)

namespace HeapRep

variable {m m' : Mem} {heap lo hi : ℕ} {bs xs ys mid mid' : List Block} {S S' : Set ℕ} {b c : Block}

theorem bounds (h : HeapRep m heap bs S) (hb : b ∈ bs) :
    heap + HEAP_T_SIZE ≤ b.addr ∧ b.addr + b.size ≤ heapEndAddr m heap ∧
      b.addr + b.size < 2 ^ 64 ∧ b.addr % 16 = 0 := by
  have h1 := h.tiles.bounds b hb
  have h2 : heapEndAddr m heap < 2 ^ 64 := rd_lt m _
  have h3 := h.aligned
  refine ⟨h1.1, h1.2, by omega, (h.tiles.dvd ?_).1 b hb⟩
  rw [HEAP_T_SIZE]
  omega

theorem getSize (h : HeapRep m heap bs S) (hb : b ∈ bs) : heapGetSize m b.addr = b.size :=
  (h.tagged b hb).getSize

theorem spaced (h : HeapRep m heap bs S) : Spaced {a | ∃ b ∈ bs, b.addr = a} :=
  h.tiles.spaced (by rw [HEAP_T_SIZE]; omega) (rd_lt m _)

/-- The invariant only depends on its bytes. -/
theorem congr (h : HeapRep m heap bs S) (hm : ∀ x, metaBytes heap bs S x → m' x = m x) :
    HeapRep m' heap bs S := by
  have hst : heapStartAddr m' heap = heapStartAddr m heap :=
    rd_congr fun x h1 h2 => hm x (.inl ⟨h1, by omega⟩)
  have hen : heapEndAddr m' heap = heapEndAddr m heap :=
    rd_congr fun x h1 h2 => hm x (.inl ⟨by omega, by omega⟩)
  refine ⟨h.aligned, hst.trans h.start, hen.symm ▸ h.tiles, fun b hb => ?_, h.sub, ?_⟩
  · exact (h.tagged b hb).congr fun x hx => hm x (.inr (.inr (.inl ⟨b, hb, hx⟩)))
  · refine h.index.congr (fun a ha x h1 h2 => hm x ?_) fun x h1 h2 => hm x (.inr (.inl ⟨h1, h2⟩))
    exact .inr (.inr (.inr ⟨a, ha, h1, h2⟩))

/-- The bytes of the index: the array, or inside free blocks and off their tags. -/
theorem indexBytes_inside (h : HeapRep m heap bs S) (hS : S' ⊆ freeAddrs bs) {x : ℕ}
    (hx : indexBytes m heap S' x) : linkArea heap bs x :=
  indexBytes_linkArea (fun b hb _ => h.tagged b hb) hS hx

/-- Writes to the index are work. -/
theorem indexBytes_work (h : HeapRep m heap bs S) (hS : S' ⊆ freeAddrs bs) (x : ℕ)
    (hx : indexBytes m heap S' x) : workBytes heap (usedBlocks bs) (heapEndAddr m heap) x := by
  have hle := h.tiles.le
  rcases h.indexBytes_inside hS hx with ⟨h1, h2⟩ | ⟨b, hb, hu, h1, h2⟩
  · refine ⟨⟨h1, by omega⟩, fun c hc hcx => ?_⟩
    have := (h.bounds hc.1).1
    omega
  · have hb1 := h.bounds hb
    rw [HEAP_T_SIZE] at hb1
    refine ⟨⟨by omega, by omega⟩, fun c hc hcx => ?_⟩
    have hne : b.addr ≠ c.addr := fun e => by
      have := h.tiles.eq_of_addr hb hc.1 e
      rw [this, hc.2] at hu
      cases hu
    have hcm := c.size_min
    have := h.tiles.apart hb hc.1 hne
    omega

/-- A new index over the same blocks. -/
theorem reindex (h : HeapRep m heap bs S) (hS : S' ⊆ freeAddrs bs)
    (hf : AgreeOff m m' (indexBytes m heap S')) {S'' : Set ℕ} (hx : HeapIndex m' heap S'')
    (hS'' : S'' ⊆ freeAddrs bs) : HeapRep m' heap bs S'' := by
  have hoff : ∀ x, (heap ≤ x ∧ x < heap + 16) ∨ (∃ b ∈ bs, b.tagBytes x) → m' x = m x := by
    intro x hx
    refine hf x fun hi => ?_
    rcases h.indexBytes_inside hS hi with h1 | ⟨b, hb, hu, h1, h2⟩
    · rcases hx with hx | ⟨c, hc, hx⟩
      · omega
      · have := (h.bounds hc).1
        have hcm := c.size_min
        cases hx <;> omega
    · have hb1 := h.bounds hb
      rw [HEAP_T_SIZE] at hb1
      rcases hx with hx | ⟨c, hc, hx⟩
      · omega
      · have hcm := c.size_min
        by_cases e : b.addr = c.addr
        · have := h.tiles.eq_of_addr hb hc e
          subst this
          cases hx <;> omega
        · have := h.tiles.apart hb hc e
          cases hx <;> omega
  have hst : heapStartAddr m' heap = heapStartAddr m heap :=
    rd_congr fun x h1 h2 => hoff x (.inl ⟨h1, by omega⟩)
  have hen : heapEndAddr m' heap = heapEndAddr m heap :=
    rd_congr fun x h1 h2 => hoff x (.inl ⟨by omega, by omega⟩)
  exact ⟨h.aligned, hst.trans h.start, hen.symm ▸ h.tiles,
    fun b hb => (h.tagged b hb).congr fun x hx => hoff x (.inr ⟨b, hb, hx⟩), hS'', hx⟩

/-- The words before the array are not among the work. -/
theorem rd_struct {U : Set Block} (hf : AgreeOff m m' (workBytes heap U hi)) {a : ℕ}
    (ha : a ≤ heap + 24) : rd m' a = rd m a := by
  refine hf.rd fun x h1 h2 hx => ?_
  have := hx.1
  omega

/-- **A free block is put into the index.** -/
theorem insert (h : HeapRep m heap bs S) (hb : b ∈ bs) (hu : b.used = false) (hn : b.addr ∉ S)
    (hi : Indexable b.size) : ∃ m', Returns (fun n => heapInsert n m heap b.addr) m' ∧
      HeapRep m' heap bs (insert b.addr S) ∧
      AgreeOff m m' (workBytes heap (usedBlocks bs) (heapEndAddr m heap)) := by
  have hS : Insert.insert b.addr S ⊆ freeAddrs bs := by
    rintro a (rfl | ha)
    · exact ⟨b, hb, hu, rfl⟩
    · exact h.sub ha
  have hsp : Spaced (Insert.insert b.addr S) := h.spaced.mono fun a ha => by
    obtain ⟨c, hc, -, e⟩ := hS ha
    exact ⟨c, hc, e⟩
  have hsz := h.getSize hb
  obtain ⟨m', hret, hx, hf, -⟩ := heapInsert_spec h.index hn hsp (h.bounds hb).1 (by rwa [hsz])
    (by rw [hsz]; exact b.size_min)
  exact ⟨m', hret, h.reindex hS hf hx hS, hf.mono (h.indexBytes_work hS)⟩

/-- **A block is taken out of the index.** -/
theorem remove (h : HeapRep m heap bs S) {a : ℕ} (ha : a ∈ S) (hr : Removable m a) :
    ∃ m', heapRemove m heap a = .ok m' ∧ HeapRep m' heap bs (S \ {a}) ∧
      AgreeOff m m' (workBytes heap (usedBlocks bs) (heapEndAddr m heap)) ∧
      ∀ z ∈ S, z ≠ a → RemovableAfter m a z → Removable m' z := by
  obtain ⟨m', hret, hx, hf, hk⟩ := heapRemove_spec h.index ha hr
  have hS : S \ {a} ⊆ freeAddrs bs := fun z hz => h.sub hz.1
  exact ⟨m', hret, h.reindex h.sub hf hx hS, hf.mono (h.indexBytes_work h.sub), hk⟩

/-- Where a segment of blocks lies. -/
theorem segment (h : HeapRep m heap (xs ++ mid ++ ys) S) (hmid : Tiles lo mid hi)
    (hne : mid ≠ []) : Tiles (heap + HEAP_T_SIZE) xs lo ∧ Tiles hi ys (heapEndAddr m heap) := by
  have ht := h.tiles
  rw [List.append_assoc] at ht
  obtain ⟨p, h1, h2⟩ := Tiles.append_iff.mp ht
  obtain ⟨q, h3, h4⟩ := Tiles.append_iff.mp h2
  obtain ⟨rfl, rfl⟩ := hmid.unique h3 hne
  exact ⟨h1, h4⟩

/-- The blocks around a segment that is rewritten keep their bytes. -/
theorem around (h : HeapRep m heap (xs ++ mid ++ ys) S) (hold : Tiles lo mid hi) (hne : mid ≠ [])
    (hf : AgreeOff m m' fun x => lo ≤ x ∧ x < hi) (hb : b ∈ xs ++ ys) (x : ℕ) (hx1 : b.addr ≤ x)
    (hx2 : x < b.addr + b.size) : m' x = m x := by
  obtain ⟨h1, h2⟩ := h.segment hold hne
  refine hf x fun hx => ?_
  rcases List.mem_append.mp hb with hb | hb
  · have := h1.bounds b hb
    omega
  · have := h2.bounds b hb
    omega

/-- **A segment of blocks that are in no list is rewritten.** -/
theorem replace (h : HeapRep m heap (xs ++ mid ++ ys) S) (hS : S ⊆ freeAddrs (xs ++ ys))
    (hold : Tiles lo mid hi) (hne : mid ≠ []) (hnew : Tiles lo mid' hi)
    (htag : ∀ b ∈ mid', Tagged m' b) (hf : AgreeOff m m' fun x => lo ≤ x ∧ x < hi) :
    HeapRep m' heap (xs ++ mid' ++ ys) S := by
  obtain ⟨h1, h2⟩ := h.segment hold hne
  have hlow := h1.le
  have hstruct : ∀ x, x < heap + HEAP_T_SIZE → m' x = m x := fun x hx => hf x fun hc => by omega
  have hst : heapStartAddr m' heap = heapStartAddr m heap :=
    rd_congr fun x _ h2 => hstruct x (by rw [HEAP_T_SIZE]; omega)
  have hen : heapEndAddr m' heap = heapEndAddr m heap :=
    rd_congr fun x _ h2 => hstruct x (by rw [HEAP_T_SIZE]; omega)
  refine ⟨h.aligned, hst.trans h.start, ?_, fun b hb => ?_, fun a ha => ?_, ?_⟩
  · rw [hen, List.append_assoc]
    exact Tiles.append_iff.mpr ⟨lo, h1, Tiles.append_iff.mpr ⟨hi, hnew, h2⟩⟩
  · rcases mem_segment.mp hb with hb | hb
    · exact htag b hb
    · have hmin := b.size_min
      refine (h.tagged b (mem_segment.mpr (.inr hb))).congr fun x hx => ?_
      exact h.around hold hne hf hb x (by cases hx <;> omega)
        (by cases hx <;> omega)
  · exact freeAddrs_around mid' (hS ha)
  · refine h.index.congr (fun a ha x hx1 hx2 => ?_) fun x _ hx2 => hstruct x hx2
    obtain ⟨b, hb, -, rfl⟩ := hS ha
    have hmin := b.size_min
    exact h.around hold hne hf hb x (by omega) (by omega)

/-- The blocks around a segment that is rewritten stay removable. -/
theorem around_removable (h : HeapRep m heap (xs ++ mid ++ ys) S) (hold : Tiles lo mid hi)
    (hne : mid ≠ []) (hf : AgreeOff m m' fun x => lo ≤ x ∧ x < hi) {z : ℕ}
    (hz : z ∈ freeAddrs (xs ++ ys)) (hr : Removable m z) : Removable m' z := by
  obtain ⟨b, hb, -, rfl⟩ := hz
  have hmin := b.size_min
  have hbytes := h.around hold hne hf hb
  exact hr.congr fun x h1 h2 => hbytes x (by omega) (by omega)

/-- Rewriting a segment of free blocks is work. -/
theorem segment_work (h : HeapRep m heap (xs ++ mid ++ ys) S) (hmid : Tiles lo mid hi)
    (hne : mid ≠ []) (hu : ∀ b ∈ mid, b.used = false) (x : ℕ) (hx : lo ≤ x ∧ x < hi) :
    workBytes heap (usedBlocks (xs ++ mid ++ ys)) (heapEndAddr m heap) x := by
  obtain ⟨h1, h2⟩ := h.segment hmid hne
  have hlow := h1.le
  have hhigh := h2.le
  rw [HEAP_T_SIZE] at hlow
  refine ⟨⟨by omega, by omega⟩, fun b hb hbx => ?_⟩
  obtain ⟨hb, hbu⟩ := hb
  simp only [List.mem_append] at hb
  rcases hb with (hb | hb) | hb
  · have := h1.bounds b hb
    omega
  · rw [hu b hb] at hbu
    cases hbu
  · have := h2.bounds b hb
    omega

end HeapRep

end Dawos
