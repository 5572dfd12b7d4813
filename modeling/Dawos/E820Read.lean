import Dawos.Loop

/-! # Reading the E820 map

`read_e820` of `bios.asm`, in 16-bit real mode.  The firmware is a parameter: `int15 eax ebx ecx edx`
is its reply to the interrupt.  `Reports int15 ds` says that it hands out the descriptors `ds` one
after the other, by a continuation value in EBX that is zero for the first and after the last one.

The code leaves its loop as soon as EBX is zero, before it has counted the descriptor that has come
with it and stored its size (`readE820_returns`). -/

namespace Dawos

/-- The signature "SMAP". -/
def SMAP : ℕ := 0x534D4150

/-- What `int 0x15` returns: the registers, and the bytes it stores at ES:DI. -/
structure BiosReply where
  carry : Bool
  eax : ℕ
  ebx : ℕ
  ecx : ℕ
  bytes : List UInt8

/-- The interrupt, as a function of EAX, EBX, ECX and EDX. -/
abbrev Int15 := ℕ → ℕ → ℕ → ℕ → BiosReply

/-- The registers, the words pushed since the base pointer, and the memory of the segment. -/
structure RealMode where
  eax : ℕ
  ebx : ℕ
  ecx : ℕ
  edx : ℕ
  di : ℕ
  stack : List ℕ
  mem : Mem

/-- `pop ax`. -/
def popAx (s : RealMode) : RealMode :=
  { s with eax := s.eax / 2 ^ 16 * 2 ^ 16 + s.stack.headD 0, stack := s.stack.tail }

/-- `inc ax`. -/
def incAx (s : RealMode) : RealMode :=
  { s with eax := s.eax / 2 ^ 16 * 2 ^ 16 + (s.eax + 1) % 2 ^ 16 }

/-- `push ax`. -/
def pushAx (s : RealMode) : RealMode := { s with stack := s.eax % 2 ^ 16 :: s.stack }

/-- The code from `.read_more` on, up to the jump back or the jump to `.end`. -/
def readMore (int15 : Int15) (s : RealMode) : RealMode ⊕ RealMode :=
  -- command: E820 map; the max size of an entry; the magic number
  let s := { s with eax := 0x0000E820, ecx := 0x18, edx := SMAP }
  let r := int15 s.eax s.ebx s.ecx s.edx
  let s := { s with eax := r.eax, ebx := r.ebx, ecx := r.ecx, mem := put s.mem s.di r.bytes }
  if r.carry then .inr s
  else if s.eax ≠ SMAP then .inr s
  else if s.ebx = 0 then .inr s
  else
    let s := pushAx (incAx (popAx s))
    -- save entry size
    let s := { s with mem := wrN s.mem 2 ((s.di + 2 ^ 16 - 2) % 2 ^ 16) (s.ecx % 2 ^ 16) }
    .inl { s with di := (s.di + 0x1A) % 2 ^ 16 }

/-- The state before `.read_more`: DI behind the two words reserved for the sizes, a count of zero
on the stack, and EBX cleared. -/
def readStart (memMap : ℕ) (m : Mem) : RealMode where
  eax := 0
  ebx := 0
  ecx := 0
  edx := 0
  di := (memMap + 4) % 2 ^ 16
  stack := [0]
  mem := m

/-- `read_e820(mem_map)`, for at most `n` calls of the interrupt. -/
def readE820 (int15 : Int15) (memMap : ℕ) (m : Mem) (n : ℕ) : Except Halt Mem := do
  let s ← loop (readMore int15) n (readStart memMap m)
  let s := popAx s
  .ok (wrN s.mem 2 memMap (s.eax % 2 ^ 16))

/-! ### The firmware -/

/-- The firmware reports the descriptors `ds`, of 20 or 24 bytes each. -/
structure Reports (int15 : Int15) (ds : List (List UInt8)) : Prop where
  size : ∀ d ∈ ds, d.length = 20 ∨ d.length = 24
  /-- The continuation values. -/
  reply : ∃ next : ℕ → ℕ, next 0 = 0 ∧ ∀ i, (h : i < ds.length) →
    int15 0x0000E820 (next i) 0x18 SMAP = ⟨false, SMAP, next (i + 1), ds[i].length, ds[i]⟩ ∧
    (next (i + 1) = 0 ↔ i + 1 = ds.length)

/-- The map holds the descriptors `ds`, each with its size before it. -/
structure E820Holds (m : Mem) (memMap : ℕ) (ds : List (List UInt8)) : Prop where
  entrySize : ∀ i, (h : i < ds.length) → rdN m 2 (memMap + 2 + 26 * i) = ds[i].length
  entry : ∀ i, (h : i < ds.length) → ∀ j, (hj : j < ds[i].length) →
    m (memMap + 4 + 26 * i + j) = ds[i][j]

section read

variable {int15 : Int15} {memMap k : ℕ} {m : Mem} {s : RealMode} {ds : List (List UInt8)}
  {next : ℕ → ℕ}

theorem popAx_ax {x : ℕ} (hs : s.stack = [x]) (hx : x < 2 ^ 16) : (popAx s).eax % 2 ^ 16 = x := by
  unfold popAx
  dsimp only
  rw [hs, List.headD_cons]
  omega

/-- The state before call `k` of the interrupt. -/
structure BeforeCall (memMap k : ℕ) (next : ℕ → ℕ) (s : RealMode) : Prop where
  ebx : s.ebx = next k
  stack : s.stack = [k % 2 ^ 16]
  di : s.di = (memMap + 4 + 26 * k) % 2 ^ 16

/-- A descriptor that is not the last one. -/
theorem readMore_next (hs : BeforeCall memMap k next s) {d : List UInt8}
    (hr : int15 0x0000E820 (next k) 0x18 SMAP = ⟨false, SMAP, next (k + 1), d.length, d⟩)
    (hn : next (k + 1) ≠ 0) : ∃ s', readMore int15 s = .inl s' ∧
      BeforeCall memMap (k + 1) next s' ∧
      s'.mem = wrN (put s.mem s.di d) 2 ((s.di + 2 ^ 16 - 2) % 2 ^ 16) (d.length % 2 ^ 16) := by
  unfold readMore
  dsimp only
  rw [hs.ebx, hr]
  dsimp only
  simp only [Bool.false_eq_true, ne_eq, not_true_eq_false, hn, if_false]
  refine ⟨_, rfl, ⟨?_, ?_, ?_⟩, ?_⟩
  · dsimp only [pushAx, incAx, popAx]
  · simp only [pushAx, incAx, popAx, hs.stack, List.headD_cons, List.tail_cons, SMAP]
    congr 1
    omega
  · dsimp only [pushAx, incAx, popAx]
    rw [hs.di]
    omega
  · dsimp only [pushAx, incAx, popAx]

/-- The last descriptor. -/
theorem readMore_last (hs : BeforeCall memMap k next s) {d : List UInt8}
    (hr : int15 0x0000E820 (next k) 0x18 SMAP = ⟨false, SMAP, next (k + 1), d.length, d⟩)
    (hn : next (k + 1) = 0) : ∃ s', readMore int15 s = .inr s' ∧ s'.stack = [k % 2 ^ 16] ∧
      s'.mem = put s.mem s.di d := by
  unfold readMore
  dsimp only
  rw [hs.ebx, hr]
  dsimp only
  simp only [Bool.false_eq_true, ne_eq, not_true_eq_false, hn, if_false, if_true]
  exact ⟨_, rfl, hs.stack, rfl⟩

/-- Entries before `k` are not touched by the descriptor `k`. -/
theorem E820Holds.congr {m' : Mem} (h : E820Holds m memMap ds)
    (hm : ∀ x, memMap + 2 ≤ x → x < memMap + 2 + 26 * ds.length → m' x = m x)
    (hsize : ∀ d ∈ ds, d.length ≤ 24) : E820Holds m' memMap ds where
  entrySize i hi := by
    rw [rdN_congr fun x h1 h2 => hm x (by omega) (by omega)]
    exact h.entrySize i hi
  entry i hi j hj := by
    have hle := hsize _ (List.getElem_mem hi)
    rw [hm _ (by omega) (by omega)]
    exact h.entry i hi j hj

/-- One more entry. -/
theorem E820Holds.concat {d : List UInt8} (h : E820Holds m memMap ds)
    (hsize : rdN m 2 (memMap + 2 + 26 * ds.length) = d.length)
    (hentry : ∀ j, (hj : j < d.length) → m (memMap + 4 + 26 * ds.length + j) = d[j]) :
    E820Holds m memMap (ds ++ [d]) where
  entrySize i hi := by
    rcases Nat.lt_or_ge i ds.length with h1 | h1
    · rw [List.getElem_append_left h1]
      exact h.entrySize i h1
    · rw [List.length_append, List.length_singleton] at hi
      obtain rfl : i = ds.length := by omega
      rw [List.getElem_concat_length rfl]
      exact hsize
  entry i hi j hj := by
    rcases Nat.lt_or_ge i ds.length with h1 | h1
    · simp only [List.getElem_append_left h1] at hj ⊢
      exact h.entry i h1 j hj
    · rw [List.length_append, List.length_singleton] at hi
      obtain rfl : i = ds.length := by omega
      simp only [List.getElem_concat_length rfl] at hj ⊢
      exact hentry j hj

/-- Storing a descriptor and its size behind `k` entries. -/
theorem E820Holds.store {d : List UInt8} (h : E820Holds m memMap ds) (hsize : ∀ d ∈ ds, d.length ≤ 24)
    (hd : d.length ≤ 24) : E820Holds (wrN (put m (memMap + 4 + 26 * ds.length) d) 2
      (memMap + 2 + 26 * ds.length) (d.length % 2 ^ 16)) memMap (ds ++ [d]) := by
  refine (h.congr (fun x h1 h2 => ?_) hsize).concat ?_ fun j hj => ?_
  · rw [wrN_off _ _ (by omega), put_off (by omega)]
  · rw [rdN_wrN_same]
    omega
  · rw [wrN_off _ _ (by omega), put_at hj]

/-- The calls from `k` on: the count does not include the last descriptor, and the entries before it
are in place if there is room for all of them. -/
theorem readMore_returns (hsize : ∀ d ∈ ds, d.length ≤ 24)
    (h : ∀ i, (hi : i < ds.length) → int15 0x0000E820 (next i) 0x18 SMAP =
      ⟨false, SMAP, next (i + 1), ds[i].length, ds[i]⟩ ∧ (next (i + 1) = 0 ↔ i + 1 = ds.length))
    (hk : k < ds.length) (hs : BeforeCall memMap k next s) :
    ∃ s', Returns (fun n => loop (readMore int15) n s) s' ∧
      s'.stack = [(ds.length - 1) % 2 ^ 16] ∧
      (memMap + 4 + 26 * ds.length ≤ 2 ^ 16 → E820Holds s.mem memMap (ds.take k) →
        E820Holds s'.mem memMap ds.dropLast) := by
  obtain ⟨r, hr⟩ : ∃ r, k + r + 1 = ds.length := ⟨ds.length - k - 1, by omega⟩
  have htake : (ds.take k).length = k := by
    rw [List.length_take]
    omega
  have hsize' : ∀ d ∈ ds.take k, d.length ≤ 24 := fun d hd => hsize d (List.mem_of_mem_take hd)
  obtain ⟨hreply, hlast⟩ := h k hk
  induction r generalizing k s with
  | zero =>
      obtain ⟨s', he, hstack, hmem⟩ := readMore_last hs hreply (hlast.mpr hr)
      refine ⟨s', Returns.loop_inr he, ?_, fun hfit hold => ?_⟩
      · rw [hstack, ← hr]
        rfl
      · have hdrop : ds.dropLast = ds.take k := by
          rw [List.dropLast_eq_take, ← hr]
          rfl
        rw [hdrop, hmem, hs.di, Nat.mod_eq_of_lt (by omega)]
        refine hold.congr (fun x h1 h2 => ?_) hsize'
        rw [put_off (by omega)]
  | succ r ih =>
      obtain ⟨s₁, he, hs₁, hmem⟩ := readMore_next hs hreply (fun h0 => by have := hlast.mp h0; omega)
      have hk₁ : k + 1 < ds.length := by omega
      obtain ⟨s', hret, hstack, hholds⟩ := ih hk₁ hs₁ (by omega)
        (by rw [List.length_take]; omega) (fun d hd => hsize d (List.mem_of_mem_take hd))
        (h (k + 1) hk₁).1 (h (k + 1) hk₁).2
      refine ⟨s', hret.loop_inl he, hstack, fun hfit hold => hholds hfit ?_⟩
      have hdi : (memMap + 4 + 26 * k) % 2 ^ 16 = memMap + 4 + 26 * k := Nat.mod_eq_of_lt (by omega)
      have hdi2 : (memMap + 4 + 26 * k + 2 ^ 16 - 2) % 2 ^ 16 = memMap + 2 + 26 * k := by omega
      have hstore := hold.store hsize' (hsize _ (List.getElem_mem hk))
      rw [htake] at hstore
      rw [List.take_succ_eq_append_getElem hk, hmem, hs.di, hdi, hdi2]
      exact hstore

/-- What `read_e820` stores: one less than the number of descriptors, and the entries before the last
one if there is room for all of them. -/
theorem readE820_returns (h : Reports int15 ds) (hne : ds ≠ []) (memMap : ℕ) (m : Mem) :
    ∃ m', Returns (readE820 int15 memMap m) m' ∧
      rdN m' 2 memMap = (ds.length - 1) % 2 ^ 16 ∧
      (memMap + 4 + 26 * ds.length ≤ 2 ^ 16 → E820Holds m' memMap ds.dropLast) := by
  obtain ⟨next, hzero, hreply⟩ := h.reply
  have hpos : 0 < ds.length := List.length_pos_iff.mpr hne
  have hsize : ∀ d ∈ ds, d.length ≤ 24 := fun d hd => by
    have := h.size d hd
    omega
  obtain ⟨s', hret, hstack, hholds⟩ := readMore_returns (s := readStart memMap m) hsize hreply hpos
    ⟨hzero.symm, rfl, rfl⟩
  have hax := popAx_ax hstack (Nat.mod_lt _ (by norm_num))
  refine ⟨_, hret.bind (g := fun s _ => .ok (wrN (popAx s).mem 2 memMap ((popAx s).eax % 2 ^ 16)))
    (Returns.of_eq fun _ => rfl), ?_, fun hfit => ?_⟩
  · rw [hax, rdN_wrN_same]
    omega
  · refine (hholds hfit ⟨fun i hi => absurd hi (Nat.not_lt_zero i),
      fun i hi => absurd hi (Nat.not_lt_zero i)⟩).congr (fun x h1 _ => wrN_off _ _ (by omega)) ?_
    exact fun d hd => hsize d (List.dropLast_subset ds hd)

/-- **The count is one too small**, for every firmware and every list of descriptors. -/
theorem read_e820 (h : Reports int15 ds) (hne : ds ≠ []) (memMap : ℕ) (m : Mem) :
    ¬ ∃ m', Returns (readE820 int15 memMap m) m' ∧ rdN m' 2 memMap = ds.length ∧
      E820Holds m' memMap ds := by
  rintro ⟨m', hret, hcount, -⟩
  obtain ⟨m'', hret', hcount', -⟩ := readE820_returns h hne memMap m
  obtain rfl := hret.unique hret'
  have hpos : 0 < ds.length := List.length_pos_iff.mpr hne
  have hlt : rdN m' 2 memMap < 2 ^ 16 := rdN_lt m' 2 memMap
  omega

end read

/-! ### A single descriptor -/

/-- A firmware with one descriptor of 20 bytes. -/
def oneRegion : Int15 := fun _ _ _ _ => ⟨false, SMAP, 0, 20, List.replicate 20 1⟩

theorem oneRegion_reports : Reports oneRegion [List.replicate 20 1] where
  size d hd := by
    rw [List.mem_singleton.mp hd]
    exact Or.inl rfl
  reply := by
    refine ⟨fun _ => 0, rfl, fun i hi => ?_⟩
    obtain rfl : i = 0 := by simpa using hi
    exact ⟨rfl, iff_of_true rfl rfl⟩

/-- The only descriptor is not counted. -/
theorem read_e820_single : Reports oneRegion [List.replicate 20 1] ∧
    ∃ m', Returns (readE820 oneRegion 0x0500 fun _ => 0) m' ∧ rdN m' 2 0x0500 = 0 :=
  ⟨oneRegion_reports, (readE820_returns oneRegion_reports (by simp) _ _).imp fun _ h => ⟨h.1, h.2.1⟩⟩

theorem read_e820_one : ¬ ∃ m', Returns (readE820 oneRegion 0x0500 fun _ => 0) m' ∧
    rdN m' 2 0x0500 = [List.replicate 20 (1 : UInt8)].length ∧
      E820Holds m' 0x0500 [List.replicate 20 1] :=
  read_e820 oneRegion_reports (by simp) _ _

end Dawos
