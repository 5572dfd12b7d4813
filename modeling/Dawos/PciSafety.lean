import Dawos.PciEnum

/-! # Properties of the PCI enumeration

* `pciInit_returns_iff`: the enumeration terminates iff no bus behind a root is behind itself.
* `pciInit_writes_iff`: the writes to the cache stay inside its block and hit no entry twice iff
  at most 170 functions are found.
* `pciInit_cache_iff`: on a forest of buses the cache is exact iff every function that responds is
  one that the scan of its device looks at. -/

namespace Dawos

open Relation

/-! ### Termination -/

section termination

variable {cfg : PciSpace} {b s : ℕ} {l : List PciFn} {st st' : PciState}

/-- A bus that is scanned behind a bridge has an 8-bit number. -/
theorem Leads.lt (h : Leads cfg b s) : s < 256 := by
  obtain ⟨x, -, hn⟩ := h
  unfold PciFn.next at hn
  split_ifs at hn with hc
  obtain rfl := Option.some.inj hn
  have hne := hc.2
  unfold PciFn.secondary pciGetSecondaryBus at hne ⊢
  split_ifs at hne ⊢
  · exact Nat.mod_lt _ (by norm_num)
  · exact absurd rfl hne

/-- A point below which every chain ends is not below itself. -/
theorem acc_irrefl {α : Type} {r : α → α → Prop} {a : α} (h : Acc r a) : ¬ r a a := by
  induction h with
  | intro a _ ih => exact fun hr => ih a hr hr

/-- Chains of bridges from a bus end iff no bus behind it is behind itself. -/
theorem acc_iff_no_cycle : Acc (fun s b => Leads cfg b s) b ↔
    ∀ c, ReflTransGen (Leads cfg) b c → ¬ TransGen (Leads cfg) c c := by
  constructor
  · intro h c hc
    have hacc : Acc (fun s b => Leads cfg b s) c := by
      induction hc with
      | refl => exact h
      | tail _ hs ih => exact ih.inv hs
    exact fun ht => acc_irrefl hacc.transGen (transGen_swap.mpr ht)
  · intro h
    by_contra hn
    obtain ⟨f, hf0, hf⟩ := not_acc_iff_exists_descending_chain.mp hn
    -- an endless chain repeats one of 256 buses
    obtain ⟨i, j, hne, he⟩ := Finite.exists_ne_map_eq_of_infinite fun n : ℕ =>
      (⟨f (n + 1), (hf n).lt⟩ : Fin 256)
    have he' : f (i + 1) = f (j + 1) := congrArg Fin.val he
    have hreach : ∀ n, ReflTransGen (Leads cfg) b (f n) := by
      intro n
      induction n with
      | zero => rw [hf0]
      | succ n ih => exact ih.tail (hf n)
    have htrans : ∀ n k, TransGen (Leads cfg) (f n) (f (n + k + 1)) := by
      intro n k
      induction k with
      | zero => exact .single (hf n)
      | succ k ih => exact ih.tail (hf (n + k + 1))
    rcases Nat.lt_or_gt_of_ne hne with hlt | hlt
    · have ht := htrans (i + 1) (j - i - 1)
      rw [show i + 1 + (j - i - 1) + 1 = j + 1 by omega, ← he'] at ht
      exact h _ (hreach (i + 1)) ht
    · have ht := htrans (j + 1) (i - j - 1)
      rw [show j + 1 + (i - j - 1) + 1 = i + 1 by omega, he'] at ht
      exact h _ (hreach (j + 1)) ht

/-- The scan of root buses along traces. -/
theorem scan_returns {tr : ℕ → List PciFn} : ∀ (l : List ℕ) (st : PciState),
    (∀ b ∈ l, Trace cfg b (tr b)) →
    Returns (fun n => l.foldlM (fun st b => pciEnumBus cfg n b st) st) (st.stores cfg (l.flatMap tr))
  | [], st, _ => Returns.of_eq fun _ => rfl
  | b :: l, st, h => by
      have hb := (h b List.mem_cons_self).returns st
      have htail := scan_returns l (st.stores cfg (tr b)) fun c hc => h c (List.mem_cons_of_mem _ hc)
      rw [List.flatMap_cons, PciState.stores_append]
      exact (hb.bind (g := fun st n => l.foldlM (fun st b => pciEnumBus cfg n b st) st) htail).congr
        fun n => List.foldlM_cons

/-- When the chains from the roots end, the enumeration stores the functions of their traces. -/
theorem pciInit_traces (h : ∀ b ∈ pciRoots cfg, Acc (fun s b => Leads cfg b s) b) :
    ∃ tr : ℕ → List PciFn, (∀ b ∈ pciRoots cfg, Trace cfg b (tr b)) ∧
      Returns (fun n => pciInit n cfg)
        (PciState.stores cfg ⟨0, []⟩ ((pciRoots cfg).flatMap tr),
          decide (0 < (PciState.stores cfg ⟨0, []⟩ ((pciRoots cfg).flatMap tr)).len)) := by
  have htr : ∀ b, ∃ l, b ∈ pciRoots cfg → Trace cfg b l := fun b => by
    by_cases hb : b ∈ pciRoots cfg
    · obtain ⟨l, hl⟩ := exists_trace (h b hb)
      exact ⟨l, fun _ => hl⟩
    · exact ⟨[], fun hc => absurd hc hb⟩
  choose tr htr using htr
  refine ⟨tr, htr, ?_⟩
  filter_upwards [scan_returns (pciRoots cfg) ⟨0, []⟩ htr] with n hn
  unfold pciInit
  rw [pciScan_eq, hn, ok_bind]
  rfl

/-- When the enumeration returns, the chains from the roots end. -/
theorem acc_of_pciInit {n : ℕ} {r : PciState × Bool} (h : pciInit n cfg = .ok r) :
    ∀ b ∈ pciRoots cfg, Acc (fun s b => Leads cfg b s) b := by
  intro b hb
  unfold pciInit at h
  rw [pciScan_eq] at h
  cases e : (pciRoots cfg).foldlM (fun st bus => pciEnumBus cfg n bus st) ⟨0, []⟩ with
  | error e' =>
      rw [e] at h
      cases h
  | ok st =>
      obtain ⟨t, t', ht⟩ := foldlM_ok e b hb
      exact acc_of_returns n ht

/-- **The enumeration terminates iff no bus behind a root is behind itself.** -/
theorem pciInit_returns_iff (cfg : PciSpace) : (∃ r, Returns (fun n => pciInit n cfg) r) ↔
    ∀ b ∈ pciRoots cfg, ∀ c, ReflTransGen (Leads cfg) b c → ¬ TransGen (Leads cfg) c c := by
  constructor
  · rintro ⟨r, hr⟩ b hb
    obtain ⟨n, hn⟩ := hr.exists
    exact acc_iff_no_cycle.mp (acc_of_pciInit hn b hb)
  · intro h
    obtain ⟨tr, -, hret⟩ := pciInit_traces fun b hb => acc_iff_no_cycle.mpr (h b hb)
    exact ⟨_, hret⟩

/-- A space with the given functions: dwords 0, 2, 3 and 6 of each, all ones elsewhere. -/
def pciSpace (fns : List (PciFn × (ℕ → ℕ))) : PciSpace := fun a =>
  match fns.find? fun e => decide (pciAddr e.1.bus e.1.device e.1.function 0 ≤ a ∧
      a < pciAddr e.1.bus e.1.device e.1.function 0 + 0x100) with
  | some e => e.2 (a % 0x100 / 4)
  | none => 0xFFFFFFFF

/-- The dwords of a single-function bridge to a bus. -/
def bridgeTo (s : ℕ) (reg : ℕ) : ℕ :=
  if reg = 2 then 0x06040000 else if reg = 6 then s * 0x100 else 0

/-- The dwords of a single-function device. -/
def singleFn (reg : ℕ) : ℕ := if reg = 0 then 0x12348086 else if reg = 2 then 0x02000000 else 0

/-- The dwords of a function of a multi-function device. -/
def multiFn (reg : ℕ) : ℕ := if reg = 3 then 0x00800000 else singleFn reg

/-- Bus 0 with a device and a bridge to bus 1, and the given functions. -/
def bridgedFns (fns : List (PciFn × (ℕ → ℕ))) : List (PciFn × (ℕ → ℕ)) :=
  [(⟨0, 0, 0⟩, singleFn), (⟨0, 1, 0⟩, bridgeTo 1)] ++ fns

/-- Two single-function devices behind the bridge. -/
def singleFns : List (PciFn × (ℕ → ℕ)) := bridgedFns [(⟨1, 0, 0⟩, singleFn), (⟨1, 5, 0⟩, singleFn)]

/-- A device with functions 0, 1 and 6 and a single-function device behind the bridge. -/
def multiFns : List (PciFn × (ℕ → ℕ)) :=
  bridgedFns [(⟨1, 0, 0⟩, multiFn), (⟨1, 0, 1⟩, multiFn), (⟨1, 0, 6⟩, multiFn), (⟨1, 5, 0⟩, singleFn)]

/-- Two bridges that lead to each other's bus. -/
def bridgeCycle : PciSpace := pciSpace [(⟨0, 0, 0⟩, bridgeTo 1), (⟨1, 0, 0⟩, bridgeTo 0)]

/-- The enumeration of two buses that lead to each other does not terminate. -/
theorem pciInit_cycle : ¬ ∃ r, Returns (fun n => pciInit n bridgeCycle) r := by
  rintro ⟨r, hr⟩
  obtain ⟨n, hn⟩ := hr.exists
  have h0 : (0 : ℕ) ∈ pciRoots bridgeCycle := by decide +kernel
  have h01 : Leads bridgeCycle 0 1 := ⟨⟨0, 0, 0⟩, by decide +kernel, by decide +kernel⟩
  have h10 : Leads bridgeCycle 1 0 := ⟨⟨1, 0, 0⟩, by decide +kernel, by decide +kernel⟩
  exact acc_iff_no_cycle.mp (acc_of_pciInit hn 0 h0) 0 .refl (.tail (.single h01) h10)

end termination

/-! ### The writes to the cache -/

/-- The functions found on chains of at most `k` buses from bus `b`, counted once for each chain. -/
def foundBehind (cfg : PciSpace) : ℕ → ℕ → ℕ
  | 0, _ => 0
  | k + 1, b => ((foundOn cfg b).map fun x => 1 + match x.next cfg with
      | some s => foundBehind cfg k s
      | none => 0).sum

/-- The writes fall into the block of the cache, and no index is written twice. -/
def PciState.WritesOk (st : PciState) : Prop :=
  (∀ w ∈ st.writes, (w.1 + 1) * PCI_CACHE_SIZE ≤ PCI_CACHE_BYTES) ∧ (st.writes.map Prod.fst).Nodup

section writes

variable {cfg : PciSpace} {b : ℕ} {l : List PciFn} {st : PciState}

theorem stores_eq (l : List PciFn) : (PciState.stores cfg ⟨0, []⟩ l).len = l.length % 256 ∧
    (PciState.stores cfg ⟨0, []⟩ l).writes = l.zipIdx.map fun p => (p.2 % 256, p.1.entry cfg) := by
  induction l using List.reverseRecOn with
  | nil => exact ⟨rfl, rfl⟩
  | append_singleton l x ih =>
      rw [PciState.stores_append]
      have hs : (PciState.stores cfg (PciState.stores cfg ⟨0, []⟩ l) [x]) =
          (PciState.stores cfg ⟨0, []⟩ l).store (x.entry cfg) := rfl
      rw [hs]
      constructor
      · show ((PciState.stores cfg ⟨0, []⟩ l).len + 1) % 256 = (l ++ [x]).length % 256
        rw [ih.1, List.length_append, List.length_singleton]
        omega
      · unfold PciState.store
        rw [ih.1, ih.2, List.zipIdx_append, List.map_append]
        simp

/-- The indices of the writes: the count of entries before, as an 8-bit number. -/
theorem stores_indices (l : List PciFn) :
    (PciState.stores cfg ⟨0, []⟩ l).writes.map Prod.fst = (List.range l.length).map (· % 256) := by
  rw [(stores_eq l).2, List.map_map, List.range_eq_range', List.zipIdx_eq_zip_range']
  apply List.ext_getElem
  · simp
  · intro i h1 h2
    simp

theorem stores_writesOk_iff (l : List PciFn) :
    (PciState.stores cfg ⟨0, []⟩ l).WritesOk ↔ l.length ≤ 170 := by
  have hidx := @stores_indices cfg l
  constructor
  · intro h
    by_contra hc
    have hm : 170 ∈ (PciState.stores cfg ⟨0, []⟩ l).writes.map Prod.fst := by
      rw [hidx]
      exact List.mem_map.mpr ⟨170, List.mem_range.mpr (by omega), rfl⟩
    obtain ⟨w, hw, he⟩ := List.mem_map.mp hm
    have := h.1 w hw
    rw [he] at this
    exact absurd this (by decide)
  · intro hle
    have hid : (List.range l.length).map (· % 256) = List.range l.length := by
      conv_rhs => rw [← List.map_id (List.range l.length)]
      refine List.map_congr_left fun i hi => Nat.mod_eq_of_lt ?_
      have := List.mem_range.mp hi
      omega
    rw [hid] at hidx
    refine ⟨fun w hw => ?_, by rw [hidx]; exact List.nodup_range⟩
    have hm : w.1 ∈ List.range l.length := hidx ▸ List.mem_map_of_mem hw
    have := List.mem_range.mp hm
    rw [PCI_CACHE_SIZE, PCI_CACHE_BYTES]
    omega

theorem sum_le_length {f : PciFn → ℕ} {sub : PciFn → List PciFn} : ∀ (l : List PciFn),
    (∀ x ∈ l, f x ≤ (sub x).length) →
    (l.map fun x => 1 + f x).sum ≤ (l.flatMap fun x => x :: sub x).length
  | [], _ => le_rfl
  | x :: l, h => by
      have hx := h x List.mem_cons_self
      have hl := sum_le_length l fun y hy => h y (List.mem_cons_of_mem _ hy)
      simp only [List.map_cons, List.sum_cons, List.flatMap_cons, List.length_append, List.length_cons]
      omega

theorem sum_eq_length {f : PciFn → ℕ} {sub : PciFn → List PciFn} : ∀ (l : List PciFn),
    (∀ x ∈ l, f x = (sub x).length) →
    (l.map fun x => 1 + f x).sum = (l.flatMap fun x => x :: sub x).length
  | [], _ => rfl
  | x :: l, h => by
      have hx := h x List.mem_cons_self
      have hl := sum_eq_length l fun y hy => h y (List.mem_cons_of_mem _ hy)
      simp only [List.map_cons, List.sum_cons, List.flatMap_cons, List.length_append, List.length_cons]
      omega

/-- No depth counts more functions than the trace has. -/
theorem Trace.foundBehind_le (h : Trace cfg b l) : ∀ k, foundBehind cfg k b ≤ l.length := by
  induction h with
  | bus sub hnone _ ih =>
      intro k
      cases k with
      | zero => exact Nat.zero_le _
      | succ k =>
          refine sum_le_length _ fun x hx => ?_
          cases e : x.next cfg with
          | none => exact Nat.zero_le _
          | some s => exact ih x hx s e k

/-- Deep enough, the count is the length of the trace. -/
theorem Trace.foundBehind_eq (h : Trace cfg b l) :
    ∀ᶠ k in Filter.atTop, foundBehind cfg k b = l.length := by
  induction h with
  | @bus b sub hnone _ ih =>
      have hall : ∀ᶠ k in Filter.atTop, ∀ x ∈ foundOn cfg b, ∀ s, x.next cfg = some s →
          foundBehind cfg k s = (sub x).length := by
        have hx : ∀ x ∈ foundOn cfg b, ∀ᶠ k in Filter.atTop, ∀ s, x.next cfg = some s →
            foundBehind cfg k s = (sub x).length := by
          intro x hx
          cases e : x.next cfg with
          | none => exact Filter.Eventually.of_forall fun k s hs => absurd hs.symm (Option.some_ne_none s)
          | some s =>
              filter_upwards [ih x hx s e] with k hk t ht
              rw [← Option.some.inj ht]
              exact hk
        have hfin := (Filter.eventually_all_finite (List.finite_toSet (foundOn cfg b))).mpr hx
        exact hfin
      obtain ⟨K, hK⟩ := Filter.eventually_atTop.mp hall
      refine Filter.eventually_atTop.mpr ⟨K + 1, fun k hk => ?_⟩
      obtain ⟨i, rfl⟩ : ∃ i, k = i + 1 := ⟨k - 1, by omega⟩
      refine sum_eq_length _ fun x hx => ?_
      cases e : x.next cfg with
      | none => rw [hnone x hx e]; rfl
      | some s => exact hK i (by omega) x hx s e

/-- The count over the root buses. -/
theorem roots_count {tr : ℕ → List PciFn} (l : List ℕ) (h : ∀ b ∈ l, Trace cfg b (tr b)) :
    (∀ k, (l.map (foundBehind cfg k)).sum ≤ (l.flatMap tr).length) ∧
      ∀ᶠ k in Filter.atTop, (l.map (foundBehind cfg k)).sum = (l.flatMap tr).length := by
  induction l with
  | nil => exact ⟨fun _ => le_rfl, Filter.Eventually.of_forall fun _ => rfl⟩
  | cons b l ih =>
      have hb := h b List.mem_cons_self
      obtain ⟨h1, h2⟩ := ih fun c hc => h c (List.mem_cons_of_mem _ hc)
      constructor
      · intro k
        have := hb.foundBehind_le k
        have := h1 k
        simp only [List.map_cons, List.sum_cons, List.flatMap_cons, List.length_append]
        omega
      · filter_upwards [hb.foundBehind_eq, h2] with k hk1 hk2
        simp only [List.map_cons, List.sum_cons, List.flatMap_cons, List.length_append]
        omega

/-- **The writes stay inside the block and hit no entry twice iff at most 170 functions are
found.** -/
theorem pciInit_writes_iff {ok : Bool} (h : Returns (fun n => pciInit n cfg) (st, ok)) :
    st.WritesOk ↔ ∀ k, ((pciRoots cfg).map (foundBehind cfg k)).sum ≤ 170 := by
  obtain ⟨n, hn⟩ := h.exists
  obtain ⟨tr, htr, hret⟩ := pciInit_traces (acc_of_pciInit hn)
  obtain ⟨rfl, -⟩ := Prod.mk.inj (h.unique hret)
  obtain ⟨hle, heq⟩ := roots_count (pciRoots cfg) htr
  rw [stores_writesOk_iff]
  constructor
  · exact fun hl k => (hle k).trans hl
  · intro hk
    obtain ⟨k, hk'⟩ := heq.exists
    rw [← hk']
    exact hk k

/-- One root bus without bridges. -/
theorem pciInit_flat (hr : pciRoots cfg = [0]) (h : ∀ x ∈ foundOn cfg 0, x.next cfg = none) :
    Returns (fun n => pciInit n cfg) (PciState.stores cfg ⟨0, []⟩ (foundOn cfg 0),
      decide (0 < (PciState.stores cfg ⟨0, []⟩ (foundOn cfg 0)).len)) := by
  have ht : Trace cfg 0 ((foundOn cfg 0).flatMap fun x => [x]) :=
    .bus (fun _ => []) (fun _ _ _ => rfl) fun x hx s hs => by
      rw [h x hx] at hs
      cases hs
  have htr : ∀ b ∈ [0], Trace cfg b ((fun _ => (foundOn cfg 0).flatMap fun x => [x]) b) :=
    fun b hb => by rwa [List.mem_singleton.mp hb]
  have hret := scan_returns [0] ⟨0, []⟩ htr
  have e : ([0] : List ℕ).flatMap (fun _ => (foundOn cfg 0).flatMap fun x => [x]) = foundOn cfg 0 := by
    simp
  rw [e] at hret
  filter_upwards [hret] with n hn
  unfold pciInit
  rw [pciScan_eq, hr, hn, ok_bind]
  rfl

/-- Devices of eight functions each, with addresses below `limit`. -/
def multiSpace (limit : ℕ) : PciSpace := fun a =>
  if a < limit then
    if a % 0x100 = 0 then 0x12348086 else if a % 0x100 = 12 then 0x00800000 else 0
  else 0xFFFFFFFF

/-- Bus 0 with 32 devices of eight functions each. -/
def fullBus : PciSpace := multiSpace 0x80010000

/-- The 171st of 224 functions is stored beyond the block of the cache. -/
theorem pciInit_overrun : ∃ st ok, Returns (fun n => pciInit n fullBus) (st, ok) ∧ ¬ st.WritesOk := by
  refine ⟨_, _, pciInit_flat (by decide +kernel) (by decide +kernel), ?_⟩
  rw [stores_writesOk_iff]
  decide +kernel

/-- Chains of bridges end on a bus without bridges. -/
theorem acc_flat (h : ∀ x ∈ foundOn cfg b, x.next cfg = none) : Acc (fun s b => Leads cfg b s) b := by
  refine Acc.intro b fun s hs => ?_
  obtain ⟨x, hx, hn⟩ := hs
  rw [h x hx] at hn
  cases hn

/-- On a bus without bridges the functions found are counted once. -/
theorem foundBehind_flat (h : ∀ x ∈ foundOn cfg b, x.next cfg = none) (k : ℕ) :
    foundBehind cfg k b ≤ (foundOn cfg b).length := by
  cases k with
  | zero => exact Nat.zero_le _
  | succ k =>
      have hone : ∀ x ∈ foundOn cfg b, (1 + match x.next cfg with
          | some s => foundBehind cfg k s
          | none => 0) = 1 := by
        intro x hx
        simp only [h x hx]
      unfold foundBehind
      rw [List.map_congr_left hone, List.map_const', List.sum_replicate]
      exact le_of_eq (mul_one _)

/-- Five functions on two buses are written inside the block. -/
theorem pciInit_writes_bridge :
    ∃ st ok, Returns (fun n => pciInit n (pciSpace multiFns)) (st, ok) ∧ st.WritesOk := by
  have hroots : pciRoots (pciSpace multiFns) = [0] := by decide +kernel
  have h0 : foundOn (pciSpace multiFns) 0 = [⟨0, 0, 0⟩, ⟨0, 1, 0⟩] := by decide +kernel
  have h1 : foundOn (pciSpace multiFns) 1 = [⟨1, 0, 1⟩, ⟨1, 0, 6⟩, ⟨1, 5, 0⟩] := by decide +kernel
  have hn : (⟨0, 0, 0⟩ : PciFn).next (pciSpace multiFns) = none := by decide +kernel
  have hb : (⟨0, 1, 0⟩ : PciFn).next (pciSpace multiFns) = some 1 := by decide +kernel
  have hflat : ∀ x ∈ foundOn (pciSpace multiFns) 1, x.next (pciSpace multiFns) = none := by
    decide +kernel
  obtain ⟨tr, -, hret⟩ := @pciInit_traces (pciSpace multiFns) (by
    rw [hroots]
    refine List.forall_mem_singleton.mpr (Acc.intro 0 fun s hs => ?_)
    obtain ⟨x, hx, hs⟩ := hs
    rw [h0] at hx
    rcases List.mem_pair.mp hx with rfl | rfl
    · rw [hn] at hs
      cases hs
    · rw [hb] at hs
      cases hs
      exact acc_flat hflat)
  refine ⟨_, _, hret, (pciInit_writes_iff hret).mpr fun k => ?_⟩
  rw [hroots, List.map_singleton, List.sum_singleton]
  cases k with
  | zero => exact Nat.zero_le 170
  | succ k =>
      have hbehind := foundBehind_flat hflat k
      rw [h1] at hbehind
      unfold foundBehind
      rw [h0, List.map_cons, List.map_singleton, hn, hb, List.sum_cons, List.sum_singleton]
      dsimp only [List.length_cons, List.length_nil] at hbehind ⊢
      omega

end writes

/-! ### The contents of the cache -/

/-- Device and function number are in range. -/
def PciFn.InRange (x : PciFn) : Prop := x.device < 32 ∧ x.function < 8

/-- A present PCI-to-PCI bridge. -/
def PciFn.IsBridge (cfg : PciSpace) (x : PciFn) : Prop :=
  x.InRange ∧ x.Present cfg ∧ x.Bridge cfg

/-- The scan of its device looks at the function: it is function 0 of a device with a single
function, or another function of a device with several. -/
def PciFn.Scanned (cfg : PciSpace) (x : PciFn) : Prop :=
  (pciGetHeader cfg x.bus x.device 0).vendorId ≠ 0xFFFF ∧
    if (pciGetHeader cfg x.bus x.device 0).multi then x.function ≠ 0 else x.function = 0

/-- A present bridge on bus `b` has the secondary bus `s`. -/
def Link (cfg : PciSpace) (b s : ℕ) : Prop :=
  ∃ x : PciFn, x.bus = b ∧ x.IsBridge cfg ∧ x.secondary cfg = s

/-- The bus is a root or reached from one through bridges. -/
def Reached (cfg : PciSpace) (c : ℕ) : Prop := ∃ r ∈ pciRoots cfg, ReflTransGen (Link cfg) r c

/-- No bus is reached twice: no bridge leads to a root, and no two bridges to one bus. -/
structure Forest (cfg : PciSpace) : Prop where
  root : ∀ x : PciFn, Reached cfg x.bus → x.IsBridge cfg → x.secondary cfg ∉ pciRoots cfg
  parent : ∀ x y : PciFn, Reached cfg x.bus → Reached cfg y.bus → x.IsBridge cfg →
    y.IsBridge cfg → x.secondary cfg = y.secondary cfg → x = y

/-- At most `n` functions respond. -/
def AtMost (cfg : PciSpace) (n : ℕ) : Prop := ∃ l : List PciFn, l.length ≤ n ∧
  ∀ x : PciFn, x.bus < 256 → x.InRange → x.Present cfg → x ∈ l

/-- The cache holds exactly one entry for every function that responds on a reached bus, and no
other entry. -/
def CacheExact (cfg : PciSpace) (st : PciState) : Prop := ∃ fs : List PciFn, fs.Nodup ∧
  (∀ x, x ∈ fs ↔ Reached cfg x.bus ∧ x.InRange ∧ x.Present cfg) ∧
  st.cache = fs.map fun x => some (x.entry cfg)

section contents

variable {cfg : PciSpace} {b c s : ℕ} {l : List PciFn} {x y : PciFn}

theorem mem_foundOn :
    x ∈ foundOn cfg b ↔ x.bus = b ∧ x.InRange ∧ x.Present cfg ∧ x.Scanned cfg := by
  obtain ⟨xb, xd, xf⟩ := x
  unfold foundOn
  simp only [List.mem_flatMap, List.mem_range, List.mem_filter, decide_eq_true_eq]
  constructor
  · rintro ⟨d, hd, hl, hp⟩
    unfold looked at hl
    split_ifs at hl with h1 h2
    · obtain ⟨f, hf, he⟩ := List.mem_map.mp hl
      have hf8 : f < 8 ∧ f ≠ 0 := by
        revert hf
        simp only [List.mem_cons, List.not_mem_nil, or_false]
        omega
      cases he
      refine ⟨rfl, ⟨hd, hf8.1⟩, hp, h1, ?_⟩
      rw [if_pos h2]
      exact hf8.2
    · cases List.mem_singleton.mp hl
      refine ⟨rfl, ⟨hd, Nat.succ_pos 7⟩, hp, h1, ?_⟩
      rw [if_neg h2]
    · cases hl
  · rintro ⟨rfl, ⟨hd, hf⟩, hp, h1, h2⟩
    refine ⟨xd, hd, ?_, hp⟩
    unfold looked
    rw [if_pos h1]
    dsimp only at h1 h2 hf
    split_ifs at h2 ⊢ with hm
    · refine List.mem_map.mpr ⟨xf, ?_, rfl⟩
      simp only [List.mem_cons, List.not_mem_nil, or_false]
      omega
    · rw [h2]
      exact List.mem_singleton_self _

theorem Leads.link (h : Leads cfg b s) : Link cfg b s := by
  obtain ⟨x, hx, hn⟩ := h
  obtain ⟨hb, hr, hp, -⟩ := mem_foundOn.mp hx
  unfold PciFn.next at hn
  split_ifs at hn with hc
  exact ⟨x, hb, ⟨hr, hp, hc.1⟩, Option.some.inj hn⟩

theorem Reached.link (h : Reached cfg b) (hl : Link cfg b s) : Reached cfg s := by
  obtain ⟨r, hr, hp⟩ := h
  exact ⟨r, hr, hp.tail hl⟩

theorem Reached.links (h : Reached cfg b) (hl : ReflTransGen (Link cfg) b c) : Reached cfg c := by
  obtain ⟨r, hr, hp⟩ := h
  exact ⟨r, hr, hp.trans hl⟩

theorem Reached.lt (h : Reached cfg c) : c < 256 := by
  obtain ⟨r, hr, hp⟩ := h
  induction hp with
  | refl =>
      unfold pciRoots at hr
      split_ifs at hr
      · have := List.mem_range.mp (List.mem_filter.mp hr).1
        omega
      · rw [List.mem_singleton.mp hr]
        norm_num
  | tail _ hl ih =>
      obtain ⟨x, rfl, -, rfl⟩ := hl
      unfold PciFn.secondary pciGetSecondaryBus
      split_ifs
      · exact Nat.mod_lt _ (by norm_num)
      · exact ih

namespace Forest

/-- In a forest no reached bus is behind itself. -/
theorem no_cycle (h : Forest cfg) (hc : Reached cfg c) : ¬ TransGen (Link cfg) c c := by
  obtain ⟨r, hr, hp⟩ := hc
  induction hp with
  | refl =>
      intro ht
      obtain ⟨b, hb, x, rfl, hx, hs⟩ := TransGen.tail'_iff.mp ht
      exact h.root x ⟨r, hr, hb⟩ hx (hs ▸ hr)
  | @tail b c hp hl ih =>
      intro ht
      have hbr : Reached cfg b := ⟨r, hr, hp⟩
      have hcr : Reached cfg c := hbr.link hl
      obtain ⟨b', hb', y, rfl, hy, hys⟩ := TransGen.tail'_iff.mp ht
      obtain ⟨x, rfl, hx, hxs⟩ := hl
      obtain rfl := h.parent x y hbr (hcr.links hb') hx hy (hxs.trans hys.symm)
      exact ih (TransGen.head' ⟨x, rfl, hx, hxs⟩ hb')

/-- Two reached buses above one bus are above each other. -/
theorem comparable (h : Forest cfg) {a : ℕ} (ha : Reached cfg a) (hb : Reached cfg b)
    (hac : ReflTransGen (Link cfg) a c) (hbc : ReflTransGen (Link cfg) b c) :
    ReflTransGen (Link cfg) a b ∨ ReflTransGen (Link cfg) b a := by
  induction hac with
  | refl => exact .inr hbc
  | @tail d c had hl ih =>
      rcases ReflTransGen.cases_tail hbc with rfl | ⟨d', hbd, hl'⟩
      · exact .inl (had.tail hl)
      · have hdr := ha.links had
        have hdr' := hb.links hbd
        obtain ⟨x, rfl, hx, hxs⟩ := hl
        obtain ⟨y, rfl, hy, hys⟩ := hl'
        obtain rfl := h.parent x y hdr hdr' hx hy (hxs.trans hys.symm)
        exact ih hbd

/-- What is behind two bridges of one bus is disjoint. -/
theorem apart (h : Forest cfg) (hx : Reached cfg x.bus) (hxy : x.bus = y.bus) (hne : x ≠ y)
    (hxb : x.IsBridge cfg) (hyb : y.IsBridge cfg)
    (hxc : ReflTransGen (Link cfg) (x.secondary cfg) c) :
    ¬ ReflTransGen (Link cfg) (y.secondary cfg) c := by
  have hlx : Link cfg x.bus (x.secondary cfg) := ⟨x, rfl, hxb, rfl⟩
  have hly : Link cfg x.bus (y.secondary cfg) := ⟨y, hxy.symm, hyb, rfl⟩
  -- one secondary bus cannot be above the other
  have key : ∀ {u v : PciFn}, u.bus = x.bus → v.bus = x.bus → u ≠ v → u.IsBridge cfg →
      v.IsBridge cfg → ¬ ReflTransGen (Link cfg) (u.secondary cfg) (v.secondary cfg) := by
    intro u v hu hv huv hub hvb hp
    have hux : Reached cfg u.bus := hu ▸ hx
    have hvx : Reached cfg v.bus := hv ▸ hx
    rcases ReflTransGen.cases_tail hp with he | ⟨d, hd, w, rfl, hw, hws⟩
    · exact huv (h.parent u v hux hvx hub hvb he.symm)
    · have hur : Reached cfg (u.secondary cfg) := hux.link ⟨u, rfl, hub, rfl⟩
      obtain rfl := h.parent w v (hur.links hd) hvx hw hvb hws
      refine h.no_cycle hur (TransGen.tail' hd ?_)
      exact ⟨u, hu.trans hv.symm, hub, rfl⟩
  intro hyc
  rcases h.comparable (hx.link hlx) (hx.link hly) hxc hyc with hp | hp
  · exact key rfl hxy.symm hne hxb hyb hp
  · exact key hxy.symm rfl hne.symm hyb hxb hp

end Forest

theorem PciFn.next_some (h : x.next cfg = some s) : x.Bridge cfg ∧ x.secondary cfg = s := by
  unfold PciFn.next at h
  split_ifs at h with hc
  exact ⟨hc.1, Option.some.inj h⟩

/-- The functions of a trace: what is found on the buses behind. -/
theorem Trace.mem (h : Trace cfg b l) (x : PciFn) :
    x ∈ l ↔ ReflTransGen (Leads cfg) b x.bus ∧ x ∈ foundOn cfg x.bus := by
  induction h with
  | @bus b sub hnone _ ih =>
      rw [List.mem_flatMap]
      constructor
      · rintro ⟨y, hy, hx⟩
        have hyb := (mem_foundOn.mp hy).1
        rcases List.mem_cons.mp hx with rfl | hx
        · rw [hyb]
          exact ⟨.refl, hy⟩
        · cases e : y.next cfg with
          | none =>
              rw [hnone y hy e] at hx
              cases hx
          | some s =>
              obtain ⟨h1, h2⟩ := (ih y hy s e).mp hx
              exact ⟨.head ⟨y, hy, e⟩ h1, h2⟩
      · rintro ⟨hp, hx⟩
        rcases ReflTransGen.cases_head hp with he | ⟨s, ⟨y, hy, hn⟩, hp⟩
        · rw [← he] at hx
          exact ⟨x, hx, List.mem_cons_self⟩
        · exact ⟨y, hy, List.mem_cons_of_mem _ ((ih y hy s hn).mpr ⟨hp, hx⟩)⟩

theorem foundOn_nodup (cfg : PciSpace) (b : ℕ) : (foundOn cfg b).Nodup := by
  unfold foundOn
  rw [List.nodup_flatMap]
  constructor
  · intro d _
    refine List.Nodup.filter _ ?_
    unfold looked
    split_ifs
    · exact List.Nodup.map (fun f g he => congrArg PciFn.function he) (by decide)
    · exact List.nodup_singleton _
    · exact List.nodup_nil
  · refine List.nodup_range.imp fun {d d'} hne x hx hx' => hne ?_
    have hdev : ∀ {d}, x ∈ (looked cfg b d).filter (PciFn.Present cfg) → x.device = d := by
      intro d h
      have hl := (List.mem_filter.mp h).1
      unfold looked at hl
      split_ifs at hl
      · obtain ⟨f, -, rfl⟩ := List.mem_map.mp hl
        rfl
      · rw [List.mem_singleton.mp hl]
      · cases hl
    exact (hdev hx).symm.trans (hdev hx')

/-- A path of scanned bridges is a path of bridges. -/
theorem leads_links {a : ℕ} (h : ReflTransGen (Leads cfg) a c) : ReflTransGen (Link cfg) a c := by
  induction h with
  | refl => exact .refl
  | tail _ hs ih => exact ih.tail hs.link

/-- In a forest a trace visits nothing twice. -/
theorem Trace.nodup (hf : Forest cfg) (h : Trace cfg b l) (hb : Reached cfg b) : l.Nodup := by
  induction h with
  | @bus b sub hnone hsome ih =>
      -- what is behind a function
      have hsub : ∀ x ∈ foundOn cfg b, ∀ z ∈ sub x, ∃ s, x.next cfg = some s ∧
          ReflTransGen (Link cfg) s z.bus := by
        intro x hx z hz
        cases e : x.next cfg with
        | none =>
            rw [hnone x hx e] at hz
            cases hz
        | some s => exact ⟨s, rfl, leads_links (((hsome x hx s e).mem z).mp hz).1⟩
      have hlead : ∀ {x s}, x ∈ foundOn cfg b → x.next cfg = some s → Link cfg b s :=
        fun hx hn => Leads.link ⟨_, hx, hn⟩
      -- nothing on the bus is behind the bus
      have hcyc : ∀ x ∈ foundOn cfg b, ∀ y ∈ foundOn cfg b, y ∉ sub x := by
        intro x hx y hy hm
        obtain ⟨s, hn, hp⟩ := hsub x hx y hm
        rw [(mem_foundOn.mp hy).1] at hp
        exact hf.no_cycle hb (TransGen.head' (hlead hx hn) hp)
      rw [List.nodup_flatMap]
      constructor
      · intro x hx
        refine List.nodup_cons.mpr ⟨hcyc x hx x hx, ?_⟩
        cases e : x.next cfg with
        | none =>
            rw [hnone x hx e]
            exact List.nodup_nil
        | some s => exact ih x hx s e (hb.link (hlead hx e))
      · refine (foundOn_nodup cfg b).pairwise_of_forall_ne fun x hx y hy hne z hzx hzy => ?_
        rcases List.mem_cons.mp hzx with rfl | hzx
        · rcases List.mem_cons.mp hzy with rfl | hzy
          · exact hne rfl
          · exact hcyc y hy z hx hzy
        · rcases List.mem_cons.mp hzy with rfl | hzy
          · exact hcyc x hx z hy hzx
          · obtain ⟨s, hn, hp⟩ := hsub x hx z hzx
            obtain ⟨t, hn', hp'⟩ := hsub y hy z hzy
            obtain ⟨hxb, hxr, hxp, -⟩ := mem_foundOn.mp hx
            obtain ⟨hyb, hyr, hyp, -⟩ := mem_foundOn.mp hy
            obtain ⟨h1, rfl⟩ := PciFn.next_some hn
            obtain ⟨h2, rfl⟩ := PciFn.next_some hn'
            exact hf.apart (hxb.symm ▸ hb) (hxb.trans hyb.symm) hne ⟨hxr, hxp, h1⟩ ⟨hyr, hyp, h2⟩ hp hp'

theorem pciRoots_nodup (cfg : PciSpace) : (pciRoots cfg).Nodup := by
  unfold pciRoots
  split_ifs
  · exact List.nodup_range.filter _
  · exact List.nodup_singleton 0

theorem reached_root (h : b ∈ pciRoots cfg) : Reached cfg b := ⟨b, h, .refl⟩

/-- In a forest the traces of the roots visit nothing twice. -/
theorem roots_nodup (hf : Forest cfg) {tr : ℕ → List PciFn}
    (htr : ∀ b ∈ pciRoots cfg, Trace cfg b (tr b)) : ((pciRoots cfg).flatMap tr).Nodup := by
  rw [List.nodup_flatMap]
  refine ⟨fun b hb => (htr b hb).nodup hf (reached_root hb), ?_⟩
  refine (pciRoots_nodup cfg).pairwise_of_forall_ne fun a ha b hb hne z hza hzb => ?_
  have hpa := leads_links (((htr a ha).mem z).mp hza).1
  have hpb := leads_links (((htr b hb).mem z).mp hzb).1
  have key : ∀ {u v : ℕ}, u ∈ pciRoots cfg → v ∈ pciRoots cfg → u ≠ v →
      ¬ ReflTransGen (Link cfg) u v := by
    intro u v hu hv huv hp
    rcases ReflTransGen.cases_tail hp with he | ⟨d, hd, x, rfl, hx, hxs⟩
    · exact huv he.symm
    · exact hf.root x ((reached_root hu).links hd) hx (hxs ▸ hv)
  rcases hf.comparable (reached_root ha) (reached_root hb) hpa hpb with hp | hp
  · exact key ha hb hne hp
  · exact key hb ha hne.symm hp

/-- The address of an entry determines the function. -/
theorem entry_inj (hx : x.bus < 256 ∧ x.InRange) (hy : y.bus < 256 ∧ y.InRange)
    (h : x.entry cfg = y.entry cfg) : x = y := by
  obtain ⟨xb, xd, xf⟩ := x
  obtain ⟨yb, yd, yf⟩ := y
  obtain ⟨h1, h2, h3⟩ := hx
  obtain ⟨h4, h5, h6⟩ := hy
  have ha : pciAddr xb xd xf 0 = pciAddr yb yd yf 0 := congrArg PciCache.address h
  unfold pciAddr at ha
  dsimp only at h1 h2 h3 h4 h5 h6
  rw [PciFn.mk.injEq]
  omega

theorem PciState.entry_store (st : PciState) (e : PciCache) (i : ℕ) :
    (st.store e).entry i = if st.len = i then some e else st.entry i := by
  unfold PciState.store PciState.entry
  simp only [List.filter_append, List.filter_cons, List.filter_nil, beq_iff_eq]
  split_ifs
  · rw [List.getLast?_concat]
    rfl
  · rw [List.append_nil]

/-- Up to 256 entries, an index holds what was stored at its turn. -/
theorem stores_entry (l : List PciFn) (hl : l.length ≤ 256) (i : ℕ) (hi : i < l.length) :
    (PciState.stores cfg ⟨0, []⟩ l).entry i = some ((l.get ⟨i, hi⟩).entry cfg) := by
  induction l using List.reverseRecOn with
  | nil => exact absurd hi (Nat.not_lt_zero i)
  | append_singleton l x ih =>
      have hlen := (@stores_eq cfg l).1
      rw [List.length_append, List.length_singleton] at hl hi
      rw [Nat.mod_eq_of_lt (by omega)] at hlen
      have hs : PciState.stores cfg ⟨0, []⟩ (l ++ [x]) =
          (PciState.stores cfg ⟨0, []⟩ l).store (x.entry cfg) := PciState.stores_append _ _ _
      rw [hs, PciState.entry_store, hlen]
      by_cases he : l.length = i
      · subst he
        rw [if_pos rfl]
        simp
      · rw [if_neg he, ih (by omega) (by omega)]
        simp [List.getElem_append_left (show i < l.length by omega)]

/-- Below 256 entries, the cache holds the functions stored, in order. -/
theorem stores_cache (l : List PciFn) (hl : l.length < 256) :
    (PciState.stores cfg ⟨0, []⟩ l).cache = l.map fun x => some (x.entry cfg) := by
  unfold PciState.cache
  rw [(@stores_eq cfg l).1, Nat.mod_eq_of_lt hl]
  apply List.ext_getElem
  · simp
  · intro i hi1 hi2
    simp only [List.getElem_map, List.getElem_range]
    exact stores_entry l hl.le i (by simpa using hi1)

/-- On a forest, what a scan of all functions would find is what the enumeration finds. -/
theorem reached_leads (hf : Forest cfg)
    (hs : ∀ x : PciFn, Reached cfg x.bus → x.InRange → x.Present cfg → x.Scanned cfg)
    (h : Reached cfg c) : ∃ r ∈ pciRoots cfg, ReflTransGen (Leads cfg) r c := by
  obtain ⟨r, hr, hp⟩ := h
  induction hp with
  | refl => exact ⟨r, hr, .refl⟩
  | @tail b c hp hl ih =>
      have hb : Reached cfg b := ⟨r, hr, hp⟩
      obtain ⟨r', hr', hp'⟩ := ih
      refine ⟨r', hr', hp'.tail ?_⟩
      have hne : b ≠ c := fun e => hf.no_cycle hb (.single (e ▸ hl))
      obtain ⟨x, rfl, ⟨hxr, hxp, hxb⟩, rfl⟩ := hl
      refine ⟨x, mem_foundOn.mpr ⟨rfl, hxr, hxp, hs x hb hxr hxp⟩, ?_⟩
      unfold PciFn.next
      rw [if_pos ⟨hxb, hne.symm⟩]

/-- **On a forest of buses with at most 170 functions the cache is exact iff every function that
responds on a reached bus is one that the scan of its device looks at.** -/
theorem pciInit_cache_iff (hf : Forest cfg) (hn : AtMost cfg 170) :
    ∃ st ok, Returns (fun n => pciInit n cfg) (st, ok) ∧ (CacheExact cfg st ↔
      ∀ x : PciFn, Reached cfg x.bus → x.InRange → x.Present cfg → x.Scanned cfg) := by
  have hacc : ∀ b ∈ pciRoots cfg, Acc (fun s b => Leads cfg b s) b := by
    refine fun b hb => acc_iff_no_cycle.mpr fun c hc ht => ?_
    obtain ⟨d, hd, hp⟩ := TransGen.head'_iff.mp ht
    exact hf.no_cycle ((reached_root hb).links (leads_links hc))
      (TransGen.head' hd.link (leads_links hp))
  obtain ⟨tr, htr, hret⟩ := pciInit_traces hacc
  -- the functions stored
  have hnodup := roots_nodup hf htr
  have hmem : ∀ x, x ∈ (pciRoots cfg).flatMap tr ↔
      (∃ r ∈ pciRoots cfg, ReflTransGen (Leads cfg) r x.bus) ∧ x ∈ foundOn cfg x.bus := by
    intro x
    rw [List.mem_flatMap]
    constructor
    · rintro ⟨r, hr, hx⟩
      obtain ⟨h1, h2⟩ := ((htr r hr).mem x).mp hx
      exact ⟨⟨r, hr, h1⟩, h2⟩
    · rintro ⟨⟨r, hr, h1⟩, h2⟩
      exact ⟨r, hr, ((htr r hr).mem x).mpr ⟨h1, h2⟩⟩
  have hreached : ∀ {x}, x ∈ (pciRoots cfg).flatMap tr →
      Reached cfg x.bus ∧ x.InRange ∧ x.Present cfg ∧ x.Scanned cfg := by
    intro x hx
    obtain ⟨⟨r, hr, hp⟩, hfound⟩ := (hmem x).mp hx
    obtain ⟨-, h1, h2, h3⟩ := mem_foundOn.mp hfound
    exact ⟨⟨r, hr, leads_links hp⟩, h1, h2, h3⟩
  have hlen : ((pciRoots cfg).flatMap tr).length ≤ 170 := by
    obtain ⟨l, hl, hall⟩ := hn
    refine le_trans (List.Subperm.length_le (hnodup.subperm fun x hx => ?_)) hl
    obtain ⟨h1, h2, h3, -⟩ := hreached hx
    exact hall x h1.lt h2 h3
  have hcache := @stores_cache cfg ((pciRoots cfg).flatMap tr) (by omega)
  refine ⟨_, _, hret, ?_, fun hs => ⟨_, hnodup, fun x => ⟨fun hx => ?_, ?_⟩, hcache⟩⟩
  · rintro ⟨fs, -, hfs, he⟩ x h1 h2 h3
    rw [hcache] at he
    have hx : some (x.entry cfg) ∈ fs.map fun x => some (x.entry cfg) :=
      List.mem_map_of_mem ((hfs x).mpr ⟨h1, h2, h3⟩)
    rw [← he] at hx
    obtain ⟨y, hy, hxy⟩ := List.mem_map.mp hx
    obtain ⟨h4, h5, -, h6⟩ := hreached hy
    rwa [← entry_inj ⟨h4.lt, h5⟩ ⟨h1.lt, h2⟩ (Option.some.inj hxy)]
  · obtain ⟨h1, h2, h3, -⟩ := hreached hx
    exact ⟨h1, h2, h3⟩
  · rintro ⟨h1, h2, h3⟩
    exact (hmem x).mpr ⟨reached_leads hf hs h1, mem_foundOn.mpr ⟨rfl, h2, h3, hs x h1 h2 h3⟩⟩

/-- A space without bridges is a forest. -/
theorem forest_of_no_bridge (h : ∀ x : PciFn, ¬ x.Bridge cfg) : Forest cfg :=
  ⟨fun x _ hx => absurd hx.2.2 (h x), fun x _ _ _ hx => absurd hx.2.2 (h x)⟩

/-- The functions that respond in a space of given functions are among them. -/
theorem pciSpace_mem {fns : List (PciFn × (ℕ → ℕ))}
    (hfns : ∀ e ∈ fns, e.1.bus < 256 ∧ e.1.device < 32 ∧ e.1.function < 8) (hb : x.bus < 256)
    (hr : x.InRange) (hp : x.Present (pciSpace fns)) : x ∈ fns.map Prod.fst := by
  by_contra hc
  have hnone : ∀ reg, pciSpace fns (pciAddr x.bus x.device x.function reg) = 0xFFFFFFFF := by
    intro reg
    unfold pciSpace
    rw [List.find?_eq_none.mpr]
    intro e he hd
    have hne : x ≠ e.1 := fun h => hc (h ▸ List.mem_map_of_mem he)
    obtain ⟨h1, h2, h3⟩ := hfns e he
    obtain ⟨h4, h5⟩ := hr
    have hd := of_decide_eq_true hd
    unfold pciAddr at hd
    obtain ⟨⟨eb, ed, ef⟩, g⟩ := e
    obtain ⟨xb, xd, xf⟩ := x
    rw [Ne, PciFn.mk.injEq] at hne
    dsimp only at h1 h2 h3 h4 h5 hb hd hne
    omega
  refine hp ?_
  unfold pciGetHeader pciRead
  dsimp only
  rw [hnone]
  norm_num

/-- The conditions of a forest, for a space of given functions. -/
theorem pciSpace_forest {fns : List (PciFn × (ℕ → ℕ))}
    (hfns : ∀ e ∈ fns, e.1.bus < 256 ∧ e.1.device < 32 ∧ e.1.function < 8)
    (hroot : ∀ x ∈ fns.map Prod.fst, x.Bridge (pciSpace fns) →
      x.secondary (pciSpace fns) ∉ pciRoots (pciSpace fns))
    (hparent : ∀ x ∈ fns.map Prod.fst, ∀ y ∈ fns.map Prod.fst, x.Bridge (pciSpace fns) →
      y.Bridge (pciSpace fns) → x.secondary (pciSpace fns) = y.secondary (pciSpace fns) → x = y) :
    Forest (pciSpace fns) where
  root x hx hb := hroot x (pciSpace_mem hfns hx.lt hb.1 hb.2.1) hb.2.2
  parent x y hx hy hxb hyb := hparent x (pciSpace_mem hfns hx.lt hxb.1 hxb.2.1)
    y (pciSpace_mem hfns hy.lt hyb.1 hyb.2.1) hxb.2.2 hyb.2.2

/-- With single-function devices behind a bridge the cache is exact, with a multi-function device
among them it is not. -/
theorem pciInit_cache_bridge :
    (∃ st ok, Returns (fun n => pciInit n (pciSpace singleFns)) (st, ok) ∧
      CacheExact (pciSpace singleFns) st) ∧
    ∃ st ok, Returns (fun n => pciInit n (pciSpace multiFns)) (st, ok) ∧
      ¬ CacheExact (pciSpace multiFns) st := by
  have hs : ∀ e ∈ singleFns, e.1.bus < 256 ∧ e.1.device < 32 ∧ e.1.function < 8 := by decide
  have hm : ∀ e ∈ multiFns, e.1.bus < 256 ∧ e.1.device < 32 ∧ e.1.function < 8 := by decide
  constructor
  · obtain ⟨st, ok, hret, he⟩ := pciInit_cache_iff
      (pciSpace_forest hs (by decide +kernel) (by decide +kernel))
      ⟨singleFns.map Prod.fst, by decide, fun _ => pciSpace_mem hs⟩
    have hscanned : ∀ x ∈ singleFns.map Prod.fst, x.Scanned (pciSpace singleFns) := by
      unfold PciFn.Scanned
      decide +kernel
    exact ⟨st, ok, hret, he.mpr fun x hx hr hp => hscanned x (pciSpace_mem hs hx.lt hr hp)⟩
  · obtain ⟨st, ok, hret, he⟩ := pciInit_cache_iff
      (pciSpace_forest hm (by decide +kernel) (by decide +kernel))
      ⟨multiFns.map Prod.fst, by decide, fun _ => pciSpace_mem hm⟩
    refine ⟨st, ok, hret, fun hc => ?_⟩
    -- function 0 of the device on bus 1 responds and is not looked at
    have hone : Reached (pciSpace multiFns) 1 := (reached_root (by decide +kernel)).link
      ⟨⟨0, 1, 0⟩, rfl, ⟨⟨by decide, by decide⟩, by decide +kernel, by decide +kernel⟩,
        by decide +kernel⟩
    have hsc := he.mp hc ⟨1, 0, 0⟩ hone ⟨by decide, by decide⟩ (by decide +kernel)
    unfold PciFn.Scanned at hsc
    exact absurd hsc (by decide +kernel)

theorem multiSpace_forest (limit : ℕ) : Forest (multiSpace limit) := by
  refine forest_of_no_bridge fun x hx => ?_
  have hc := hx.1
  unfold pciGetHeader pciRead multiSpace at hc
  dsimp only at hc
  split_ifs at hc with h1 h2
  · unfold pciAddr at h2
    omega
  · exact absurd hc (by decide)

/-- Function 0 of a device with two functions is not in the cache. -/
theorem pciInit_skips : ∃ cfg st ok, Forest cfg ∧ AtMost cfg 170 ∧
    Returns (fun n => pciInit n cfg) (st, ok) ∧ ¬ CacheExact cfg st := by
  have hfound : foundOn (multiSpace 0x80000200) 0 = [⟨0, 0, 1⟩] := by decide +kernel
  have hret := @pciInit_flat (multiSpace 0x80000200) (by decide +kernel) (by decide +kernel)
  rw [hfound] at hret
  refine ⟨multiSpace 0x80000200, _, _, multiSpace_forest _, ?_, hret, ?_⟩
  · refine ⟨[⟨0, 0, 0⟩, ⟨0, 0, 1⟩], by decide, fun x hb hr hp => ?_⟩
    obtain ⟨b, d, f⟩ := x
    obtain ⟨h1, h2⟩ := hr
    unfold PciFn.Present pciGetHeader pciRead multiSpace at hp
    dsimp only at hb h1 h2 hp
    split_ifs at hp with hlt h3 h4
    · unfold pciAddr at hlt
      simp only [List.mem_cons, List.not_mem_nil, or_false, PciFn.mk.injEq]
      omega
    · unfold pciAddr at h3
      omega
    · unfold pciAddr at h3
      omega
    · exact absurd rfl hp
  · rintro ⟨fs, -, hfs, he⟩
    rw [stores_cache _ (by decide)] at he
    have hx : some ((⟨0, 0, 0⟩ : PciFn).entry (multiSpace 0x80000200)) ∈
        fs.map fun x => some (x.entry (multiSpace 0x80000200)) :=
      List.mem_map_of_mem ((hfs _).mpr ⟨reached_root (by decide +kernel), ⟨by decide, by decide⟩,
        by decide +kernel⟩)
    rw [← he] at hx
    have he' := Option.some.inj (List.mem_singleton.mp hx)
    exact absurd (congrArg PciCache.address he') (by decide +kernel)

end contents

end Dawos
