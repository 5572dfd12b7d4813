import Dawos.Pci

/-! # The enumeration as a traversal

The functions that a bus scan finds are a list, `foundOn`, and the enumeration of a bus visits
them in order, each with what lies behind it.  `Trace cfg b l` says that the enumeration of bus
`b` visits the functions `l`.

`Trace.returns` runs the code along a trace, and `pciEnumBus_returns_iff` says when there is one:
the bridges behind the bus lead to no bus again. -/

namespace Dawos

/-- A function of the configuration space. -/
structure PciFn where
  bus : ℕ
  device : ℕ
  function : ℕ
deriving DecidableEq

namespace PciFn

/-- The function responds. -/
def Present (cfg : PciSpace) (x : PciFn) : Prop :=
  (pciGetHeader cfg x.bus x.device x.function).vendorId ≠ 0xFFFF

instance (cfg : PciSpace) (x : PciFn) : Decidable (x.Present cfg) :=
  inferInstanceAs (Decidable (_ ≠ _))

/-- The function is a PCI-to-PCI bridge. -/
def Bridge (cfg : PciSpace) (x : PciFn) : Prop :=
  (pciGetHeader cfg x.bus x.device x.function).classId = 0x06 ∧
    (pciGetHeader cfg x.bus x.device x.function).subclassId = 0x04

instance (cfg : PciSpace) (x : PciFn) : Decidable (x.Bridge cfg) :=
  inferInstanceAs (Decidable (_ ∧ _))

/-- The secondary bus of a bridge. -/
def secondary (cfg : PciSpace) (x : PciFn) : ℕ := pciGetSecondaryBus cfg x.bus x.device x.function

/-- The bus whose scan the function starts. -/
def next (cfg : PciSpace) (x : PciFn) : Option ℕ :=
  if x.Bridge cfg ∧ x.secondary cfg ≠ x.bus then some (x.secondary cfg) else none

/-- The entry of the function. -/
def entry (cfg : PciSpace) (x : PciFn) : PciCache := pciEntry cfg x.bus x.device x.function

end PciFn

/-- The functions of a device that its scan looks at. -/
def looked (cfg : PciSpace) (bus device : ℕ) : List PciFn :=
  if (pciGetHeader cfg bus device 0).vendorId ≠ 0xFFFF then
    if (pciGetHeader cfg bus device 0).multi then
      [1, 2, 3, 4, 5, 6, 7].map fun function => ⟨bus, device, function⟩
    else [⟨bus, device, 0⟩]
  else []

/-- The functions that the scan of a bus finds, in order. -/
def foundOn (cfg : PciSpace) (bus : ℕ) : List PciFn :=
  (List.range 32).flatMap fun device => (looked cfg bus device).filter (PciFn.Present cfg)

/-- The root buses. -/
def pciRoots (cfg : PciSpace) : List ℕ :=
  if (pciGetHeader cfg 0 0 0).multi then
    (List.range 8).filter fun bus => (pciGetHeader cfg bus 0 0).vendorId ≠ 0xFFFF
  else [0]

/-! ### The code as a fold over the functions found -/

section folds

variable {α β σ : Type}

theorem foldlM_flatMap (f : σ → β → Except Halt σ) (g : α → List β) (l : List α) (s : σ) :
    (l.flatMap g).foldlM f s = l.foldlM (fun s a => (g a).foldlM f s) s := by
  induction l generalizing s with
  | nil => rfl
  | cons a l ih =>
      rw [List.flatMap_cons, List.foldlM_append, List.foldlM_cons]
      exact bind_congr fun s' => ih s'

theorem foldlM_filter (f : σ → α → Except Halt σ) (p : α → Bool) (l : List α) (s : σ) :
    (l.filter p).foldlM f s = l.foldlM (fun s a => if p a then f s a else .ok s) s := by
  induction l generalizing s with
  | nil => rfl
  | cons a l ih =>
      rw [List.foldlM_cons, List.filter_cons]
      split_ifs with h
      · rw [List.foldlM_cons]
        exact bind_congr fun s' => ih s'
      · rw [ok_bind, ih]

theorem foldlM_map (f : σ → β → Except Halt σ) (g : α → β) (l : List α) (s : σ) :
    (l.map g).foldlM f s = l.foldlM (fun s a => f s (g a)) s := by
  induction l generalizing s with
  | nil => rfl
  | cons a l ih =>
      rw [List.map_cons, List.foldlM_cons, List.foldlM_cons]
      exact bind_congr fun s' => ih s'

end folds

/-- One function that was found: store it, and scan the bus behind it. -/
def visit (cfg : PciSpace) (enumBus : ℕ → PciState → Except Halt PciState) (st : PciState)
    (x : PciFn) : Except Halt PciState :=
  match x.next cfg with
  | some s => enumBus s (st.store (x.entry cfg))
  | none => .ok (st.store (x.entry cfg))

section code

variable {cfg : PciSpace} {bus : ℕ}

theorem pciEnumFunction_eq (enumBus : ℕ → PciState → Except Halt PciState) (x : PciFn)
    (st : PciState) : pciEnumFunction enumBus cfg x.bus x.device x.function st =
      if decide (x.Present cfg) then visit cfg enumBus st x else .ok st := by
  have hl : pciEnumFunction enumBus cfg x.bus x.device x.function st =
      if x.Present cfg then
        if x.Bridge cfg then
          if x.secondary cfg ≠ x.bus then enumBus (x.secondary cfg) (st.store (x.entry cfg))
          else .ok (st.store (x.entry cfg))
        else .ok (st.store (x.entry cfg))
      else .ok st := rfl
  rw [hl]
  unfold visit PciFn.next
  by_cases hp : x.Present cfg
  · simp only [hp, if_true, decide_true]
    by_cases hb : x.Bridge cfg
    · by_cases hs : x.secondary cfg ≠ x.bus
      · simp only [hb, hs, ne_eq, not_false_eq_true, and_self, if_true]
      · simp only [hb, hs, and_false, if_false, if_true]
    · simp only [hb, false_and, if_false]
  · simp only [hp, if_false, decide_false]
    rfl

theorem pciEnumDevice_eq (enumBus : ℕ → PciState → Except Halt PciState) (device : ℕ)
    (st : PciState) : pciEnumDevice enumBus cfg bus device st =
      ((looked cfg bus device).filter (PciFn.Present cfg)).foldlM (visit cfg enumBus) st := by
  rw [foldlM_filter]
  unfold pciEnumDevice looked
  have hf : ∀ (x : PciFn) st, pciEnumFunction enumBus cfg x.bus x.device x.function st =
      if decide (x.Present cfg) then visit cfg enumBus st x else .ok st :=
    fun x st => pciEnumFunction_eq enumBus x st
  by_cases hv : (pciGetHeader cfg bus device 0).vendorId ≠ 0xFFFF
  · simp only [hv, ne_eq, not_false_eq_true, if_true]
    by_cases hm : (pciGetHeader cfg bus device 0).multi = true
    · simp only [hm, if_true]
      rw [foldlM_map]
      exact congrArg (fun f => List.foldlM f st [1, 2, 3, 4, 5, 6, 7])
        (funext fun st => funext fun function => hf ⟨bus, device, function⟩ st)
    · simp only [hm]
      rw [if_neg (by decide), if_neg (by decide), List.foldlM_cons]
      simp only [List.foldlM_nil, bind_pure]
      exact hf ⟨bus, device, 0⟩ st
  · simp only [hv, if_false]
    rfl

/-- **A bus scan visits the functions found on the bus.** -/
theorem pciEnumBus_succ (n : ℕ) (st : PciState) :
    pciEnumBus cfg (n + 1) bus st = (foundOn cfg bus).foldlM (visit cfg (pciEnumBus cfg n)) st := by
  unfold foundOn
  rw [foldlM_flatMap]
  exact congrArg (fun f => List.foldlM f st (List.range 32))
    (funext fun st => funext fun device => pciEnumDevice_eq _ device st)

theorem pciScan_eq (n : ℕ) : pciScan n cfg =
    (pciRoots cfg).foldlM (fun st bus => pciEnumBus cfg n bus st) ⟨0, []⟩ := by
  unfold pciScan pciRoots
  by_cases hm : (pciGetHeader cfg 0 0 0).multi = true
  · simp only [hm, if_true]
    rw [foldlM_filter]
    exact congrArg (fun f => List.foldlM f _ (List.range 8))
      (funext fun st => funext fun bus => by simp)
  · simp only [hm]
    rw [if_neg (by decide), if_neg (by decide), List.foldlM_cons]
    simp only [List.foldlM_nil, bind_pure]

end code

/-! ### Traces -/

/-- The state after the functions of a list have been stored. -/
def PciState.stores (cfg : PciSpace) (st : PciState) (l : List PciFn) : PciState :=
  l.foldl (fun st x => st.store (x.entry cfg)) st

/-- The enumeration of bus `b` visits the functions of the list: each function that is found,
followed by what `sub` lists behind it. -/
inductive Trace (cfg : PciSpace) : ℕ → List PciFn → Prop
  | bus {b : ℕ} (sub : PciFn → List PciFn)
      (hnone : ∀ x ∈ foundOn cfg b, x.next cfg = none → sub x = [])
      (hsome : ∀ x ∈ foundOn cfg b, ∀ s, x.next cfg = some s → Trace cfg s (sub x)) :
      Trace cfg b ((foundOn cfg b).flatMap fun x => x :: sub x)

/-- A bridge that is found on bus `b` leads to bus `s`. -/
def Leads (cfg : PciSpace) (b s : ℕ) : Prop := ∃ x ∈ foundOn cfg b, x.next cfg = some s

section traces

variable {cfg : PciSpace} {b s : ℕ} {l : List PciFn} {st st' : PciState}

theorem PciState.stores_append (st : PciState) (xs ys : List PciFn) :
    st.stores cfg (xs ++ ys) = (st.stores cfg xs).stores cfg ys := List.foldl_append

theorem visits_return {sub : PciFn → List PciFn} : ∀ (l : List PciFn) (st : PciState),
    (∀ x ∈ l, x.next cfg = none → sub x = []) →
    (∀ x ∈ l, ∀ s, x.next cfg = some s → ∀ st,
      Returns (fun n => pciEnumBus cfg n s st) (st.stores cfg (sub x))) →
    Returns (fun n => l.foldlM (visit cfg (pciEnumBus cfg n)) st)
      (st.stores cfg (l.flatMap fun x => x :: sub x))
  | [], st, _, _ => Returns.of_eq fun _ => rfl
  | x :: l, st, hnone, hsome => by
      have hx : Returns (fun n => visit cfg (pciEnumBus cfg n) st x)
          ((st.store (x.entry cfg)).stores cfg (sub x)) := by
        unfold visit
        cases e : x.next cfg with
        | none =>
            rw [hnone x List.mem_cons_self e]
            exact Returns.of_eq fun _ => rfl
        | some s => exact hsome x List.mem_cons_self s e _
      have htail := visits_return l ((st.store (x.entry cfg)).stores cfg (sub x))
        (fun y hy => hnone y (List.mem_cons_of_mem _ hy))
        fun y hy => hsome y (List.mem_cons_of_mem _ hy)
      rw [List.flatMap_cons, PciState.stores_append]
      exact (hx.bind (g := fun st n => l.foldlM (visit cfg (pciEnumBus cfg n)) st) htail).congr
        fun n => List.foldlM_cons

/-- A bound on the depth that works for `n` works for `n + 1` as well. -/
theorem returns_succ {α : Type} {f : ℕ → Except Halt α} {a : α}
    (h : Returns (fun n => f (n + 1)) a) : Returns f a := by
  obtain ⟨k, hk⟩ := Filter.eventually_atTop.mp h
  refine Filter.eventually_atTop.mpr ⟨k + 1, fun n hn => ?_⟩
  obtain ⟨i, rfl⟩ : ∃ i, n = i + 1 := ⟨n - 1, by omega⟩
  exact hk i (by omega)

/-- **The enumeration stores the functions of the trace, in order.** -/
theorem Trace.returns (h : Trace cfg b l) (st : PciState) :
    Returns (fun n => pciEnumBus cfg n b st) (st.stores cfg l) := by
  induction h generalizing st with
  | bus sub hnone _ ih =>
      refine returns_succ ((visits_return _ st hnone ih).congr fun n => pciEnumBus_succ n st)

/-- There is a trace when the bridges below the bus lead on finitely often. -/
theorem exists_trace (h : Acc (fun s b => Leads cfg b s) b) : ∃ l, Trace cfg b l := by
  induction h with
  | intro b _ ih =>
      have hsub : ∀ x : PciFn, ∃ l : List PciFn, x ∈ foundOn cfg b →
          (x.next cfg = none → l = []) ∧ ∀ s, x.next cfg = some s → Trace cfg s l := by
        intro x
        cases e : x.next cfg with
        | none =>
            exact ⟨[], fun _ => ⟨fun _ => rfl, fun s hs => absurd hs.symm (Option.some_ne_none s)⟩⟩
        | some s =>
            by_cases hx : x ∈ foundOn cfg b
            · obtain ⟨l, hl⟩ := ih s ⟨x, hx, e⟩
              refine ⟨l, fun _ => ⟨fun hn => absurd hn (Option.some_ne_none s), fun t ht => ?_⟩⟩
              rw [← Option.some.inj ht]
              exact hl
            · exact ⟨[], fun hc => absurd hc hx⟩
      choose sub hsub using hsub
      exact ⟨_, .bus sub (fun x hx hn => (hsub x hx).1 hn) fun x hx s hs => (hsub x hx).2 s hs⟩

/-- What a fold returned from, each of its steps returned from. -/
theorem foldlM_ok {σ α : Type} {f : σ → α → Except Halt σ} : ∀ {l : List α} {s s' : σ},
    l.foldlM f s = .ok s' → ∀ x ∈ l, ∃ t t', f t x = .ok t'
  | [], _, _, _, x, hx => by cases hx
  | y :: l, s, s', h, x, hx => by
      rw [List.foldlM_cons] at h
      cases e : f s y with
      | error e' =>
          rw [e] at h
          cases h
      | ok t =>
          rw [e, ok_bind] at h
          rcases List.mem_cons.mp hx with rfl | hx
          · exact ⟨s, t, e⟩
          · exact foldlM_ok h x hx

/-- An enumeration that returns comes to an end behind every bridge. -/
theorem acc_of_returns : ∀ (n : ℕ) {b : ℕ} {st st' : PciState},
    pciEnumBus cfg n b st = .ok st' → Acc (fun s b => Leads cfg b s) b
  | 0, _, _, _, h => by cases h
  | n + 1, b, st, st', h => by
      rw [pciEnumBus_succ] at h
      refine ⟨b, fun s hs => ?_⟩
      obtain ⟨x, hx, hn⟩ := hs
      obtain ⟨t, t', ht⟩ := foldlM_ok h x hx
      unfold visit at ht
      rw [hn] at ht
      exact acc_of_returns n ht

end traces

end Dawos
