import Dawos.Store

/-! # Bounded execution

Loops whose exit depends on the contents of memory are run with a bound on the number of
rounds, `loop step n s`.  A computation is then a function of that bound into `Except Halt`:

* `Returns f a`: for every large enough bound the computation ends with the result `a`;
* `Stops f e`: for every large enough bound it ends with the error `e`.

Both are compositional (`Returns.bind`, `Stops.bind`), a computation has at most one
outcome (`Returns.unique`, `Returns.not_stops`), and `loop_returns` is the rule for a loop:
an invariant, a variant that decreases in every further round, and a postcondition on exit. -/

namespace Dawos

/-- Why a computation does not return. -/
inductive Halt where
  /-- It waits for a flag that it holds itself. -/
  | deadlock
  /-- It indexes an array outside its bounds. -/
  | bounds
  /-- A loop did not exit within its bound. -/
  | fuel
deriving DecidableEq, Repr

variable {σ α β : Type}

/-- Run `step` until it exits with `.inr`, at most `n` times. -/
def loop (step : σ → σ ⊕ β) : ℕ → σ → Except Halt β
  | 0, _ => .error .fuel
  | n + 1, s =>
      match step s with
      | .inl s' => loop step n s'
      | .inr b => .ok b

theorem ok_bind (a : α) (f : α → Except Halt β) : (Except.ok a >>= f) = f a := rfl

theorem error_bind (e : Halt) (f : α → Except Halt β) : (Except.error e >>= f) = .error e := rfl

/-- For every large enough bound, `f` ends with the result `a`. -/
def Returns (f : ℕ → Except Halt α) (a : α) : Prop := ∀ᶠ n in Filter.atTop, f n = .ok a

/-- For every large enough bound, `f` ends with the error `e`. -/
def Stops (f : ℕ → Except Halt α) (e : Halt) : Prop := ∀ᶠ n in Filter.atTop, f n = .error e

theorem Returns.of_eq {f : ℕ → Except Halt α} {a : α} (h : ∀ n, f n = .ok a) : Returns f a :=
  Filter.Eventually.of_forall h

theorem Returns.unique {f : ℕ → Except Halt α} {a b : α} (ha : Returns f a) (hb : Returns f b) :
    a = b := by
  obtain ⟨n, h1, h2⟩ := (ha.and hb).exists
  exact Except.ok.inj (h1.symm.trans h2)

theorem Returns.not_stops {f : ℕ → Except Halt α} {a : α} {e : Halt} (ha : Returns f a) :
    ¬ Stops f e := fun he => by
  obtain ⟨n, h1, h2⟩ := (ha.and he).exists
  rw [h1] at h2
  cases h2

theorem Returns.bind {f : ℕ → Except Halt α} {g : α → ℕ → Except Halt β} {a : α} {b : β}
    (hf : Returns f a) (hg : Returns (g a) b) : Returns (fun n => f n >>= fun x => g x n) b := by
  filter_upwards [hf, hg] with n h1 h2
  rw [h1]
  exact h2

theorem Stops.bind {f : ℕ → Except Halt α} {g : α → ℕ → Except Halt β} {e : Halt}
    (hf : Stops f e) : Stops (fun n => f n >>= fun x => g x n) e := by
  filter_upwards [hf] with n h1
  rw [h1]
  rfl

theorem Returns.congr {f g : ℕ → Except Halt α} {a : α} (hf : Returns f a) (h : ∀ n, g n = f n) :
    Returns g a := by
  filter_upwards [hf] with n h1
  rw [h, h1]

/-- A further round. -/
theorem Returns.loop_inl {step : σ → σ ⊕ β} {s s' : σ} {b : β}
    (h : Returns (fun n => loop step n s') b) (e : step s = .inl s') :
    Returns (fun n => loop step n s) b := by
  obtain ⟨k, hk⟩ := Filter.eventually_atTop.mp h
  filter_upwards [Filter.eventually_gt_atTop k] with n hn
  obtain ⟨n, rfl⟩ : ∃ i, n = i + 1 := ⟨n - 1, by omega⟩
  simp only [loop, e]
  exact hk n (by omega)

/-- The last round. -/
theorem Returns.loop_inr {step : σ → σ ⊕ β} {s : σ} {b : β} (e : step s = .inr b) :
    Returns (fun n => loop step n s) b := by
  filter_upwards [Filter.eventually_gt_atTop 0] with n hn
  obtain ⟨n, rfl⟩ : ∃ i, n = i + 1 := ⟨n - 1, by omega⟩
  simp [loop, e]

/-- The rule for loops: `I k` is the invariant with variant `k`; every round that does not exit
keeps it with a smaller variant, and the exit establishes `Q`. -/
theorem loop_returns {step : σ → σ ⊕ β} (I : ℕ → σ → Prop) (Q : β → Prop)
    (hstep : ∀ k s, I k s → (∀ s', step s = .inl s' → ∃ j, j < k ∧ I j s') ∧
      (∀ b, step s = .inr b → Q b)) {k : ℕ} {s : σ} (hs : I k s) :
    ∃ b, Returns (fun n => loop step n s) b ∧ Q b := by
  suffices h : ∀ k s, I k s → ∃ b, (∀ n, k < n → loop step n s = .ok b) ∧ Q b by
    obtain ⟨b, hb, hQ⟩ := h k s hs
    exact ⟨b, (Filter.eventually_gt_atTop k).mono hb, hQ⟩
  intro k
  induction k using Nat.strong_induction_on with
  | _ k ih =>
      intro s hs
      obtain ⟨hl, hr⟩ := hstep k s hs
      cases e : step s with
      | inl s' =>
          obtain ⟨j, hj, hs'⟩ := hl s' e
          obtain ⟨b, hb, hQ⟩ := ih j hj s' hs'
          refine ⟨b, fun n hn => ?_, hQ⟩
          obtain ⟨n, rfl⟩ : ∃ i, n = i + 1 := ⟨n - 1, by omega⟩
          simp only [loop, e]
          exact hb n (by omega)
      | inr b =>
          refine ⟨b, fun n hn => ?_, hr b e⟩
          obtain ⟨n, rfl⟩ : ∃ i, n = i + 1 := ⟨n - 1, by omega⟩
          simp [loop, e]

/-! ### Results of a fixed bound -/

/-- Whatever one bound yields, running out of rounds apart, every larger bound yields. -/
def Steady (f : ℕ → Except Halt α) : Prop :=
  ∀ n, f n ≠ .error .fuel → ∀ k, n ≤ k → f k = f n

theorem Steady.const (r : Except Halt α) : Steady fun _ => r := fun _ _ _ _ => rfl

theorem Steady.bind {f : ℕ → Except Halt α} {g : α → ℕ → Except Halt β} (hf : Steady f)
    (hg : ∀ a, Steady (g a)) : Steady fun n => f n >>= fun x => g x n := by
  intro n hn k hk
  cases e : f n with
  | error h =>
      simp only [e, error_bind] at hn ⊢
      rw [hf n (by rw [e]; exact fun hc => hn (by cases hc; rfl)) k hk, e, error_bind]
  | ok a =>
      simp only [e, ok_bind] at hn ⊢
      rw [hf n (by rw [e]; exact fun hc => by cases hc) k hk, e, ok_bind]
      exact hg a n hn k hk

theorem Steady.ite {f g : ℕ → Except Halt α} {p : Prop} [Decidable p] (hf : Steady f)
    (hg : Steady g) : Steady fun n => if p then f n else g n := by
  split_ifs
  · exact hf
  · exact hg

theorem Steady.returns {f : ℕ → Except Halt α} {a : α} (h : Steady f) {n : ℕ} (hn : f n = .ok a) :
    Returns f a :=
  (Filter.eventually_ge_atTop n).mono fun k hk =>
    (h n (by rw [hn]; exact fun hc => by cases hc) k hk).trans hn

theorem Steady.stops {f : ℕ → Except Halt α} {e : Halt} (h : Steady f) {n : ℕ}
    (hn : f n = .error e) (he : e ≠ .fuel) : Stops f e :=
  (Filter.eventually_ge_atTop n).mono fun k hk =>
    (h n (by rw [hn]; exact fun hc => he (by cases hc; rfl)) k hk).trans hn

/-- The result of a computation that ends with one. -/
def resultOf {α : Type} [Inhabited α] : Except Halt α → α
  | .ok a => a
  | .error _ => default

theorem resultOf_eq {α : Type} [Inhabited α] {r : Except Halt α} (h : r.isOk = true) :
    r = .ok (resultOf r) := by
  cases r with
  | ok a => rfl
  | error e => cases h

/-- The error of a computation that ends with one. -/
def errorOf {α : Type} : Except Halt α → Option Halt
  | .ok _ => none
  | .error e => some e

theorem errorOf_eq {α : Type} {r : Except Halt α} {e : Halt} (h : errorOf r = some e) :
    r = .error e := by
  cases r with
  | ok a => cases h
  | error e' => rw [Option.some.inj h]

theorem loop_steady (step : σ → σ ⊕ β) (s : σ) : Steady fun n => loop step n s := by
  intro n
  induction n generalizing s with
  | zero => exact fun hn => absurd rfl hn
  | succ n ih =>
      intro hn k hk
      obtain ⟨k, rfl⟩ : ∃ i, k = i + 1 := ⟨k - 1, by omega⟩
      cases e : step s with
      | inl s' =>
          simp only [loop, e] at hn ⊢
          exact ih s' hn k (by omega)
      | inr b => simp only [loop, e]

end Dawos
