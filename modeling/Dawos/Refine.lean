import Mathlib

/-! # Refinement of machines that answer

A machine takes operations one after the other, and answers each with a list of outputs; it stops
when a step has no result.  `Refines` relates the states of two machines so that one step of the first
is answered by one of the second with the same outputs.  The number in the relation counts what the
first machine has used up of something that it may run out of: a step uses at most `cost`.

`Refines.run` is the rule for runs.

A system of labelled steps may have several steps for one label, or none.  `Steps` is a run with its
labels, and `Simulates.run` is the rule for a relation under which every step of one system is a step
of the other with the same label. -/

namespace Dawos

/-- The states and outputs of a run. -/
def runOps {σ ω ο : Type} (step : σ → ω → Option (σ × List ο)) : σ → List ω → Option (σ × List ο)
  | s, [] => some (s, [])
  | s, o :: os => do
      let (s, out) ← step s o
      let (s, rest) ← runOps step s os
      return (s, out ++ rest)

section refine

variable {σ τ ω ο : Type} {stepA : σ → ω → Option (σ × List ο)} {stepB : τ → ω → Option (τ × List ο)}
  {R : ℕ → σ → τ → Prop} {ok : ω → Prop} {cost n k : ℕ} {s : σ} {t : τ} {os : List ω}

/-- Each step for an operation that is `ok` succeeds in both machines with the same outputs, keeps the
relation, and uses at most `cost` of the `n` that there are. -/
structure Refines (stepA : σ → ω → Option (σ × List ο)) (stepB : τ → ω → Option (τ × List ο))
    (R : ℕ → σ → τ → Prop) (ok : ω → Prop) (cost n : ℕ) : Prop where
  step : ∀ {k s t o}, R k s t → ok o → k + cost ≤ n → ∃ s' t' out, ∃ k' ≤ k + cost,
    stepA s o = some (s', out) ∧ stepB t o = some (t', out) ∧ R k' s' t'

theorem runOps_cons {o : ω} {s' s'' : σ} {out rest : List ο} (h : stepA s o = some (s', out))
    (h' : runOps stepA s' os = some (s'', rest)) :
    runOps stepA s (o :: os) = some (s'', out ++ rest) := by
  simp only [runOps, h, h', Option.bind_eq_bind, Option.bind_some, Option.pure_def]

/-- **Runs** of related states have the same outputs and end in related states. -/
theorem Refines.run (h : Refines stepA stepB R ok cost n) (hR : R k s t) (hok : ∀ o ∈ os, ok o)
    (hn : k + cost * os.length ≤ n) : ∃ s' t' out, ∃ k' ≤ k + cost * os.length,
      runOps stepA s os = some (s', out) ∧ runOps stepB t os = some (t', out) ∧ R k' s' t' := by
  induction os generalizing s t k with
  | nil => exact ⟨s, t, [], k, Nat.le_add_right k _, rfl, rfl, hR⟩
  | cons o os ih =>
      rw [List.length_cons, Nat.mul_add_one] at hn ⊢
      obtain ⟨s₁, t₁, out, k₁, hk₁, hA, hB, hR₁⟩ := h.step hR (hok o List.mem_cons_self) (by omega)
      obtain ⟨s₂, t₂, rest, k₂, hk₂, hA', hB', hR₂⟩ :=
        ih hR₁ (fun o ho => hok o (List.mem_cons_of_mem _ ho)) (by omega)
      exact ⟨s₂, t₂, out ++ rest, k₂, by omega, runOps_cons hA hA', runOps_cons hB hB', hR₂⟩

end refine

/-! ### Labelled steps -/

/-- A run, with the labels of its steps. -/
inductive Steps {σ ε : Type} (step : σ → ε → σ → Prop) : σ → List ε → σ → Prop
  | nil (s : σ) : Steps step s [] s
  | cons {s s' s'' : σ} {e : ε} {es : List ε} (hs : step s e s') (h : Steps step s' es s'') :
      Steps step s (e :: es) s''

section labels

variable {σ τ ε : Type} {step : σ → ε → σ → Prop} {step' : τ → ε → τ → Prop} {R : σ → τ → Prop}
  {s s' s'' : σ} {t : τ} {es es' : List ε} {P : σ → Prop} {own : ε → Bool} {left : σ → ℕ}

/-- The run of a step function. -/
theorem Steps.of_foldlM {f : σ → ε → Option σ} (h : es.foldlM f s = some s') :
    Steps (fun s e s' => f s e = some s') s es s' := by
  induction es generalizing s with
  | nil =>
      obtain rfl := Option.some.inj h
      exact .nil s
  | cons e es ih =>
      obtain ⟨s₁, he, h⟩ := Option.bind_eq_some_iff.mp h
      exact .cons he (ih h)

theorem Steps.append (h : Steps step s es s') (h' : Steps step s' es' s'') :
    Steps step s (es ++ es') s'' := by
  induction h with
  | nil => exact h'
  | cons hs _ ih => exact .cons hs (ih h')

theorem Steps.split (h : Steps step s (es ++ es') s'') :
    ∃ s', Steps step s es s' ∧ Steps step s' es' s'' := by
  induction es generalizing s with
  | nil => exact ⟨s, .nil s, h⟩
  | cons e es ih =>
      cases h with
      | cons hs h =>
          obtain ⟨s₁, h₁, h₂⟩ := ih h
          exact ⟨s₁, .cons hs h₁, h₂⟩

/-- What every step with one of the labels keeps holds after the run. -/
theorem Steps.keeps (h : Steps step s es s') (hs : P s)
    (hstep : ∀ e ∈ es, ∀ {u u'}, P u → step u e u' → P u') : P s' := by
  induction h with
  | nil => exact hs
  | cons he _ ih =>
      exact ih (hstep _ List.mem_cons_self hs he) fun e hm => hstep e (List.mem_cons_of_mem _ hm)

/-- Where no step makes `left` larger and each of a process's own steps makes it smaller, the process
takes at most that many.  A step may use that the run goes on to `s'`. -/
theorem Steps.own_le (h : Steps step s es s') (hs : P s)
    (hstep : ∀ {e es u u'}, P u → step u e u' → Steps step u' es s' →
      P u' ∧ left u' + (if own e then 1 else 0) ≤ left u) :
    P s' ∧ es.countP own + left s' ≤ left s := by
  induction h with
  | nil => exact ⟨hs, by rw [List.countP_nil, Nat.zero_add]⟩
  | cons he h ih =>
      obtain ⟨hs₁, hle₁⟩ := hstep hs he h
      obtain ⟨hs₂, hle₂⟩ := ih hs₁ hstep
      refine ⟨hs₂, ?_⟩
      rw [List.countP_cons]
      omega

/-- Every step is matched by a step of the other system with the same label. -/
structure Simulates (step : σ → ε → σ → Prop) (step' : τ → ε → τ → Prop) (R : σ → τ → Prop) :
    Prop where
  step : ∀ {s t e s'}, R s t → step s e s' → ∃ t', step' t e t' ∧ R s' t'

/-- **Runs** are matched by runs with the same labels. -/
theorem Simulates.run (h : Simulates step step' R) (hR : R s t) (hs : Steps step s es s') :
    ∃ t', Steps step' t es t' ∧ R s' t' := by
  induction hs generalizing t with
  | nil => exact ⟨t, .nil t, hR⟩
  | cons he _ ih =>
      obtain ⟨t₁, ht₁, hR₁⟩ := h.step hR he
      obtain ⟨t₂, ht₂, hR₂⟩ := ih hR₁
      exact ⟨t₂, .cons ht₁ ht₂, hR₂⟩

end labels

end Dawos
