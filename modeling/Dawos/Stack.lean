import Dawos.Store

/-! # A stack of 64-bit words

A push writes below the stack pointer and moves it down.  `pushWords m t l` pushes the words `l` one
after the other, so that they stand in memory in the reverse order, and `readWords m n a` is the list
of the `n` words from `a` on.  The stack has room for what is pushed: the pointer does not wrap.

* `readWords_pushWords`: what has been pushed reads back;
* `pushWords_agreeOff`: a push leaves everything outside the room it takes;
* `pushWords_append`: pushes in two parts. -/

namespace Dawos

variable {m m' : Mem} {t a n v : ℕ} {l l' : List ℕ}

/-- The `n` words from `a` on. -/
def readWords (m : Mem) (n a : ℕ) : List ℕ := (List.range n).map fun i => rd m (a + 8 * i)

/-- Memory after the words `l` have been pushed. -/
def pushWords : Mem → ℕ → List ℕ → Mem
  | m, _, [] => m
  | m, t, v :: l => pushWords (wr m (t - 8) v) (t - 8) l

@[simp] theorem pushWords_nil : pushWords m t [] = m := rfl

@[simp] theorem pushWords_cons :
    pushWords m t (v :: l) = pushWords (wr m (t - 8) v) (t - 8) l := rfl

@[simp] theorem readWords_length : (readWords m n a).length = n := by simp [readWords]

theorem readWords_succ : readWords m (n + 1) a = readWords m n a ++ [rd m (a + 8 * n)] := by
  rw [readWords, List.range_succ, List.map_append]
  rfl

theorem pushWords_append : pushWords m t (l ++ l') =
    pushWords (pushWords m t l) (t - 8 * l.length) l' := by
  induction l generalizing m t with
  | nil => rw [List.nil_append, pushWords_nil, List.length_nil, Nat.mul_zero, Nat.sub_zero]
  | cons v l ih =>
      rw [List.cons_append, pushWords_cons, pushWords_cons, ih, List.length_cons, Nat.sub_sub,
        Nat.mul_add_one, Nat.add_comm 8]

/-- A push leaves everything outside the room it takes. -/
theorem pushWords_agreeOff (h : 8 * l.length ≤ t) :
    AgreeOff m (pushWords m t l) fun x => t - 8 * l.length ≤ x ∧ x < t := by
  induction l generalizing m t with
  | nil =>
      rw [pushWords_nil]
      exact AgreeOff.refl _ _
  | cons v l ih =>
      rw [List.length_cons] at h ⊢
      have hfirst : AgreeOff m (wr m (t - 8) v) fun x => t - 8 * (l.length + 1) ≤ x ∧ x < t :=
        (AgreeOff.refl _ _).wr v fun x hx1 hx2 => ⟨by omega, by omega⟩
      have hrest := ih (m := wr m (t - 8) v) (t := t - 8) (by omega)
      exact hfirst.trans (hrest.mono fun x hx => ⟨by omega, by omega⟩)

/-- What has been pushed reads back, the last word first. -/
theorem readWords_pushWords (h : 8 * l.length ≤ t) (hl : ∀ v ∈ l, v < 2 ^ 64) :
    readWords (pushWords m t l) l.length (t - 8 * l.length) = l.reverse := by
  induction l generalizing m t with
  | nil => rfl
  | cons v l ih =>
      rw [List.length_cons] at h ⊢
      have hrest := ih (m := wr m (t - 8) v) (t := t - 8) (by omega)
        fun w hw => hl w (List.mem_cons_of_mem v hw)
      have hoff := pushWords_agreeOff (m := wr m (t - 8) v) (t := t - 8) (l := l) (by omega)
      have hlast : rd (pushWords (wr m (t - 8) v) (t - 8) l) (t - 8) = v := by
        rw [hoff.rd fun x hx1 hx2 hc => by omega, rd_wr_same]
        exact Nat.mod_eq_of_lt (hl v List.mem_cons_self)
      have e₁ : t - 8 * (l.length + 1) = t - 8 - 8 * l.length := by omega
      have e₂ : t - 8 - 8 * l.length + 8 * l.length = t - 8 := by omega
      rw [pushWords_cons, readWords_succ, e₁, hrest, e₂, hlast, List.reverse_cons]

end Dawos
