import Mathlib

/-! # A byte-addressed store

Memory is a total function from addresses to bytes.  A word of `n` bytes is stored with the low
byte first; `rdN m n a` is the word at address `a` and `wrN m n a v` stores the low `8 * n` bits
of `v` there.  Addresses need not be aligned, so two accesses are independent only when their
byte ranges are disjoint:

* `rdN_wrN_same`, `rdN_wrN_apart`: reading back a stored word, reading a word a store misses;
* `put m a l`: the memory with the bytes `l` stored from `a` on;
* `AgreeOff m m' P`: the two memories hold the same bytes outside `P` (the frame of an
  operation whose writes all fall into `P`), with its composition rules;
* `AgreeOff.rd`: a word whose bytes all lie outside the frame reads the same.

`rd` and `wr` are the 64-bit case.  `u64` and `sub64` are the modular arithmetic of the 64-bit
registers, and `and_highMask` reads a mask of high bits as rounding down. -/

namespace Dawos

/-! ### Modular arithmetic -/

/-- The value a 64-bit register keeps of `n`. -/
def u64 (n : ℕ) : ℕ := n % 2 ^ 64

/-- 64-bit unsigned subtraction. -/
def sub64 (a b : ℕ) : ℕ := u64 (a + 2 ^ 64 - b)

theorem u64_lt (n : ℕ) : u64 n < 2 ^ 64 := Nat.mod_lt _ (by norm_num)

theorem u64_of_lt {n : ℕ} (h : n < 2 ^ 64) : u64 n = n := Nat.mod_eq_of_lt h

theorem sub64_of_le {a b : ℕ} (ha : a < 2 ^ 64) (h : b ≤ a) : sub64 a b = a - b := by
  unfold sub64 u64
  omega

/-- A mask that keeps the bits from `k` up to `w` rounds down to a multiple of `2 ^ k`. -/
theorem and_highMask {n k w : ℕ} (hk : k ≤ w) (h : n < 2 ^ w) :
    n &&& (2 ^ w - 2 ^ k) = n / 2 ^ k * 2 ^ k := by
  apply Nat.eq_of_testBit_eq
  intro i
  have hmask : 2 ^ w - 2 ^ k = (2 ^ (w - k) - 1) * 2 ^ k := by
    rw [Nat.sub_mul, one_mul, ← Nat.pow_add, Nat.sub_add_cancel hk]
  rw [Nat.testBit_and, hmask, Nat.testBit_mul_two_pow, Nat.testBit_mul_two_pow,
    Nat.testBit_two_pow_sub_one, Nat.testBit_div_two_pow]
  rcases Nat.lt_or_ge i k with hi | hi
  · simp [Nat.not_le.mpr hi]
  · have e : i - k + k = i := Nat.sub_add_cancel hi
    simp only [hi, decide_true, Bool.true_and, e]
    rcases Nat.lt_or_ge i w with hw | hw
    · have : i - k < w - k := by omega
      simp [this]
    · have hlt : n < 2 ^ i := lt_of_lt_of_le h (Nat.pow_le_pow_right (by norm_num) hw)
      simp [Nat.testBit_lt_two_pow hlt]

/-! ### Words in memory -/

/-- Memory: a byte at every address. -/
abbrev Mem := ℕ → UInt8

/-- The word of `n` bytes at address `a`, low byte first. -/
def rdN (m : Mem) : ℕ → ℕ → ℕ
  | 0, _ => 0
  | n + 1, a => (m a).toNat + 256 * rdN m n (a + 1)

/-- Store the low `n` bytes of `v` at address `a`. -/
def wrN (m : Mem) (n a v : ℕ) : Mem := fun x =>
  if a ≤ x ∧ x < a + n then UInt8.ofNat (v / 256 ^ (x - a)) else m x

/-- The 64-bit word at address `a`. -/
def rd (m : Mem) (a : ℕ) : ℕ := rdN m 8 a

/-- Store the low 64 bits of `v` at address `a`. -/
def wr (m : Mem) (a v : ℕ) : Mem := wrN m 8 a v

/-- Store the byte `v` into `len` cells from `a` on. -/
def fill (m : Mem) (a : ℕ) (v : UInt8) (len : ℕ) : Mem := fun x =>
  if a ≤ x ∧ x < a + len then v else m x

theorem rdN_lt (m : Mem) : ∀ (n a : ℕ), rdN m n a < 256 ^ n
  | 0, _ => by simp [rdN]
  | n + 1, a => by
      have h1 := (m a).toNat_lt
      have h2 := rdN_lt m n (a + 1)
      have h3 : 256 ^ (n + 1) = 256 * 256 ^ n := by ring
      simp only [rdN]
      omega

theorem rdN_congr {m m' : Mem} : ∀ {n a : ℕ}, (∀ x, a ≤ x → x < a + n → m' x = m x) →
    rdN m' n a = rdN m n a
  | 0, _, _ => rfl
  | n + 1, a, h => by
      simp only [rdN]
      rw [h a (by omega) (by omega), rdN_congr fun x h1 h2 => h x (by omega) (by omega)]

theorem wrN_off (m : Mem) {n a x : ℕ} (v : ℕ) (h : x < a ∨ a + n ≤ x) : wrN m n a v x = m x := by
  have : ¬ (a ≤ x ∧ x < a + n) := by omega
  simp [wrN, this]

/-- Any part of a stored word reads back. -/
theorem rdN_wrN_part (m : Mem) {n a v : ℕ} : ∀ {k j : ℕ}, j + k ≤ n →
    rdN (wrN m n a v) k (a + j) = v / 256 ^ j % 256 ^ k
  | 0, _, _ => by simp [rdN, Nat.mod_one]
  | k + 1, j, h => by
      have hb : (wrN m n a v (a + j)).toNat = v / 256 ^ j % 256 := by
        have : a ≤ a + j ∧ a + j < a + n := by omega
        simp [wrN, this]
      have hr : rdN (wrN m n a v) k (a + (j + 1)) = v / 256 ^ (j + 1) % 256 ^ k :=
        rdN_wrN_part m (by omega)
      have hd : v / 256 ^ (j + 1) = v / 256 ^ j / 256 := by
        rw [Nat.div_div_eq_div_mul, pow_succ]
      have hp : 256 ^ (k + 1) = 256 * 256 ^ k := by ring
      simp only [rdN]
      rw [hb, Nat.add_assoc, hr, hd, hp, Nat.mod_mul]

theorem rdN_wrN_same (m : Mem) (n a v : ℕ) : rdN (wrN m n a v) n a = v % 256 ^ n := by
  simpa using rdN_wrN_part m (v := v) (a := a) (k := n) (j := 0) (n := n) (by omega)

theorem rdN_wrN_apart (m : Mem) {n k a b : ℕ} (v : ℕ) (h : b + k ≤ a ∨ a + n ≤ b) :
    rdN (wrN m n a v) k b = rdN m k b :=
  rdN_congr fun _ _ _ => wrN_off m v (by omega)

theorem rdN_fill_zero (m : Mem) {a len : ℕ} : ∀ {n b : ℕ}, a ≤ b → b + n ≤ a + len →
    rdN (fill m a 0 len) n b = 0
  | 0, _, _, _ => rfl
  | n + 1, b, h1, h2 => by
      have hb : fill m a 0 len b = 0 := by
        have : a ≤ b ∧ b < a + len := by omega
        simp [fill, this]
      simp only [rdN]
      rw [hb, rdN_fill_zero m (by omega) (by omega)]
      rfl

/-! ### 64-bit words -/

theorem rd_lt (m : Mem) (a : ℕ) : rd m a < 2 ^ 64 := rdN_lt m 8 a

theorem rd_congr {m m' : Mem} {a : ℕ} (h : ∀ x, a ≤ x → x < a + 8 → m' x = m x) :
    rd m' a = rd m a := rdN_congr h

theorem wr_off (m : Mem) {a x : ℕ} (v : ℕ) (h : x < a ∨ a + 8 ≤ x) : wr m a v x = m x :=
  wrN_off m v h

theorem rd_wr_same (m : Mem) (a v : ℕ) : rd (wr m a v) a = v % 2 ^ 64 := rdN_wrN_same m 8 a v

theorem rd_wr_apart (m : Mem) {a b : ℕ} (v : ℕ) (h : b + 8 ≤ a ∨ a + 8 ≤ b) :
    rd (wr m a v) b = rd m b := rdN_wrN_apart m v h

/-- A word that a store of another word misses or hits exactly. -/
theorem rd_wr (m : Mem) {a b : ℕ} (v : ℕ) (h : b = a ∨ b + 8 ≤ a ∨ a + 8 ≤ b) :
    rd (wr m a v) b = if b = a then v % 2 ^ 64 else rd m b := by
  rcases h with rfl | h
  · simp [rd_wr_same]
  · have : b ≠ a := by omega
    rw [if_neg this, rd_wr_apart m v h]

/-- Stores to disjoint words commute. -/
theorem wr_comm (m : Mem) {a b : ℕ} (v w : ℕ) (h : a + 8 ≤ b ∨ b + 8 ≤ a) :
    wr (wr m a v) b w = wr (wr m b w) a v := by
  funext x
  unfold wr wrN
  split_ifs
  · omega
  all_goals rfl

/-! ### Strings of bytes -/

/-- `m` with the bytes `l` stored from `a` on. -/
def put (m : Mem) (a : ℕ) (l : List UInt8) : Mem := fun x =>
  if a ≤ x ∧ x < a + l.length then l.getD (x - a) 0 else m x

section put

variable {m : Mem} {a x : ℕ} {c : UInt8} {l : List UInt8}

theorem put_nil (m : Mem) (a : ℕ) : put m a [] = m := by
  funext x
  unfold put
  rw [if_neg (by simp)]

theorem put_off (h : x < a ∨ a + l.length ≤ x) : put m a l x = m x := if_neg (by omega)

theorem put_at {i : ℕ} (h : i < l.length) : put m a l (a + i) = l[i] := by
  unfold put
  rw [if_pos (by omega), Nat.add_sub_cancel_left, List.getD_eq_getElem l 0 h]

/-- A text may be stored first byte first. -/
theorem put_cons : put (Function.update m a c) (a + 1) l = put m a (c :: l) := by
  funext x
  unfold put
  rw [List.length_cons]
  rcases Nat.lt_trichotomy x a with h | rfl | h
  · rw [if_neg (by omega), if_neg (by omega), Function.update_of_ne (by omega)]
  · rw [if_neg (by omega), if_pos (by omega), Function.update_self, Nat.sub_self, List.getD_cons_zero]
  · by_cases hx : x < a + 1 + l.length
    · obtain ⟨i, rfl⟩ : ∃ i, x = a + 1 + i := ⟨x - (a + 1), by omega⟩
      have e : a + 1 + i - a = i + 1 := by omega
      rw [if_pos (by omega), if_pos (by omega), e, List.getD_cons_succ, Nat.add_sub_cancel_left]
    · rw [if_neg (by omega), if_neg (by omega), Function.update_of_ne (by omega)]

theorem update_put : Function.update (put m (a + 1) l) a c = put m a (c :: l) := by
  rw [← put_cons]
  funext x
  unfold put
  by_cases h : x = a
  · rw [h, Function.update_self, if_neg (by omega), Function.update_self]
  · rw [Function.update_of_ne h, Function.update_of_ne h]

/-- A text may be stored last byte first. -/
theorem put_concat : put (Function.update m (a + l.length) c) a l = put m a (l ++ [c]) := by
  funext x
  unfold put
  rw [List.length_append, List.length_singleton]
  by_cases h : x < a + l.length
  · by_cases ha : a ≤ x
    · rw [if_pos ⟨ha, h⟩, if_pos (by omega), List.getD_append _ _ _ _ (by omega)]
    · rw [if_neg (by omega), if_neg (by omega), Function.update_of_ne (by omega)]
  · rw [if_neg (by omega)]
    by_cases he : x = a + l.length
    · rw [he, if_pos (by omega), Function.update_self,
        List.getD_append_right _ _ _ _ (by omega)]
      simp
    · rw [if_neg (by omega), Function.update_of_ne he]

end put

/-! ### Frames -/

/-- The two memories hold the same bytes outside `P`. -/
def AgreeOff (m m' : Mem) (P : ℕ → Prop) : Prop := ∀ x, ¬ P x → m' x = m x

namespace AgreeOff

variable {m m' m'' : Mem} {P Q : ℕ → Prop}

theorem refl (m : Mem) (P : ℕ → Prop) : AgreeOff m m P := fun _ _ => rfl

theorem mono (h : AgreeOff m m' P) (hPQ : ∀ x, P x → Q x) : AgreeOff m m' Q :=
  fun x hx => h x fun hp => hx (hPQ x hp)

theorem trans (h : AgreeOff m m' P) (h' : AgreeOff m' m'' P) : AgreeOff m m'' P :=
  fun x hx => (h' x hx).trans (h x hx)

theorem wr (h : AgreeOff m m' P) {a : ℕ} (v : ℕ) (ha : ∀ x, a ≤ x → x < a + 8 → P x) :
    AgreeOff m (Dawos.wr m' a v) P := fun x hx => by
  rw [wr_off m' v (by by_contra hc; exact hx (ha x (by omega) (by omega)))]
  exact h x hx

theorem fill (h : AgreeOff m m' P) {a len : ℕ} (v : UInt8) (ha : ∀ x, a ≤ x → x < a + len → P x) :
    AgreeOff m (Dawos.fill m' a v len) P := fun x hx => by
  have hn : ¬ (a ≤ x ∧ x < a + len) := fun hc => hx (ha x hc.1 hc.2)
  simp only [Dawos.fill, hn, if_false]
  exact h x hx

/-- A word whose bytes lie outside the frame is unchanged. -/
theorem rd (h : AgreeOff m m' P) {a : ℕ} (ha : ∀ x, a ≤ x → x < a + 8 → ¬ P x) :
    rd m' a = rd m a := rd_congr fun x h1 h2 => h x (ha x h1 h2)

end AgreeOff

end Dawos
