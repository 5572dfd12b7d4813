import Dawos.Loop

/-! # Numbers as text

`int_to_str` and `str_to_int` of the loader's library.  `int_to_str` writes the digits of a number
backwards into the static buffer `tmp` of `MAX_INT_STR + 1` bytes, and copies them from there.

* `numeral val base`: the text of a number, from Mathlib's digits;
* `digitLoop_eq`: the loop over the digits writes them to the end of what is left of `tmp`;
* `int_to_str`: what is copied, for every base in which all numbers fit into `tmp`;
* `int_to_str_scratch`: for which bases and numbers all characters are stored inside `tmp`;
* `str_to_int`: for which numbers reading the text gives the number back. -/

namespace Dawos

/-! ### The functions -/

def MAX_INT_STR : ℕ := 32

/-- The value of `(char)z`. -/
def toChar (z : ℤ) : ℤ := z.bmod 256

/-- The byte that holds `(char)z`. -/
def charByte (z : ℤ) : UInt8 := UInt8.ofNat (z % 256).toNat

/-- Copy a string, `len` bytes of it at most; returns the number of bytes copied. -/
def strCopy : Mem → ℕ → ℕ → ℕ → Mem × ℕ
  | m, _, 0, _ => (m, 0)
  | m, dest, len + 1, src =>
      if m src = 0 then (m, 0)
      else
        let r := strCopy (Function.update m dest (m src)) (dest + 1) len (src + 1)
        (r.1, r.2 + 1)

/-- The character for a remainder of a positive value. -/
def posDigit (c : ℤ) : ℤ := if 9 < c then 0x41 + (c - 10) else 0x30 + c

/-- The character for a remainder of a negative value. -/
def negDigit (c : ℤ) : ℤ := if c < -9 then 0x41 - (c + 10) else 0x30 - c

/-- `*--b = c`, where `b` points to the byte `b` of `tmp`. -/
def pushChar (tmp : ℕ) (c : ℤ) : Mem × ℕ → Except Halt (Mem × ℕ)
  | (_, 0) => .error .bounds
  | (m, b + 1) => .ok (Function.update m (tmp + b) (charByte c), b)

/-- The loop over the digits of `val`, where `b` points to the byte `b` of `tmp`. -/
def digitLoop (digit : ℤ → ℤ) (tmp : ℕ) (base : ℤ) : ℤ → Mem → ℕ → Except Halt (Mem × ℕ)
  | _, _, 0 => .error .bounds
  | val, m, b + 1 =>
      let m := Function.update m (tmp + b) (charByte (digit (toChar (val.tmod base))))
      if val.tdiv base ≠ 0 then digitLoop digit tmp base (val.tdiv base) m b else .ok (m, b)

/-- Convert integer to string. -/
def intToStr (m : Mem) (tmp dest len : ℕ) (val base : ℤ) : Except Halt (Mem × ℕ) := do
  let m := fill m tmp 0 (MAX_INT_STR + 1)
  let r ←
    if 0 ≤ val then digitLoop posDigit tmp base val m MAX_INT_STR
    else do
      let r ← digitLoop negDigit tmp base val m MAX_INT_STR
      if base = 10 then pushChar tmp 0x2D r else .ok r
  .ok (strCopy r.1 dest len (tmp + r.2))

/-- Trim leading spaces. -/
def trimRound (m : Mem) (b : ℕ) : ℕ ⊕ ℕ := if m b = 0x20 ∨ m b = 0x09 then .inl (b + 1) else .inr b

/-- Add the current digit; a value outside the signed range has no meaning. -/
def readRound (m : Mem) (s : ℕ × ℤ) : ℕ × ℤ ⊕ Option ℤ :=
  if 0x30 ≤ m s.1 ∧ m s.1 ≤ 0x39 then
    let val := s.2 * 10 + ((m s.1).toNat - 0x30)
    if val < 2 ^ 63 then .inl (s.1 + 1, val) else .inr none
  else .inr (some s.2)

/-- Convert a string to integer, with at most `n` rounds of each loop; `none` stands for a signed
overflow. -/
def strToInt (m : Mem) (str : ℕ) (_base : ℤ) (n : ℕ) : Except Halt (Option ℤ) := do
  let b ← loop (trimRound m) n str
  let negative := m b = 0x2D
  let val ← loop (readRound m) n (b, 0)
  .ok (val.map fun v => if negative then 0 - v else v)

/-! ### Text in memory -/

section text

variable {m : Mem} {a b dest len src x : ℕ} {c : UInt8} {l : List UInt8}

/-- The bytes `l` and then a zero are stored from `a` on. -/
structure ZText (m : Mem) (a : ℕ) (l : List UInt8) : Prop where
  get : ∀ i, (h : i < l.length) → m (a + i) = l[i]
  nonzero : ∀ c ∈ l, c ≠ 0
  stop : m (a + l.length) = 0

theorem ZText.head (h : ZText m a (c :: l)) : m a = c := h.get 0 (Nat.succ_pos _)

theorem ZText.tail (h : ZText m a (c :: l)) : ZText m (a + 1) l where
  get i hi := by
    have e : a + 1 + i = a + (i + 1) := by omega
    rw [e]
    exact h.get (i + 1) (Nat.succ_lt_succ hi)
  nonzero d hd := h.nonzero d (List.mem_cons_of_mem c hd)
  stop := by
    have := h.stop
    rwa [List.length_cons, Nat.add_comm l.length 1, ← Nat.add_assoc] at this

theorem ZText.congr {m' : Mem} (h : ZText m a l) (e : ∀ i ≤ l.length, m' (a + i) = m (a + i)) :
    ZText m' a l :=
  ⟨fun i hi => (e i hi.le).trans (h.get i hi), h.nonzero, (e _ le_rfl).trans h.stop⟩

/-- A copy that does not overwrite the text. -/
theorem strCopy_eq (h : ZText m src l)
    (ha : dest + min len l.length ≤ src ∨ src + l.length < dest) :
    strCopy m dest len src = (put m dest (l.take len), min len l.length) := by
  induction len generalizing m dest src l with
  | zero => rw [strCopy, List.take_zero, put_nil, Nat.zero_min]
  | succ len ih =>
      cases l with
      | nil =>
          have h0 : m src = 0 := h.stop
          rw [strCopy, if_pos h0, List.take_nil, put_nil, List.length_nil, Nat.min_zero]
      | cons c l =>
          have hc : m src ≠ 0 := by
            rw [h.head]
            exact h.nonzero c List.mem_cons_self
          rw [List.length_cons, Nat.succ_min_succ] at ha
          have ht : ZText (Function.update m dest (m src)) (src + 1) l :=
            h.tail.congr fun i hi => Function.update_of_ne (by omega) _ _
          rw [strCopy, if_neg hc, ih ht (by omega), h.head, List.take_succ_cons, List.length_cons,
            Nat.succ_min_succ, put_cons]

/-- A copy goes on at least until it overwrites the text. -/
theorem strCopy_count {r : ℕ} (h : ZText m src l) (hr : r < len) (hl : r < l.length)
    (ha : dest + r ≤ src ∨ src + l.length < dest) : r < (strCopy m dest len src).2 := by
  induction r generalizing m dest len src l with
  | zero =>
      obtain ⟨len, rfl⟩ : ∃ k, len = k + 1 := ⟨len - 1, by omega⟩
      cases l with
      | nil => exact absurd hl (Nat.not_lt_zero 0)
      | cons c l =>
          have hc : m src ≠ 0 := h.head ▸ h.nonzero c List.mem_cons_self
          rw [strCopy, if_neg hc]
          exact Nat.succ_pos _
  | succ r ih =>
      obtain ⟨len, rfl⟩ : ∃ k, len = k + 1 := ⟨len - 1, by omega⟩
      cases l with
      | nil => exact absurd hl (Nat.not_lt_zero _)
      | cons c l =>
          have hc : m src ≠ 0 := h.head ▸ h.nonzero c List.mem_cons_self
          rw [List.length_cons] at hl ha
          have ht : ZText (Function.update m dest (m src)) (src + 1) l :=
            h.tail.congr fun i hi => Function.update_of_ne (by omega) _ _
          rw [strCopy, if_neg hc]
          exact Nat.succ_lt_succ (ih ht (by omega) (by omega) (by omega))

end text

/-! ### Numerals -/

/-- The character of a digit: `0` to `9`, then `A` to `Z`. -/
def digitByte (d : ℕ) : UInt8 := UInt8.ofNat (if d < 10 then 0x30 + d else 0x41 + (d - 10))

/-- The digits of `n`, the first one first; zero has one digit. -/
def digitsOf (base n : ℕ) : List ℕ := if n = 0 then [0] else (Nat.digits base n).reverse

/-- The text of a number: a minus sign for decimals only, and the digits. -/
def numeral (val : ℤ) (base : ℕ) : List UInt8 :=
  (if val < 0 ∧ base = 10 then [0x2D] else []) ++ (digitsOf base val.natAbs).map digitByte

section numerals

variable {m : Mem} {tmp dest len base b n d : ℕ} {val : ℤ} {digit : ℤ → ℤ}

/-- The last digit comes off the end. -/
theorem digitsOf_eq (hb : 2 ≤ base) :
    digitsOf base n = (if n < base then [] else digitsOf base (n / base)) ++ [n % base] := by
  unfold digitsOf
  rcases Nat.eq_zero_or_pos n with rfl | hn
  · rw [if_pos rfl, if_pos (by omega), Nat.zero_mod, List.nil_append]
  · rw [if_neg hn.ne', Nat.digits_def' hb hn, List.reverse_cons]
    split_ifs with hlt hz
    · rw [Nat.div_eq_of_lt hlt, Nat.digits_zero, List.reverse_nil]
    · rw [Nat.div_eq_zero_iff] at hz
      omega
    · rfl

theorem digitsOf_lt (hb : 2 ≤ base) (hd : d ∈ digitsOf base n) : d < base := by
  unfold digitsOf at hd
  split_ifs at hd
  · rw [List.mem_singleton] at hd
    omega
  · exact Nat.digits_lt_base hb (List.mem_reverse.mp hd)

theorem digitsOf_length (hb : 2 ≤ base) {k : ℕ} (hk : 0 < k) (hn : n < base ^ k) :
    (digitsOf base n).length ≤ k := by
  unfold digitsOf
  split_ifs
  · exact hk
  · rw [List.length_reverse]
    exact (Nat.digits_length_le_iff hb n).mpr hn

theorem digitsOf_lt_of_length {k : ℕ} (h : (digitsOf 2 n).length ≤ k) : n < 2 ^ k := by
  unfold digitsOf at h
  split_ifs at h with h0
  · rw [h0]
    exact Nat.two_pow_pos k
  · rw [List.length_reverse] at h
    exact (Nat.digits_length_le_iff (by norm_num) n).mp h

theorem digitByte_toNat (hd : d < 36) :
    (digitByte d).toNat = if d < 10 then 0x30 + d else 0x41 + (d - 10) := by
  unfold digitByte
  rw [UInt8.toNat_ofNat', Nat.mod_eq_of_lt]
  split_ifs <;> omega

/-- The characters of digits begin at `0`. -/
theorem digits_byte {c : UInt8} (hb : 2 ≤ base) (hb' : base ≤ 36)
    (hc : c ∈ (digitsOf base n).map digitByte) : 0x30 ≤ c.toNat := by
  obtain ⟨d, hd, rfl⟩ := List.mem_map.mp hc
  rw [digitByte_toNat ((digitsOf_lt hb hd).trans_le hb')]
  split_ifs <;> omega

/-- In a base without a sign, the numeral is the digits of the absolute value. -/
theorem numeral_eq_digits (h : 0 ≤ val ∨ base ≠ 10) :
    numeral val base = (digitsOf base val.natAbs).map digitByte := by
  unfold numeral
  rw [if_neg (by omega), List.nil_append]

/-- The loop stores the digits of `val` below the byte `b`. -/
theorem digitLoop_eq {P : ℤ → Prop} (hb : 2 ≤ base) (hP : ∀ v, P v → P (v.tdiv base))
    (hdigit : ∀ v, P v → charByte (digit (toChar (v.tmod base))) = digitByte (v.natAbs % base))
    (hv : P val) (hlen : (digitsOf base val.natAbs).length ≤ b) :
    digitLoop digit tmp base val m b =
      .ok (put m (tmp + (b - (digitsOf base val.natAbs).length))
        ((digitsOf base val.natAbs).map digitByte), b - (digitsOf base val.natAbs).length) := by
  induction b generalizing m val with
  | zero =>
      rw [digitsOf_eq hb, List.length_append, List.length_singleton] at hlen
      omega
  | succ b ih =>
      have habs : (val.tdiv base).natAbs = val.natAbs / base := by
        rw [Int.natAbs_tdiv, Int.natAbs_natCast]
        rfl
      have hstop : val.tdiv base ≠ 0 ↔ ¬ val.natAbs < base := by
        rw [← Int.natAbs_ne_zero, habs, Ne, Nat.div_eq_zero_iff]
        omega
      rw [digitsOf_eq hb, List.length_append, List.length_singleton] at hlen
      rw [digitLoop, hdigit val hv, digitsOf_eq (n := val.natAbs) hb]
      by_cases hlt : val.natAbs < base
      · rw [if_neg (fun h => hstop.mp h hlt), if_pos hlt, List.nil_append, List.length_singleton,
          Nat.add_sub_cancel, List.map_singleton]
        rw [← put_cons, put_nil]
      · rw [if_neg hlt] at hlen
        rw [if_pos (hstop.mpr hlt), if_neg hlt, ih (hP val hv) (by rw [habs]; omega), habs]
        rw [List.length_append, List.length_singleton, List.map_append, List.map_singleton,
          Nat.add_sub_add_right]
        have hpos : tmp + (b - (digitsOf base (val.natAbs / base)).length) +
            (digitsOf base (val.natAbs / base)).length = tmp + b := by omega
        rw [← put_concat, List.length_map, hpos]

theorem toChar_of_small {z : ℤ} (h : -128 ≤ z) (h' : z < 128) : toChar z = z := by
  unfold toChar
  rw [Int.bmod_eq_of_le] <;> omega

theorem charByte_natCast (n : ℕ) : charByte n = UInt8.ofNat n := by
  unfold charByte
  apply UInt8.toNat_inj.mp
  rw [UInt8.toNat_ofNat', UInt8.toNat_ofNat']
  omega

theorem posDigit_byte (hd : d < 36) : charByte (posDigit (toChar d)) = digitByte d := by
  rw [toChar_of_small (by omega) (by omega), digitByte, ← charByte_natCast]
  congr 1
  unfold posDigit
  split_ifs <;> omega

theorem negDigit_byte (hd : d < 36) : charByte (negDigit (toChar (-d))) = digitByte d := by
  rw [toChar_of_small (by omega) (by omega), digitByte, ← charByte_natCast]
  congr 1
  unfold negDigit
  split_ifs <;> omega

/-- Both loops push the characters of the digits. -/
theorem pos_byte {v : ℤ} (hb : 2 ≤ base) (hb' : base ≤ 36) (hv : 0 ≤ v) :
    charByte (posDigit (toChar (v.tmod base))) = digitByte (v.natAbs % base) := by
  obtain ⟨n, rfl⟩ := Int.eq_ofNat_of_zero_le hv
  have hlt : n % base < base := Nat.mod_lt n (by omega)
  rw [← Int.ofNat_tmod, Int.natAbs_natCast, posDigit_byte (by omega)]

theorem neg_byte {v : ℤ} (hb : 2 ≤ base) (hb' : base ≤ 36) (hv : v ≤ 0) :
    charByte (negDigit (toChar (v.tmod base))) = digitByte (v.natAbs % base) := by
  obtain ⟨n, hn⟩ := Int.eq_ofNat_of_zero_le (Int.neg_nonneg_of_nonpos hv)
  obtain rfl : v = -n := by omega
  have hlt : n % base < base := Nat.mod_lt n (by omega)
  rw [Int.neg_tmod, ← Int.ofNat_tmod, Int.natAbs_neg, Int.natAbs_natCast,
    negDigit_byte (by omega)]

/-- The text of any number fits into `tmp`, before its last byte. -/
theorem numeral_length (hb : 4 ≤ base) (hv : val.natAbs ≤ 2 ^ 63) :
    (numeral val base).length ≤ MAX_INT_STR := by
  unfold numeral
  rw [List.length_append, List.length_map]
  rcases eq_or_ne base 10 with rfl | hne
  · have h : (digitsOf 10 val.natAbs).length ≤ 19 :=
      digitsOf_length (by omega) (by omega) (lt_of_le_of_lt hv (by norm_num))
    split_ifs <;> simp only [List.length_singleton, List.length_nil, MAX_INT_STR] <;> omega
  · have hpow : 4 ^ 32 ≤ base ^ 32 := Nat.pow_le_pow_left hb 32
    have h : (digitsOf base val.natAbs).length ≤ 32 :=
      digitsOf_length (by omega) (by omega) (lt_of_le_of_lt hv (lt_of_lt_of_le (by norm_num) hpow))
    rw [if_neg (fun h => hne h.2), List.length_nil, MAX_INT_STR]
    omega

/-- Apart from a minus sign, a numeral has no characters below `0`. -/
theorem numeral_ne {c d : UInt8} (hb : 2 ≤ base) (hb' : base ≤ 36) (hc : c ∈ numeral val base)
    (hd : d ≠ 0x2D) (hlt : d.toNat < 0x30) : c ≠ d := by
  rintro rfl
  unfold numeral at hc
  rcases List.mem_append.mp hc with h | h
  · split_ifs at h
    · exact hd (List.mem_singleton.mp h)
    · exact absurd h List.not_mem_nil
  · exact absurd (digits_byte hb hb' h) (Nat.not_le.mpr hlt)

theorem numeral_nonzero {c : UInt8} (hb : 2 ≤ base) (hb' : base ≤ 36)
    (hc : c ∈ numeral val base) : c ≠ 0 := numeral_ne hb hb' hc (by decide) (by decide)

/-- The numeral at the end of the cleared buffer. -/
theorem zText_put (m : Mem) (tmp : ℕ) (hb : 2 ≤ base) (hb' : base ≤ 36)
    (hlen : (numeral val base).length ≤ MAX_INT_STR) :
    ZText (put (fill m tmp 0 (MAX_INT_STR + 1)) (tmp + (MAX_INT_STR - (numeral val base).length))
        (numeral val base))
      (tmp + (MAX_INT_STR - (numeral val base).length)) (numeral val base) where
  get _ hi := put_at hi
  nonzero _ hc := numeral_nonzero hb hb' hc
  stop := by
    rw [put_off (by omega)]
    unfold fill
    rw [if_pos (by omega)]

/-- What is copied is the numeral, from the end of `tmp`. -/
theorem intToStr_fits (m : Mem) (tmp dest len : ℕ) (hb : 2 ≤ base) (hb' : base ≤ 36)
    (hlen : (numeral val base).length ≤ MAX_INT_STR) :
    intToStr m tmp dest len val base = .ok (strCopy
      (put (fill m tmp 0 (MAX_INT_STR + 1)) (tmp + (MAX_INT_STR - (numeral val base).length))
        (numeral val base)) dest len (tmp + (MAX_INT_STR - (numeral val base).length))) := by
  unfold intToStr
  by_cases h0 : 0 ≤ val
  · have hnum : numeral val base = (digitsOf base val.natAbs).map digitByte := by
      unfold numeral
      rw [if_neg (by omega), List.nil_append]
    rw [hnum, List.length_map] at hlen ⊢
    rw [if_pos h0, digitLoop_eq (P := (0 ≤ ·)) hb
      (fun v hv => Int.tdiv_nonneg hv (Int.natCast_nonneg base))
      (fun v hv => pos_byte hb hb' hv) h0 hlen]
    rfl
  · have hP : ∀ v : ℤ, v ≤ 0 → v.tdiv base ≤ 0 := fun v hv => by
      obtain ⟨n, hn⟩ := Int.eq_ofNat_of_zero_le (Int.neg_nonneg_of_nonpos hv)
      obtain rfl : v = -n := by omega
      rw [Int.neg_tdiv]
      exact Int.neg_nonpos_of_nonneg (Int.tdiv_nonneg (Int.natCast_nonneg n) (Int.natCast_nonneg base))
    have hneg : val ≤ 0 := by omega
    rw [if_neg h0]
    by_cases h10 : base = 10
    · have hnum : numeral val base = 0x2D :: (digitsOf base val.natAbs).map digitByte := by
        unfold numeral
        rw [if_pos ⟨by omega, h10⟩, List.singleton_append]
      rw [hnum, List.length_cons, List.length_map] at hlen ⊢
      rw [digitLoop_eq (P := (· ≤ 0)) hb hP (fun v hv => neg_byte hb hb' hv) hneg
        (by omega)]
      have hpos : MAX_INT_STR - (digitsOf base val.natAbs).length =
          MAX_INT_STR - ((digitsOf base val.natAbs).length + 1) + 1 := by omega
      rw [ok_bind, if_pos (by exact_mod_cast h10), hpos, pushChar, ← Nat.add_assoc, update_put]
      rfl
    · have hnum : numeral val base = (digitsOf base val.natAbs).map digitByte := by
        unfold numeral
        rw [if_neg (fun h => h10 h.2), List.nil_append]
      rw [hnum, List.length_map] at hlen ⊢
      rw [digitLoop_eq (P := (· ≤ 0)) hb hP (fun v hv => neg_byte hb hb' hv) hneg
        hlen]
      rw [ok_bind, if_neg (by exact_mod_cast h10)]
      rfl

/-- In a base from 4 on every number fits. -/
theorem intToStr_eq (m : Mem) (tmp dest len : ℕ) (hb : 4 ≤ base) (hb' : base ≤ 36)
    (hv : val.natAbs ≤ 2 ^ 63) :
    intToStr m tmp dest len val base = .ok (strCopy
      (put (fill m tmp 0 (MAX_INT_STR + 1)) (tmp + (MAX_INT_STR - (numeral val base).length))
        (numeral val base)) dest len (tmp + (MAX_INT_STR - (numeral val base).length))) :=
  intToStr_fits m tmp dest len (by omega) hb' (numeral_length hb hv)

/-- A numeral that is too long runs out of `tmp` at its lower end. -/
theorem digitLoop_bounds {P : ℤ → Prop} (hb : 2 ≤ base) (hP : ∀ v, P v → P (v.tdiv base)) (hv : P val)
    (hlen : b < (digitsOf base val.natAbs).length) : digitLoop digit tmp base val m b = .error .bounds := by
  induction b generalizing m val with
  | zero => rfl
  | succ b ih =>
      have habs : (val.tdiv base).natAbs = val.natAbs / base := by
        rw [Int.natAbs_tdiv, Int.natAbs_natCast]
        rfl
      rw [digitsOf_eq hb, List.length_append, List.length_singleton] at hlen
      have hlt : ¬ val.natAbs < base := fun h => by
        rw [if_pos h, List.length_nil] at hlen
        omega
      have hne : val.tdiv base ≠ 0 := by
        rw [← Int.natAbs_ne_zero, habs, Ne, Nat.div_eq_zero_iff]
        omega
      rw [if_neg hlt] at hlen
      rw [digitLoop, if_pos hne]
      exact ih (hP val hv) (by rw [habs]; omega)

theorem intToStr_bounds (m : Mem) (tmp dest len : ℕ) (hb : 2 ≤ base) (hne : base ≠ 10)
    (hlen : MAX_INT_STR < (numeral val base).length) :
    intToStr m tmp dest len val base = .error .bounds := by
  have hnum : numeral val base = (digitsOf base val.natAbs).map digitByte := by
    unfold numeral
    rw [if_neg (fun h => hne h.2), List.nil_append]
  rw [hnum, List.length_map] at hlen
  have hloop : ∀ digit m', digitLoop digit tmp base val m' MAX_INT_STR = .error .bounds := fun _ _ =>
    digitLoop_bounds (P := fun _ => True) hb (fun _ _ => trivial) trivial hlen
  unfold intToStr
  by_cases h0 : 0 ≤ val
  · rw [if_pos h0, hloop]
    rfl
  · rw [if_neg h0, hloop]
    rfl

/-- `int_to_str` copies the first `len` characters of the numeral, and returns how many it has
copied; apart from them and `tmp` the memory is unchanged. -/
theorem int_to_str (m : Mem) (tmp dest len : ℕ) {base : ℕ} {val : ℤ} (hb : 4 ≤ base)
    (hb' : base ≤ 36) (hmin : -2 ^ 63 ≤ val) (hmax : val < 2 ^ 63)
    (ha : dest + min len (numeral val base).length ≤ tmp ∨ tmp + (MAX_INT_STR + 1) ≤ dest) :
    ∃ m', intToStr m tmp dest len val base = .ok (m', min len (numeral val base).length) ∧
      (∀ i, (h : i < (numeral val base).length) → i < len → m' (dest + i) = (numeral val base)[i]) ∧
      AgreeOff m m' fun x => (dest ≤ x ∧ x < dest + min len (numeral val base).length) ∨
        (tmp ≤ x ∧ x < tmp + (MAX_INT_STR + 1)) := by
  have hv : val.natAbs ≤ 2 ^ 63 := by omega
  have hlen := numeral_length hb hv
  have htext := zText_put m tmp (by omega) hb' hlen
  refine ⟨_, (intToStr_eq m tmp dest len hb hb' hv).trans (congrArg _ (strCopy_eq htext ?_)), ?_, ?_⟩
  · unfold MAX_INT_STR at *
    omega
  · intro i hi hil
    rw [put_at (by rw [List.length_take]; omega), List.getElem_take]
  · intro x hx
    rw [put_off (by rw [List.length_take]; omega), put_off (by omega)]
    unfold fill
    rw [if_neg (by omega)]

/-- The smallest number in base 10. -/
theorem int_to_str_min : ∃ m', intToStr (fun _ => 0) 0 100 64 (-2 ^ 63) (10 : ℕ) =
      .ok (m', min 64 (numeral (-2 ^ 63) 10).length) ∧
      (∀ i, (h : i < (numeral (-2 ^ 63) 10).length) → i < 64 →
        m' (100 + i) = (numeral (-2 ^ 63) 10)[i]) ∧
      AgreeOff (fun _ => 0) m' fun x => (100 ≤ x ∧ x < 100 + min 64 (numeral (-2 ^ 63) 10).length) ∨
        (0 ≤ x ∧ x < 0 + (MAX_INT_STR + 1)) :=
  int_to_str _ 0 100 64 (by decide) (by decide) le_rfl (by norm_num) (Or.inr (by decide))

/-! #### The scratch buffer -/

theorem strCopy_frame (m : Mem) (dest len src : ℕ) :
    AgreeOff m (strCopy m dest len src).1 fun x => dest ≤ x ∧ x < dest + len := by
  induction len generalizing m dest src with
  | zero => exact AgreeOff.refl m _
  | succ len ih =>
      intro x hx
      unfold strCopy
      split_ifs
      · rfl
      · exact (ih _ _ _ x (by omega)).trans (Function.update_of_ne (by omega) _ _)

/-- Which numbers have room in `tmp`, for the bases that the library names. -/
theorem numeral_fits_iff (hb : base = 2 ∨ base = 8 ∨ base = 10 ∨ base = 16)
    (hv : val.natAbs ≤ 2 ^ 63) :
    (numeral val base).length ≤ MAX_INT_STR ↔ base ≠ 2 ∨ val.natAbs < 2 ^ 32 := by
  rcases eq_or_ne base 2 with rfl | hne
  · have hlen : (numeral val 2).length = (digitsOf 2 val.natAbs).length := by
      rw [numeral_eq_digits (.inr (by omega)), List.length_map]
    rw [hlen]
    constructor
    · intro h
      exact .inr (digitsOf_lt_of_length h)
    · intro h
      exact digitsOf_length le_rfl (by decide) (h.resolve_left (not_not.mpr rfl))
  · exact ⟨fun _ => .inl hne, fun _ => numeral_length (by omega) hv⟩

/-- **Every character of a number is stored inside `tmp`, unless the base is 2 and the number has
more than 32 digits.**  Then a store goes below the buffer. -/
theorem int_to_str_scratch (m : Mem) (tmp dest len : ℕ) {base : ℕ} {val : ℤ}
    (hb : base = 2 ∨ base = 8 ∨ base = 10 ∨ base = 16) (hmin : -2 ^ 63 ≤ val) (hmax : val < 2 ^ 63) :
    (∃ m' n, intToStr m tmp dest len val base = .ok (m', n) ∧ AgreeOff m m' fun x =>
      (tmp ≤ x ∧ x < tmp + (MAX_INT_STR + 1)) ∨ (dest ≤ x ∧ x < dest + len)) ↔
      base ≠ 2 ∨ val.natAbs < 2 ^ 32 := by
  have hv : val.natAbs ≤ 2 ^ 63 := by omega
  rw [← numeral_fits_iff hb hv]
  constructor
  · rintro ⟨m', n, hok, -⟩
    by_contra hlong
    have hne : base ≠ 10 := by
      rintro rfl
      exact hlong (numeral_length (by omega) hv)
    rw [intToStr_bounds m tmp dest len (by omega) hne (by omega)] at hok
    cases hok
  · intro hlen
    refine ⟨_, _, intToStr_fits m tmp dest len (by omega) (by omega) hlen, fun x hx => ?_⟩
    rw [strCopy_frame _ _ _ _ x fun h => hx (.inr h), put_off (by omega)]
    exact if_neg fun h => hx (.inl h)

theorem int_to_str_scratch_min :
    (∃ m' n, intToStr (fun _ => 0) 0 100 64 (-2 ^ 63) (10 : ℕ) = .ok (m', n) ∧
      AgreeOff (fun _ => 0) m' fun x => (0 ≤ x ∧ x < 0 + (MAX_INT_STR + 1)) ∨
        (100 ≤ x ∧ x < 100 + 64)) ↔ 10 ≠ 2 ∨ (-2 ^ 63 : ℤ).natAbs < 2 ^ 32 :=
  int_to_str_scratch _ 0 100 64 (by decide) le_rfl (by norm_num)

/-- `2 ^ 32` has 33 digits in base 2: the last one is stored below `tmp`. -/
theorem int_to_str_scratch_below :
    intToStr (fun _ => 0) 0x1000 0x2000 64 (2 ^ 32) (2 : ℕ) = .error .bounds :=
  errorOf_eq (by decide +kernel)

end numerals

/-! ### Reading a number -/

/-- What the loop over the digits makes of a text, when `v` has been read before it. -/
def readText : ℤ → List UInt8 → Option ℤ
  | v, [] => some v
  | v, c :: l =>
      if 0x30 ≤ c ∧ c ≤ 0x39 then
        if v * 10 + (c.toNat - 0x30) < 2 ^ 63 then readText (v * 10 + (c.toNat - 0x30)) l else none
      else some v

/-- The number with the digits `ds`, when `v` has been read before them. -/
def digitsValue (base : ℕ) (v : ℕ) (ds : List ℕ) : ℕ := ds.foldl (fun v d => v * base + d) v

section reading

variable {m m' : Mem} {tmp s len a base n d u v w : ℕ} {val z : ℤ} {l : List UInt8} {ds : List ℕ}

theorem readText_returns (h : ZText m a l) (z : ℤ) :
    Returns (fun n => loop (readRound m) n (a, z)) (readText z l) := by
  induction l generalizing a z with
  | nil =>
      have h0 : m a = 0 := h.stop
      refine Returns.loop_inr ?_
      rw [readRound, h0]
      rfl
  | cons c l ih =>
      rw [readText]
      split_ifs with h1 h2
      · refine Returns.loop_inl (ih h.tail _) ?_
        rw [readRound, h.head, if_pos h1, if_pos h2]
      · refine Returns.loop_inr ?_
        rw [readRound, h.head, if_pos h1, if_neg h2]
      · refine Returns.loop_inr ?_
        rw [readRound, h.head, if_neg h1]

theorem strToInt_returns (h : ZText m a l) (hl : ∀ c ∈ l.head?, c ≠ 0x20 ∧ c ≠ 0x09) (base : ℤ) :
    Returns (strToInt m a base) ((readText 0 l).map fun v =>
      if l.head? = some 0x2D then 0 - v else v) := by
  have hhead : m a = l.headD 0 := by
    cases l with
    | nil => exact h.stop
    | cons c l => exact h.head
  have htrim : Returns (fun n => loop (trimRound m) n a) a := by
    refine Returns.loop_inr ?_
    rw [trimRound, if_neg]
    cases l with
    | nil =>
        rw [hhead]
        decide
    | cons c l =>
        rw [hhead]
        exact not_or.mpr (hl c rfl)
  refine htrim.bind (Returns.bind (readText_returns h 0) (Returns.of_eq fun _ => ?_))
  have hneg : m a = 0x2D ↔ l.head? = some 0x2D := by
    rw [hhead]
    cases l with
    | nil => decide
    | cons c l => simp
  simp only [hneg]

/-- A digit below ten is read, another one ends the number. -/
theorem readText_cons (hd : d < 36) :
    readText z (digitByte d :: l) =
      if d < 10 then if z * 10 + d < 2 ^ 63 then readText (z * 10 + d) l else none else some z := by
  have hbyte := digitByte_toNat hd
  have hiff : (0x30 ≤ digitByte d ∧ digitByte d ≤ 0x39) ↔ d < 10 := by
    have h30 : (0x30 : UInt8).toNat = 0x30 := rfl
    have h39 : (0x39 : UInt8).toNat = 0x39 := rfl
    rw [UInt8.le_iff_toNat_le, UInt8.le_iff_toNat_le, hbyte, h30, h39]
    split_ifs <;> omega
  rw [readText]
  by_cases h : d < 10
  · have hval : ((digitByte d).toNat : ℤ) - 0x30 = d := by
      rw [hbyte, if_pos h]
      omega
    rw [if_pos (hiff.mpr h), if_pos h, hval]
  · rw [if_neg (fun hc => h (hiff.mp hc)), if_neg h]

theorem digitsValue_ge (v : ℕ) : ∀ ds : List ℕ, 1 ≤ base → v ≤ digitsValue base v ds := by
  intro ds hb
  induction ds generalizing v with
  | nil => exact le_rfl
  | cons d ds ih =>
      have hv : v ≤ v * base + d := le_trans (Nat.le_mul_of_pos_right v hb) (Nat.le_add_right _ d)
      exact hv.trans (ih (v * base + d))

/-- The digits of a number are read back in its own base. -/
theorem digitsValue_digitsOf (hb : 2 ≤ base) : digitsValue base 0 (digitsOf base n) = n := by
  induction n using Nat.strong_induction_on with
  | _ n ih =>
      rw [digitsOf_eq hb, digitsValue, List.foldl_append]
      change digitsValue base 0 _ * base + n % base = n
      split_ifs with h
      · rw [Nat.mod_eq_of_lt h, digitsValue, List.foldl_nil, Nat.zero_mul, Nat.zero_add]
      · rw [ih (n / base) (Nat.div_lt_self (by omega) hb), Nat.div_add_mod']

theorem digitsOf_head (hb : 2 ≤ base) (hn : 0 < n) : ∃ d ds, digitsOf base n = d :: ds ∧ 0 < d := by
  induction n using Nat.strong_induction_on with
  | _ n ih =>
      rw [digitsOf_eq hb]
      split_ifs with h
      · exact ⟨n % base, [], rfl, by rwa [Nat.mod_eq_of_lt h]⟩
      · have hdiv : 0 < n / base := Nat.div_pos (by omega) (by omega)
        obtain ⟨d, ds, e, hd⟩ := ih (n / base) (Nat.div_lt_self hn hb) hdiv
        exact ⟨d, ds ++ [n % base], by rw [e, List.cons_append], hd⟩

/-- Decimal digits are read in base 10, up to an overflow. -/
theorem readText_decimal (hds : ∀ d ∈ ds, d < 10) (h : readText v (ds.map digitByte) = some z) :
    z = digitsValue 10 v ds := by
  induction ds generalizing v with
  | nil => exact (Option.some.inj h).symm
  | cons d ds ih =>
      have hd : d < 10 := hds d List.mem_cons_self
      rw [List.map_cons, readText_cons (by omega), if_pos hd] at h
      split_ifs at h
      exact ih (v := v * 10 + d) (fun d hd => hds d (List.mem_cons_of_mem _ hd)) (by exact_mod_cast h)

theorem readText_decimal_of_lt (hds : ∀ d ∈ ds, d < 10) (h : digitsValue 10 v ds < 2 ^ 63) :
    readText v (ds.map digitByte) = some (digitsValue 10 v ds : ℤ) := by
  induction ds generalizing v with
  | nil => rfl
  | cons d ds ih =>
      have hd : d < 10 := hds d List.mem_cons_self
      have hle : v * 10 + d ≤ digitsValue 10 (v * 10 + d) ds := digitsValue_ge _ ds (by omega)
      have hlt : digitsValue 10 (v * 10 + d) ds < 2 ^ 63 := h
      rw [List.map_cons, readText_cons (by omega), if_pos hd, if_pos (by omega)]
      have := ih (v := v * 10 + d) (fun d hd => hds d (List.mem_cons_of_mem _ hd)) hlt
      exact_mod_cast this

/-- In a base above 10, a number with a smaller beginning is read as a smaller one. -/
theorem readText_lt (hb : 10 ≤ base) (hds : ∀ d ∈ ds, d < 36) (huv : v < u)
    (h : readText v (ds.map digitByte) = some z) : z < digitsValue base u ds := by
  induction ds generalizing u v with
  | nil =>
      rw [← Option.some.inj h]
      exact_mod_cast huv
  | cons d ds ih =>
      have hmul : v * 10 + d < u * base + d :=
        Nat.add_lt_add_right (lt_of_lt_of_le (by omega) (Nat.mul_le_mul_left u hb)) d
      rw [List.map_cons, readText_cons (hds d List.mem_cons_self)] at h
      split_ifs at h with h1 h2
      · exact ih (fun d hd => hds d (List.mem_cons_of_mem _ hd)) hmul (by exact_mod_cast h)
      · rw [← Option.some.inj h]
        have hu : u ≤ digitsValue base u (d :: ds) := digitsValue_ge u _ (by omega)
        omega

/-- In a base below 10, a number with a larger beginning is read as a larger one. -/
theorem digitsValue_lt (hb : base ≤ 10) (huv : u < v) : digitsValue base u ds < digitsValue 10 v ds := by
  induction ds generalizing u v with
  | nil => exact huv
  | cons d ds ih =>
      have hmul : u * base + d < v * 10 + d :=
        Nat.add_lt_add_right (lt_of_le_of_lt (Nat.mul_le_mul_left u hb) (by omega)) d
      exact ih hmul

/-- The digits give the number back when the base is 10 or there is only one of them, below 10. -/
theorem readText_digitsOf (hb : 2 ≤ base) (hb' : base ≤ 36) (hn : n < 2 ^ 63) :
    readText 0 ((digitsOf base n).map digitByte) = some (n : ℤ) ↔
      base = 10 ∨ n < base ∧ n < 10 := by
  have hvalue := digitsValue_digitsOf (n := n) hb
  have hlt : ∀ d ∈ digitsOf base n, d < base := fun d hd => digitsOf_lt hb hd
  rcases Nat.lt_or_ge n base with hsmall | hbig
  · -- one digit
    have hone : digitsOf base n = [n] := by
      rw [digitsOf_eq hb, if_pos hsmall, Nat.mod_eq_of_lt hsmall, List.nil_append]
    rw [hone, List.map_singleton, readText_cons (by omega)]
    split_ifs with h1 h2
    · exact ⟨fun _ => Or.inr ⟨hsmall, h1⟩, fun _ => by simp [readText]⟩
    · omega
    · refine ⟨fun h => ?_, fun h => by omega⟩
      have := Option.some.inj h
      omega
  · obtain ⟨d, ds, hds, hd⟩ := digitsOf_head hb (Nat.div_pos hbig (by omega))
    have hcons : digitsOf base n = d :: (ds ++ [n % base]) := by
      rw [digitsOf_eq hb, if_neg (by omega), hds, List.cons_append]
    obtain ⟨e, es, he⟩ : ∃ e es, ds ++ [n % base] = e :: es :=
      List.exists_cons_of_ne_nil (List.append_ne_nil_of_right_ne_nil ds (List.cons_ne_nil _ _))
    rw [hcons, he] at hlt hvalue ⊢
    have hdlt : d < base := hlt d List.mem_cons_self
    have helt : e < base := hlt e (List.mem_cons_of_mem d List.mem_cons_self)
    have heslt : ∀ c ∈ es, c < base := fun c hc =>
      hlt c (List.mem_cons_of_mem d (List.mem_cons_of_mem e hc))
    -- the value of the first two digits
    change digitsValue base ((0 * base + d) * base + e) es = n at hvalue
    rw [Nat.zero_mul, Nat.zero_add] at hvalue
    rcases Nat.lt_trichotomy base 10 with h10 | rfl | h10
    · refine ⟨fun h => ?_, fun h => by omega⟩
      have hread := readText_decimal (v := 0) (fun c hc => (hlt c hc).trans h10) h
      change (n : ℤ) = digitsValue 10 ((0 * 10 + d) * 10 + e) es at hread
      have hmul : d * base < d * 10 := Nat.mul_lt_mul_of_pos_left h10 hd
      have hlarger : digitsValue base (d * base + e) es < digitsValue 10 ((0 * 10 + d) * 10 + e) es :=
        digitsValue_lt h10.le (by omega)
      omega
    · refine ⟨fun _ => Or.inl rfl, fun _ => ?_⟩
      have hread := readText_decimal_of_lt (v := 0) hlt
      change digitsValue 10 ((0 * 10 + d) * 10 + e) es < 2 ^ 63 →
        _ = some (digitsValue 10 ((0 * 10 + d) * 10 + e) es : ℤ) at hread
      rw [Nat.zero_mul, Nat.zero_add, hvalue] at hread
      exact hread hn
    · refine ⟨fun h => ?_, fun h => by omega⟩
      have hmul : d * 10 < d * base := Nat.mul_lt_mul_of_pos_left h10 hd
      have hge : d * base + e ≤ n := by
        rw [← hvalue]
        exact digitsValue_ge _ es (by omega)
      rw [List.map_cons, List.map_cons, readText_cons (by omega), readText_cons (by omega)] at h
      split_ifs at h
      · have hsmaller := readText_lt (u := d * base + e) (v := d * 10 + e) (z := n) h10.le
          (fun c hc => (heslt c hc).trans_le hb') (by omega) (by push_cast; simpa using h)
        omega
      · have := Option.some.inj h
        omega
      · have := Option.some.inj h
        omega

/-- What is read from the text that `int_to_str` has written. -/
theorem strToInt_numeral (hb : 4 ≤ base) (hb' : base ≤ 36) (hv : val.natAbs ≤ 2 ^ 63)
    (ha : s + (numeral val base).length ≤ tmp ∨ tmp + (MAX_INT_STR + 1) ≤ s)
    (h : intToStr m tmp s len val base = .ok (m', n)) (hn : n < len) (h0 : m' (s + n) = 0) :
    Returns (strToInt m' s base) ((readText 0 (numeral val base)).map fun v =>
      if (numeral val base).head? = some 0x2D then 0 - v else v) := by
  have hlen := numeral_length hb hv
  have htext := zText_put m tmp (by omega) hb' hlen
  rw [intToStr_eq m tmp s len hb hb' hv, strCopy_eq htext (by unfold MAX_INT_STR at *; omega)] at h
  obtain ⟨rfl, rfl⟩ := Prod.mk.inj (Except.ok.inj h)
  have hmin : min len (numeral val base).length = (numeral val base).length := by omega
  rw [hmin] at h0
  rw [List.take_of_length_le (by omega)] at h0 ⊢
  refine strToInt_returns ⟨fun i hi => put_at hi, fun c hc => numeral_nonzero (by omega) hb' hc, h0⟩
    (fun c hc => ?_) base
  have hmem : c ∈ numeral val base := List.mem_of_mem_head? hc
  exact ⟨numeral_ne (by omega) hb' hmem (by decide) (by decide),
    numeral_ne (by omega) hb' hmem (by decide) (by decide)⟩

theorem readText_numeral_of_nonneg (hb : 2 ≤ base) (hb' : base ≤ 36) (k : ℕ) :
    (readText 0 (numeral k base)).map (fun v =>
      if (numeral k base).head? = some 0x2D then 0 - v else v) =
    readText 0 ((digitsOf base k).map digitByte) := by
  have hnum : numeral k base = (digitsOf base k).map digitByte :=
    numeral_eq_digits (.inl (Int.natCast_nonneg k))
  have hhead : (numeral k base).head? ≠ some 0x2D := by
    intro hc
    rw [hnum] at hc
    exact absurd (digits_byte hb hb' (List.mem_of_mem_head? hc)) (by decide)
  simp only [hhead, if_false, Option.map_id']
  rw [hnum]

theorem readText_numeral_of_neg (hneg : val < 0) :
    (readText 0 (numeral val 10)).map (fun v =>
      if (numeral val 10).head? = some 0x2D then 0 - v else v) = some 0 := by
  unfold numeral
  rw [if_pos ⟨hneg, rfl⟩, List.singleton_append, readText, if_neg (by decide)]
  simp

/-- Reading what was written gives the number back exactly for the decimals that are not negative,
and for numbers of one digit below ten. -/
theorem str_to_int (hbase : base = 8 ∨ base = 10 ∨ base = 16) (hmin : -2 ^ 63 ≤ val)
    (hmax : val < 2 ^ 63) (hsign : base ≠ 10 → 0 ≤ val)
    (ha : s + (numeral val base).length ≤ tmp ∨ tmp + (MAX_INT_STR + 1) ≤ s)
    (h : intToStr m tmp s len val base = .ok (m', n)) (hn : n < len) (h0 : m' (s + n) = 0) :
    Returns (strToInt m' s base) (some val) ↔ 0 ≤ val ∧ (base = 10 ∨ val < base ∧ val < 10) := by
  have hret := strToInt_numeral (by omega) (by omega) (by omega) ha h hn h0
  have hiff : Returns (strToInt m' s base) (some val) ↔
      ((readText 0 (numeral val base)).map fun v =>
        if (numeral val base).head? = some 0x2D then 0 - v else v) = some val :=
    ⟨fun hr => hret.unique hr, fun e => by rwa [e] at hret⟩
  rw [hiff]
  rcases lt_or_ge val 0 with hneg | hpos
  · obtain rfl : base = 10 := by
      by_contra hne
      exact absurd (hsign hne) (not_le.mpr hneg)
    rw [readText_numeral_of_neg hneg]
    refine ⟨fun e => ?_, fun hc => absurd hc.1 (not_le.mpr hneg)⟩
    have := Option.some.inj e
    omega
  · obtain ⟨k, rfl⟩ := Int.eq_ofNat_of_zero_le hpos
    rw [readText_numeral_of_nonneg (by omega) (by omega),
      readText_digitsOf (by omega) (by omega) (by omega)]
    omega

/-- A text that is written into cleared memory ends with a zero. -/
theorem strToInt_cleared (hb : 4 ≤ base) (hb' : base ≤ 36) (hv : val.natAbs ≤ 2 ^ 63) {l : List UInt8}
    (hnum : numeral val base = l) : ∃ m',
      intToStr (fun _ => 0) 0 100 33 val base = .ok (m', l.length) ∧ m' (100 + l.length) = 0 ∧
      Returns (strToInt m' 100 base) ((readText 0 l).map fun v =>
        if l.head? = some 0x2D then 0 - v else v) := by
  have hlen := numeral_length hb hv
  have htext := zText_put (fun _ => 0) 0 (by omega) hb' hlen
  have hapart : 0 + (MAX_INT_STR + 1) ≤ 100 := by decide
  have hmin : min 33 (numeral val base).length = (numeral val base).length := by
    unfold MAX_INT_STR at hlen
    omega
  have heq := (intToStr_eq (fun _ => 0) 0 100 33 hb hb' hv).trans
    (congrArg _ (strCopy_eq htext (Or.inr (by omega))))
  rw [hmin, List.take_of_length_le (by unfold MAX_INT_STR at hlen; omega)] at heq
  have hstop : put (put (fill (fun _ => 0) 0 0 (MAX_INT_STR + 1))
      (0 + (MAX_INT_STR - (numeral val base).length)) (numeral val base)) 100 (numeral val base)
      (100 + (numeral val base).length) = 0 := by
    rw [put_off (by omega), put_off (by omega)]
    unfold fill
    rw [if_neg (by omega)]
  have hret := strToInt_numeral hb hb' hv (Or.inr hapart) heq
    (by unfold MAX_INT_STR at hlen; omega) hstop
  rw [hnum] at heq hstop hret
  exact ⟨_, heq, hstop, hret⟩

/-- Eight in base 8 is read as ten, ten in base 16 as zero, and minus one in base 10 as zero. -/
theorem str_to_int_misread :
    (∃ m', intToStr (fun _ => 0) 0 100 33 8 (8 : ℕ) = .ok (m', 2) ∧ m' (100 + 2) = 0 ∧
      Returns (strToInt m' 100 (8 : ℕ)) (some 10)) ∧
    (∃ m', intToStr (fun _ => 0) 0 100 33 10 (16 : ℕ) = .ok (m', 1) ∧ m' (100 + 1) = 0 ∧
      Returns (strToInt m' 100 (16 : ℕ)) (some 0)) ∧
    ∃ m', intToStr (fun _ => 0) 0 100 33 (-1) (10 : ℕ) = .ok (m', 2) ∧ m' (100 + 2) = 0 ∧
      Returns (strToInt m' 100 (10 : ℕ)) (some 0) := by
  have h8 : numeral 8 8 = [0x31, 0x30] := by simp [numeral, digitsOf, digitByte]
  have h16 : numeral 10 16 = [0x41] := by simp [numeral, digitsOf, digitByte]
  have h10 : numeral (-1) 10 = [0x2D, 0x31] := by simp [numeral, digitsOf, digitByte]
  exact ⟨strToInt_cleared (by decide) (by decide) (by decide) h8,
    strToInt_cleared (by decide) (by decide) (by decide) h16,
    strToInt_cleared (by decide) (by decide) (by decide) h10⟩

/-- Twelve in base 10 is read back. -/
theorem str_to_int_twelve : ∃ m', intToStr (fun _ => 0) 0 100 33 12 (10 : ℕ) = .ok (m', 2) ∧
    (Returns (strToInt m' 100 (10 : ℕ)) (some 12) ↔
      (0 : ℤ) ≤ 12 ∧ ((10 : ℕ) = 10 ∨ (12 : ℤ) < (10 : ℕ) ∧ (12 : ℤ) < 10)) := by
  have h12 : numeral 12 10 = [0x31, 0x32] := by simp [numeral, digitsOf, digitByte]
  obtain ⟨m', h, h0, -⟩ := strToInt_cleared (by decide : 4 ≤ 10) (by decide) (by decide) h12
  exact ⟨m', h, str_to_int (Or.inr (Or.inl rfl)) (by decide) (by decide) (fun h => absurd rfl h)
    (Or.inr (by decide)) h (by decide) h0⟩

end reading

end Dawos
