import Dawos.FormatText

/-! # Numbers and GUIDs in formatted text

The texts of `%u`, `%x`, `%b` and `%g`.  The numbers go through the signed `int_to_str`, and
`write_f_unsigned` says which of them come out right.  The bytes at the end of a GUID are written
without leading zeros and with nothing between them; `write_f_guids` says which GUIDs the text
tells apart. -/

namespace Dawos

/-! ### Unsigned numbers -/

/-- The base of a specifier for numbers. -/
def Conv.base : Conv → ℕ
  | .x => 16
  | .b => 2
  | _ => 10

/-- The specifiers for unsigned numbers. -/
def Conv.Unsigned (k : Conv) : Prop := k = .u ∨ k = .x ∨ k = .b

/-- The text of an unsigned number: its digits, without sign or leading zeros. -/
def unsignedText (base v : ℕ) : List UInt8 := (digitsOf base v).map digitByte

/-- The numbers that are written as such. -/
def UnsignedOk : Conv → ℕ → Prop
  | .x, v => v ≤ 2 ^ 63
  | .b, v => v < 2 ^ 32
  | _, v => v < 2 ^ 63

section unsigned

variable {m : Mem} {tmp dest len format base a b v : ℕ} {xs ys : List ℕ} {k : Conv}

theorem digitByte_inj {d e : ℕ} (hd : d < 36) (he : e < 36) (h : digitByte d = digitByte e) :
    d = e := by
  have hd' := digitByte_toNat hd
  have he' := digitByte_toNat he
  rw [h] at hd'
  rw [hd'] at he'
  split_ifs at he' <;> omega

theorem map_digitByte_inj (hx : ∀ d ∈ xs, d < 36) (hy : ∀ d ∈ ys, d < 36)
    (h : xs.map digitByte = ys.map digitByte) : xs = ys := by
  induction xs generalizing ys with
  | nil => exact (List.map_eq_nil_iff.mp h.symm).symm
  | cons d xs ih =>
      cases ys with
      | nil => cases h
      | cons e ys =>
          rw [List.map_cons, List.map_cons, List.cons.injEq] at h
          have htail := ih (fun c hc => hx c (List.mem_cons_of_mem d hc))
            (fun c hc => hy c (List.mem_cons_of_mem e hc)) h.2
          rw [digitByte_inj (hx d List.mem_cons_self) (hy e List.mem_cons_self) h.1, htail]

/-- The text determines the number. -/
theorem unsignedText_inj (hb : 2 ≤ base) (hb' : base ≤ 36)
    (h : unsignedText base a = unsignedText base b) : a = b := by
  have hlt : ∀ n, ∀ d ∈ digitsOf base n, d < 36 := fun n d hd => (digitsOf_lt hb hd).trans_le hb'
  have hdigits := map_digitByte_inj (hlt a) (hlt b) h
  rw [← digitsValue_digitsOf hb (n := a), hdigits, digitsValue_digitsOf hb]

/-- There is no minus sign in it. -/
theorem dash_notMem (hb : 2 ≤ base) (hb' : base ≤ 36) : 0x2D ∉ unsignedText base v := by
  intro h
  exact absurd (digits_byte hb hb' h) (by decide)

/-- The absolute value of a word read as a signed number is the word itself up to `2 ^ 63`. -/
theorem natAbs_toInt64 (hv : v < 2 ^ 64) :
    (toInt64 v).natAbs = if v < 2 ^ 63 then v else 2 ^ 64 - v := by
  split_ifs with h
  · rw [toInt64_of_lt h, Int.natAbs_natCast]
  · rw [toInt64_of_ge (by omega) hv]
    omega

/-- Which numbers have the right text. -/
theorem numeral_unsigned (hk : k.Unsigned) (hv : v < 2 ^ 64) :
    (numeral (toInt64 v) k.base).length ≤ MAX_INT_STR ∧
      numeral (toInt64 v) k.base = unsignedText k.base v ↔ UnsignedOk k v := by
  have habs := natAbs_toInt64 hv
  rcases hk with rfl | rfl | rfl
  · have hlen : (numeral (toInt64 v) 10).length ≤ MAX_INT_STR :=
      numeral_length (by norm_num) (natAbs_toInt64_le v)
    refine (and_iff_right hlen).trans ?_
    show numeral (toInt64 v) 10 = unsignedText 10 v ↔ v < 2 ^ 63
    by_cases h : v < 2 ^ 63
    · rw [numeral_eq_digits (.inl (by rw [toInt64_of_lt h]; omega)), habs, if_pos h]
      exact iff_of_true rfl h
    · refine iff_of_false (fun he => ?_) h
      apply @dash_notMem 10 v (by norm_num) (by norm_num)
      rw [← he, toInt64_of_ge (by omega) hv]
      unfold numeral
      rw [if_pos (by omega)]
      exact List.mem_append_left _ List.mem_cons_self
  · have hlen : (numeral (toInt64 v) 16).length ≤ MAX_INT_STR :=
      numeral_length (by norm_num) (natAbs_toInt64_le v)
    refine (and_iff_right hlen).trans ?_
    show numeral (toInt64 v) 16 = unsignedText 16 v ↔ v ≤ 2 ^ 63
    rw [numeral_eq_digits (.inr (by norm_num))]
    constructor
    · intro he
      have := unsignedText_inj (by norm_num) (by norm_num) he
      rw [habs] at this
      split_ifs at this <;> omega
    · intro h
      have hself : (toInt64 v).natAbs = v := by
        rw [habs]
        split_ifs <;> omega
      rw [hself]
      rfl
  · show (numeral (toInt64 v) 2).length ≤ MAX_INT_STR ∧
      numeral (toInt64 v) 2 = unsignedText 2 v ↔ v < 2 ^ 32
    rw [numeral_eq_digits (.inr (by norm_num))]
    constructor
    · rintro ⟨hlen, he⟩
      have := unsignedText_inj le_rfl (by norm_num) he
      rw [this, List.length_map] at hlen
      exact digitsOf_lt_of_length hlen
    · intro h
      have hself : (toInt64 v).natAbs = v := by
        rw [habs]
        split_ifs <;> omega
      rw [hself, List.length_map]
      exact ⟨digitsOf_length le_rfl (by decide) h, rfl⟩

theorem argText_unsigned {P : ℕ → Prop} (hk : k.Unsigned) :
    ArgText m P k v (numeral (toInt64 v) k.base) := by
  rcases hk with rfl | rfl | rfl <;> exact rfl

/-- Only binary numbers can be too long. -/
theorem binary_of_long (hk : k.Unsigned) (h : MAX_INT_STR < (numeral (toInt64 v) k.base).length) :
    k = .b := by
  have habs := natAbs_toInt64_le v
  rcases hk with rfl | rfl | rfl
  · exact absurd (numeral_length (by decide) habs) (Nat.not_le.mpr h)
  · exact absurd (numeral_length (by decide) habs) (Nat.not_le.mpr h)
  · rfl

theorem writesText_unsigned (hk : k.Unsigned)
    (h : OneItem m tmp dest MAX_INT_STR len format k v (numeral (toInt64 v) k.base)) :
    WritesText m tmp dest len format [v] (unsignedText k.base v) ↔
      (numeral (toInt64 v) k.base).length ≤ MAX_INT_STR ∧
        numeral (toInt64 v) k.base = unsignedText k.base v := by
  by_cases hfit : (numeral (toInt64 v) k.base).length ≤ MAX_INT_STR
  · rw [and_iff_right hfit]
    have hw := h.writes hfit fun _ => hfit
    exact ⟨hw.unique, fun he => he ▸ hw⟩
  · obtain rfl := binary_of_long hk (Nat.not_le.mp hfit)
    exact iff_of_false (h.not_writes (Nat.not_le.mp hfit)) fun hc => hfit hc.1

/-- **An unsigned number is written as its digits iff it is below `2 ^ 63` in base 10, at most `2 ^ 63`
in base 16, and below `2 ^ 32` in base 2.** -/
theorem write_f_unsigned (hk : k.Unsigned) (hv : v < 2 ^ 64) (hlen : 0 < len)
    (hapart : dest + MAX_INT_STR ≤ tmp ∨ tmp + (MAX_INT_STR + 1) ≤ dest)
    (hf : ConstText m (Scratch tmp dest MAX_INT_STR) format [0x25, k.byte]) :
    WritesText m tmp dest len format [v] (unsignedText k.base v) ↔ UnsignedOk k v := by
  rw [writesText_unsigned hk ⟨hlen, hapart, hf, argText_unsigned hk⟩, numeral_unsigned hk hv]

/-- `"%x"` with 255. -/
theorem write_f_unsigned_ff :
    WritesText (put (fun _ => 0) 100 [0x25, 0x78]) 0 1000 4 100 [255] (unsignedText 16 255) :=
  (write_f_unsigned (k := .x) (.inr (.inl rfl)) (by decide) (by decide) (.inr (by decide))
    (.put (by simp [Conv.byte]) rfl (by decide) (by decide))).mpr (by norm_num [UnsignedOk])

/-- `"%u"` with the largest number writes -1. -/
theorem write_f_unsigned_max :
    WritesText (put (fun _ => 0) 100 [0x25, 0x75]) 0 1000 64 100 [2 ^ 64 - 1] [0x2D, 0x31] ∧
      ¬ WritesText (put (fun _ => 0) 100 [0x25, 0x75]) 0 1000 64 100 [2 ^ 64 - 1]
        (unsignedText 10 (2 ^ 64 - 1)) := by
  have hnum : numeral (toInt64 (2 ^ 64 - 1)) 10 = [0x2D, 0x31] := by
    rw [toInt64_of_ge (by decide) (by decide)]
    simp [numeral, digitsOf, digitByte]
  have h : OneItem (put (fun _ => 0) 100 [0x25, 0x75]) 0 1000 MAX_INT_STR 64 100 .u (2 ^ 64 - 1)
      (numeral (toInt64 (2 ^ 64 - 1)) 10) :=
    ⟨by decide, .inr (by decide), .put (by simp) rfl (by decide) (by decide), rfl⟩
  constructor
  · rw [← hnum]
    exact h.writes (by rw [hnum]; decide) fun he => by cases he
  · intro hw
    have hok := (numeral_unsigned (.inl rfl) (by decide)).mp
      ((writesText_unsigned (.inl rfl) h).mp hw)
    norm_num [UnsignedOk] at hok

end unsigned

/-! ### GUIDs -/

/-- The hexadecimal digits of a byte, without a leading zero. -/
def byteDigits (c : UInt8) : List ℕ :=
  if c.toNat < 16 then [c.toNat] else [c.toNat / 16, c.toNat % 16]

/-- The digits of the last eight bytes of a GUID. -/
def Guid.digits (g : Guid) : List ℕ := (List.range 8).flatMap fun i => byteDigits (g.data4 i)

/-- The GUIDs agree in their first three numbers and in the digits of the bytes. -/
structure SameDigits (g₁ g₂ : Guid) : Prop where
  data1 : g₁.data1 = g₂.data1
  data2 : g₁.data2 = g₂.data2
  data3 : g₁.data3 = g₂.data3
  digits : g₁.digits = g₂.digits

section guids

variable {g₁ g₂ : Guid} {m : Mem} {tmp dest cap len format arg : ℕ}

theorem numeral_natCast (n : ℕ) : numeral n 16 = unsignedText 16 n :=
  numeral_eq_digits (.inl (Int.natCast_nonneg n))

theorem digitsOf_byte (c : UInt8) : digitsOf 16 c.toNat = byteDigits c := by
  have hlt := c.toNat_lt
  have hdiv : c.toNat / 16 < 16 := by omega
  rw [digitsOf_eq (by norm_num), digitsOf_eq (n := c.toNat / 16) (by norm_num), if_pos hdiv,
    List.nil_append, Nat.mod_eq_of_lt hdiv]
  unfold byteDigits
  split_ifs with h
  · rw [Nat.mod_eq_of_lt h]
    rfl
  · rfl

theorem byteDigits_lt {c : UInt8} : ∀ d ∈ byteDigits c, d < 36 := by
  intro d hd
  rw [← digitsOf_byte] at hd
  exact (digitsOf_lt (by norm_num) hd).trans (by norm_num)

theorem guidText_eq (g : Guid) : guidText g =
    unsignedText 16 g.data1 ++ 0x2D :: (unsignedText 16 g.data2 ++ 0x2D ::
      (unsignedText 16 g.data3 ++ 0x2D :: g.digits.map digitByte)) := by
  have hbytes : ((List.range 8).flatMap fun i => numeral (g.data4 i).toNat 16) =
      g.digits.map digitByte := by
    unfold Guid.digits
    rw [List.map_flatMap]
    refine List.flatMap_congr fun i _ => ?_
    rw [numeral_natCast, unsignedText, digitsOf_byte]
  unfold guidText
  rw [hbytes, numeral_natCast, numeral_natCast, numeral_natCast]

theorem append_cons_inj {x₁ x₂ z₁ z₂ : List UInt8} {c : UInt8} (h₁ : c ∉ x₁) (h₂ : c ∉ x₂)
    (h : x₁ ++ c :: z₁ = x₂ ++ c :: z₂) : x₁ = x₂ ∧ z₁ = z₂ := by
  induction x₁ generalizing x₂ with
  | nil =>
      cases x₂ with
      | nil => exact ⟨rfl, (List.cons.inj h).2⟩
      | cons b x₂ => exact absurd ((List.cons.inj h).1 ▸ List.mem_cons_self) h₂
  | cons a x₁ ih =>
      cases x₂ with
      | nil => exact absurd ((List.cons.inj h).1 ▸ List.mem_cons_self) h₁
      | cons b x₂ =>
          obtain ⟨rfl, ht⟩ := List.cons.inj h
          obtain ⟨rfl, rfl⟩ := ih (fun hc => h₁ (List.mem_cons_of_mem a hc))
            (fun hc => h₂ (List.mem_cons_of_mem a hc)) ht
          exact ⟨rfl, rfl⟩

/-- The text ends a number at the next dash, so it determines the first three of them. -/
theorem guidText_inj : guidText g₁ = guidText g₂ ↔ SameDigits g₁ g₂ := by
  have hdash : ∀ v, 0x2D ∉ unsignedText 16 v := fun v => dash_notMem (by norm_num) (by norm_num)
  have hinj : ∀ {a b}, unsignedText 16 a = unsignedText 16 b → a = b :=
    unsignedText_inj (by norm_num) (by norm_num)
  rw [guidText_eq, guidText_eq]
  constructor
  · intro h
    obtain ⟨h1, h⟩ := append_cons_inj (hdash _) (hdash _) h
    obtain ⟨h2, h⟩ := append_cons_inj (hdash _) (hdash _) h
    obtain ⟨h3, h⟩ := append_cons_inj (hdash _) (hdash _) h
    have hlt : ∀ g : Guid, ∀ d ∈ g.digits, d < 36 := fun g d hd => by
      obtain ⟨i, -, hi⟩ := List.mem_flatMap.mp hd
      exact byteDigits_lt d hi
    exact ⟨hinj h1, hinj h2, hinj h3, map_digitByte_inj (hlt g₁) (hlt g₂) h⟩
  · rintro ⟨h1, h2, h3, h4⟩
    rw [h1, h2, h3, h4]

/-- The call of the format `%g` for the GUID at `arg`. -/
structure GuidCall (m : Mem) (tmp dest len format arg : ℕ) : Prop where
  room : 0 < len
  apart : dest + (guidText (guidAt m arg)).length ≤ tmp ∨ tmp + (MAX_INT_STR + 1) ≤ dest
  format : ConstText m (Scratch tmp dest (guidText (guidAt m arg)).length) format [0x25, Conv.g.byte]
  arg : ∀ i < 16, ¬ Scratch tmp dest (guidText (guidAt m arg)).length (arg + i)

theorem GuidCall.writes (h : GuidCall m tmp dest len format arg) :
    WritesText m tmp dest len format [arg] (guidText (guidAt m arg)) :=
  OneItem.writes ⟨h.room, h.apart, h.format, rfl, h.arg⟩ le_rfl fun hb => by cases hb

/-- **Two calls of `%g` write different texts iff the GUIDs differ in one of the first three numbers, or
in the hexadecimal digits of the last eight bytes without leading zeros.** -/
theorem write_f_guids {m₁ m₂ : Mem} {tmp₁ tmp₂ dest₁ dest₂ len₁ len₂ format₁ format₂ arg₁ arg₂ : ℕ}
    (h₁ : GuidCall m₁ tmp₁ dest₁ len₁ format₁ arg₁) (h₂ : GuidCall m₂ tmp₂ dest₂ len₂ format₂ arg₂) :
    ∃ t₁ t₂, WritesText m₁ tmp₁ dest₁ len₁ format₁ [arg₁] t₁ ∧
      WritesText m₂ tmp₂ dest₂ len₂ format₂ [arg₂] t₂ ∧
      (t₁ ≠ t₂ ↔ ¬ SameDigits (guidAt m₁ arg₁) (guidAt m₂ arg₂)) :=
  ⟨_, _, h₁.writes, h₂.writes, not_congr guidText_inj⟩

/-- Memory with the format `"%g"` and two GUIDs that end in 01 11 and in 11 01. -/
def guidMem : Mem :=
  put (put (fun _ => 0) 200 [1, 2, 3, 4, 5, 6, 7, 8, 0, 0, 0, 0, 0, 0, 0x01, 0x11,
    1, 2, 3, 4, 5, 6, 7, 8, 0, 0, 0, 0, 0, 0, 0x11, 0x01]) 100 [0x25, 0x67]

theorem guidMem_call {arg : ℕ} (h : 200 ≤ arg) (h' : arg ≤ 216) :
    GuidCall guidMem 0 1000 64 100 arg := by
  refine ⟨by decide, .inr (by decide), .put (by simp) ?_ (by decide) (by decide), fun i hi => ?_⟩
  · exact put_off (.inl (by decide))
  · unfold Scratch MAX_INT_STR
    omega

/-- The two GUIDs have one text. -/
theorem write_f_guids_same : guidAt guidMem 200 ≠ guidAt guidMem 216 ∧
    ∃ t, WritesText guidMem 0 1000 64 100 [200] t ∧ WritesText guidMem 0 1000 64 100 [216] t := by
  have hsame : SameDigits (guidAt guidMem 200) (guidAt guidMem 216) :=
    ⟨by decide +kernel, by decide +kernel, by decide +kernel, by decide +kernel⟩
  refine ⟨fun h => ?_, _, (guidMem_call (by decide) (by decide)).writes, ?_⟩
  · have hbyte : guidMem (200 + 8 + 6) = guidMem (216 + 8 + 6) := congrArg (fun g => g.data4 6) h
    exact absurd hbyte (by decide +kernel)
  · rw [guidText_inj.mpr hsame]
    exact (guidMem_call (by decide) (by decide)).writes

/-- The first GUID and the one that begins a byte later. -/
theorem write_f_guids_differ : ∃ t₁ t₂, WritesText guidMem 0 1000 64 100 [200] t₁ ∧
    WritesText guidMem 0 1000 64 100 [201] t₂ ∧
      (t₁ ≠ t₂ ↔ ¬ SameDigits (guidAt guidMem 200) (guidAt guidMem 201)) :=
  write_f_guids (guidMem_call (by decide) (by decide)) (guidMem_call (by decide) (by decide))

end guids

end Dawos
